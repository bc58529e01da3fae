import Gem5Cxl.Basic
import Mathlib.Data.List.Rotate
/-!
# CircleBuf — the circular buffer and the FIFO over it (`base/circlebuf.hh`)

What a buffer holds is its vector read from `start` around its end; `peek`, `read` and `write` copy in two parts where
the data wraps.  `start` only grows, and is read modulo the size.
-/
namespace Gem5

variable {T : Type}

/-- `std::copy_n` of `data` into a vector at `pos`. -/
def copyAt (l : List T) (pos : Nat) (data : List T) : List T := l.take pos ++ data ++ l.drop (pos + data.length)

variable {data l : List T} {pos : Nat}

theorem length_copyAt (h : pos + data.length ≤ l.length) : (copyAt l pos data).length = l.length := by
  simp only [copyAt, List.length_append, List.length_take, List.length_drop]
  omega

theorem getElem?_copyAt (h : pos + data.length ≤ l.length) (i : Nat) :
    (copyAt l pos data)[i]? = if pos ≤ i ∧ i < pos + data.length then data[i - pos]? else l[i]? := by
  have htake : (l.take pos).length = pos := by rw [List.length_take]; omega
  by_cases h1 : i < pos
  · rw [if_neg (by omega), copyAt, List.append_assoc, List.getElem?_append_left (by omega), List.getElem?_take_of_lt h1]
  · rw [copyAt, List.append_assoc, List.getElem?_append_right (by omega), htake]
    by_cases h2 : i < pos + data.length
    · rw [if_pos (by omega), List.getElem?_append_left (by omega)]
    · rw [if_neg (by omega), List.getElem?_append_right (by omega), List.getElem?_drop]
      congr 1
      omega

structure CircleBuf (T : Type) where
  buffer : List T
  start : Nat
  used : Nat
  maxSize : Nat
  length_eq : buffer.length = maxSize
  used_le : used ≤ maxSize

namespace CircleBuf

def create (size : Nat) (init : T) : CircleBuf T :=
  { buffer := List.replicate size init, start := 0, used := 0, maxSize := size, length_eq := List.length_replicate
    used_le := Nat.zero_le _ }

def flush (c : CircleBuf T) : CircleBuf T := { c with start := 0, used := 0, used_le := Nat.zero_le _ }

def peek (c : CircleBuf T) (offset len : Nat) : Except Failure (List T) := do
  panicIf (decide (offset + len > c.used)) "Trying to read past end of circular buffer."
  if len = 0 then .ok []
  else
    let next := (c.start + offset) % c.maxSize
    let toEnd := c.maxSize - next
    if toEnd < len then .ok ((c.buffer.drop next).take toEnd ++ c.buffer.take (len - toEnd))
    else .ok ((c.buffer.drop next).take len)

def read (c : CircleBuf T) (len : Nat) : Except Failure (CircleBuf T × List T) := do
  let out ← c.peek 0 len
  .ok ({ c with used := c.used - len, start := c.start + len, used_le := Nat.le_trans (Nat.sub_le _ _) c.used_le }, out)

/-- The copying of `write`: the data goes in from the first free place, around the end of the vector. -/
def copyIn (buffer : List T) (maxSize next : Nat) (data : List T) : List T :=
  let toEnd := maxSize - next
  if toEnd < data.length then copyAt (copyAt buffer next (data.take toEnd)) 0 (data.drop toEnd)
  else copyAt buffer next data

variable {buffer data : List T} {maxSize next len M : Nat}

theorem copyIn_of_le (h : data.length ≤ maxSize - next) :
    copyIn buffer maxSize next data = copyAt buffer next data := if_neg (Nat.not_lt.2 h)

theorem copyIn_of_lt (h : maxSize - next < data.length) :
    copyIn buffer maxSize next data = copyAt (copyAt buffer next (data.take (maxSize - next))) 0 (data.drop (maxSize - next)) :=
  if_pos h

theorem length_copyIn (hbuf : buffer.length = maxSize) (hnext : next < maxSize) (hdata : data.length ≤ maxSize) :
    (copyIn buffer maxSize next data).length = maxSize := by
  rcases Nat.lt_or_ge (maxSize - next) data.length with hwrap | hfit
  · have hfirst : (copyAt buffer next (data.take (maxSize - next))).length = maxSize := by
      rw [length_copyAt, hbuf]
      rw [List.length_take]
      omega
    rw [copyIn_of_lt hwrap, length_copyAt, hfirst]
    rw [hfirst, List.length_drop]
    omega
  · rw [copyIn_of_le hfit, length_copyAt, hbuf]
    omega

/-- `write` of data that the vector can hold: what is overwritten counts as read. -/
def writeFitting (c : CircleBuf T) (data : List T) (hpos : 0 < c.maxSize) (h : data.length ≤ c.maxSize) : CircleBuf T :=
  let overflow := c.used + data.length - c.maxSize
  { buffer := copyIn c.buffer c.maxSize ((c.start + c.used) % c.maxSize) data
    start := c.start + overflow
    used := c.used + data.length - overflow
    maxSize := c.maxSize
    length_eq := length_copyIn c.length_eq (Nat.mod_lt _ hpos) h
    used_le := by omega }

/-- Of data longer than the vector only the last part is written.  There is no place to write to in an empty vector. -/
def write (c : CircleBuf T) (data : List T) : Except Failure (CircleBuf T) :=
  if data.isEmpty then .ok c
  else if hpos : 0 < c.maxSize then
    if hfit : data.length ≤ c.maxSize then .ok (c.writeFitting data hpos hfit)
    else .ok (c.flush.writeFitting (data.drop (data.length - c.maxSize)) hpos
      (by rw [List.length_drop]; exact Nat.le_of_eq (Nat.sub_sub_self (Nat.le_of_not_le hfit))))
  else .error .outOfBounds

/-! ## What a buffer holds -/

def contents (c : CircleBuf T) : List T := (c.buffer.rotate c.start).take c.used

@[simp] theorem length_contents (c : CircleBuf T) : c.contents.length = c.used := by
  rw [contents, List.length_take, List.length_rotate, c.length_eq]
  exact Nat.min_eq_left c.used_le

theorem contents_create (size : Nat) (init : T) : (create size init).contents = [] := List.take_zero

theorem take_rotate_add {l : List T} (s : Nat) {o n : Nat} (h : o + n ≤ l.length) :
    (l.rotate (s + o)).take n = ((l.rotate s).drop o).take n := by
  rw [← List.rotate_rotate, List.rotate_eq_drop_append_take (by rw [List.length_rotate]; omega),
    List.take_append_of_le_length]
  rw [List.length_drop, List.length_rotate]
  omega

theorem peek_eq (c : CircleBuf T) {offset : Nat} (h : offset + len ≤ c.used) :
    c.peek offset len = .ok ((c.contents.drop offset).take len) := by
  have hused := c.used_le
  have hlen := c.length_eq
  have hview : (c.contents.drop offset).take len = (c.buffer.rotate (c.start + offset)).take len := by
    rw [take_rotate_add c.start (by omega), contents, List.drop_take, List.take_take, Nat.min_eq_left (by omega)]
  rw [hview, peek, panicIf, if_neg (by simpa using h), Run.ok_bind]
  split
  · rename_i hzero
    rw [hzero, List.take_zero]
  · rename_i hne
    have hnext : (c.start + offset) % c.maxSize < c.maxSize := Nat.mod_lt _ (by omega)
    rw [List.rotate_eq_drop_append_take_mod, hlen]
    simp only
    generalize (c.start + offset) % c.maxSize = next at hnext ⊢
    have hdrop : (c.buffer.drop next).length = c.maxSize - next := by rw [List.length_drop, hlen]
    split
    · rename_i hwrap
      have hall : ∀ n, c.maxSize - next ≤ n → (c.buffer.drop next).take n = c.buffer.drop next := fun n hn =>
        List.take_of_length_le (by omega)
      rw [List.take_append, hdrop, hall _ (Nat.le_refl _), hall len (by omega), List.take_take, Nat.min_eq_left (by omega)]
    · rw [List.take_append_of_le_length (by omega)]

/-- **Reading** takes the oldest elements. -/
theorem read_eq (c : CircleBuf T) (h : len ≤ c.used) :
    ∃ c', c.read len = .ok (c', c.contents.take len) ∧ c'.contents = c.contents.drop len ∧ c'.maxSize = c.maxSize := by
  have hused := c.used_le
  have hlen := c.length_eq
  refine ⟨{ c with used := c.used - len, start := c.start + len, used_le := Nat.le_trans (Nat.sub_le _ _) c.used_le },
    ?_, ?_, rfl⟩
  · rw [read, c.peek_eq (by omega : 0 + len ≤ c.used), Run.ok_bind, List.drop_zero]
  · change (c.buffer.rotate (c.start + len)).take (c.used - len) = _
    rw [take_rotate_add c.start (by omega), contents, List.drop_take]

theorem add_mod_eq {a b : Nat} (ha : a < M) (hb : b ≤ M) : (a + b) % M = if a + b < M then a + b else a + b - M := by
  split
  · rename_i h
    exact Nat.mod_eq_of_lt h
  · rename_i h
    rw [Nat.mod_eq_sub_mod (by omega), Nat.mod_eq_of_lt (by omega)]

theorem getElem?_copyIn (hbuf : buffer.length = M) (hnext : next < M) (hdata : data.length ≤ M) (i : Nat) :
    (copyIn buffer M next data)[i]? =
      if next ≤ i ∧ i < min M (next + data.length) then data[i - next]?
      else if i + M < next + data.length then data[i + M - next]? else buffer[i]? := by
  rcases Nat.lt_or_ge (M - next) data.length with hwrap | hfit
  · have htake : (data.take (M - next)).length = M - next := by rw [List.length_take]; omega
    have hdrop : (data.drop (M - next)).length = data.length - (M - next) := List.length_drop
    have hfirst : (copyAt buffer next (data.take (M - next))).length = M := by rw [length_copyAt (by omega), hbuf]
    rw [copyIn_of_lt hwrap, getElem?_copyAt (by omega), getElem?_copyAt (by omega), htake, hdrop]
    by_cases h1 : i + M < next + data.length
    · rw [if_pos (by omega), if_neg (by omega), if_pos h1, List.getElem?_drop]
      congr 1
      omega
    · rw [if_neg (by omega)]
      by_cases h2 : next ≤ i ∧ i < M
      · rw [if_pos (by omega), if_pos (by omega), List.getElem?_take_of_lt (by omega)]
      · rw [if_neg (by omega), if_neg (by omega), if_neg h1]
  · rw [copyIn_of_le hfit, getElem?_copyAt (by omega)]
    by_cases h1 : next ≤ i ∧ i < next + data.length
    · rw [if_pos h1, if_pos (by omega)]
    · rw [if_neg h1, if_neg (by omega), if_neg (by omega)]

theorem rotate_copyIn {s m : Nat} (hbuf : buffer.length = M) (hpos : 0 < M) (hm : m + data.length ≤ M) :
    (copyIn buffer M ((s + m) % M) data).rotate s = copyAt (buffer.rotate s) m data := by
  have hr : s % M < M := Nat.mod_lt _ hpos
  have hnext : (s + m) % M = if s % M + m < M then s % M + m else s % M + m - M := by
    rw [← Nat.mod_add_mod, add_mod_eq hr (by omega)]
  have hlt : (s + m) % M < M := Nat.mod_lt _ hpos
  have hlen := length_copyIn hbuf hlt (by omega : data.length ≤ M)
  refine List.ext_getElem? fun k => ?_
  by_cases hk : k < M
  · rw [List.getElem?_rotate (by omega), hlen, getElem?_copyIn hbuf hlt (by omega),
      getElem?_copyAt (by rw [List.length_rotate]; omega), List.getElem?_rotate (by omega), hbuf]
    have hplace : (k + s) % M = if s % M + k < M then s % M + k else s % M + k - M := by
      rw [Nat.add_comm, ← Nat.mod_add_mod, add_mod_eq hr (by omega)]
    generalize s % M = r at hr hnext hplace
    generalize (s + m) % M = next at hnext hlt ⊢
    generalize (k + s) % M = place at hplace ⊢
    by_cases hin : m ≤ k ∧ k < m + data.length
    · rw [if_pos hin]
      by_cases h1 : next ≤ place ∧ place < min M (next + data.length)
      · rw [if_pos h1]
        congr 1
        split at hnext <;> split at hplace <;> omega
      · rw [if_neg h1, if_pos (by split at hnext <;> split at hplace <;> omega)]
        congr 1
        split at hnext <;> split at hplace <;> omega
    · rw [if_neg hin, if_neg (by split at hnext <;> split at hplace <;> omega),
        if_neg (by split at hnext <;> split at hplace <;> omega)]
  · rw [List.getElem?_eq_none (by rw [List.length_rotate, hlen]; omega), List.getElem?_eq_none]
    rw [length_copyAt (by rw [List.length_rotate]; omega), List.length_rotate]
    omega

theorem contents_flush (c : CircleBuf T) : c.flush.contents = [] := List.take_zero

theorem contents_writeFitting (c : CircleBuf T) (data : List T) (hpos : 0 < c.maxSize) (h : data.length ≤ c.maxSize) :
    (c.writeFitting data hpos h).contents = c.contents.drop (c.used + data.length - c.maxSize) ++ data := by
  have hused := c.used_le
  have hlen := c.length_eq
  generalize hover : c.used + data.length - c.maxSize = excess
  have hplace : c.start + c.used = c.start + excess + (c.used - excess) := by omega
  change ((copyIn c.buffer c.maxSize ((c.start + c.used) % c.maxSize) data).rotate
    (c.start + (c.used + data.length - c.maxSize))).take (c.used + data.length - (c.used + data.length - c.maxSize)) = _
  rw [hover, hplace, rotate_copyIn hlen hpos (by omega), copyAt, List.take_append_of_le_length, List.take_of_length_le,
    take_rotate_add c.start (by omega), contents, List.drop_take]
  · rw [List.length_append, List.length_take, List.length_rotate]
    omega
  · rw [List.length_append, List.length_take, List.length_rotate]
    omega

/-- **Writing** appends the data; what does not fit pushes out the oldest elements. -/
theorem write_eq (c : CircleBuf T) (h : 0 < c.maxSize ∨ data = []) :
    ∃ c', c.write data = .ok c' ∧ c'.contents = (c.contents ++ data).drop (c.used + data.length - c.maxSize) ∧
      c'.maxSize = c.maxSize := by
  have hused := c.used_le
  by_cases hempty : data = []
  · subst hempty
    exact ⟨c, rfl, by simp [Nat.sub_eq_zero_of_le hused], rfl⟩
  · have hpos := h.resolve_right hempty
    have hne : data.isEmpty = false := by simpa using hempty
    rw [write, hne, if_neg (by decide), dif_pos hpos]
    by_cases hfit : data.length ≤ c.maxSize
    · rw [dif_pos hfit]
      refine ⟨_, rfl, ?_, rfl⟩
      rw [contents_writeFitting, List.drop_append_of_le_length (by rw [length_contents]; omega)]
    · rw [dif_neg hfit]
      refine ⟨_, rfl, (contents_writeFitting c.flush _ hpos _).trans ?_, rfl⟩
      have hold : c.contents.drop (c.used + data.length - c.maxSize) = [] :=
        List.drop_of_length_le (by rw [length_contents]; omega)
      rw [contents_flush, List.drop_nil, List.nil_append, List.drop_append, length_contents, hold, List.nil_append]
      congr 1
      omega

end CircleBuf

abbrev Fifo (T : Type) := CircleBuf T

namespace Fifo

def write (f : Fifo T) (data : List T) : Except Failure (Fifo T) := do
  panicIf (decide (f.used + data.length > f.maxSize)) "Trying to overfill FIFO buffer."
  CircleBuf.write f data

theorem write_eq (f : Fifo T) {data : List T} (h : f.used + data.length ≤ f.maxSize) :
    ∃ f', write f data = .ok f' ∧ f'.contents = f.contents ++ data ∧ f'.maxSize = f.maxSize := by
  have hpos : 0 < f.maxSize ∨ data = [] := by
    rcases Nat.eq_zero_or_pos f.maxSize with hz | hpos
    · exact .inr (List.eq_nil_of_length_eq_zero (by omega))
    · exact .inl hpos
  obtain ⟨f', hwrite, hcontents, hmax⟩ := CircleBuf.write_eq f hpos
  refine ⟨f', ?_, ?_, hmax⟩
  · rw [write, panicIf, if_neg (by simpa using h), Run.ok_bind, hwrite]
  · rw [hcontents, Nat.sub_eq_zero_of_le h, List.drop_zero]

end Fifo

end Gem5
