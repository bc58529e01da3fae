import Gem5Cxl.CircleBuf
/-!
# CircleBufRun — what a circular buffer holds along a run (`base/circlebuf.hh`)

`seq` is the sequence of what was written, without what a read or a `flush` took from its front; a read takes from what
the buffer still holds, so what was overwritten before it goes too.  The buffer holds the last `maxSize` of `seq`.
-/
namespace Gem5.CircleBuf

variable {T : Type}

inductive Call (T : Type) where
  | write (data : List T)
  | read (len : Nat)
  | peek (offset len : Nat)
  | flush

/-- A call, and what it copied out. -/
def step (c : CircleBuf T) : Call T → Except Failure (CircleBuf T × List T)
  | .write data => do .ok (← c.write data, [])
  | .read len => c.read len
  | .peek offset len => do .ok (c, ← c.peek offset len)
  | .flush => .ok (c.flush, [])

def run (c : CircleBuf T) : List (Call T) → Except Failure (CircleBuf T × List (List T))
  | [] => .ok (c, [])
  | call :: calls => do
    let (c, out) ← c.step call
    let (c, outs) ← c.run calls
    .ok (c, out :: outs)

/-- The last `cap` elements of a sequence, or all of it. -/
def kept (cap : Nat) (seq : List T) : List T := seq.drop (seq.length - cap)

def seqStep (cap : Nat) (seq : List T) : Call T → List T
  | .write data => seq ++ data
  | .read len => (kept cap seq).drop len
  | .peek _ _ => seq
  | .flush => []

def outOf (cap : Nat) (seq : List T) : Call T → List T
  | .read len => (kept cap seq).take len
  | .peek offset len => ((kept cap seq).drop offset).take len
  | _ => []

def outsOf (cap : Nat) : List T → List (Call T) → List (List T)
  | _, [] => []
  | seq, call :: calls => outOf cap seq call :: outsOf cap (seqStep cap seq call) calls

/-- Reads and peeks are within `size()`. -/
def Within (cap : Nat) : List T → List (Call T) → Prop
  | _, [] => True
  | seq, call :: calls =>
    (match call with
      | .read len => len ≤ (kept cap seq).length
      | .peek offset len => offset + len ≤ (kept cap seq).length
      | _ => True) ∧ Within cap (seqStep cap seq call) calls

def written : List (Call T) → Nat
  | [] => 0
  | .write data :: calls => data.length + written calls
  | _ :: calls => written calls

variable {c c' : CircleBuf T} {cap len : Nat} {seq data out : List T} {call : Call T} {calls : List (Call T)}

variable (cap seq) in
theorem length_kept : (kept cap seq).length = min cap seq.length := by
  rw [kept, List.length_drop]
  omega

theorem kept_append : (kept cap seq ++ data).drop ((kept cap seq).length + data.length - cap) = kept cap (seq ++ data) := by
  have hlen := length_kept cap seq
  rw [hlen, kept, kept, List.length_append, ← List.drop_append_of_le_length (by omega), List.drop_drop]
  congr 1
  omega

theorem kept_kept_drop : kept cap ((kept cap seq).drop len) = (kept cap seq).drop len := by
  have hlen := length_kept cap seq
  rw [kept, List.length_drop, Nat.sub_eq_zero_of_le (by omega), List.drop_zero]

theorem start_write (h : c.write data = .ok c') : c'.start + c'.used ≤ c.start + c.used + data.length := by
  have hused := c.used_le
  unfold write at h
  split at h
  · cases h
    omega
  · split at h
    · split at h
      · cases h
        simp only [writeFitting]
        omega
      · cases h
        simp only [writeFitting, flush, List.length_drop]
        omega
    · cases h

/-- The buffer is as the sequence says. -/
def Holds (cap : Nat) (seq : List T) (c : CircleBuf T) : Prop := c.contents = kept cap seq ∧ c.maxSize = cap

theorem Holds.used (h : Holds cap seq c) : c.used = (kept cap seq).length := by rw [← h.1, length_contents]

theorem step_holds (hcap : 0 < cap) (h : Holds cap seq c) (hin : Within cap seq (call :: calls)) :
    ∃ c', c.step call = .ok (c', outOf cap seq call) ∧ Holds cap (seqStep cap seq call) c' ∧
      c'.start + c'.used ≤ c.start + c.used + written [call] := by
  have hused := h.used
  obtain ⟨hcontents, hmax⟩ := h
  cases call with
  | write data =>
    obtain ⟨c', hwrite, hc', hmax'⟩ := c.write_eq (.inl (by omega) : 0 < c.maxSize ∨ data = [])
    refine ⟨c', by rw [step, hwrite]; rfl, ⟨?_, hmax'.trans hmax⟩, start_write hwrite⟩
    rw [hc', hcontents, hused, hmax]
    exact kept_append
  | read len =>
    have hle : len ≤ c.used := by rw [hused]; exact hin.1
    obtain ⟨c', hread, hc', hmax'⟩ := c.read_eq hle
    refine ⟨c', by rw [step, hread, hcontents]; rfl, ⟨?_, hmax'.trans hmax⟩, ?_⟩
    · rw [hc', hcontents]
      exact kept_kept_drop.symm
    · obtain ⟨_, -, hset⟩ := Run.bind_eq_ok.1 hread
      cases hset
      change c.start + len + (c.used - len) ≤ c.start + c.used + 0
      omega
  | peek offset len =>
    have hle : offset + len ≤ c.used := by rw [hused]; exact hin.1
    exact ⟨c, by rw [step, c.peek_eq hle, hcontents]; rfl, ⟨hcontents, hmax⟩, Nat.le_refl _⟩
  | flush =>
    refine ⟨c.flush, rfl, ⟨?_, hmax⟩, Nat.zero_le _⟩
    rw [contents_flush]
    exact List.drop_nil.symm

theorem written_cons : written (call :: calls) = written [call] + written calls := by
  cases call <;> simp [written]

theorem run_holds (hcap : 0 < cap) (h : Holds cap seq c) (hin : Within cap seq calls) :
    ∃ c', c.run calls = .ok (c', outsOf cap seq calls) ∧ Holds cap (calls.foldl (seqStep cap) seq) c' ∧
      c'.start + c'.used ≤ c.start + c.used + written calls := by
  induction calls generalizing c seq with
  | nil => exact ⟨c, rfl, h, Nat.le_refl _⟩
  | cons call calls ih =>
    obtain ⟨c₁, hstep, hc₁, hstart₁⟩ := step_holds hcap h hin
    obtain ⟨c₂, hrun, hc₂, hstart₂⟩ := ih hc₁ hin.2
    refine ⟨c₂, by simp only [run, hstep, Run.ok_bind, hrun]; rfl, hc₂, ?_⟩
    rw [written_cons]
    omega

/-- **The buffer holds the last elements written**, whatever the calls.  `start` and `used` never pass the number of
elements written, so 64 bits hold them. -/
theorem circleBuf_keeps_last (hcap : 0 < cap) (init : T) (hin : Within cap [] calls) :
    ∃ c, (create cap init).run calls = .ok (c, outsOf cap [] calls) ∧
      c.peek 0 c.used = .ok (kept cap (calls.foldl (seqStep cap) [])) ∧
      c.used = min cap (calls.foldl (seqStep cap) []).length ∧ c.start + c.used ≤ written calls := by
  have hinit : Holds cap [] (create cap init) := ⟨(contents_create cap init).trans List.drop_nil.symm, rfl⟩
  obtain ⟨c, hrun, hc, hstart⟩ := run_holds hcap hinit hin
  refine ⟨c, hrun, ?_, by rw [hc.used, length_kept], by simpa [create] using hstart⟩
  rw [c.peek_eq (by omega), hc.1, List.drop_zero, hc.used, List.take_length]

theorem circleBuf_overwrites : ∃ c, (create 2 0).run [.write [1, 2, 3], .read 1] = .ok (c, [[], [2]]) ∧
    c.peek 0 c.used = .ok [3] :=
  have hin : Within 2 [] [.write [1, 2, 3], .read 1] := ⟨trivial, by decide, trivial⟩
  have ⟨c, hrun, hpeek, _⟩ := circleBuf_keeps_last (by decide) 0 hin
  ⟨c, hrun, hpeek⟩

end Gem5.CircleBuf
