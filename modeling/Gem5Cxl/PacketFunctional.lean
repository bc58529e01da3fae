import Gem5Cxl.AddrRange
import Mathlib.Logic.Function.Basic
/-!
# PacketFunctional — the two functional-access routines of a packet (`mem/packet.cc`)

A functional access meets the data of packets that are in flight.  A read takes the bytes that overlap and keeps track of
those it has; a write updates them.  `trySatisfyFunctional` computes the overlap in one way.  `checkFunctional` tells its
shapes apart, and takes one byte too few where the data sticks out on one side.  Accesses do not wrap, so addresses are
numbers, and offsets fit an `int`.
-/
namespace Gem5

abbrev Bytes := Nat → Byte

structure FunctionalPacket where
  addr : Nat
  size : Nat
  isSecure : Bool := false
  isRead : Bool
  data : Bytes
  bytesValid : Option (Nat → Bool) := none

structure HeldData where
  addr : Nat
  size : Nat
  isSecure : Bool := false
  data : Bytes

namespace FunctionalPacket

def memcpy (dest : Bytes) (destOffset : Nat) (src : Bytes) (srcOffset n : Nat) : Bytes := fun i =>
  if destOffset ≤ i ∧ i < destOffset + n then src (srcOffset + (i - destOffset)) else dest i

/-- The loops that clear `all_bytes_valid`. -/
def allValid (valid : Nat → Bool) (first last : Nat) : Bool := (List.range (last - first)).all fun k => valid (first + k)

def mark (valid : Nat → Bool) (first n : Nat) : Nat → Bool := fun i => decide (first ≤ i ∧ i < first + n) || valid i

def take (p : FunctionalPacket) (b : HeldData) (valOffset funcOffset overlapSize : Nat) :
    Bool × FunctionalPacket × HeldData :=
  let valid := p.bytesValid.getD fun _ => false
  (allValid valid 0 funcOffset && allValid valid (funcOffset + overlapSize) p.size,
    { p with
      data := memcpy p.data funcOffset b.data valOffset overlapSize
      bytesValid := some (mark valid funcOffset overlapSize) }, b)

def give (p : FunctionalPacket) (b : HeldData) (valOffset funcOffset n : Nat) : Bool × FunctionalPacket × HeldData :=
  (false, p, { b with data := memcpy b.data valOffset p.data funcOffset n })

def trySatisfyFunctional (p : FunctionalPacket) (b : HeldData) : Bool × FunctionalPacket × HeldData :=
  let funcStart := p.addr
  let funcEnd := p.addr + p.size - 1
  let valStart := b.addr
  let valEnd := valStart + b.size - 1
  if b.isSecure ≠ p.isSecure ∨ funcStart > valEnd ∨ valStart > funcEnd then (false, p, b)
  else
    let valOffset := if funcStart > valStart then funcStart - valStart else 0
    let funcOffset := if funcStart < valStart then valStart - funcStart else 0
    let overlapSize := min valEnd funcEnd + 1 - max valStart funcStart
    if p.isRead then p.take b valOffset funcOffset overlapSize else p.give b valOffset funcOffset overlapSize

/-- The offsets and the size that `checkFunctional` computes for a partial overlap. -/
def partialOverlap (funcStart funcEnd valStart valEnd size : Nat) : Except Failure (Nat × Nat × Nat) :=
  if valStart < funcStart ∧ valEnd ≤ funcEnd then .ok (funcStart - valStart, 0, valEnd - funcStart)
  else if valStart ≥ funcStart ∧ valEnd > funcEnd then .ok (0, valStart - funcStart, funcEnd - valStart)
  else if valStart ≥ funcStart ∧ valEnd ≤ funcEnd then .ok (0, valStart - funcStart, size)
  else if valStart < funcStart ∧ valEnd > funcEnd then .ok (funcStart - valStart, 0, funcEnd - funcStart)
  else .error (.panic "Missed a case for checkFunctional")

def checkFunctional (p : FunctionalPacket) (b : HeldData) : Except Failure (Bool × FunctionalPacket × HeldData) :=
  let funcStart := p.addr
  let funcEnd := p.addr + p.size - 1
  let valStart := b.addr
  let valEnd := valStart + b.size - 1
  if b.isSecure ≠ p.isSecure ∨ funcStart > valEnd ∨ valStart > funcEnd then .ok (false, p, b)
  else if p.isRead then
    if funcStart ≥ valStart ∧ funcEnd ≤ valEnd then
      .ok (true, { p with
        data := memcpy p.data 0 b.data (funcStart - valStart) p.size
        bytesValid := some (p.bytesValid.getD fun i => decide (i < p.size)) }, b)
    else do
      let (valOffset, funcOffset, overlapSize) ← partialOverlap funcStart funcEnd valStart valEnd b.size
      .ok (p.take b valOffset funcOffset overlapSize)
  else if funcStart ≥ valStart then .ok (p.give b (funcStart - valStart) 0 (min funcEnd valEnd - funcStart + 1))
  else .ok (p.give b 0 (valStart - funcStart) (min funcEnd valEnd - valStart + 1))

variable {p : FunctionalPacket} {b : HeldData} {valid : Nat → Bool} {first last : Nat}

/-! ## Bytes that a read has -/

def Has (p : FunctionalPacket) (i : Nat) : Prop := (p.bytesValid.getD fun _ => false) i = true

def Covers (b : HeldData) (p : FunctionalPacket) (i : Nat) : Prop :=
  b.addr ≤ p.addr + i ∧ p.addr + i < b.addr + b.size

theorem allValid_iff : allValid valid first last = true ↔ ∀ i, first ≤ i → i < last → valid i = true := by
  simp only [allValid, List.all_eq_true, List.mem_range]
  constructor
  · intro h i hfirst hlast
    have := h (i - first) (by omega)
    rwa [Nat.add_sub_cancel' hfirst] at this
  · intro h k hk
    exact h _ (by omega) (by omega)

/-- A read has all its bytes after taking some exactly if each was there or is among them. -/
theorem take_fst (valOffset : Nat) {funcOffset n : Nat} (hn : funcOffset + n ≤ p.size) :
    (p.take b valOffset funcOffset n).1 = true ↔ ∀ i < p.size, Has p i ∨ funcOffset ≤ i ∧ i < funcOffset + n := by
  unfold take Has
  rw [Bool.and_eq_true, allValid_iff, allValid_iff]
  constructor
  · rintro ⟨hbefore, hafter⟩ i hi
    by_cases hin : funcOffset ≤ i ∧ i < funcOffset + n
    · exact .inr hin
    · rcases Nat.lt_or_ge i funcOffset with hlt | hge
      · exact .inl (hbefore i (Nat.zero_le i) hlt)
      · exact .inl (hafter i (by omega) hi)
  · intro h
    exact ⟨fun i _ hi => (h i (by omega)).resolve_right (by omega), fun i hi hsize => (h i hsize).resolve_right (by omega)⟩

theorem take_succ_eq_iff {valOffset funcOffset n : Nat} :
    p.take b valOffset funcOffset n = p.take b valOffset funcOffset (n + 1) ↔
      Has p (funcOffset + n) ∧ b.data (valOffset + n) = p.data (funcOffset + n) := by
  unfold take Has
  dsimp only
  generalize hv : (p.bytesValid.getD fun _ => false) = valid
  constructor
  · intro heq
    have hdata := congrFun (congrArg (fun r => r.2.1.data) heq) (funcOffset + n)
    have hvalid := congrFun (Option.some.inj (congrArg (fun r => r.2.1.bytesValid) heq)) (funcOffset + n)
    constructor
    · simpa [mark] using hvalid
    · simpa [memcpy] using hdata.symm
  · rintro ⟨hvalid, hdata⟩
    have hall : allValid valid (funcOffset + n) p.size = allValid valid (funcOffset + (n + 1)) p.size := by
      rw [Bool.eq_iff_iff, allValid_iff, allValid_iff]
      refine ⟨fun h i hi => h i (by omega), fun h i hi hsize => ?_⟩
      rcases Nat.eq_or_lt_of_le hi with rfl | hlt
      · exact hvalid
      · exact h i (by omega) hsize
    have hmark : mark valid funcOffset n = mark valid funcOffset (n + 1) := by
      funext i
      by_cases hi : i = funcOffset + n
      · simp [mark, hi, hvalid]
      · have : i < funcOffset + n ↔ i < funcOffset + (n + 1) := by omega
        simp only [mark, this]
    have hcopy : memcpy p.data funcOffset b.data valOffset n = memcpy p.data funcOffset b.data valOffset (n + 1) := by
      funext i
      by_cases hi : i = funcOffset + n
      · simp [memcpy, hi, hdata]
      · have : i < funcOffset + n ↔ i < funcOffset + (n + 1) := by omega
        simp only [memcpy, this]
    rw [hall, hmark, hcopy]

/-! ## The shapes of an overlap -/

def Meets (b : HeldData) (p : FunctionalPacket) : Prop := p.addr < b.addr + b.size ∧ b.addr < p.addr + p.size

def Encloses (b : HeldData) (p : FunctionalPacket) : Prop := b.addr ≤ p.addr ∧ p.addr + p.size ≤ b.addr + b.size

/-- The data reaches over one end of the packet, and not over the other. -/
def SticksOut (b : HeldData) (p : FunctionalPacket) : Prop :=
  b.addr < p.addr ∧ b.addr + b.size < p.addr + p.size ∨ p.addr < b.addr ∧ p.addr + p.size < b.addr + b.size

def overlap (b : HeldData) (p : FunctionalPacket) : Nat :=
  min (b.addr + b.size) (p.addr + p.size) - max b.addr p.addr

def lastByte (b : HeldData) (p : FunctionalPacket) : Nat := min (b.addr + b.size) (p.addr + p.size) - 1 - p.addr

theorem not_meets (hp : 0 < p.size) (hb : 0 < b.size) (hm : ¬Meets b p) :
    p.trySatisfyFunctional b = (false, p, b) ∧ p.checkFunctional b = .ok (false, p, b) := by
  unfold Meets at hm
  unfold trySatisfyFunctional checkFunctional
  have hno : b.isSecure ≠ p.isSecure ∨ p.addr > b.addr + b.size - 1 ∨ b.addr > p.addr + p.size - 1 := by
    right
    omega
  exact ⟨if_pos hno, if_pos hno⟩

section Shapes

variable (hp : 0 < p.size) (hb : 0 < b.size) (hsec : b.isSecure = p.isSecure)

include hp hb hsec

theorem trySatisfyFunctional_of_meets (hm : Meets b p) : p.trySatisfyFunctional b =
    if p.isRead then p.take b (p.addr - b.addr) (b.addr - p.addr) (overlap b p)
    else p.give b (p.addr - b.addr) (b.addr - p.addr) (overlap b p) := by
  obtain ⟨h1, h2⟩ := hm
  have hval : (if p.addr > b.addr then p.addr - b.addr else 0) = p.addr - b.addr := by split <;> omega
  have hfunc : (if p.addr < b.addr then b.addr - p.addr else 0) = b.addr - p.addr := by split <;> omega
  have hsize : min (b.addr + b.size - 1) (p.addr + p.size - 1) + 1 - max b.addr p.addr = overlap b p := by
    unfold overlap
    omega
  unfold trySatisfyFunctional
  rw [if_neg (by rintro (h | h | h) <;> first | exact h hsec | omega)]
  simp only [hval, hfunc, hsize]

theorem checkFunctional_of_meets (hm : Meets b p) : p.checkFunctional b =
    if p.isRead then
      if p.addr ≥ b.addr ∧ p.addr + p.size - 1 ≤ b.addr + b.size - 1 then
        .ok (true, { p with
          data := memcpy p.data 0 b.data (p.addr - b.addr) p.size
          bytesValid := some (p.bytesValid.getD fun i => decide (i < p.size)) }, b)
      else partialOverlap p.addr (p.addr + p.size - 1) b.addr (b.addr + b.size - 1) b.size >>= fun r =>
        .ok (p.take b r.1 r.2.1 r.2.2)
    else if p.addr ≥ b.addr then
      .ok (p.give b (p.addr - b.addr) 0 (min (p.addr + p.size - 1) (b.addr + b.size - 1) - p.addr + 1))
    else .ok (p.give b 0 (b.addr - p.addr) (min (p.addr + p.size - 1) (b.addr + b.size - 1) - b.addr + 1)) := by
  obtain ⟨h1, h2⟩ := hm
  unfold checkFunctional
  rw [if_neg (by rintro (h | h | h) <;> first | exact h hsec | omega)]

theorem checkFunctional_write (hw : p.isRead = false) (hm : Meets b p) :
    p.checkFunctional b = .ok (p.trySatisfyFunctional b) := by
  rw [trySatisfyFunctional_of_meets hp hb hsec hm, checkFunctional_of_meets hp hb hsec hm, hw]
  obtain ⟨h1, h2⟩ := hm
  simp only [Bool.false_eq_true, if_false, overlap]
  split
  · rw [show b.addr - p.addr = 0 by omega, show min (p.addr + p.size - 1) (b.addr + b.size - 1) - p.addr + 1 =
      min (b.addr + b.size) (p.addr + p.size) - max b.addr p.addr by omega]
  · rw [show p.addr - b.addr = 0 by omega, show min (p.addr + p.size - 1) (b.addr + b.size - 1) - b.addr + 1 =
      min (b.addr + b.size) (p.addr + p.size) - max b.addr p.addr by omega]

section

variable (hr : p.isRead = true)
include hr

theorem checkFunctional_encloses_iff (he : Encloses b p) :
    p.checkFunctional b = .ok (p.trySatisfyFunctional b) ↔ p.bytesValid = none ∨ ∀ i < p.size, Has p i := by
  obtain ⟨h1, h2⟩ := he
  have hm : Meets b p := ⟨by omega, by omega⟩
  have hn : overlap b p = p.size := by
    unfold overlap
    omega
  rw [trySatisfyFunctional_of_meets hp hb hsec hm, checkFunctional_of_meets hp hb hsec hm, if_pos hr, if_pos hr,
    if_pos ⟨h1, by omega⟩, hn, show b.addr - p.addr = 0 by omega]
  have htrue : (p.take b (p.addr - b.addr) 0 p.size).1 = true := (take_fst _ (by omega)).2 fun i hi => .inr (by omega)
  unfold take at htrue ⊢
  dsimp only at htrue ⊢
  rw [htrue]
  simp only [Except.ok.injEq, Prod.mk.injEq, true_and, and_true, FunctionalPacket.mk.injEq, Option.some.injEq, Has]
  cases hv : p.bytesValid with
  | none =>
    refine iff_of_true (funext fun i => ?_) (.inl rfl)
    simp [mark]
  | some valid =>
    simp only [Option.getD_some, reduceCtorEq, false_or]
    constructor
    · intro heq i hi
      rw [heq]
      simp [mark, hi]
    · intro h
      funext i
      by_cases hi : i < p.size
      · simp [mark, h i hi]
      · simp [mark, hi]

/-- A read over one of whose ends the data reaches: the last common byte is left out. -/
theorem checkFunctional_sticksOut_iff (hm : Meets b p) (hs : SticksOut b p) :
    p.checkFunctional b = .ok (p.trySatisfyFunctional b) ↔
      Has p (lastByte b p) ∧ b.data (p.addr + lastByte b p - b.addr) = p.data (lastByte b p) := by
  rw [trySatisfyFunctional_of_meets hp hb hsec hm, checkFunctional_of_meets hp hb hsec hm, if_pos hr, if_pos hr]
  obtain ⟨h1, h2⟩ := hm
  unfold SticksOut at hs
  obtain ⟨n, hn⟩ : ∃ n, overlap b p = n + 1 := Nat.exists_eq_succ_of_ne_zero (by unfold overlap; omega)
  have hlast : lastByte b p = b.addr - p.addr + n := by
    unfold lastByte
    unfold overlap at hn
    omega
  unfold overlap at hn
  -- both take the same bytes, but for the last
  have hpart : partialOverlap p.addr (p.addr + p.size - 1) b.addr (b.addr + b.size - 1) b.size =
      .ok (p.addr - b.addr, b.addr - p.addr, n) := by
    unfold partialOverlap
    rcases hs with hs | hs
    · rw [if_pos (by omega)]
      simp only [Except.ok.injEq, Prod.mk.injEq, true_and]
      omega
    · rw [if_neg (by omega), if_pos (by omega)]
      simp only [Except.ok.injEq, Prod.mk.injEq, true_and]
      omega
  rw [if_neg (by omega), hpart, Run.ok_bind, Except.ok.injEq, overlap, hn, take_succ_eq_iff, hlast,
    show p.addr + (b.addr - p.addr + n) - b.addr = p.addr - b.addr + n by omega]

theorem checkFunctional_inside (hm : Meets b p) (he : ¬Encloses b p) (hs : ¬SticksOut b p) :
    p.checkFunctional b = .ok (p.trySatisfyFunctional b) := by
  rw [trySatisfyFunctional_of_meets hp hb hsec hm, checkFunctional_of_meets hp hb hsec hm, if_pos hr, if_pos hr]
  obtain ⟨h1, h2⟩ := hm
  unfold Encloses at he
  unfold SticksOut at hs
  have hpart : partialOverlap p.addr (p.addr + p.size - 1) b.addr (b.addr + b.size - 1) b.size =
      .ok (0, b.addr - p.addr, b.size) := by
    unfold partialOverlap
    rw [if_neg (by omega), if_neg (by omega), if_pos (by omega)]
  rw [if_neg (by omega), hpart, Run.ok_bind, show p.addr - b.addr = 0 by omega, show overlap b p = b.size by
    unfold overlap
    omega]

theorem trySatisfyFunctional_fst (hm : Meets b p) : (p.trySatisfyFunctional b).1 = true ↔
    ∀ i < p.size, Has p i ∨ Covers b p i := by
  rw [trySatisfyFunctional_of_meets hp hb hsec hm, if_pos hr]
  obtain ⟨h1, h2⟩ := hm
  unfold overlap
  rw [take_fst _ (by omega)]
  refine forall₂_congr fun i hi => or_congr_right ?_
  unfold Covers
  omega

end

/-- Where the two routines agree, and a read is done exactly if it has all its bytes. -/
def Exact (p : FunctionalPacket) (b : HeldData) : Prop := p.isRead = true →
  (¬Meets b p → ∃ i < p.size, ¬Has p i) ∧ (Encloses b p → p.bytesValid = none ∨ ∀ i < p.size, Has p i) ∧
    (Meets b p → SticksOut b p →
      Has p (lastByte b p) ∧ b.data (p.addr + lastByte b p - b.addr) = p.data (lastByte b p))

/-- **The two routines agree, and answer whether a read has all its bytes, exactly if the packet is a write, or the data
lies inside it, or it has what `checkFunctional` leaves out.** -/
theorem functional_agree_iff : (p.checkFunctional b = .ok (p.trySatisfyFunctional b) ∧
    (p.isRead = true → ((p.trySatisfyFunctional b).1 = true ↔ ∀ i < p.size, Has p i ∨ Covers b p i))) ↔ Exact p b := by
  unfold Exact
  by_cases hm : Meets b p
  · cases hr : p.isRead with
    | false => simp [checkFunctional_write hp hb hsec hr hm]
    | true =>
      simp only [forall_const, trySatisfyFunctional_fst hp hb hsec hr hm, hm, not_true_eq_false, false_imp_iff, true_and,
        and_true]
      by_cases he : Encloses b p
      · have hs : ¬SticksOut b p := by
          unfold Encloses SticksOut at *
          omega
        simp only [he, hs, forall_const, false_imp_iff, and_true]
        exact checkFunctional_encloses_iff hp hb hsec hr he
      · by_cases hs : SticksOut b p
        · simp only [he, hs, forall_const, false_imp_iff, true_and]
          exact checkFunctional_sticksOut_iff hp hb hsec hr hm hs
        · simp only [he, hs, false_imp_iff, and_self, iff_true]
          exact checkFunctional_inside hp hb hsec hr hm he hs
  · have hcov : ∀ i < p.size, ¬Covers b p i := fun i hi hc => hm (by unfold Covers at hc; exact ⟨by omega, by omega⟩)
    have he : ¬Encloses b p := fun he => hm (by unfold Encloses at he; exact ⟨by omega, by omega⟩)
    obtain ⟨htry, hcheck⟩ := not_meets hp hb hm
    simp only [htry, hcheck, hm, he, Bool.false_eq_true, false_iff, true_and, false_imp_iff, and_true, not_false_eq_true,
      forall_const]
    refine imp_congr_right fun _ => ⟨fun h => ?_, fun ⟨i, hi, hno⟩ h => (h i hi).elim hno (hcov i hi)⟩
    by_contra hno
    push Not at hno
    exact h fun i hi => .inl (hno i hi)

end Shapes

def sampleRead : FunctionalPacket := { addr := 16, size := 8, isRead := true, data := fun _ => 0 }

theorem agree_inside : sampleRead.checkFunctional { addr := 18, size := 4, data := fun _ => 1 } =
    .ok (sampleRead.trySatisfyFunctional { addr := 18, size := 4, data := fun _ => 1 }) :=
  ((functional_agree_iff (p := sampleRead) (b := { addr := 18, size := 4, data := fun _ => 1 }) (by decide) (by decide)
    rfl).2 fun _ => ⟨fun h => absurd ⟨by decide, by decide⟩ h, fun h => absurd h.1 (by decide), fun _ h =>
      absurd h (by unfold SticksOut; decide)⟩).1

/-- **Data that reaches over the start of a read**: of the four common bytes `checkFunctional` takes three. -/
theorem last_byte_missed : ∃ r, sampleRead.checkFunctional { addr := 12, size := 8, data := fun _ => 1 } = .ok r ∧
    r.2.1.data 3 = 0 ∧ (sampleRead.trySatisfyFunctional { addr := 12, size := 8, data := fun _ => 1 }).2.1.data 3 = 1 :=
  ⟨_, rfl, rfl, rfl⟩

end FunctionalPacket
end Gem5
