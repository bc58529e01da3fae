import Mathlib.Data.Nat.Bitwise
import Mathlib.Tactic.Ring
/-!
# Bits — words cut at a power of two, and intervals cut at its multiples

A word without its low bits is the multiple of a power of two below it.  An interval is cut at the multiples of `line`:
`cut` is where the piece that starts at `a` ends, and `Tiles` says that pieces follow each other from one end to the
other.
-/
namespace Bits

variable {w : Nat}

theorem getLsbD_lowMask (k i : Nat) : (BitVec.ofNat w (2 ^ k - 1)).getLsbD i = (decide (i < w) && decide (i < k)) := by
  rw [BitVec.getLsbD_ofNat, Nat.testBit_two_pow_sub_one]

theorem toNat_and_lowMask (x : BitVec w) (k : Nat) : (x &&& BitVec.ofNat w (2 ^ k - 1)).toNat = x.toNat % 2 ^ k := by
  refine Nat.eq_of_testBit_eq fun i => ?_
  have hbit : (x &&& BitVec.ofNat w (2 ^ k - 1)).toNat.testBit i = (x.getLsbD i && (decide (i < w) && decide (i < k))) := by
    rw [← getLsbD_lowMask, ← BitVec.getLsbD_and, BitVec.getLsbD]
  rw [hbit, Nat.testBit_mod_two_pow, BitVec.getLsbD]
  by_cases hw : i < w
  · simp [hw, Bool.and_comm]
  · have hx : x.toNat.testBit i = false := BitVec.getLsbD_of_ge x i (Nat.le_of_not_lt hw)
    simp [hx]

theorem toNat_and_not_lowMask (x : BitVec w) (k : Nat) :
    (x &&& ~~~ BitVec.ofNat w (2 ^ k - 1)).toNat = x.toNat / 2 ^ k * 2 ^ k := by
  have hshift : x &&& ~~~ BitVec.ofNat w (2 ^ k - 1) = x >>> k <<< k := by
    refine BitVec.eq_of_getLsbD_eq fun i hi => ?_
    rw [BitVec.getLsbD_and, BitVec.getLsbD_not, getLsbD_lowMask, BitVec.getLsbD_shiftLeft, BitVec.getLsbD_ushiftRight]
    by_cases hik : i < k
    · simp [hik, hi]
    · simp [hik, hi, Nat.add_sub_cancel' (Nat.le_of_not_lt hik)]
  rw [hshift, BitVec.toNat_shiftLeft, BitVec.toNat_ushiftRight, Nat.shiftRight_eq_div_pow, Nat.shiftLeft_eq,
    Nat.mod_eq_of_lt]
  exact Nat.lt_of_le_of_lt (Nat.div_mul_le_self _ _) x.isLt

variable {k a hi line : Nat} {x : BitVec w}

theorem sub_one_eq_lowMask (h : x.toNat = 2 ^ k) : x - 1#w = BitVec.ofNat w (2 ^ k - 1) := by
  have hpos : 0 < 2 ^ k := Nat.two_pow_pos k
  have hlt := x.isLt
  apply BitVec.eq_of_toNat_eq
  rw [BitVec.toNat_sub, BitVec.toNat_ofNat, BitVec.toNat_ofNat, h]
  rw [h] at hlt
  generalize 2 ^ w = n at *
  have hone : 1 % n = 1 := Nat.mod_eq_of_lt (by omega)
  rw [hone, show n - 1 + 2 ^ k = 2 ^ k - 1 + n by omega, Nat.add_mod_right]

theorem getLsbD_sub_one {i : Nat} (h : x.toNat = 2 ^ k) (hi : i < w) : (x - 1#w).getLsbD i = decide (i < k) := by
  rw [sub_one_eq_lowMask h, getLsbD_lowMask, decide_eq_true hi, Bool.true_and]

/-! ## Intervals cut at the multiples of a line -/

/-- Where the piece that starts at `a` ends: at the end of its line, or at `hi`. -/
def cut (line hi a : Nat) : Nat := min hi ((a / line + 1) * line)

theorem lt_cut (hl : 0 < line) (ha : a < hi) : a < cut line hi a :=
  Nat.lt_min.2 ⟨ha, Nat.lt_mul_of_div_lt (Nat.lt_succ_self _) hl⟩

theorem cut_le (line hi a : Nat) : cut line hi a ≤ hi := Nat.min_le_left _ _

theorem cut_le_line (hl : 0 < line) (hi a : Nat) : a % line + (cut line hi a - a) ≤ line := by
  have hle : cut line hi a ≤ (a / line + 1) * line := Nat.min_le_right _ _
  have hdiv : a / line * line + a % line = a := by rw [Nat.mul_comm, Nat.div_add_mod]
  have hmod := Nat.mod_lt a hl
  rw [Nat.add_mul, Nat.one_mul] at hle
  omega

theorem cut_eq_of_lt (h : cut line hi a < hi) : cut line hi a = (a / line + 1) * line := by
  unfold cut at *
  omega

theorem cut_cut (hl : 0 < line) (h : cut line hi a < hi) :
    cut line hi (cut line hi a) = min hi (cut line hi a + line) := by
  have heq := cut_eq_of_lt h
  rw [cut, heq, Nat.mul_div_cancel _ hl, Nat.add_mul (a / line + 1) 1, Nat.one_mul]

/-- The pieces, given by where they start and how long they are, follow each other from `lo` to `hi`. -/
def Tiles : Nat → Nat → List (Nat × Nat) → Prop
  | lo, hi, [] => lo = hi
  | lo, hi, (a, n) :: l => a = lo ∧ 0 < n ∧ Tiles (lo + n) hi l

theorem Tiles.bounds {lo : Nat} {l : List (Nat × Nat)} (h : Tiles lo hi l) :
    lo ≤ hi ∧ ∀ pc ∈ l, lo ≤ pc.1 ∧ 0 < pc.2 ∧ pc.1 + pc.2 ≤ hi := by
  induction l generalizing lo with
  | nil => exact ⟨Nat.le_of_eq h, by simp⟩
  | cons pc l ih =>
    obtain ⟨rfl, hpos, htail⟩ := h
    obtain ⟨hle, hin⟩ := ih htail
    refine ⟨by omega, ?_⟩
    rintro q (_ | ⟨_, hq⟩)
    · exact ⟨Nat.le_refl _, hpos, hle⟩
    · have := hin q hq
      omega

def pieces (line hi : Nat) (a : Nat) : List (Nat × Nat) :=
  if _h : 0 < line ∧ a < hi then (a, cut line hi a - a) :: pieces line hi (cut line hi a) else []
termination_by hi - a
decreasing_by
  have := lt_cut _h.1 _h.2
  omega

theorem pieces_eq (hl : 0 < line) (ha : a < hi) :
    pieces line hi a = (a, cut line hi a - a) :: pieces line hi (cut line hi a) := by
  rw [pieces, dif_pos ⟨hl, ha⟩]

theorem pieces_self (line hi : Nat) : pieces line hi hi = [] := by
  rw [pieces, dif_neg (by omega)]

/-- **The pieces of an interval tile it, each inside one line.** -/
theorem pieces_tile (hl : 0 < line) (hi a : Nat) (ha : a ≤ hi) :
    Tiles a hi (pieces line hi a) ∧ ∀ pc ∈ pieces line hi a, pc.1 % line + pc.2 ≤ line := by
  induction hn : hi - a using Nat.strongRecOn generalizing a with
  | ind n ih =>
    rcases Nat.eq_or_lt_of_le ha with rfl | hlt
    · rw [pieces_self]
      exact ⟨rfl, by simp⟩
    · have hcut := lt_cut hl hlt
      have hle := cut_le line hi a
      obtain ⟨htile, hin⟩ := ih (hi - cut line hi a) (by omega) (cut line hi a) hle rfl
      rw [pieces_eq hl hlt]
      refine ⟨⟨rfl, by omega, ?_⟩, ?_⟩
      · rw [Nat.add_sub_cancel' (Nat.le_of_lt hcut)]
        exact htile
      · rintro pc (_ | ⟨_, hpc⟩)
        · exact cut_le_line hl _ _
        · exact hin pc hpc

end Bits
