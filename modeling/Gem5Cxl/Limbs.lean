import Mathlib.Data.BitVec
import Mathlib.Data.List.Basic
/-!
# Limbs — words cut into parts of one width and put together again

The low part of a word and the rest, and a word that is the union of parts shifted to their places.
-/
namespace Limbs

variable {w c : Nat}

theorem shift_or_low (x : BitVec w) (c : Nat) : (x >>> c) <<< c ||| (x.setWidth c).setWidth w = x := by
  refine BitVec.eq_of_getLsbD_eq fun i hi => ?_
  simp only [BitVec.getLsbD_or, BitVec.getLsbD_shiftLeft, BitVec.getLsbD_ushiftRight, BitVec.getLsbD_setWidth, hi]
  by_cases hic : i < c
  · simp [hic]
  · simp [hic, Nat.add_sub_cancel' (Nat.le_of_not_lt hic)]

theorem ushiftRight_lt {x : BitVec w} {c n : Nat} (h : x.toNat < 2 ^ (c * (n + 1))) : (x >>> c).toNat < 2 ^ (c * n) := by
  rw [BitVec.toNat_ushiftRight, Nat.shiftRight_eq_div_pow, Nat.div_lt_iff_lt_mul (Nat.two_pow_pos c), ← Nat.pow_add,
    ← Nat.mul_succ]
  exact h

/-- Adds the parts `f 0`, …, `f (k - 1)`, each of `c` bits, at their places. -/
def join (f : Nat → BitVec c) : Nat → BitVec w → BitVec w
  | 0, acc => acc
  | k + 1, acc => join f k (acc ||| (f k).setWidth w <<< (k * c))

theorem getLsbD_part (b : BitVec c) (k : Nat) {i : Nat} (hi : i < w) (hc : 0 < c) :
    (b.setWidth w <<< (k * c)).getLsbD i = (decide (i / c = k) && b.getLsbD (i % c)) := by
  have hdiv := Nat.div_add_mod i c
  rw [BitVec.getLsbD_shiftLeft, BitVec.getLsbD_setWidth, decide_eq_true hi, Bool.true_and]
  by_cases hk : i / c = k
  · subst hk
    have hsub : i - i / c * c = i % c := by
      rw [Nat.mul_comm] at hdiv
      omega
    have hge : ¬i < i / c * c := Nat.not_lt.2 (Nat.div_mul_le_self i c)
    have hlt : i - i / c * c < w := Nat.lt_of_le_of_lt (Nat.sub_le _ _) hi
    simp [hge, hsub, hsub ▸ hlt]
  · rw [decide_eq_false hk, Bool.false_and]
    by_cases hlt : i < k * c
    · simp [hlt]
    · -- the place is above the part
      have hge : c ≤ i - k * c := by
        have hle : k ≤ i / c := (Nat.le_div_iff_mul_le hc).2 (Nat.le_of_not_lt hlt)
        have hmul : (k + 1) * c ≤ i / c * c := Nat.mul_le_mul_right c (by omega)
        have := Nat.div_mul_le_self i c
        rw [Nat.add_mul, Nat.one_mul] at hmul
        omega
      simp [BitVec.getLsbD_of_ge b _ hge]

theorem getLsbD_join (f : Nat → BitVec c) {i : Nat} (hi : i < w) (hc : 0 < c) (k : Nat) (acc : BitVec w) :
    (join f k acc).getLsbD i = (acc.getLsbD i || (decide (i / c < k) && (f (i / c)).getLsbD (i % c))) := by
  induction k generalizing acc with
  | zero => simp [join]
  | succ k ih =>
    rw [join, ih, BitVec.getLsbD_or, getLsbD_part _ _ hi hc]
    by_cases hk : i / c = k
    · simp [hk]
    · have hiff : decide (i / c < k + 1) = decide (i / c < k) := decide_eq_decide.2 (by omega)
      rw [decide_eq_false hk, hiff, Bool.false_and, Bool.or_false]

end Limbs
