import Mathlib.Algebra.Order.Ring.Abs
import Mathlib.Algebra.Order.Ring.Int
import Mathlib.Tactic.LinearCombination
import Mathlib.Tactic.Ring
/-!
# IntMath — the wide products of `base/intmath.hh`
-/
namespace Gem5.IntMath

open BitVec (le_toInt toInt_lt toNat_add toNat_mul toNat_setWidth toNat_ushiftRight)

@[ext] structure Wide where
  high : BitVec 64
  low : BitVec 64
deriving DecidableEq

namespace Wide

def unsigned (w : Wide) : Nat := w.high.toNat * 2 ^ 64 + w.low.toNat

def signed (w : Wide) : Int := w.high.toInt * 2 ^ 64 + w.low.toNat

theorem eq_of_unsigned {v w : Wide} (h : v.unsigned = w.unsigned) : v = w := by
  rw [unsigned, unsigned] at h
  have := v.low.isLt
  have := w.low.isLt
  refine Wide.ext (BitVec.eq_of_toNat_eq ?_) (BitVec.eq_of_toNat_eq ?_) <;> omega

theorem eq_of_signed {v w : Wide} (h : v.signed = w.signed) : v = w := by
  rw [signed, signed] at h
  have := v.low.isLt
  have := w.low.isLt
  refine Wide.ext (BitVec.eq_of_toInt_eq ?_) (BitVec.eq_of_toNat_eq ?_) <;> omega

end Wide

/-- The carries are added at half their value, which leaves room in the word for all three. -/
def mulUnsignedManual (valA valB : BitVec 64) : Wide :=
  let A := ((valA >>> 32).setWidth 32).setWidth 64
  let a := (valA.setWidth 32).setWidth 64
  let B := ((valB >>> 32).setWidth 32).setWidth 64
  let b := (valB.setWidth 32).setWidth 64
  let ab := a * b
  let Ab := A * b
  let aB := a * B
  let AB := A * B
  let c1 := ((ab >>> 32).setWidth 32).setWidth 64
  let c2 := (c1 >>> 1) + (Ab >>> 1) + (aB >>> 1)
  let c2 := c2 + (((c1 &&& 1) + (Ab &&& 1) + (aB &&& 1)) >>> 1)
  let c2 := c2 >>> 31
  { high := AB + c2, low := valA * valB }

def mulUnsigned (int128 : Bool) (valA valB : BitVec 64) : Wide :=
  if int128 then
    let val : BitVec 128 := valA.setWidth 128 * valB.setWidth 128
    { high := (val >>> 64).setWidth 64, low := val.setWidth 64 }
  else mulUnsignedManual valA valB

def mulSignedManual (int128 : Bool) (valA valB : BitVec 64) : Wide :=
  let u := mulUnsigned int128 valA valB
  let uHigh := if valA.slt 0 then u.high - valB else u.high
  let uHigh := if valB.slt 0 then uHigh - valA else uHigh
  { high := uHigh, low := u.low }

def mulSigned (int128 : Bool) (valA valB : BitVec 64) : Wide :=
  if int128 then
    let val : BitVec 128 := valA.signExtend 128 * valB.signExtend 128
    { high := (val.sshiftRight 64).setWidth 64, low := val.setWidth 64 }
  else mulSignedManual int128 valA valB

/-! ## Unsigned -/

theorem halves_add (x y z : Nat) : x / 2 + y / 2 + z / 2 + (x % 2 + y % 2 + z % 2) / 2 = (x + y + z) / 2 := by omega

theorem toNat_and_one (x : BitVec 64) : (x &&& 1).toNat = x.toNat % 2 := by
  rw [BitVec.toNat_and]
  exact Nat.and_one_is_mod x.toNat

theorem mul_word_le {x y : Nat} (hx : x < 2 ^ 32) (hy : y < 2 ^ 32) : x * y ≤ (2 ^ 32 - 1) * (2 ^ 32 - 1) :=
  Nat.mul_le_mul (Nat.le_sub_one_of_lt hx) (Nat.le_sub_one_of_lt hy)

theorem toNat_mul_word {x y : BitVec 64} (hx : x.toNat < 2 ^ 32) (hy : y.toNat < 2 ^ 32) :
    (x * y).toNat = x.toNat * y.toNat := by
  rw [toNat_mul]
  exact Nat.mod_eq_of_lt (Nat.lt_of_le_of_lt (mul_word_le hx hy) (by decide))

theorem toNat_carry {x y z : BitVec 64} (hx : x.toNat < 2 ^ 32) (hy : y.toNat ≤ (2 ^ 32 - 1) * (2 ^ 32 - 1))
    (hz : z.toNat ≤ (2 ^ 32 - 1) * (2 ^ 32 - 1)) :
    ((((x >>> 1) + (y >>> 1) + (z >>> 1)) + (((x &&& 1) + (y &&& 1) + (z &&& 1)) >>> 1)) >>> 31).toNat =
      (x.toNat + y.toNat + z.toNat) / 2 ^ 32 := by
  have hodd : (((x &&& 1) + (y &&& 1) + (z &&& 1)) >>> 1).toNat = (x.toNat % 2 + y.toNat % 2 + z.toNat % 2) / 2 := by
    simp only [toNat_ushiftRight, toNat_add, toNat_and_one, Nat.shiftRight_eq_div_pow]
    omega
  have hhalf : ((x >>> 1) + (y >>> 1) + (z >>> 1)).toNat = x.toNat / 2 + y.toNat / 2 + z.toNat / 2 := by
    simp only [toNat_ushiftRight, toNat_add, Nat.shiftRight_eq_div_pow]
    omega
  have hfit : x.toNat / 2 + y.toNat / 2 + z.toNat / 2 + (x.toNat % 2 + y.toNat % 2 + z.toNat % 2) / 2 < 2 ^ 64 := by omega
  rw [toNat_ushiftRight, toNat_add, hodd, hhalf, Nat.mod_eq_of_lt hfit, halves_add,
    Nat.shiftRight_eq_div_pow, Nat.div_div_eq_div_mul]
  rfl

theorem mulUnsignedManual_exact (valA valB : BitVec 64) :
    (mulUnsignedManual valA valB).unsigned = valA.toNat * valB.toNat := by
  have hhigh : ∀ x : BitVec 64, (((x >>> 32).setWidth 32).setWidth 64 : BitVec 64).toNat = x.toNat / 2 ^ 32 := by
    intro x
    simp only [toNat_setWidth, toNat_ushiftRight, Nat.shiftRight_eq_div_pow]
    omega
  have hlow : ∀ x : BitVec 64, ((x.setWidth 32).setWidth 64 : BitVec 64).toNat = x.toNat % 2 ^ 32 := by
    intro x
    simp only [toNat_setWidth]
    omega
  have hA := hhigh valA
  have ha := hlow valA
  have hB := hhigh valB
  have hb := hlow valB
  unfold mulUnsignedManual Wide.unsigned
  dsimp only
  generalize (((valA >>> 32).setWidth 32).setWidth 64 : BitVec 64) = A at hA ⊢
  generalize ((valA.setWidth 32).setWidth 64 : BitVec 64) = a at ha ⊢
  generalize (((valB >>> 32).setWidth 32).setWidth 64 : BitVec 64) = B at hB ⊢
  generalize ((valB.setWidth 32).setWidth 64 : BitVec 64) = b at hb ⊢
  have hA32 : A.toNat < 2 ^ 32 := by omega
  have ha32 : a.toNat < 2 ^ 32 := by omega
  have hB32 : B.toNat < 2 ^ 32 := by omega
  have hb32 : b.toNat < 2 ^ 32 := by omega
  have hab := toNat_mul_word ha32 hb32
  have hAb := toNat_mul_word hA32 hb32
  have haB := toNat_mul_word ha32 hB32
  have hAB := toNat_mul_word hA32 hB32
  have lab := mul_word_le ha32 hb32
  have lAb := mul_word_le hA32 hb32
  have laB := mul_word_le ha32 hB32
  have lAB := mul_word_le hA32 hB32
  have hc1 := hhigh (a * b)
  rw [toNat_add, toNat_carry (by omega) (by omega) (by omega), hc1, hab, hAb, haB, hAB, toNat_mul]
  -- the product in the four partial products
  have hprod : valA.toNat * valB.toNat = A.toNat * B.toNat * 2 ^ 64 + (A.toNat * b.toNat + a.toNat * B.toNat) * 2 ^ 32 +
      a.toNat * b.toNat := by
    have hvA : valA.toNat = A.toNat * 2 ^ 32 + a.toNat := by omega
    have hvB : valB.toNat = B.toNat * 2 ^ 32 + b.toNat := by omega
    rw [hvA, hvB]
    ring
  rw [hprod]
  omega

theorem mulUnsigned_exact (int128 : Bool) (valA valB : BitVec 64) :
    (mulUnsigned int128 valA valB).unsigned = valA.toNat * valB.toNat := by
  cases int128 with
  | false => exact mulUnsignedManual_exact valA valB
  | true =>
    have hfit : valA.toNat * valB.toNat < 2 ^ 128 :=
      Nat.lt_of_le_of_lt (Nat.mul_le_mul (Nat.le_sub_one_of_lt valA.isLt) (Nat.le_sub_one_of_lt valB.isLt)) (by decide)
    have hA := Nat.mod_eq_of_lt (Nat.lt_trans valA.isLt (by decide : 2 ^ 64 < 2 ^ 128))
    have hB := Nat.mod_eq_of_lt (Nat.lt_trans valB.isLt (by decide : 2 ^ 64 < 2 ^ 128))
    simp only [mulUnsigned, if_true, Wide.unsigned, toNat_setWidth, toNat_ushiftRight, toNat_mul,
      Nat.shiftRight_eq_div_pow, hA, hB, Nat.mod_eq_of_lt hfit]
    omega

/-! ## Signed -/

def sign (x : BitVec 64) : Int := if x.slt 0 then 1 else 0

theorem toInt_eq_sub (x : BitVec 64) : x.toInt = x.toNat - 2 ^ 64 * sign x := by
  have hlt := x.isLt
  have hneg : x.slt 0 = true ↔ x.toInt < 0 := by simp [BitVec.slt]
  rw [BitVec.toInt_eq_toNat_cond] at hneg ⊢
  rw [sign]
  split at hneg <;> rename_i h
  · rw [if_pos h, if_neg fun e => absurd (hneg.1 e) (by omega)]
    omega
  · rw [if_neg h, if_pos (hneg.2 (by omega))]
    omega

theorem toNat_correct (x y z : BitVec 64) :
    ∃ k : Int, ((if x.slt 0 then z - y else z).toNat : Int) = z.toNat - sign x * y.toNat + 2 ^ 64 * k := by
  have hy := y.isLt
  rw [sign]
  split
  · refine ⟨(if y.toNat ≤ z.toNat then 0 else 1), ?_⟩
    rw [BitVec.toNat_sub]
    split <;> omega
  · exact ⟨0, by omega⟩

theorem abs_toInt_mul_le (x y : BitVec 64) : -2 ^ 126 ≤ x.toInt * y.toInt ∧ x.toInt * y.toInt ≤ 2 ^ 126 := by
  have hx : |x.toInt| ≤ 2 ^ 63 := abs_le.2 ⟨le_toInt x, Int.le_of_lt (toInt_lt)⟩
  have hy : |y.toInt| ≤ 2 ^ 63 := abs_le.2 ⟨le_toInt y, Int.le_of_lt (toInt_lt)⟩
  have h : |x.toInt * y.toInt| ≤ 2 ^ 63 * 2 ^ 63 := by
    rw [abs_mul]
    exact mul_le_mul hx hy (abs_nonneg _) (by decide)
  exact abs_le.1 (by simpa using h)

theorem signed_of_dvd {w : Wide} {p : Int} (hp : -2 ^ 126 ≤ p ∧ p ≤ 2 ^ 126)
    (h : (2 ^ 128 : Int) ∣ w.high.toNat * 2 ^ 64 + w.low.toNat - p) : w.signed = p := by
  obtain ⟨k, hk⟩ := h
  have hs := toInt_eq_sub w.high
  have hlow := w.low.isLt
  have hge := le_toInt w.high
  have hlt := toInt_lt (x := w.high)
  rw [Wide.signed]
  omega

theorem mulSignedManual_exact (int128 : Bool) (valA valB : BitVec 64) :
    (mulSignedManual int128 valA valB).signed = valA.toInt * valB.toInt := by
  refine signed_of_dvd (abs_toInt_mul_le valA valB) ?_
  have hu : (((mulUnsigned int128 valA valB).unsigned : Nat) : Int) = valA.toNat * valB.toNat := by
    rw [mulUnsigned_exact, Nat.cast_mul]
  rw [Wide.unsigned] at hu
  push_cast at hu
  rw [mulSignedManual]
  dsimp only
  generalize mulUnsigned int128 valA valB = u at hu ⊢
  obtain ⟨k, hk⟩ := toNat_correct valA valB u.high
  obtain ⟨k', hk'⟩ := toNat_correct valB valA (if valA.slt 0 then u.high - valB else u.high)
  rw [hk', hk, toInt_eq_sub valA, toInt_eq_sub valB]
  exact ⟨k + k' - sign valA * sign valB, by linear_combination hu⟩

theorem sshiftRight_setWidth (x : BitVec 128) : (x.sshiftRight 64).setWidth 64 = (x >>> 64).setWidth 64 := by
  ext i hi
  have hlt : 64 + i < 128 := by omega
  simp [BitVec.getElem_sshiftRight, hlt, Nat.lt_trans hi]

theorem mulSigned_exact (valA valB : BitVec 64) : (mulSigned true valA valB).signed = valA.toInt * valB.toInt := by
  refine signed_of_dvd (abs_toInt_mul_le valA valB) ?_
  rw [mulSigned, if_pos rfl]
  dsimp only
  have hval : (valA.signExtend 128 * valB.signExtend 128).toInt = (valA.toInt * valB.toInt).bmod (2 ^ 128) := by
    rw [BitVec.toInt_mul, BitVec.toInt_signExtend_of_le (by decide), BitVec.toInt_signExtend_of_le (by decide)]
  generalize valA.signExtend 128 * valB.signExtend 128 = val at hval ⊢
  have hwords : ((val >>> 64).setWidth 64 : BitVec 64).toNat * 2 ^ 64 + (val.setWidth 64 : BitVec 64).toNat = val.toNat := by
    have := val.isLt
    simp only [toNat_setWidth, toNat_ushiftRight, Nat.shiftRight_eq_div_pow]
    omega
  have hcast : (((val >>> 64).setWidth 64 : BitVec 64).toNat : Int) * 2 ^ 64 + (val.setWidth 64 : BitVec 64).toNat =
      val.toNat := by
    exact_mod_cast hwords
  rw [sshiftRight_setWidth, hcast]
  obtain ⟨k, hk⟩ := Int.dvd_self_sub_bmod (x := valA.toInt * valB.toInt) (m := 2 ^ 128)
  obtain ⟨k', hk'⟩ := Int.dvd_self_sub_bmod (x := (val.toNat : Int)) (m := 2 ^ 128)
  rw [← hval] at hk
  rw [← BitVec.toInt_eq_toNat_bmod] at hk'
  refine ⟨k' - k, ?_⟩
  push_cast at hk hk'
  linear_combination hk' - hk

/-! ## The products are exact -/

/-- **The products by halves are exact**, and agree with those of a compiler that has `__int128`. -/
theorem wide_products_exact (int128 : Bool) (valA valB : BitVec 64) :
    (mulUnsignedManual valA valB).unsigned = valA.toNat * valB.toNat ∧
      (mulSignedManual int128 valA valB).signed = valA.toInt * valB.toInt ∧
      mulUnsignedManual valA valB = mulUnsigned true valA valB ∧
      mulSignedManual int128 valA valB = mulSigned true valA valB := by
  have hu := mulUnsignedManual_exact valA valB
  have hs := mulSignedManual_exact int128 valA valB
  refine ⟨hu, hs, Wide.eq_of_unsigned ?_, Wide.eq_of_signed ?_⟩
  · rw [hu, mulUnsigned_exact]
  · rw [hs, mulSigned_exact]

end Gem5.IntMath
