import Gem5Cxl.AddrRange
import Gem5Cxl.Bits
/-!
# Bitfield — masks and fields of words (`base/bitfield.hh`)
-/
namespace Gem5

def mask (nbits : Nat) : Addr := if 64 ≤ nbits then BitVec.allOnes 64 else (1#64 <<< nbits) - 1

def bits (val : Addr) (first last : Nat) : Addr := (val >>> last) &&& mask (first - last + 1)

/-- `sext<N>(val)`: sign extension of a value whose bits past the sign are zero. -/
def sext (N : Nat) (val : Addr) : Addr := if bits val (N - 1) (N - 1) ≠ 0 then val ||| ~~~ mask N else val

/-- `szext<N>(val)`: the bits past the sign are dropped. -/
def szext (N : Nat) (val : Addr) : Addr := if bits val (N - 1) (N - 1) ≠ 0 then val ||| ~~~ mask N else val &&& mask N

def mbits (val : Addr) (first last : Nat) : Addr := val &&& (mask (first + 1) &&& ~~~ mask last)

/-- `insertBits`; the positions are `unsigned`, and `first + 1` wraps. -/
def insertBits (val : Addr) (first last : BitVec 32) (bitVal : Addr) : Addr :=
  let bmask := mask (first + 1).toNat &&& ~~~ mask last.toNat
  (val &&& ~~~ bmask) ||| ((bitVal <<< last.toNat) &&& bmask)

theorem ctz64_spec {a : Addr} {w : Nat} (hw : w < 64) (ha : a.getLsbD w = true) :
    ctz64 a < 64 ∧ a.getLsbD (ctz64 a) = true ∧ ∀ i < ctz64 a, a.getLsbD i = false := by
  have hlt : ctz64 a < (List.range 64).length := List.findIdx_lt_length.2 ⟨w, List.mem_range.2 hw, ha⟩
  obtain ⟨hat, hbelow⟩ := (List.findIdx_eq hlt).1 (rfl : (List.range 64).findIdx (fun i => a.getLsbD i) = ctz64 a)
  simp only [List.getElem_range] at hat hbelow
  exact ⟨by simpa using hlt, hat, hbelow⟩

variable {t i N : Nat}

theorem mask_eq (ht : t < 64) : mask t = BitVec.ofNat 64 (2 ^ t - 1) := by
  have hpos : 0 < 2 ^ t := Nat.two_pow_pos t
  have hlt : 2 ^ t < 2 ^ 64 := Nat.pow_lt_pow_right (by omega) ht
  have hone : (1#64 <<< t).toNat = 2 ^ t := by
    rw [BitVec.toNat_shiftLeft, Nat.shiftLeft_eq]
    simpa using Nat.mod_eq_of_lt hlt
  apply BitVec.eq_of_toNat_eq
  rw [mask, if_neg (by omega), BitVec.toNat_sub, hone, BitVec.toNat_ofNat]
  change (2 ^ 64 - 1 + 2 ^ t) % 2 ^ 64 = (2 ^ t - 1) % 2 ^ 64
  omega

theorem getLsbD_mask (ht : t < 64) (i : Nat) : (mask t).getLsbD i = decide (i < t) := by
  rw [mask_eq ht, Bits.getLsbD_lowMask]
  by_cases hi : i < t
  · rw [decide_eq_true hi, decide_eq_true (Nat.lt_trans hi ht), Bool.true_and]
  · rw [decide_eq_false hi, Bool.and_false]

theorem bits_self_ne_zero {val : Addr} : bits val i i ≠ 0 ↔ val.getLsbD i = true := by
  have hbit : ∀ j, (bits val i i).getLsbD j = (val.getLsbD (i + j) && decide (j < 1)) := fun j => by
    rw [bits, BitVec.getLsbD_and, BitVec.getLsbD_ushiftRight, Nat.sub_self, getLsbD_mask (by decide)]
  constructor
  · intro hne
    cases hv : val.getLsbD i with
    | true => rfl
    | false =>
      refine absurd (BitVec.eq_of_getLsbD_eq fun j _ => ?_) hne
      rw [hbit]
      cases j with
      | zero => simp [hv]
      | succ j => simp
  · intro hv hzero
    have := hbit 0
    rw [hzero, Nat.add_zero, hv] at this
    cases this

theorem getLsbD_szext (hN : N < 64) (val : Addr) (hi : i < 64) :
    (szext N val).getLsbD i = if i < N then val.getLsbD i else val.getLsbD (N - 1) := by
  unfold szext
  by_cases hs : val.getLsbD (N - 1) = true
  · rw [if_pos (bits_self_ne_zero.2 hs), BitVec.getLsbD_or, BitVec.getLsbD_not, getLsbD_mask hN, hs]
    by_cases hiN : i < N <;> simp [hiN, hi]
  · rw [if_neg (bits_self_ne_zero.not.2 hs), BitVec.getLsbD_and, getLsbD_mask hN, Bool.eq_false_iff.2 hs]
    by_cases hiN : i < N <;> simp [hiN]

theorem sext_and_mask (hpos : 0 < N) (hN : N < 64) (val : Addr) : sext N (val &&& mask N) = szext N val := by
  have hsign : (val &&& mask N).getLsbD (N - 1) = val.getLsbD (N - 1) := by
    rw [BitVec.getLsbD_and, getLsbD_mask hN, decide_eq_true (Nat.sub_lt hpos Nat.one_pos), Bool.and_true]
  unfold sext szext
  by_cases hs : val.getLsbD (N - 1) = true
  · rw [if_pos (bits_self_ne_zero.2 hs), if_pos (bits_self_ne_zero.2 (hsign.trans hs))]
    refine BitVec.eq_of_getLsbD_eq fun i _ => ?_
    simp only [BitVec.getLsbD_or, BitVec.getLsbD_and, BitVec.getLsbD_not]
    cases (mask N).getLsbD i <;> simp [*]
  · rw [if_neg (bits_self_ne_zero.not.2 hs), if_neg (bits_self_ne_zero.not.2 (hsign ▸ hs))]

theorem mbits_toNat (a : Addr) (ht : t < 64) : (mbits a 63 t).toNat = a.toNat / 2 ^ t * 2 ^ t := by
  have hall : mask (63 + 1) = BitVec.allOnes 64 := if_pos (Nat.le_refl 64)
  rw [mbits, hall, BitVec.allOnes_and, mask_eq ht, Bits.toNat_and_not_lowMask]

end Gem5
