import Gem5Cxl.Bitfield
import Gem5Cxl.RemoveBits
import Mathlib.Data.List.Pairwise
import Mathlib.Data.Nat.ModEq
/-!
# AddrRangeOffset — interleaved ranges partition and linearise memory (`AddrRange::getOffset`)

A stripe is selected by the parities of the address under the masks, and `getOffset` takes the lowest bit of each mask
out of the address.  If that bit is in no other mask, it can be recovered from the stripe and the other bits; and since
it is the lowest of its mask, two addresses of one stripe never differ in it first.
-/
namespace Gem5

open BitVec (getLsbD_and getLsbD_ofNat le_def lt_def toNat_ofNat)

namespace AddrRange

def masksLsb (r : AddrRange) : List Nat := (r.masks.map ctz64).insertionSort (· ≤ ·)

/-- One round of the loop of `removeIntlvBits`. -/
def removeBit (a : Addr) (intlvBit i : Nat) : Addr :=
  if 0 < intlvBit then insertBits (a >>> 1) (BitVec.ofNat 32 intlvBit - BitVec.ofNat 32 i - 1) 0 a else a >>> 1

def removeBits : Nat → List Nat → Addr → Addr
  | _, [], a => a
  | i, l :: ls, a => removeBits (i + 1) ls (removeBit a l i)

def removeIntlvBits (r : AddrRange) (a : Addr) : Addr := if !r.interleaved then a else removeBits 0 r.masksLsb a

def getOffset (r : AddrRange) (a : Addr) : Addr :=
  if !(decide (r.start ≤ a) && decide (a < r.end_)) then BitVec.allOnes 64
  else if r.interleaved then r.removeIntlvBits a - r.removeIntlvBits r.start
  else a - r.start

/-! ## The stripe -/

theorem sel_lt (a : Addr) (masks : List Addr) : sel a masks < 2 ^ masks.length := by
  induction masks with
  | nil => exact Nat.one_pos
  | cons m ms ih =>
    have hmod := Nat.mod_lt (popCount (a &&& m)) Nat.two_pos
    rw [sel, List.length_cons, Nat.pow_succ]
    omega

theorem sel_eq_iff (a b : Addr) (masks : List Addr) :
    sel a masks = sel b masks ↔ ∀ m ∈ masks, popCount (a &&& m) % 2 = popCount (b &&& m) % 2 := by
  induction masks with
  | nil => simp [sel]
  | cons m ms ih =>
    have ha := Nat.mod_lt (popCount (a &&& m)) Nat.two_pos
    have hb := Nat.mod_lt (popCount (b &&& m)) Nat.two_pos
    rw [List.forall_mem_cons, ← ih, sel, sel]
    constructor
    · intro h
      omega
    · rintro ⟨h1, h2⟩
      rw [h1, h2]

theorem countP_update {l : List Nat} (hnd : l.Nodup) {i : Nat} (hi : i ∈ l) {p q : Nat → Bool} (hp : p i = false)
    (hq : q i = true) (hother : ∀ j, j ≠ i → p j = q j) : l.countP q = l.countP p + 1 := by
  induction l with
  | nil => cases hi
  | cons x l ih =>
    obtain ⟨hx, hnd⟩ := List.nodup_cons.1 hnd
    rw [List.countP_cons, List.countP_cons]
    rcases List.mem_cons.1 hi with rfl | hi
    · have hsame : l.countP q = l.countP p := List.countP_congr fun j hj => by
        rw [hother j fun hc => hx (hc ▸ hj)]
      rw [hsame, hp, hq]
      simp
    · rw [ih hnd hi, hother x fun hc => hx (hc ▸ hi)]
      omega

theorem popCount_succ {x y : Addr} {i : Nat} (hi : i < 64) (hx : x.getLsbD i = false) (hy : y.getLsbD i = true)
    (hother : ∀ j, j ≠ i → x.getLsbD j = y.getLsbD j) : popCount y = popCount x + 1 :=
  countP_update List.nodup_range (List.mem_range.2 hi) hx hy hother

theorem popCount_bit {x y : Addr} {i : Nat} (hi : i < 64) (hx : x.getLsbD i = false)
    (hother : ∀ j, j ≠ i → x.getLsbD j = y.getLsbD j) : popCount y = popCount x + (y.getLsbD i).toNat := by
  cases hy : y.getLsbD i with
  | true => exact popCount_succ hi hx hy hother
  | false =>
    have heq : x = y := BitVec.eq_of_getLsbD_eq fun j _ => by
      by_cases hj : j = i
      · rw [hj, hx, hy]
      · exact hother j hj
    rw [heq]
    rfl

/-! ## Taking the bits out -/

theorem removeBit_toNat (a : Addr) {l i : Nat} (hl : l < 64) (hi : i ≤ l) :
    (removeBit a l i).toNat = RemoveBits.dropBit (l - i) a.toNat := by
  refine Nat.eq_of_testBit_eq fun p => ?_
  rw [RemoveBits.testBit_dropBit]
  change (removeBit a l i).getLsbD p = a.getLsbD (RemoveBits.skip (l - i) p)
  rw [removeBit, RemoveBits.skip]
  split
  · have hfirst : (BitVec.ofNat 32 l - BitVec.ofNat 32 i - 1 + 1).toNat = l - i := by
      rw [BitVec.sub_add_cancel, BitVec.toNat_sub, toNat_ofNat, toNat_ofNat]
      omega
    have hzero : mask (0 : BitVec 32).toNat = 0 := rfl
    rw [insertBits]
    simp only [hfirst, hzero, BitVec.getLsbD_or, getLsbD_and, BitVec.getLsbD_not,
      getLsbD_mask (Nat.lt_of_le_of_lt (Nat.sub_le l i) hl), BitVec.getLsbD_ushiftRight]
    by_cases hp : p < l - i
    · have : p < 64 := by omega
      simp [hp, this]
    · by_cases hp64 : p < 64
      · simp [hp, hp64, Nat.add_comm]
      · simp [hp, hp64, BitVec.getLsbD_of_ge a (p + 1) (by omega)]
  · rename_i hzero
    rw [if_neg (by omega), BitVec.getLsbD_ushiftRight, Nat.add_comm]

theorem removeBits_toNat (ls : List Nat) (i : Nat) (a : Addr) (hs : ls.Pairwise (· < ·)) (hi : ∀ l ∈ ls, i ≤ l)
    (h64 : ∀ l ∈ ls, l < 64) : (removeBits i ls a).toNat = RemoveBits.dropBits i ls a.toNat := by
  induction ls generalizing i a with
  | nil => rfl
  | cons l ls ih =>
    obtain ⟨hl, hs⟩ := List.pairwise_cons.1 hs
    have hil := hi l List.mem_cons_self
    rw [removeBits, RemoveBits.dropBits, ih (i + 1) _ hs (fun x hx => Nat.lt_of_le_of_lt hil (hl x hx))
      (fun x hx => h64 x (List.mem_cons_of_mem _ hx)), removeBit_toNat a (h64 l List.mem_cons_self) hil]

end AddrRange

/-- The masks of a proper interleaving: none is empty, and the lowest bit of each is in no other. -/
structure Interleaving (masks : List Addr) : Prop where
  nonzero : ∀ m ∈ masks, m ≠ 0
  own : masks.Pairwise fun m m' => m'.getLsbD (ctz64 m) = false ∧ m.getLsbD (ctz64 m') = false

namespace Interleaving

open AddrRange

def lsbs (masks : List Addr) : List Nat := (masks.map ctz64).insertionSort (· ≤ ·)

variable {masks : List Addr} (h : Interleaving masks)

include h

theorem lsb {m : Addr} (hm : m ∈ masks) :
    ctz64 m < 64 ∧ m.getLsbD (ctz64 m) = true ∧ ∀ i < ctz64 m, m.getLsbD i = false := by
  obtain ⟨w, hw, hbit⟩ : ∃ w, w < 64 ∧ m.getLsbD w = true := by
    by_contra hnone
    refine h.nonzero m hm (BitVec.eq_of_getLsbD_eq fun i hi => ?_)
    exact (Bool.eq_false_iff.2 fun hc => hnone ⟨i, hi, hc⟩).trans BitVec.getLsbD_zero.symm
  exact ctz64_spec hw hbit

theorem nodup : (masks.map ctz64).Nodup := by
  refine List.pairwise_map.2 (h.own.imp_of_mem fun hm hm' hown heq => ?_)
  rw [heq, (h.lsb hm').2.1] at hown
  exact Bool.noConfusion hown.1

omit h in
theorem mem_lsbs {l : Nat} : l ∈ lsbs masks ↔ ∃ m ∈ masks, ctz64 m = l := by
  rw [lsbs, (List.perm_insertionSort _ _).mem_iff, List.mem_map]

omit h in
theorem length_lsbs : (lsbs masks).length = masks.length := by
  rw [lsbs, (List.perm_insertionSort _ _).length_eq, List.length_map]

theorem sorted : (lsbs masks).Pairwise (· < ·) := by
  have hle : (lsbs masks).Pairwise (· ≤ ·) := List.pairwise_insertionSort _ _
  have hnd : (lsbs masks).Nodup := (List.perm_insertionSort _ _).nodup_iff.2 h.nodup
  exact (hle.and hnd).imp fun hab => Nat.lt_of_le_of_ne hab.1 hab.2

theorem getLsbD_lsb {m m' : Addr} (hm : m ∈ masks) (hm' : m' ∈ masks) (hne : ctz64 m ≠ ctz64 m') :
    m.getLsbD (ctz64 m') = false := by
  have : Std.Symm fun m m' : Addr => m'.getLsbD (ctz64 m) = false ∧ m.getLsbD (ctz64 m') = false :=
    ⟨fun _ _ hown => ⟨hown.2, hown.1⟩⟩
  exact (h.own.forall hm hm' fun heq => hne (heq ▸ rfl)).2

omit h in
theorem exists_width (masks : List Addr) :
    ∃ w, (∀ m ∈ masks, ctz64 m < w) ∧ ∀ t, (∀ m ∈ masks, 2 ^ (ctz64 m + 1) ∣ t) → 2 ^ w ∣ t := by
  induction masks with
  | nil => exact ⟨0, by simp, fun t _ => Nat.one_dvd t⟩
  | cons m ms ih =>
    obtain ⟨w, hlt, hdvd⟩ := ih
    rcases Nat.le_total w (ctz64 m + 1) with hle | hle
    · refine ⟨ctz64 m + 1, fun m' hm' => ?_, fun t ht => ht m List.mem_cons_self⟩
      rcases List.mem_cons.1 hm' with rfl | hm'
      · exact Nat.lt_succ_self _
      · exact Nat.lt_of_lt_of_le (hlt m' hm') hle
    · refine ⟨w, fun m' hm' => ?_, fun t ht => hdvd t fun m' hm' => ht m' (List.mem_cons_of_mem _ hm')⟩
      rcases List.mem_cons.1 hm' with rfl | hm'
      · exact hle
      · exact hlt m' hm'

omit h in
theorem exists_choice (masks : List Addr) (hnd : (masks.map ctz64).Nodup) (count : Addr → Nat) (v : Nat)
    (hv : v < 2 ^ masks.length) :
    ∃ g : Nat → Bool, ∀ a : Addr, (∀ m ∈ masks, popCount (a &&& m) = count m + (g (ctz64 m)).toNat) → sel a masks = v := by
  induction masks generalizing v with
  | nil =>
    refine ⟨fun _ => false, fun a _ => ?_⟩
    rw [List.length_nil, Nat.pow_zero, Nat.lt_one_iff] at hv
    rw [hv]
    rfl
  | cons m ms ih =>
    obtain ⟨hm, hnd⟩ := List.nodup_cons.1 hnd
    rw [List.length_cons, Nat.pow_succ] at hv
    obtain ⟨g, hg⟩ := ih hnd (v / 2) (by omega)
    refine ⟨Function.update g (ctz64 m) (decide ((count m + v) % 2 = 1)), fun a ha => ?_⟩
    have hhead := ha m List.mem_cons_self
    rw [Function.update_self] at hhead
    have htail : sel a ms = v / 2 := hg a fun m' hm' => by
      have hne : ctz64 m' ≠ ctz64 m := fun hc => hm (List.mem_map.2 ⟨m', hm', hc⟩)
      rw [ha m' (List.mem_cons_of_mem _ hm'), Function.update_of_ne hne]
    rw [sel, htail, hhead]
    by_cases hodd : (count m + v) % 2 = 1
    · rw [decide_eq_true hodd]
      change (count m + 1) % 2 + 2 * (v / 2) = v
      omega
    · rw [decide_eq_false hodd]
      change (count m + 0) % 2 + 2 * (v / 2) = v
      omega

/-! ## The offset -/

theorem removeIntlvBits_toNat (r : AddrRange) (hr : r.masks = masks) (a : Addr) :
    (r.removeIntlvBits a).toNat = RemoveBits.dropBits 0 (lsbs masks) a.toNat := by
  have hlsb : r.masksLsb = lsbs masks := by rw [masksLsb, hr, lsbs]
  rw [removeIntlvBits]
  split
  · rename_i hplain
    have hnil : masks = [] := by
      rw [interleaved, hr] at hplain
      exact List.eq_nil_of_length_eq_zero (by simpa using hplain)
    rw [hnil]
    rfl
  · rw [hlsb]
    refine removeBits_toNat _ 0 a h.sorted (fun _ _ => Nat.zero_le _) fun l hl => ?_
    obtain ⟨m, hm, rfl⟩ := mem_lsbs.1 hl
    exact (h.lsb hm).1

theorem dropBits_lt_of_sel_eq {a b : Addr} (hlt : a.toNat < b.toNat) (hsel : sel a masks = sel b masks) :
    RemoveBits.dropBits 0 (lsbs masks) a.toNat < RemoveBits.dropBits 0 (lsbs masks) b.toNat := by
  obtain ⟨i, h0, h1, hagree⟩ := RemoveBits.exists_top_difference hlt
  have hstays : i ∉ lsbs masks := by
    -- the masks of which `i` is the lowest bit would tell the two apart
    intro hin
    obtain ⟨m, hm, rfl⟩ := mem_lsbs.1 hin
    obtain ⟨h64, hbit, hbelow⟩ := h.lsb hm
    have hcount : popCount (b &&& m) = popCount (a &&& m) + 1 := by
      refine popCount_succ h64 ?_ ?_ fun j hj => ?_
      · rw [getLsbD_and, BitVec.getLsbD, h0, Bool.false_and]
      · rw [getLsbD_and, BitVec.getLsbD, h1, hbit, Bool.and_self]
      · rw [getLsbD_and, getLsbD_and]
        rcases Nat.lt_or_gt_of_ne hj with hj | hj
        · rw [hbelow j hj, Bool.and_false, Bool.and_false]
        · congr 1
          exact hagree j hj
    have := (sel_eq_iff a b masks).1 hsel m hm
    omega
  obtain ⟨q, hq⟩ := RemoveBits.exists_source h.sorted (fun _ _ => Nat.zero_le _) (p := i) fun l hl heq =>
    hstays (heq ▸ hl)
  exact RemoveBits.dropBits_lt (hq ▸ h0) (hq ▸ h1) (hq ▸ hagree)

theorem exists_addr {v : Nat} (hv : v < 2 ^ masks.length) (x : Nat) :
    ∃ n, RemoveBits.dropBits 0 (lsbs masks) n = x ∧ sel (BitVec.ofNat 64 n) masks = v := by
  have hself : ∀ (g : Nat → Bool) {m : Addr}, m ∈ masks →
      (RemoveBits.addBits g 0 (lsbs masks) x).testBit (ctz64 m) = g (ctz64 m) := fun g m hm =>
    RemoveBits.testBit_addBits_self g h.sorted (fun _ _ => Nat.zero_le _) x (mem_lsbs.2 ⟨m, hm, rfl⟩)
  have hother : ∀ (g g' : Nat → Bool) {p : Nat}, p ∉ lsbs masks → (RemoveBits.addBits g 0 (lsbs masks) x).testBit p =
      (RemoveBits.addBits g' 0 (lsbs masks) x).testBit p := by
    intro g g' p hp
    obtain ⟨q, rfl⟩ := RemoveBits.exists_source h.sorted (fun _ _ => Nat.zero_le _) (p := p) fun l hl heq => hp (heq ▸ hl)
    rw [RemoveBits.testBit_addBits_source, RemoveBits.testBit_addBits_source]
  let base : Addr := BitVec.ofNat 64 (RemoveBits.addBits (fun _ => false) 0 (lsbs masks) x)
  obtain ⟨g, hg⟩ := exists_choice masks h.nodup (fun m => popCount (base &&& m)) v hv
  refine ⟨RemoveBits.addBits g 0 (lsbs masks) x, RemoveBits.dropBits_addBits g 0 _ x, hg _ fun m hm => ?_⟩
  obtain ⟨h64, hbit, -⟩ := h.lsb hm
  have hsame : ∀ j, j ≠ ctz64 m → (base &&& m).getLsbD j =
      (BitVec.ofNat 64 (RemoveBits.addBits g 0 (lsbs masks) x) &&& m).getLsbD j := by
    intro j hj
    rw [getLsbD_and, getLsbD_and]
    by_cases hin : j ∈ lsbs masks
    · obtain ⟨m', hm', rfl⟩ := mem_lsbs.1 hin
      rw [h.getLsbD_lsb hm hm' fun heq => hj heq.symm, Bool.and_false, Bool.and_false]
    · rw [getLsbD_ofNat, getLsbD_ofNat, hother _ g hin]
  have hbase : (base &&& m).getLsbD (ctz64 m) = false := by
    rw [getLsbD_and, getLsbD_ofNat, hself _ hm, Bool.and_false, Bool.false_and]
  have hchosen : (BitVec.ofNat 64 (RemoveBits.addBits g 0 (lsbs masks) x) &&& m).getLsbD (ctz64 m) = g (ctz64 m) := by
    rw [getLsbD_and, getLsbD_ofNat, hself _ hm, hbit, decide_eq_true h64, Bool.true_and, Bool.and_true]
  rw [popCount_bit h64 hbase hsame, hchosen]

end Interleaving

namespace AddrRange

open Interleaving

section Stripe

variable {masks : List Addr} (h : Interleaving masks) {S E : Addr} (hS : ∀ m ∈ masks, 2 ^ (ctz64 m + 1) ∣ S.toNat)
  (hE : ∀ m ∈ masks, 2 ^ (ctz64 m + 1) ∣ E.toNat)

omit h in
theorem contains_iff {v : Nat} {a : Addr} : (AddrRange.mk S E masks v).contains a = true ↔
    S.toNat ≤ a.toNat ∧ a.toNat < E.toNat ∧ sel a masks = v := by
  simp only [contains, Bool.and_eq_true, decide_eq_true_eq, le_def, lt_def, and_assoc]

include h hS

theorem getOffset_toNat {v : Nat} {a : Addr} (ha : (AddrRange.mk S E masks v).contains a = true) :
    RemoveBits.dropBits 0 (lsbs masks) S.toNat + ((AddrRange.mk S E masks v).getOffset a).toNat =
      RemoveBits.dropBits 0 (lsbs masks) a.toNat := by
  obtain ⟨w, hw, hdvd⟩ := exists_width masks
  obtain ⟨hlo, hhi, -⟩ := contains_iff.1 ha
  have hle := (RemoveBits.le_iff_dropBits_le h.sorted (fun l hl => by
    obtain ⟨m, hm, rfl⟩ := mem_lsbs.1 hl
    exact hw m hm) (hdvd _ hS) a.toNat).1 hlo
  have hin : (decide (S ≤ a) && decide (a < E)) = true := by
    rw [decide_eq_true (le_def.2 hlo), decide_eq_true (lt_def.2 hhi), Bool.and_self]
  have hsub : (AddrRange.mk S E masks v).getOffset a =
      (AddrRange.mk S E masks v).removeIntlvBits a - (AddrRange.mk S E masks v).removeIntlvBits S := by
    rw [getOffset]
    simp only [hin, Bool.not_true, Bool.false_eq_true, if_false]
    split
    · rfl
    · rename_i hplain
      rw [removeIntlvBits, removeIntlvBits, Bool.not_eq_true] at *
      simp only [hplain, Bool.not_false, if_true]
  have hrem := h.removeIntlvBits_toNat (AddrRange.mk S E masks v) rfl
  rw [hsub, BitVec.toNat_sub_of_le (le_def.2 (by rw [hrem, hrem]; exact hle)), hrem, hrem]
  omega

end Stripe

/-- **Interleaved ranges partition and linearise memory**: every address is in exactly one stripe, and `getOffset` maps
the addresses of a stripe in order onto the numbers below its size. -/
theorem interleaved_linear {masks : List Addr} (h : Interleaving masks) {S E : Addr}
    (hS : ∀ m ∈ masks, 2 ^ (ctz64 m + 1) ∣ S.toNat) (hE : ∀ m ∈ masks, 2 ^ (ctz64 m + 1) ∣ E.toNat) (hSE : S ≤ E) :
    (∀ a, S ≤ a → a < E → ∃! v, v < 2 ^ masks.length ∧ (AddrRange.mk S E masks v).contains a = true) ∧
    ∀ v < 2 ^ masks.length,
      (∀ a b, (AddrRange.mk S E masks v).contains a = true → (AddrRange.mk S E masks v).contains b = true → a < b →
        (AddrRange.mk S E masks v).getOffset a < (AddrRange.mk S E masks v).getOffset b) ∧
      (∀ a, (AddrRange.mk S E masks v).contains a = true →
        (AddrRange.mk S E masks v).getOffset a < (AddrRange.mk S E masks v).size) ∧
      ∀ o < (AddrRange.mk S E masks v).size,
        ∃ a, (AddrRange.mk S E masks v).contains a = true ∧ (AddrRange.mk S E masks v).getOffset a = o := by
  obtain ⟨w, hw, hdvd⟩ := exists_width masks
  have hw' : ∀ l ∈ lsbs masks, l < w := fun l hl => by
    obtain ⟨m, hm, rfl⟩ := mem_lsbs.1 hl
    exact hw m hm
  have hle := fun {t : Nat} (ht : 2 ^ w ∣ t) => RemoveBits.le_iff_dropBits_le h.sorted hw' ht
  have hlen : masks.length ≤ w := by
    have hsub : lsbs masks ⊆ List.range w := fun l hl => List.mem_range.2 (hw' l hl)
    have hnd : (lsbs masks).Nodup := h.sorted.imp Nat.ne_of_lt
    have hle := (List.subperm_of_subset hnd hsub).length_le
    rwa [length_lsbs, List.length_range] at hle
  have hdiv : ∀ {t : Nat}, 2 ^ w ∣ t → RemoveBits.dropBits 0 (lsbs masks) t = t / 2 ^ masks.length := fun ht => by
    rw [RemoveBits.dropBits_eq_div hw' ht, length_lsbs]
  have hSw := hdvd _ hS
  have hEw := hdvd _ hE
  -- the size, counted without the lowest bits
  have hsize : ∀ v, RemoveBits.dropBits 0 (lsbs masks) S.toNat + (AddrRange.mk S E masks v).size.toNat =
      RemoveBits.dropBits 0 (lsbs masks) E.toNat := by
    intro v
    have hbase : 2 ^ masks.length ∣ S.toNat := Nat.dvd_trans (Nat.pow_dvd_pow 2 hlen) hSw
    have hle := le_def.1 hSE
    rw [hdiv hSw, hdiv hEw, size, BitVec.toNat_ushiftRight, BitVec.toNat_sub_of_le hSE, Nat.shiftRight_eq_div_pow,
      ← Nat.add_div_of_dvd_right hbase, Nat.add_sub_cancel' hle]
  refine ⟨fun a hlo hhi => ⟨sel a masks, ⟨sel_lt a masks, ?_⟩, fun v hv => (contains_iff.1 hv.2).2.2.symm⟩,
    fun v hv => ⟨fun a b ha hb hlt => ?_, fun a ha => ?_, fun o ho => ?_⟩⟩
  · exact contains_iff.2 ⟨le_def.1 hlo, lt_def.1 hhi, rfl⟩
  · have hdrop := h.dropBits_lt_of_sel_eq (lt_def.1 hlt)
      ((contains_iff.1 ha).2.2.trans (contains_iff.1 hb).2.2.symm)
    have hoa := getOffset_toNat h hS ha
    have hob := getOffset_toNat h hS hb
    rw [lt_def]
    omega
  · have hoff := getOffset_toNat h hS ha
    have hend := (hle hEw a.toNat).not.1 (Nat.not_le.2 (contains_iff.1 ha).2.1)
    have := hsize v
    rw [lt_def]
    omega
  · obtain ⟨n, hdrop, hsel⟩ := h.exists_addr hv (RemoveBits.dropBits 0 (lsbs masks) S.toNat + o.toNat)
    have hsz := hsize v
    rw [lt_def] at ho
    have hlo : S.toNat ≤ n := (hle hSw n).2 (by omega)
    have hhi : n < E.toNat := Nat.not_le.1 fun hc => by
      have := (hle hEw n).1 hc
      omega
    have hn : (BitVec.ofNat 64 n).toNat = n := by
      rw [toNat_ofNat, Nat.mod_eq_of_lt (Nat.lt_trans hhi E.isLt)]
    have hc : (AddrRange.mk S E masks v).contains (BitVec.ofNat 64 n) = true :=
      contains_iff.2 ⟨hn.symm ▸ hlo, hn.symm ▸ hhi, hsel⟩
    refine ⟨BitVec.ofNat 64 n, hc, BitVec.eq_of_toNat_eq ?_⟩
    have hoff := getOffset_toNat h hS hc
    rw [hn, hdrop] at hoff
    exact Nat.add_left_cancel hoff

theorem ctz64_low : ctz64 0x140 = 6 := by decide +kernel

theorem ctz64_high : ctz64 0x280 = 7 := by decide +kernel

theorem interleaved_linear_xor :
    ∃ a, (AddrRange.mk 0x1000 0x3000 [0x140, 0x280] 2).contains a = true ∧
      (AddrRange.mk 0x1000 0x3000 [0x140, 0x280] 2).getOffset a = 0x7f := by
  have h : Interleaving [0x140, 0x280] := by
    constructor
    · rw [List.forall_mem_cons, List.forall_mem_singleton]
      decide
    · rw [List.pairwise_pair, ctz64_low, ctz64_high]
      decide
  have hS : ∀ m ∈ [(0x140 : Addr), 0x280], 2 ^ (ctz64 m + 1) ∣ (0x1000 : Addr).toNat := by
    rw [List.forall_mem_cons, List.forall_mem_singleton, ctz64_low, ctz64_high]
    decide
  have hE : ∀ m ∈ [(0x140 : Addr), 0x280], 2 ^ (ctz64 m + 1) ∣ (0x3000 : Addr).toNat := by
    rw [List.forall_mem_cons, List.forall_mem_singleton, ctz64_low, ctz64_high]
    decide
  exact ((interleaved_linear h hS hE (by decide)).2 2 (by decide)).2.2 0x7f (by decide)

end AddrRange

end Gem5
