import Gem5Cxl.AddrRangeOffset
/-!
# AddrRangeInverse — `addIntlvBits` against `removeIntlvBits` (`base/addr_range.hh`)

`addIntlvBits` opens a place for the lowest bit of each mask, and then gives that bit the value that selects the stripe.
To leave the bit out of the count it uses `~(1 << lsb)`, which is an `int`.  That is right below bit 31; at bit 31 the
result is positive and hides all higher bits, and from 32 on the shift is undefined and fails here.
-/
namespace Gem5

open BitVec (getLsbD_and getLsbD_not getLsbD_of_ge getLsbD_shiftLeft getLsbD_twoPow getLsbD_zero)

namespace AddrRange

/-- One round of the first loop of `addIntlvBits`. -/
def addBit (a : Addr) (intlvBit : Nat) : Addr :=
  if 0 < intlvBit then insertBits (a <<< 1) (BitVec.ofNat 32 intlvBit - 1) 0 a else a <<< 1

def notBit (lsb : Nat) : Except Failure Addr :=
  if lsb < 32 then .ok ((~~~ (1#32 <<< lsb)).signExtend 64) else .error .outOfBounds

/-- The second loop of `addIntlvBits`, from mask `i` on. -/
def selectStripe (intlvMatch : Nat) : Nat → List Addr → Addr → Except Failure Addr
  | _, [], a => .ok a
  | i, m :: ms, a => do
    let lsb := ctz64 m
    let intlvBit := BitVec.ofNat 64 (intlvMatch >>> i % 2)
    let ignore ← notBit lsb
    let masked := a &&& m &&& ignore
    selectStripe intlvMatch (i + 1) ms
      (insertBits a (BitVec.ofNat 32 lsb) (BitVec.ofNat 32 lsb) (intlvBit ^^^ BitVec.ofNat 64 (popCount masked)))

def addIntlvBits (r : AddrRange) (a : Addr) : Except Failure Addr :=
  if !r.interleaved then .ok a else selectStripe r.intlvMatch 0 r.masks (r.masksLsb.foldl addBit a)

/-! ## Opening the places -/

variable {l v : Nat} {ms : List Addr}

theorem getLsbD_addBit (a : Addr) {p : Nat} (hl : l < 64) (hp : RemoveBits.skip l p < 64) :
    (addBit a l).getLsbD (RemoveBits.skip l p) = a.getLsbD p := by
  have hfirst : (BitVec.ofNat 32 l - 1 + 1).toNat = l := by
    rw [BitVec.sub_add_cancel, BitVec.toNat_ofNat]
    omega
  have hzero : mask (0 : BitVec 32).toNat = 0 := rfl
  unfold addBit RemoveBits.skip at *
  split
  · simp only [insertBits, hfirst, hzero, BitVec.getLsbD_or, getLsbD_and, getLsbD_not, getLsbD_mask hl,
      getLsbD_shiftLeft]
    split
    · rename_i h
      have : p < 64 := by omega
      simp [h, this]
    · rename_i h
      rw [if_neg h] at hp
      have : ¬p + 1 < l := by omega
      simp [hp, this]
  · rename_i h
    rw [if_neg (by omega)] at hp ⊢
    rw [getLsbD_shiftLeft]
    simp [hp, BitVec.getLsbD_eq_getElem (show p < 64 by omega)]

theorem getLsbD_addBits {ls : List Nat} (hls : ∀ l ∈ ls, l < 64) (a : Addr) (p : Nat)
    (hp : RemoveBits.climb ls p < 64) : (ls.foldl addBit a).getLsbD (RemoveBits.climb ls p) = a.getLsbD p := by
  have hle : ∀ (ls : List Nat) (p : Nat), p ≤ RemoveBits.climb ls p := by
    intro ls
    induction ls with
    | nil => exact fun p => Nat.le_refl p
    | cons l ls ih =>
      intro p
      have hstep : p ≤ RemoveBits.skip l p := by
        rw [RemoveBits.skip]
        split <;> omega
      exact hstep.trans (ih _)
  induction ls generalizing a p with
  | nil => rfl
  | cons l ls ih =>
    have hskip : RemoveBits.skip l p < 64 := Nat.lt_of_le_of_lt (hle ls _) hp
    refine (ih (fun x hx => hls x (List.mem_cons_of_mem _ hx)) (addBit a l) (RemoveBits.skip l p) hp).trans ?_
    exact getLsbD_addBit a (hls l List.mem_cons_self) hskip

/-! ## Selecting the stripe -/

theorem getLsbD_insertBit (a v : Addr) (hl : l < 64) (j : Nat) :
    (insertBits a (BitVec.ofNat 32 l) (BitVec.ofNat 32 l) v).getLsbD j = if j = l then v.getLsbD 0 else a.getLsbD j := by
  have hlast : (BitVec.ofNat 32 l).toNat = l := by
    rw [BitVec.toNat_ofNat]
    omega
  have hfirst : (BitVec.ofNat 32 l + 1).toNat = l + 1 := by
    rw [BitVec.toNat_add, hlast]
    change (l + 1) % 2 ^ 32 = l + 1
    omega
  have hmask : (mask (l + 1)).getLsbD j = decide (j < l + 1) ∨ ¬j < 64 := by
    by_cases h : l + 1 < 64
    · exact .inl (getLsbD_mask h j)
    · by_cases hj : j < 64
      · rw [mask, if_pos (by omega), BitVec.getLsbD_allOnes]
        exact .inl (by simp; omega)
      · exact .inr hj
  by_cases hj : j < 64
  · simp only [insertBits, hfirst, hlast, BitVec.getLsbD_or, getLsbD_and, getLsbD_not,
      hmask.resolve_right (not_not_intro hj), getLsbD_mask hl, getLsbD_shiftLeft, hj]
    by_cases hjl : j = l
    · simp [hjl]
    · by_cases hlt : j < l
      · have : j < l + 1 := by omega
        simp [hjl, hlt, this]
      · have : ¬j < l + 1 := by omega
        simp [hjl, hlt, this]
  · rw [if_neg (by omega), getLsbD_of_ge _ _ (by omega), getLsbD_of_ge _ _ (by omega)]

theorem getLsbD_notBit {x : Addr} (h : notBit l = .ok x) :
    l < 32 ∧ ∀ j < 64, x.getLsbD j = if j < 32 then decide (j ≠ l) else decide (l ≠ 31) := by
  unfold notBit at h
  split at h
  · rename_i hl
    cases h
    have hbit : ∀ j < 32, (~~~ (1#32 <<< l)).getLsbD j = decide (j ≠ l) := by
      intro j hj
      rw [getLsbD_not, getLsbD_shiftLeft, BitVec.getLsbD_one, decide_eq_true hj]
      by_cases hlt : j < l
      · simp [hlt, Nat.ne_of_lt hlt]
      · by_cases heq : j = l
        · simp [heq]
        · have : j - l ≠ 0 := by omega
          simp [hlt, heq, this]
    refine ⟨hl, fun j hj => ?_⟩
    rw [BitVec.getLsbD_signExtend, decide_eq_true hj, Bool.true_and, BitVec.msb_eq_getLsbD_last, hbit 31 (by decide)]
    split
    · rename_i h32
      exact hbit j h32
    · exact decide_eq_decide.2 ne_comm
  · cases h

theorem toNat_getLsbD_xor (n k : Nat) :
    ((BitVec.ofNat 64 (n % 2) ^^^ BitVec.ofNat 64 k).getLsbD 0).toNat = (n + k) % 2 := by
  rw [BitVec.getLsbD_xor, BitVec.getLsbD_ofNat, BitVec.getLsbD_ofNat, Nat.testBit_zero, Nat.testBit_zero, Nat.add_mod]
  rcases Nat.mod_two_eq_zero_or_one n with hn | hn
  · rcases Nat.mod_two_eq_zero_or_one k with hk | hk <;> simp [hn, hk]
  · rcases Nat.mod_two_eq_zero_or_one k with hk | hk <;> simp [hn, hk]

theorem tail_of_cons {m : Addr} (h : Interleaving (m :: ms)) : Interleaving ms :=
  ⟨fun m' hm' => h.nonzero m' (List.mem_cons_of_mem _ hm'), (List.pairwise_cons.1 h.own).2⟩

/-- **What the second loop does**: it changes only the lowest bits of the masks, and gives each the parity of the stripe
and of what it counts under the mask. -/
theorem selectStripe_spec {i : Nat} {a b : Addr} (h : Interleaving ms) (heq : selectStripe v i ms a = .ok b) :
    (∀ j, (∀ m ∈ ms, ctz64 m ≠ j) → b.getLsbD j = a.getLsbD j) ∧
      ∀ t m, ms[t]? = some m → ∃ x, notBit (ctz64 m) = .ok x ∧
        (b.getLsbD (ctz64 m)).toNat = (v >>> (i + t) + popCount (b &&& m &&& x)) % 2 := by
  induction ms generalizing i a with
  | nil =>
    cases heq
    exact ⟨fun _ _ => rfl, fun t m hm => by simp at hm⟩
  | cons m ms ih =>
    rw [selectStripe] at heq
    obtain ⟨x, hx, heq⟩ := Run.bind_eq_ok.1 heq
    obtain ⟨hkeep, hsel⟩ := ih (tail_of_cons h) heq
    obtain ⟨h64, hbit, -⟩ := h.lsb List.mem_cons_self
    have hlsb := getLsbD_insertBit a (BitVec.ofNat 64 (v >>> i % 2) ^^^ BitVec.ofNat 64 (popCount (a &&& m &&& x))) h64
    have hown : ∀ m' ∈ ms, m.getLsbD (ctz64 m') = false := fun m' hm' => ((List.pairwise_cons.1 h.own).1 m' hm').2
    refine ⟨fun j hj => ?_, fun t m' hm' => ?_⟩
    · rw [hkeep j fun m' hm' => hj m' (List.mem_cons_of_mem _ hm'), hlsb, if_neg (hj m List.mem_cons_self).symm]
    · cases t with
      | succ t =>
        rw [show i + (t + 1) = i + 1 + t by omega]
        exact hsel t m' hm'
      | zero =>
        cases hm'
        have hx0 : x.getLsbD (ctz64 m) = false := by
          obtain ⟨hl, hbits⟩ := getLsbD_notBit hx
          rw [hbits _ h64, if_pos hl, decide_eq_false (not_not_intro rfl)]
        -- what is counted under the mask stays
        have hcount : b &&& m &&& x = a &&& m &&& x := by
          refine BitVec.eq_of_getLsbD_eq fun j _ => ?_
          simp only [getLsbD_and]
          by_cases hj : j = ctz64 m
          · rw [hj, hx0, Bool.and_false, Bool.and_false]
          · cases hmj : m.getLsbD j with
            | false => rw [Bool.and_false, Bool.and_false]
            | true =>
              rw [hkeep j fun m' hm' hc => ?_, hlsb, if_neg hj]
              rw [← hc, hown m' hm'] at hmj
              cases hmj
        refine ⟨x, hx, ?_⟩
        rw [hkeep (ctz64 m) fun m' hm' hc => ?_, hlsb, if_pos rfl, hcount, Nat.add_zero]
        · exact toNat_getLsbD_xor _ _
        · have := hown m' hm'
          rw [hc, hbit] at this
          cases this

theorem selectStripe_returns (h : ∀ m ∈ ms, ctz64 m < 32) (i : Nat) (a : Addr) :
    ∃ b, selectStripe v i ms a = .ok b := by
  induction ms generalizing i a with
  | nil => exact ⟨a, rfl⟩
  | cons m ms ih =>
    rw [selectStripe, notBit, if_pos (h m List.mem_cons_self)]
    exact ih (fun m' hm' => h m' (List.mem_cons_of_mem _ hm')) _ _

theorem sel_eq_iff_bits (b : Addr) {masks : List Addr} (hv : v < 2 ^ masks.length) :
    sel b masks = v ↔ ∀ t m, masks[t]? = some m → popCount (b &&& m) % 2 = v >>> t % 2 := by
  induction masks generalizing v with
  | nil =>
    rw [List.length_nil, Nat.pow_zero, Nat.lt_one_iff] at hv
    simp [sel, hv]
  | cons m ms ih =>
    rw [List.length_cons, Nat.pow_succ] at hv
    have htail := ih (v := v / 2) (by omega)
    have hmod := Nat.mod_lt (popCount (b &&& m)) Nat.two_pos
    rw [sel]
    constructor
    · intro heq t m' hm'
      cases t with
      | zero =>
        cases hm'
        rw [Nat.shiftRight_zero]
        omega
      | succ t =>
        rw [Nat.shiftRight_succ_inside]
        exact htail.1 (by omega) t m' hm'
    · intro hbits
      have hhead := hbits 0 m rfl
      rw [Nat.shiftRight_zero] at hhead
      have := htail.2 fun t m' hm' => by
        rw [← Nat.shiftRight_succ_inside]
        exact hbits (t + 1) m' hm'
      omega

end AddrRange

/-! ## The inverse -/

/-- A mask whose other bits survive `~(1 << lsb)`. -/
def KeepsMask (m : Addr) : Prop := ctz64 m < 31 ∨ ctz64 m = 31 ∧ ∀ j, 32 ≤ j → m.getLsbD j = false

namespace Interleaving

open AddrRange

variable {masks : List Addr} (h : Interleaving masks)

include h

theorem lsbs_lt {l : Nat} (hl : l ∈ lsbs masks) : l < 64 := by
  obtain ⟨m, hm, rfl⟩ := mem_lsbs.1 hl
  exact (h.lsb hm).1

theorem length_le : masks.length ≤ 64 := by
  have hsub : lsbs masks ⊆ List.range 64 := fun l hl => List.mem_range.2 (h.lsbs_lt hl)
  have hle := (List.subperm_of_subset (h.sorted.imp Nat.ne_of_lt) hsub).length_le
  rwa [length_lsbs, List.length_range] at hle

variable {p v : Nat} {b m E S o : Addr}

theorem source_lt_iff : RemoveBits.source 0 (lsbs masks) p < 64 ↔ p < 64 - masks.length := by
  have hlen := h.length_le
  constructor
  · intro hlt
    by_contra hge
    have hsrc := RemoveBits.source_eq 0 (lsbs masks) (64 - masks.length) fun l hl => by
      have := h.lsbs_lt hl
      rw [length_lsbs]
      omega
    have hmono := (RemoveBits.source_strictMono 0 (lsbs masks)).monotone (Nat.le_of_not_lt hge)
    rw [hsrc, length_lsbs] at hmono
    omega
  · intro hlt
    have := RemoveBits.source_le 0 (lsbs masks) p
    rw [length_lsbs] at this
    omega

theorem popCount_of_keepsMask {x : Addr} (hm : m ∈ masks) (hk : KeepsMask m) (hx : notBit (ctz64 m) = .ok x) :
    popCount (b &&& m) = popCount (b &&& m &&& x) + (b.getLsbD (ctz64 m)).toNat := by
  obtain ⟨h64, hbit, hbelow⟩ := h.lsb hm
  obtain ⟨hl, hbits⟩ := getLsbD_notBit hx
  rw [popCount_bit (x := b &&& m &&& x) (y := b &&& m) h64, getLsbD_and, hbit, Bool.and_true]
  · rw [getLsbD_and, hbits _ h64, if_pos hl, decide_eq_false (not_not_intro rfl), Bool.and_false]
  · intro j hj
    rw [getLsbD_and]
    by_cases hj64 : j < 64
    · rw [hbits j hj64]
      split
      · rw [decide_eq_true hj, Bool.and_true]
      · rename_i h32
        rcases hk with hk | ⟨-, hk⟩
        · rw [decide_eq_true (by omega), Bool.and_true]
        · rw [getLsbD_and, hk j (by omega), Bool.and_false, Bool.false_and]
    · rw [getLsbD_of_ge _ j (by omega), Bool.false_and]

omit h in
theorem addIntlvBits_eq (hne : masks ≠ []) (S E : Addr) (v : Nat) (o : Addr) :
    (AddrRange.mk S E masks v).addIntlvBits o = selectStripe v 0 masks ((lsbs masks).foldl addBit o) := by
  have hint : (AddrRange.mk S E masks v).interleaved = true := decide_eq_true (List.length_pos_iff.2 hne)
  rw [addIntlvBits, hint]
  rfl

theorem getLsbD_source (hne : masks ≠ []) (heq : (AddrRange.mk S E masks v).addIntlvBits o = .ok b)
    (hp : RemoveBits.source 0 (lsbs masks) p < 64) : b.getLsbD (RemoveBits.source 0 (lsbs masks) p) = o.getLsbD p := by
  rw [addIntlvBits_eq hne] at heq
  rw [(selectStripe_spec h heq).1 _ fun m hm hc => ?_]
  · rw [← RemoveBits.climb_eq_source h.sorted] at hp ⊢
    exact getLsbD_addBits (fun l hl => h.lsbs_lt hl) o p hp
  · exact RemoveBits.source_not_mem h.sorted p (mem_lsbs.2 ⟨m, hm, hc⟩)

theorem removeIntlvBits_addIntlvBits (hne : masks ≠ []) (heq : (AddrRange.mk S E masks v).addIntlvBits o = .ok b)
    (ho : o.toNat < 2 ^ (64 - masks.length)) : (AddrRange.mk S E masks v).removeIntlvBits b = o := by
  refine BitVec.eq_of_toNat_eq (Nat.eq_of_testBit_eq fun p => ?_)
  rw [h.removeIntlvBits_toNat _ rfl, RemoveBits.testBit_dropBits]
  by_cases hp : RemoveBits.source 0 (lsbs masks) p < 64
  · exact h.getLsbD_source hne heq hp
  · have hle : 64 - masks.length ≤ p := Nat.le_of_not_lt (h.source_lt_iff.not.1 hp)
    rw [Nat.testBit_lt_two_pow (ho.trans_le (Nat.pow_le_pow_right Nat.two_pos hle))]
    exact getLsbD_of_ge b _ (Nat.le_of_not_lt hp)

theorem removeIntlvBits_lt (S E : Addr) (v : Nat) (a : Addr) :
    ((AddrRange.mk S E masks v).removeIntlvBits a).toNat < 2 ^ (64 - masks.length) := by
  rw [h.removeIntlvBits_toNat _ rfl]
  refine Nat.lt_pow_two_of_testBit _ fun p hp => ?_
  rw [RemoveBits.testBit_dropBits]
  exact getLsbD_of_ge a _ (Nat.le_of_not_lt (h.source_lt_iff.not.2 (Nat.not_lt.2 hp)))

theorem eq_of_removeIntlvBits_eq {a : Addr} (hsel : sel a masks = sel b masks)
    (heq : (AddrRange.mk S E masks v).removeIntlvBits a = (AddrRange.mk S E masks v).removeIntlvBits b) : a = b := by
  have hnat := congrArg BitVec.toNat heq
  rw [h.removeIntlvBits_toNat _ rfl, h.removeIntlvBits_toNat _ rfl] at hnat
  refine BitVec.eq_of_toNat_eq (Nat.le_antisymm (Nat.le_of_not_lt fun hlt => ?_) (Nat.le_of_not_lt fun hlt => ?_))
  · exact Nat.ne_of_lt (h.dropBits_lt_of_sel_eq hlt hsel.symm) hnat.symm
  · exact Nat.ne_of_lt (h.dropBits_lt_of_sel_eq hlt hsel) hnat

/-- A mask with lowest bit 31 and a higher one: the higher bit is not counted, and a number that has it set gets the wrong
stripe. -/
theorem exists_wrong_stripe (hne : masks ≠ []) (hv : v < 2 ^ masks.length) (hm : m ∈ masks) (h31 : ctz64 m = 31)
    {j : Nat} (hj : 32 ≤ j) (hmj : m.getLsbD j = true) : ∃ o : Addr, o.toNat < 2 ^ (64 - masks.length) ∧
      ∀ b, (AddrRange.mk S E masks v).addIntlvBits o = .ok b → sel b masks ≠ v := by
  have hj64 : j < 64 := by
    by_contra hc
    rw [getLsbD_of_ge m j (by omega)] at hmj
    cases hmj
  -- no bit of the mask but 31 is a lowest bit
  have hstay : ∀ p, m.getLsbD p = true → p ≠ 31 → ∃ q, RemoveBits.source 0 (lsbs masks) q = p := by
    intro p hp hne31
    refine RemoveBits.exists_source h.sorted (fun _ _ => Nat.zero_le _) fun l hl heq => ?_
    obtain ⟨m', hm', rfl⟩ := mem_lsbs.1 hl
    rw [Nat.sub_zero] at heq
    rw [heq, h.getLsbD_lsb hm hm' (by omega)] at hp
    cases hp
  obtain ⟨q, hq⟩ := hstay j hmj (by omega)
  have hqlt : q < 64 - masks.length := h.source_lt_iff.1 (hq ▸ hj64)
  have hpow : 2 ^ q < 2 ^ (64 - masks.length) := Nat.pow_lt_pow_right (by decide) hqlt
  refine ⟨BitVec.twoPow 64 q, ?_, fun b hb hsel => ?_⟩
  · rw [BitVec.toNat_twoPow]
    exact (Nat.mod_le _ _).trans_lt hpow
  obtain ⟨t, hmt⟩ := List.mem_iff_getElem?.1 hm
  have hparity := (sel_eq_iff_bits b hv).1 hsel t m hmt
  obtain ⟨h64, hbit, hbelow⟩ := h.lsb hm
  have hsource := fun {p : Nat} => h.getLsbD_source hne hb (p := p)
  rw [addIntlvBits_eq hne] at hb
  obtain ⟨x, hx, hlsb⟩ := (selectStripe_spec h hb).2 t m hmt
  obtain ⟨-, hbits⟩ := getLsbD_notBit hx
  have hzero : b &&& m &&& x = 0 := by
    refine BitVec.eq_of_getLsbD_eq fun p hp => ?_
    rw [getLsbD_and, getLsbD_and, hbits p hp, show (0 : Addr) = 0#64 from rfl, getLsbD_zero]
    by_cases hp31 : p < 31
    · rw [hbelow p (h31 ▸ hp31), Bool.and_false, Bool.false_and]
    · split
      · rw [decide_eq_false (by omega), Bool.and_false]
      · rw [decide_eq_false (not_not_intro h31), Bool.and_false]
  have hone : popCount (b &&& m) = popCount (BitVec.twoPow 64 j) + (b.getLsbD (ctz64 m)).toNat := by
    rw [popCount_bit (x := BitVec.twoPow 64 j) (y := b &&& m) h64, getLsbD_and, hbit, Bool.and_true]
    · rw [getLsbD_twoPow, decide_eq_false (by omega : ¬j = ctz64 m), Bool.and_false]
    · intro p hp
      rw [getLsbD_twoPow, getLsbD_and, decide_eq_true hj64, Bool.true_and]
      cases hmp : m.getLsbD p with
      | false =>
        rw [Bool.and_false, decide_eq_false]
        rintro rfl
        rw [hmj] at hmp
        cases hmp
      | true =>
        obtain ⟨q', rfl⟩ := hstay p hmp (h31 ▸ hp)
        have hq64 : RemoveBits.source 0 (lsbs masks) q' < 64 := by
          by_contra hc
          rw [getLsbD_of_ge m _ (by omega)] at hmp
          cases hmp
        have hq' : q < 64 := by omega
        rw [Bool.and_true, hsource hq64, getLsbD_twoPow, decide_eq_true hq', Bool.true_and, ← hq]
        exact decide_eq_decide.2 (RemoveBits.source_strictMono 0 (lsbs masks)).injective.eq_iff
  have hpop : popCount (BitVec.twoPow 64 j) = popCount 0 + 1 := by
    refine popCount_succ hj64 getLsbD_zero ?_ fun p hp => ?_
    · rw [getLsbD_twoPow, decide_eq_true hj64, decide_eq_true rfl]
      rfl
    · rw [getLsbD_twoPow, decide_eq_false hp.symm, Bool.and_false]
      exact getLsbD_zero
  have hcount : popCount 0 = 0 := by decide +kernel
  rw [hzero, hcount, Nat.zero_add] at hlsb
  rw [hone, hpop, hcount, hlsb] at hparity
  omega

/-- **`addIntlvBits` inverts `removeIntlvBits` exactly if every mask keeps its bits**: its lowest bit is below 31, or is 31
and the only one. -/
theorem addIntlvBits_inverse_iff (hne : masks ≠ []) (S E : Addr) {v : Nat} (hv : v < 2 ^ masks.length) :
    ((∀ a, sel a masks = v →
        (AddrRange.mk S E masks v).addIntlvBits ((AddrRange.mk S E masks v).removeIntlvBits a) = .ok a) ∧
      ∀ o : Addr, o.toNat < 2 ^ (64 - masks.length) → ∃ a, (AddrRange.mk S E masks v).addIntlvBits o = .ok a ∧
        (AddrRange.mk S E masks v).removeIntlvBits a = o ∧ sel a masks = v) ↔ ∀ m ∈ masks, KeepsMask m := by
  constructor
  · rintro ⟨-, hall⟩ m hm
    obtain ⟨t, hmt⟩ := List.mem_iff_getElem?.1 hm
    obtain ⟨b, hb, -⟩ := hall 0 (Nat.two_pow_pos _)
    rw [addIntlvBits_eq hne] at hb
    obtain ⟨x, hx, -⟩ := (selectStripe_spec h hb).2 t m hmt
    have hlt := (getLsbD_notBit hx).1
    rcases Nat.lt_or_ge (ctz64 m) 31 with h31 | h31
    · exact .inl h31
    · refine .inr ⟨by omega, fun j hj => Bool.eq_false_iff.2 fun hmj => ?_⟩
      obtain ⟨o, ho, hwrong⟩ := h.exists_wrong_stripe hne (S := S) (E := E) hv hm (by omega) hj hmj
      obtain ⟨b', hb', -, hsel⟩ := hall o ho
      exact hwrong b' hb' hsel
  · intro hk
    have hall : ∀ o : Addr, o.toNat < 2 ^ (64 - masks.length) → ∃ a, (AddrRange.mk S E masks v).addIntlvBits o = .ok a ∧
        (AddrRange.mk S E masks v).removeIntlvBits a = o ∧ sel a masks = v := by
      intro o ho
      have hlow : ∀ m ∈ masks, ctz64 m < 32 := fun m hm => by rcases hk m hm with hlt | ⟨heq, -⟩ <;> omega
      obtain ⟨b, hb⟩ := selectStripe_returns (v := v) hlow 0 ((lsbs masks).foldl addBit o)
      have hadd := (addIntlvBits_eq hne S E v o).trans hb
      refine ⟨b, hadd, h.removeIntlvBits_addIntlvBits hne hadd ho, (sel_eq_iff_bits b hv).2 fun t m hmt => ?_⟩
      have hm := List.mem_iff_getElem?.2 ⟨t, hmt⟩
      obtain ⟨x, hx, hlsb⟩ := (selectStripe_spec h hb).2 t m hmt
      rw [h.popCount_of_keepsMask hm (hk m hm) hx, hlsb, Nat.zero_add]
      omega
    refine ⟨fun a ha => ?_, hall⟩
    obtain ⟨b, hb, hrem, hsel⟩ := hall _ (h.removeIntlvBits_lt S E v a)
    rw [hb, h.eq_of_removeIntlvBits_eq (hsel.trans ha.symm) hrem]

end Interleaving

theorem interleaving_single {m : Addr} (hm : m ≠ 0) : Interleaving [m] :=
  ⟨List.forall_mem_singleton.2 hm, List.pairwise_singleton ..⟩

theorem inverse_low : (AddrRange.mk 0 0x1000 [0x140] 1).addIntlvBits
    ((AddrRange.mk 0 0x1000 [0x140] 1).removeIntlvBits 0x55) = .ok 0x55 :=
  (((interleaving_single (by decide)).addIntlvBits_inverse_iff (by decide) 0 0x1000 (by decide)).2
    (List.forall_mem_singleton.2 (.inl (by decide +kernel)))).1 0x55 (by decide +kernel)

/-- **Bits 31 and 32 select the stripe**: address 2^32 is in stripe 1, and comes back with bit 31 set. -/
theorem inverse_bit31 : (AddrRange.mk 0 0x1000000000 [0x180000000] 1).contains 0x100000000 = true ∧
    (AddrRange.mk 0 0x1000000000 [0x180000000] 1).addIntlvBits
      ((AddrRange.mk 0 0x1000000000 [0x180000000] 1).removeIntlvBits 0x100000000) = .ok 0x180000000 := by
  decide +kernel

end Gem5
