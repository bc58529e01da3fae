import Gem5Cxl.AddrRangeMap
import Gem5Cxl.Bitfield
import Mathlib.Data.List.Pairwise
import Mathlib.Data.List.TakeWhile
/-!
# AddrRangeMapFind — what the range map finds

A search looks at one successor and at a run of predecessors that merge.  That is enough in a tree whose entries are
`Laid`: the spans of two entries are disjoint, or the two are stripes of one interleaving.
-/
namespace Gem5

namespace AddrRange

/-- The spans of two ranges meet, whatever their stripes. -/
def Overlaps (x y : AddrRange) : Prop := x.start < y.end_ ∧ y.start < x.end_

instance (x y : AddrRange) : Decidable (x.Overlaps y) := inferInstanceAs (Decidable (_ ∧ _))

/-- Two entries of one tree: their spans are disjoint or they are different stripes of one interleaving. -/
def Apart (x y : AddrRange) : Prop :=
  ¬ x.Overlaps y ∨ (x.interleaved = true ∧ x.mergesWith y = true ∧ x.intlvMatch ≠ y.intlvMatch)

def Before (x y : AddrRange) : Prop := x.lt y = true ∧ x.Apart y

variable {x y z r n : AddrRange} {a : Addr}

theorem mergesWith_iff : x.mergesWith y = true ↔ y.start = x.start ∧ y.end_ = x.end_ ∧ y.masks = x.masks := by
  simp only [mergesWith, Bool.and_eq_true, beq_iff_eq, and_assoc]

theorem mergesWith_symm (h : x.mergesWith y = true) : y.mergesWith x = true := by
  rw [mergesWith_iff] at h ⊢
  exact ⟨h.1.symm, h.2.1.symm, h.2.2.symm⟩

theorem mergesWith_trans (hxy : x.mergesWith y = true) (hyz : y.mergesWith z = true) : x.mergesWith z = true := by
  rw [mergesWith_iff] at hxy hyz ⊢
  exact ⟨hyz.1.trans hxy.1, hyz.2.1.trans hxy.2.1, hyz.2.2.trans hxy.2.2⟩

theorem interleaved_of_mergesWith (h : x.mergesWith y = true) : y.interleaved = x.interleaved := by
  rw [interleaved, interleaved, (mergesWith_iff.1 h).2.2]

theorem Overlaps.symm (h : x.Overlaps y) : y.Overlaps x := ⟨h.2, h.1⟩

theorem Overlaps.of_merges (h : x.Overlaps y) (hm : y.mergesWith z = true) : x.Overlaps z := by
  obtain ⟨hs, he, -⟩ := mergesWith_iff.1 hm
  exact ⟨he ▸ h.1, hs ▸ h.2⟩

theorem Apart.symm (h : x.Apart y) : y.Apart x := by
  rcases h with h | ⟨hi, hm, hne⟩
  · exact Or.inl fun ho => h ho.symm
  · exact Or.inr ⟨(interleaved_of_mergesWith hm).trans hi, mergesWith_symm hm, hne.symm⟩

theorem Apart.of_overlaps (h : x.Apart y) (ho : x.Overlaps y) :
    x.interleaved = true ∧ x.mergesWith y = true ∧ x.intlvMatch ≠ y.intlvMatch := h.resolve_left (not_not_intro ho)

/-! ## The order of the keys -/

theorem start_le_of_lt (h : x.lt y = true) : x.start ≤ y.start := by
  unfold lt at h
  split at h
  · exact BitVec.le_of_lt (of_decide_eq_true h)
  · rename_i he
    exact BitVec.le_of_eq (not_not.1 he)

theorem start_le_of_not_lt (h : x.lt y = false) : y.start ≤ x.start := by
  unfold lt at h
  split at h
  · exact BitVec.not_lt.1 (decide_eq_false_iff_not.1 h)
  · rename_i he
    exact BitVec.le_of_eq (not_not.1 he).symm

theorem lt_of_start_eq (h : x.start = y.start) :
    x.lt y = if x.interleaved && y.interleaved then decide (x.intlvMatch < y.intlvMatch) else x.interleaved := by
  rw [lt, if_neg (not_not_intro h)]

theorem lt_of_plain (h : x.interleaved = false) (y : AddrRange) : x.lt y = decide (x.start < y.start) := by
  unfold lt
  split
  · rfl
  · rename_i he
    rw [h, Bool.false_and, if_neg (by simp), not_not.1 he]
    exact (decide_eq_false (BitVec.lt_irrefl _)).symm

theorem lt_of_merges (hi : x.interleaved = true) (hm : x.mergesWith y = true) :
    x.lt y = decide (x.intlvMatch < y.intlvMatch) := by
  rw [lt_of_start_eq (mergesWith_iff.1 hm).1.symm, interleaved_of_mergesWith hm, hi, Bool.and_self, if_pos rfl]

theorem lt_trans (hxy : x.lt y = true) (hyz : y.lt z = true) : x.lt z = true := by
  by_cases hs : x.start = z.start
  · have hsy : x.start = y.start :=
      BitVec.le_antisymm (start_le_of_lt hxy) (hs ▸ start_le_of_lt hyz)
    rw [lt_of_start_eq hsy] at hxy
    rw [lt_of_start_eq (hsy.symm.trans hs)] at hyz
    rw [lt_of_start_eq hs]
    cases hx : x.interleaved <;> cases hy : y.interleaved <;> cases hz : z.interleaved <;>
      simp only [hx, hy, hz, Bool.and_self, Bool.and_true, Bool.and_false, if_true, if_false, Bool.false_eq_true,
        decide_eq_true_eq] at hxy hyz ⊢
    exact Nat.lt_trans hxy hyz
  · have hle : x.start ≤ z.start := BitVec.le_trans (start_le_of_lt hxy) (start_le_of_lt hyz)
    rw [lt, if_pos hs]
    exact decide_eq_true (BitVec.lt_of_le_ne hle hs)

theorem Apart.lt_or_lt (h : x.Apart y) (hx : x.start < x.end_) (hy : y.start < y.end_) :
    x.lt y = true ∨ y.lt x = true := by
  by_cases hs : x.start = y.start
  · have ho : x.Overlaps y := ⟨hs ▸ hy, hs ▸ hx⟩
    obtain ⟨hi, hm, hne⟩ := h.of_overlaps ho
    rw [lt_of_merges hi hm, lt_of_merges ((interleaved_of_mergesWith hm).trans hi) (mergesWith_symm hm)]
    simp only [decide_eq_true_eq]
    omega
  · rw [lt, lt, if_pos hs, if_pos (Ne.symm hs)]
    simp only [decide_eq_true_eq]
    bv_omega

/-! ## The two conditions a search tests -/

theorem contains_iff_span : r.contains a = true ↔ r.start ≤ a ∧ a < r.end_ ∧ sel a r.masks = r.intlvMatch := by
  simp only [contains, Bool.and_eq_true, decide_eq_true_eq, and_assoc]

theorem span_of_contains (h : r.contains a = true) : r.start < r.end_ :=
  let ⟨hs, he, _⟩ := contains_iff_span.1 h
  Std.lt_of_le_of_lt hs he

/-- Some mask has a bit that survives in the `int` in which `granularity` combines the masks; otherwise it shifts by the
    width of the word. -/
def LowMask (r : AddrRange) : Prop := ∃ m ∈ r.masks, m.setWidth 32 ≠ 0

instance (r : AddrRange) : Decidable r.LowMask := inferInstanceAs (Decidable (∃ m ∈ r.masks, _))

theorem getLsbD_combinedMask (masks : List Addr) (c : BitVec 32) (i : Nat) :
    (masks.foldl (fun c m => c ||| m.setWidth 32) c).getLsbD i =
      (c.getLsbD i || masks.any (fun m => (m.setWidth 32).getLsbD i)) := by
  induction masks generalizing c with
  | nil => simp
  | cons m ms ih => rw [List.foldl_cons, ih, List.any_cons, BitVec.getLsbD_or, Bool.or_assoc]

theorem exists_getLsbD_of_ne_zero {w : Nat} {x : BitVec w} (h : x ≠ 0) : ∃ i < w, x.getLsbD i = true := by
  by_contra hno
  push Not at hno
  refine h (BitVec.eq_of_getLsbD_eq fun i hi => ?_)
  rw [show (0 : BitVec w) = 0#w from rfl, BitVec.getLsbD_zero]
  exact Bool.not_eq_true _ ▸ hno i hi

theorem one_le_granularity (hi : r.interleaved = true) (hl : r.LowMask) : 1 ≤ r.granularity := by
  obtain ⟨m, hm, hne⟩ := hl
  obtain ⟨i, hi32, hbit⟩ := exists_getLsbD_of_ne_zero hne
  rw [granularity, if_pos hi]
  generalize hc : r.masks.foldl (fun c m => c ||| m.setWidth 32) (0 : BitVec 32) = combined
  have hcomb : combined.getLsbD i = true := by
    rw [← hc, getLsbD_combinedMask]
    exact Bool.or_eq_true_iff.2 (Or.inr (List.any_eq_true.2 ⟨m, hm, hbit⟩))
  have hext : (combined.signExtend 64).getLsbD i = true := by
    rw [BitVec.getLsbD_signExtend, if_pos hi32, hcomb]
    simp only [Bool.and_true, decide_eq_true_eq]
    omega
  obtain ⟨hlt, -, -⟩ := ctz64_spec (by omega) hext
  dsimp only
  generalize ctz64 (combined.signExtend 64) = k at hlt ⊢
  have hpow : 2 ^ k < 2 ^ 64 := Nat.pow_lt_pow_right (by omega) hlt
  rw [BitVec.le_def, BitVec.toNat_shiftLeft, Nat.shiftLeft_eq]
  change 1 ≤ 1 * 2 ^ k % 2 ^ 64
  rw [Nat.one_mul, Nat.mod_eq_of_lt hpow]
  exact Nat.two_pow_pos k

/-- **The one-address range of `contains(Addr)` is inside a range exactly if the address is**, unless the range is plain
    and the address the last one: its end is then 0, below every end. -/
theorem rangeSize_one_isSubset (hplain : r.interleaved = false → r.intlvMatch = 0 ∧ a ≠ -1)
    (hlow : r.interleaved = true → r.LowMask) : (rangeSize a 1).isSubset r = .ok (r.contains a) := by
  have hq : (rangeSize a 1).interleaved = false := rfl
  unfold isSubset
  rw [hq, if_neg (by simp)]
  cases hi : r.interleaved with
  | true =>
    have hend : (rangeSize a 1).end_ - 1 = a := BitVec.add_sub_cancel a 1
    have hsize : (rangeSize a 1).size = 1 := by
      change (a + 1 - a) >>> 0 = 1
      rw [BitVec.ushiftRight_zero, BitVec.add_comm, BitVec.add_sub_cancel]
    rw [if_pos rfl, hend, hsize, decide_eq_true (one_le_granularity hi (hlow hi)), Bool.and_true]
    exact congrArg Except.ok (Bool.and_self _)
  | false =>
    have hmasks : r.masks = [] := by simpa [interleaved] using hi
    have hend : (rangeSize a 1).end_ ≤ r.end_ ↔ a < r.end_ := by
      have hne := (hplain hi).2
      change a + 1 ≤ r.end_ ↔ _
      bv_omega
    rw [if_neg (by simp), contains, hmasks, (hplain hi).1, decide_eq_decide.2 hend]
    exact congrArg Except.ok (Bool.and_true _).symm

/-- A pair the intersection test does not take for a single address at the start of its span. -/
def NotUnit (r n : AddrRange) : Prop :=
  r.Overlaps n → r.interleaved = true ∨ n.interleaved = true → n.size ≠ 1

theorem apart_of_intersects_false (hu : r.NotUnit n) (h : r.intersects n = .ok false) : r.Apart n := by
  by_cases ho : r.Overlaps n
  · unfold intersects at h
    rw [if_neg (by rintro (hs | he); exacts [BitVec.not_le.2 ho.1 hs, BitVec.not_le.2 ho.2 he])] at h
    split at h
    · cases h
    · rename_i hplain
      have hint : r.interleaved = true ∨ n.interleaved = true := by
        by_contra hno
        push Not at hno
        simp [hno.1, hno.2] at hplain
      rw [if_neg (hu ho hint)] at h
      split at h
      · rename_i hm
        have hi : r.interleaved = true := hint.elim id fun hn => (interleaved_of_mergesWith hm).symm.trans hn
        refine Or.inr ⟨hi, hm, ?_⟩
        simpa using h
      · cases h
  · exact Or.inl ho

/-- The spans meet only if both are plain or both belong to one interleaving. -/
def Compatible (r n : AddrRange) : Prop :=
  r.Overlaps n → (r.interleaved = false ∧ n.interleaved = false) ∨ r.mergesWith n = true

instance (r n : AddrRange) : Decidable (r.Compatible n) := inferInstanceAs (Decidable (_ → _))

theorem intersects_ok (hc : r.Compatible n) : ∃ b, r.intersects n = .ok b := by
  unfold intersects
  split
  · exact ⟨_, rfl⟩
  · rename_i hno
    split
    · exact ⟨_, rfl⟩
    · rename_i hplain
      split
      · exact ⟨_, rfl⟩
      · have ho : r.Overlaps n :=
          ⟨BitVec.not_le.1 fun hle => hno (Or.inl hle), BitVec.not_le.1 fun hle => hno (Or.inr hle)⟩
        rcases hc ho with ⟨hr, hn⟩ | hm
        · simp [hr, hn] at hplain
        · rw [if_pos hm]
          exact ⟨_, rfl⟩

theorem Apart.disjoint (h : x.Apart y) (a : Addr) : ¬ (x.contains a = true ∧ y.contains a = true) := by
  rintro ⟨hx, hy⟩
  obtain ⟨hxs, hxe, hxsel⟩ := contains_iff_span.1 hx
  obtain ⟨hys, hye, hysel⟩ := contains_iff_span.1 hy
  obtain ⟨-, hm, hne⟩ := h.of_overlaps ⟨Std.lt_of_le_of_lt hxs hye, Std.lt_of_le_of_lt hys hxe⟩
  rw [(mergesWith_iff.1 hm).2.2, hxsel] at hysel
  exact hne hysel

theorem exists_shared_of_intersects (hr : ∃ a, r.contains a = true) (hn : ∃ a, n.contains a = true)
    (hc : r.Compatible n) (hu : r.NotUnit n) (h : r.intersects n = .ok true) :
    ∃ a, r.contains a = true ∧ n.contains a = true := by
  obtain ⟨a, ha⟩ := hr
  obtain ⟨b, hb⟩ := hn
  have ho : r.Overlaps n := by
    by_contra hno
    rw [intersects, if_pos] at h
    · cases h
    · by_contra hor
      push Not at hor
      exact hno ⟨BitVec.not_le.1 hor.1, BitVec.not_le.1 hor.2⟩
  obtain ⟨hrs, hre, hrsel⟩ := contains_iff_span.1 ha
  obtain ⟨hns, hne, hnsel⟩ := contains_iff_span.1 hb
  by_cases hplain : r.interleaved = false ∧ n.interleaved = false
  · -- two plain ranges share the later of their starts
    have hmr : r.masks = [] := by simpa [interleaved] using hplain.1
    have hmn : n.masks = [] := by simpa [interleaved] using hplain.2
    rw [hmr] at hrsel
    rw [hmn] at hnsel
    by_cases hle : r.start ≤ n.start
    · refine ⟨n.start, contains_iff_span.2 ⟨hle, ho.2, ?_⟩, contains_iff_span.2 ⟨BitVec.le_refl _, ?_, ?_⟩⟩
      · rw [hmr, ← hrsel]
        rfl
      · exact Std.lt_of_le_of_lt hns hne
      · rw [hmn, ← hnsel]
        rfl
    · have hle' : n.start ≤ r.start := BitVec.le_of_lt (BitVec.not_le.1 hle)
      refine ⟨r.start, contains_iff_span.2 ⟨BitVec.le_refl _, ?_, ?_⟩, contains_iff_span.2 ⟨hle', ho.1, ?_⟩⟩
      · exact Std.lt_of_le_of_lt hrs hre
      · rw [hmr, ← hrsel]
        rfl
      · rw [hmn, ← hnsel]
        rfl
  · have hm : r.mergesWith n = true := (hc ho).resolve_left hplain
    have hint : r.interleaved = true := by
      by_contra hno
      rw [Bool.not_eq_true] at hno
      exact hplain ⟨hno, (interleaved_of_mergesWith hm).trans hno⟩
    rw [intersects, if_neg (by rintro (hs | he); exacts [BitVec.not_le.2 ho.1 hs, BitVec.not_le.2 ho.2 he]), hint,
      if_neg (by simp), if_neg (hu ho (Or.inl hint)), if_pos hm] at h
    obtain ⟨hs, he, hms⟩ := mergesWith_iff.1 hm
    have hmatch : r.intlvMatch = n.intlvMatch := by simpa using h
    exact ⟨a, ha, contains_iff_span.2 ⟨hs ▸ hrs, he ▸ hre, by rw [hms, hrsel, hmatch]⟩⟩

end AddrRange

namespace AddrRangeMap

variable {V : Type}

open AddrRange

/-- **A tree in which a search is exact**: entries are in key order, apart, and of non-empty span. -/
structure Laid (tree : List (RangeNode V)) : Prop where
  order : tree.Pairwise (fun m n => m.range.Before n.range)
  span : ∀ n ∈ tree, n.range.start < n.range.end_

theorem laid_nil : Laid ([] : List (RangeNode V)) := ⟨List.Pairwise.nil, by simp⟩

variable {t l : List (RangeNode V)} {n n' : RangeNode V} {a : Addr} {m m' : AddrRangeMap V} {r : AddrRange}
  {cond : AddrRange → Except Failure Bool} {maxCacheSize : Nat} {d : V} {op : Op V}

theorem Laid.sublist {t' : List (RangeNode V)} (h : Laid t) (hs : t'.Sublist t) : Laid t' :=
  ⟨h.order.sublist hs, fun n hn => h.span n (hs.subset hn)⟩

theorem Laid.apart (h : Laid t) (hn : n ∈ t) (hn' : n' ∈ t) (hne : n ≠ n') : n.range.Apart n'.range := by
  have : Std.Symm (fun m n : RangeNode V => m.range.Apart n.range) := ⟨fun _ _ ha => ha.symm⟩
  exact (h.order.imp fun hb => hb.2).forall hn hn' hne

theorem Laid.unique (h : Laid t) (hn : n ∈ t) (hn' : n' ∈ t) (ha : n.range.contains a = true)
    (ha' : n'.range.contains a = true) : n = n' := by
  by_contra hne
  exact (h.apart hn hn' hne).disjoint a ⟨ha, ha'⟩

/-! ## The nodes around a key -/

theorem mem_below (h : n ∈ m.below r) : n ∈ m.tree ∧ r.lt n.range = false :=
  ⟨(List.takeWhile_sublist _).subset h, by simpa using List.mem_takeWhile_imp h⟩

theorem mem_above (h : n ∈ m.above r) : n ∈ m.tree :=
  (List.dropWhile_sublist _).subset h

theorem head_above (h : (m.above r).head? = some n) : r.lt n.range = true := by
  have := List.head?_dropWhile_not (fun n : RangeNode V => !r.lt n.range) m.tree
  rw [show m.tree.dropWhile (fun n => !r.lt n.range) = m.above r from rfl, h] at this
  simpa using this

theorem above_cases (hl : Laid m.tree) (h : n ∈ m.above r) :
    ∃ next, (m.above r).head? = some next ∧ next ∈ m.tree ∧ r.lt next.range = true ∧
      (n = next ∨ next.range.Before n.range) := by
  have hlaid := hl.sublist (List.dropWhile_sublist (fun n : RangeNode V => !r.lt n.range))
  change Laid (m.above r) at hlaid
  cases ha : m.above r with
  | nil =>
    rw [ha] at h
    cases h
  | cons next rest =>
    have hnext : next ∈ m.tree := mem_above (ha ▸ List.mem_cons_self : next ∈ m.above r)
    refine ⟨next, rfl, hnext, head_above (by rw [ha]; rfl), ?_⟩
    rw [ha] at h hlaid
    exact (List.mem_cons.1 h).imp_right fun hmem => (List.pairwise_cons.1 hlaid.order).1 n hmem

theorem lt_of_mem_above (hl : Laid m.tree) (h : n ∈ m.above r) : r.lt n.range = true := by
  obtain ⟨next, -, -, hlt, rfl | hb⟩ := above_cases hl h
  · exact hlt
  · exact AddrRange.lt_trans hlt hb.1

theorem below_cases (hl : Laid m.tree) (h : n ∈ m.below r) :
    ∃ last, (m.below r).reverse.head? = some last ∧ last ∈ m.below r ∧ (n = last ∨ n.range.Before last.range) := by
  have hlaid : Laid (m.below r) := hl.sublist (List.takeWhile_sublist _)
  have horder := List.pairwise_reverse.2 hlaid.order
  cases hb : (m.below r).reverse with
  | nil =>
    rw [List.reverse_eq_nil_iff.1 hb] at h
    cases h
  | cons last rest =>
    have hmem : last ∈ m.below r := List.mem_reverse.1 (hb ▸ List.mem_cons_self)
    refine ⟨last, rfl, hmem, ?_⟩
    have hn := List.mem_reverse.2 h
    rw [hb] at hn horder
    exact (List.mem_cons.1 hn).imp_right fun hr => (List.pairwise_cons.1 horder).1 n hr

theorem mem_tree_cases (r : AddrRange) (h : n ∈ m.tree) : n ∈ m.below r ∨ n ∈ m.above r := by
  rw [← below_append_above m r] at h
  exact List.mem_append.1 h

theorem searchTree_none (h : m.searchTree r cond = .ok none) :
    (∀ next, (m.above r).head? = some next → cond next.range = .ok false) ∧
      searchBack cond (m.below r).reverse = .ok none := by
  unfold searchTree at h
  split at h
  · rename_i next hnext
    rw [Run.bind_eq_ok] at h
    obtain ⟨hit, hc, h⟩ := h
    cases hit with
    | true => cases h
    | false =>
      refine ⟨fun next' hnext' => ?_, h⟩
      cases hnext.symm.trans hnext'
      exact hc
  · rename_i hnext
    refine ⟨fun next hn => ?_, h⟩
    rw [hnext] at hn
    cases hn

theorem searchBack_none_head (h : searchBack cond l = .ok none) (hn : l.head? = some n) : cond n.range = .ok false := by
  cases l with
  | nil => cases hn
  | cons i rest =>
    cases hn
    simp only [searchBack, Run.bind_eq_ok] at h
    obtain ⟨hit, hc, h⟩ := h
    cases hit with
    | true => cases h
    | false => exact hc

/-! ## Looking up an address -/

theorem searchBack_none_contains (horder : l.Pairwise (fun n m => m.range.Before n.range))
    (hspan : ∀ n ∈ l, n.range.start < n.range.end_) (hle : ∀ n ∈ l, n.range.start ≤ a)
    (hcond : ∀ n ∈ l, cond n.range = .ok (n.range.contains a)) (h : searchBack cond l = .ok none) :
    ∀ n ∈ l, n.range.contains a = false := by
  -- an entry with the address merges with every later entry that starts at or below the address
  have merges : ∀ {x y : AddrRange}, x.Before y → y.start < y.end_ → y.start ≤ a → x.contains a = true →
      x.mergesWith y = true := by
    intro x y hb hy hya hx
    obtain ⟨-, hxe, -⟩ := contains_iff_span.1 hx
    have hsle := start_le_of_lt hb.1
    exact (hb.2.of_overlaps ⟨Std.lt_of_le_of_lt hsle hy, Std.lt_of_le_of_lt hya hxe⟩).2.1
  induction l with
  | nil => simp
  | cons i rest ih =>
    rw [List.forall_mem_cons] at hspan hle hcond
    obtain ⟨hbefore, horder⟩ := List.pairwise_cons.1 horder
    simp only [searchBack, Run.bind_eq_ok] at h
    obtain ⟨hit, hc, h⟩ := h
    rw [hcond.1] at hc
    cases hit with
    | true => cases h
    | false =>
      refine List.forall_mem_cons.2 ⟨by simpa using hc, ?_⟩
      simp only [Bool.false_eq_true, if_false] at h
      split at h
      · rename_i hnil
        rw [List.head?_eq_none_iff.1 hnil]
        simp
      · rename_i next hnext
        split at h
        · exact ih horder hspan.2 hle.2 hcond.2 h
        · rename_i hno
          intro n hn
          by_contra hcont
          rw [Bool.not_eq_false] at hcont
          have hi := merges (hbefore n hn) hspan.1 hle.1 hcont
          refine hno ?_
          cases rest with
          | nil => cases hnext
          | cons x rest =>
            cases hnext
            rcases List.mem_cons.1 hn with rfl | hn'
            · exact hi
            · have hnextm := merges ((List.pairwise_cons.1 horder).1 n hn') (hspan.2 next List.mem_cons_self)
                (hle.2 next List.mem_cons_self) hcont
              exact mergesWith_trans (mergesWith_symm hnextm) hi

/-- **A lookup that finds nothing**: no entry has the address. -/
theorem searchTree_none_contains (hl : Laid m.tree) (hcond : ∀ n ∈ m.tree, cond n.range = .ok (n.range.contains a))
    (h : m.searchTree (rangeSize a 1) cond = .ok none) : ∀ n ∈ m.tree, n.range.contains a = false := by
  have hplain : (rangeSize a 1).interleaved = false := rfl
  have hlaid : Laid (m.below (rangeSize a 1)) := hl.sublist (List.takeWhile_sublist _)
  intro n hn
  rcases mem_tree_cases (rangeSize a 1) hn with hb | ha
  · refine searchBack_none_contains (List.pairwise_reverse.2 hlaid.order) ?_ ?_ ?_ (searchTree_none h).2 n
      (List.mem_reverse.2 hb)
    · exact fun x hx => hlaid.span x (List.mem_reverse.1 hx)
    · intro x hx
      exact start_le_of_not_lt (mem_below (List.mem_reverse.1 hx)).2
    · exact fun x hx => hcond x (mem_below (List.mem_reverse.1 hx)).1
  · have hlt := lt_of_mem_above hl ha
    rw [lt_of_plain hplain, decide_eq_true_eq] at hlt
    by_contra hcont
    rw [Bool.not_eq_false] at hcont
    exact BitVec.not_le.2 hlt (contains_iff_span.1 hcont).1

/-! ## Testing a range against the tree -/

/-- **A range that meets no entry the search tries is apart from every entry.** -/
theorem searchTree_none_apart (hl : Laid m.tree) (hu : ∀ n ∈ m.tree, r.NotUnit n.range)
    (h : m.searchTree r r.intersects = .ok none) : ∀ n ∈ m.tree, r.Apart n.range := by
  intro n hn
  by_cases ho : r.Overlaps n.range
  swap
  · exact Or.inl ho
  obtain ⟨hnext, hback⟩ := searchTree_none h
  rcases mem_tree_cases r hn with hb | ha
  · obtain ⟨last, hlast, hmem, hcase⟩ := below_cases hl hb
    obtain ⟨hmt, hnlt⟩ := mem_below hmem
    have hapart := apart_of_intersects_false (hu last hmt) (searchBack_none_head hback hlast)
    rcases hcase with rfl | hbefore
    · exact hapart
    · -- the predecessor starts inside the span of the entry, so it is a stripe of the same interleaving
      have hstart : last.range.start < n.range.end_ := Std.lt_of_le_of_lt (start_le_of_not_lt hnlt) ho.1
      have hover : n.range.Overlaps last.range :=
        ⟨Std.lt_of_le_of_lt (start_le_of_lt hbefore.1) (hl.span last hmt), hstart⟩
      obtain ⟨hni, hnm, -⟩ := hbefore.2.of_overlaps hover
      obtain ⟨hri, hrm, -⟩ := hapart.of_overlaps (ho.of_merges hnm)
      have hlt := hbefore.1
      rw [lt_of_merges hni hnm, decide_eq_true_eq] at hlt
      rw [lt_of_merges hri hrm, decide_eq_false_iff_not] at hnlt
      exact Or.inr ⟨hri, mergesWith_trans hrm (mergesWith_symm hnm), by omega⟩
  · obtain ⟨next, hhead, hmt, hlt, hcase⟩ := above_cases hl ha
    have hapart := apart_of_intersects_false (hu next hmt) (hnext next hhead)
    rcases hcase with rfl | hbefore
    · exact hapart
    · have hover : r.Overlaps next.range :=
        ⟨Std.lt_of_le_of_lt (start_le_of_lt hlt) (hl.span next hmt),
          Std.lt_of_le_of_lt (start_le_of_lt hbefore.1) ho.2⟩
      obtain ⟨hri, hrm, -⟩ := hapart.of_overlaps hover
      have hover' : n.range.Overlaps next.range := ho.symm.of_merges hrm
      obtain ⟨hxi, hxm, -⟩ := hbefore.2.of_overlaps hover'.symm
      have hlt' := hbefore.1
      rw [lt_of_merges hri hrm, decide_eq_true_eq] at hlt
      rw [lt_of_merges hxi hxm, decide_eq_true_eq] at hlt'
      exact Or.inr ⟨hri, mergesWith_trans hrm hxm, by omega⟩

/-! ## Searches that answer -/

theorem searchBack_ok (h : ∀ n ∈ l, ∃ b, cond n.range = .ok b) : ∃ res, searchBack cond l = .ok res := by
  induction l with
  | nil => exact ⟨none, rfl⟩
  | cons i rest ih =>
    obtain ⟨⟨b, hb⟩, hrest⟩ := List.forall_mem_cons.1 h
    rw [searchBack, hb, Run.ok_bind]
    split
    · exact ⟨_, rfl⟩
    · split
      · exact ⟨_, rfl⟩
      · split
        · exact ih hrest
        · exact ⟨_, rfl⟩

theorem searchTree_ok (h : ∀ n ∈ m.tree, ∃ b, cond n.range = .ok b) : ∃ res, m.searchTree r cond = .ok res := by
  have hback : ∃ res, searchBack cond (m.below r).reverse = .ok res :=
    searchBack_ok fun n hn => h n (mem_below (List.mem_reverse.1 hn)).1
  unfold searchTree
  split
  · rename_i next hnext
    obtain ⟨b, hb⟩ := h next (mem_above (List.mem_of_mem_head? hnext))
    rw [hb, Run.ok_bind]
    split
    · exact ⟨_, rfl⟩
    · exact hback
  · exact hback

theorem searchCache_ok (hm : Numbered m) (h : ∀ n ∈ m.tree, ∃ b, cond n.range = .ok b) {cs : List Nat}
    (hlive : ∀ c ∈ cs, c ∈ m.tree.map RangeNode.id) : ∃ res, m.searchCache cond cs = .ok res := by
  induction cs with
  | nil => exact ⟨none, rfl⟩
  | cons c cs ih =>
    obtain ⟨hc, hrest⟩ := List.forall_mem_cons.1 hlive
    obtain ⟨n, hn, rfl⟩ := List.mem_map.1 hc
    obtain ⟨b, hb⟩ := h n hn
    rw [searchCache, hm.deref hn, Run.ok_bind, hb, Run.ok_bind]
    split
    · exact ⟨_, rfl⟩
    · exact ih hrest

theorem find_ok (hm : Numbered m) (hv : CacheValid maxCacheSize m) (h : ∀ n ∈ m.tree, ∃ b, cond n.range = .ok b) :
    ∃ m' it, m.find maxCacheSize r cond = .ok (m', it) ∧ Finds maxCacheSize m r cond m' it := by
  suffices hs : ∃ m' it, m.find maxCacheSize r cond = .ok (m', it) by
    obtain ⟨m', it, hf⟩ := hs
    exact ⟨m', it, hf, find_cases hf⟩
  obtain ⟨cached, hc⟩ := searchCache_ok hm h hv.live
  obtain ⟨found, hf⟩ : ∃ res, m.searchTree r cond = .ok res := searchTree_ok h
  rw [find, hc, Run.ok_bind]
  cases cached with
  | some c => exact ⟨_, _, rfl⟩
  | none =>
    dsimp only
    rw [hf, Run.ok_bind]
    cases found with
    | some n => exact ⟨_, _, rfl⟩
    | none => exact ⟨_, _, rfl⟩

/-! ## Inserting a range -/

theorem Laid.insert (hl : Laid m.tree) (hr : n.range.start < n.range.end_) (ha : ∀ x ∈ m.tree, n.range.Apart x.range) :
    Laid (m.below n.range ++ n :: m.above n.range) := by
  have hb : Laid (m.below n.range) := hl.sublist (List.takeWhile_sublist _)
  have hab : Laid (m.above n.range) := hl.sublist (List.dropWhile_sublist _)
  have hbelow : ∀ x ∈ m.below n.range, x.range.Before n.range := by
    intro x hx
    obtain ⟨hmem, hnlt⟩ := mem_below hx
    rcases (ha x hmem).lt_or_lt hr (hl.span x hmem) with hlt | hlt
    · rw [hnlt] at hlt
      cases hlt
    · exact ⟨hlt, (ha x hmem).symm⟩
  have habove : ∀ y ∈ m.above n.range, n.range.Before y.range :=
    fun y hy => ⟨lt_of_mem_above hl hy, ha y (mem_above hy)⟩
  refine ⟨List.pairwise_append.2 ⟨hb.order, List.pairwise_cons.2 ⟨habove, hab.order⟩, ?_⟩, fun x hx => ?_⟩
  · intro x hx y hy
    rcases List.mem_cons.1 hy with rfl | hy
    · exact hbelow x hx
    · have horder := hl.order
      rw [← below_append_above m n.range] at horder
      exact (List.pairwise_append.1 horder).2.2 x hx y hy
  · rcases mem_inserted.1 hx with rfl | hx
    · exact hr
    · exact hl.span x hx

theorem treeInsert_of_apart (hl : Laid m.tree) (hr : r.start < r.end_) (ha : ∀ x ∈ m.tree, r.Apart x.range) (d : V) :
    m.treeInsert r d =
      ({ m with tree := m.below r ++ ⟨m.nextId, r, d⟩ :: m.above r, nextId := m.nextId + 1 }, m.nextId) := by
  rcases treeInsert_cases m r d with ⟨n, hn, hnr, hrn, -⟩ | ⟨-, he⟩
  · rcases (ha n hn).lt_or_lt hr (hl.span n hn) with hlt | hlt
    · rw [hrn] at hlt
      cases hlt
    · rw [hnr] at hlt
      cases hlt
  · exact he

/-! ## Looking up and inserting -/

/-- A range about which the test of an address is exact: a plain one has no stripe, and the granularity of an interleaved
    one is defined. -/
structure Sound (r : AddrRange) : Prop where
  plain : r.interleaved = false → r.intlvMatch = 0
  lowMask : r.interleaved = true → r.LowMask

/-- A map whose lookups are exact. -/
structure Searchable (maxCacheSize : Nat) (m : AddrRangeMap V) : Prop where
  numbered : Numbered m
  cache : CacheValid maxCacheSize m
  laid : Laid m.tree
  sound : ∀ n ∈ m.tree, Sound n.range

theorem searchable_empty (maxCacheSize : Nat) : Searchable maxCacheSize ({} : AddrRangeMap V) :=
  ⟨numbered_empty, cacheValid_empty _, laid_nil, by simp⟩

theorem Searchable.sublist (h : Searchable maxCacheSize m) (hn : Numbered m') (hc : CacheValid maxCacheSize m')
    (hs : m'.tree.Sublist m.tree) : Searchable maxCacheSize m' :=
  ⟨hn, hc, h.laid.sublist hs, fun n hmem => h.sound n (hs.subset hmem)⟩

/-- **A lookup finds the entry with the address.**  Only the last address, and only among plain entries, is looked up
    wrongly. -/
theorem Searchable.containsAddr (h : Searchable maxCacheSize m)
    (ha : a = -1 → ∀ n ∈ m.tree, n.range.interleaved = true) : ∃ m', m.containsAddr maxCacheSize a =
        .ok (m', (m.tree.find? (fun n => n.range.contains a)).map RangeNode.id) ∧ m'.tree = m.tree ∧
        Searchable maxCacheSize m' := by
  have hcond : ∀ n ∈ m.tree, (rangeSize a 1).isSubset n.range = .ok (n.range.contains a) := by
    intro n hn
    refine rangeSize_one_isSubset (fun hi => ⟨(h.sound n hn).plain hi, fun hlast => ?_⟩) (h.sound n hn).lowMask
    rw [ha hlast n hn] at hi
    cases hi
  -- an entry that was found is the one with the address
  have found : ∀ n ∈ m.tree, (rangeSize a 1).isSubset n.range = .ok true →
      m.tree.find? (fun n => n.range.contains a) = some n := by
    intro n hn hc
    rw [hcond n hn, Except.ok.injEq] at hc
    cases hfind : m.tree.find? (fun n => n.range.contains a) with
    | none => exact absurd hc (List.find?_eq_none.1 hfind n hn)
    | some n' =>
      have hc' : n'.range.contains a = true := List.find?_some (p := fun n : RangeNode V => n.range.contains a) hfind
      rw [h.laid.unique (List.mem_of_find?_eq_some hfind) hn hc' hc]
  obtain ⟨m', it, hf, hfinds⟩ :=
    find_ok (r := rangeSize a 1) h.numbered h.cache fun n hn => ⟨_, hcond n hn⟩
  have htree := hfinds.tree_eq.1
  refine ⟨m', ?_, htree, h.sublist (hfinds.numbered h.numbered) (hfinds.cacheValid h.numbered h.cache) (by rw [htree])⟩
  unfold AddrRangeMap.containsAddr contains
  rw [hf]
  cases hfinds with
  | cached hn _ hc => rw [found _ hn hc]; rfl
  | tree hn _ _ hc => rw [found _ hn hc]; rfl
  | absent hnone _ =>
    have hno := searchTree_none_contains h.laid hcond hnone
    rw [List.find?_eq_none.2 fun n hn => by rw [hno n hn]; exact Bool.false_ne_true]
    rfl

/-- **An insertion that succeeds** found the range apart from every entry, and adds it in its place. -/
theorem Searchable.insert (h : Searchable maxCacheSize m) (hr : r.start < r.end_) (hs : Sound r)
    (hu : ∀ n ∈ m.tree, r.NotUnit n.range) {it : Nat} (hi : m.insert maxCacheSize r d = .ok (m', some it)) :
    Searchable maxCacheSize m' ∧ it = m.nextId ∧ m'.tree.Perm (⟨m.nextId, r, d⟩ :: m.tree) ∧
      ∀ n ∈ m.tree, r.Apart n.range := by
  have hstep : m.step maxCacheSize (.insert r d) = .ok m' := Run.map_eq_ok.2 ⟨_, hi, rfl⟩
  obtain ⟨m₁, hit, hf, ⟨-, -, hnone⟩ | ⟨rfl, rfl, hid⟩⟩ := insert_cases hi
  · cases hnone
  · cases hf with
    | absent hnone _ =>
      have hapart := searchTree_none_apart h.laid hu hnone
      have hins := treeInsert_of_apart h.laid hr hapart d
      have hn := step_numbered h.numbered hstep
      have hc := (step_cacheValid_iff h.numbered h.cache hstep).2 trivial
      rw [hins] at hid hn hc ⊢
      refine ⟨⟨hn, hc, h.laid.insert (n := ⟨m.nextId, r, d⟩) hr hapart, fun n hmem => ?_⟩, by simpa using hid,
        perm_inserted m r _, hapart⟩
      rcases mem_inserted.1 hmem with rfl | hmem
      · exact hs
      · exact h.sound n hmem

/-! ## Maps in which every insertion is exact as well -/

/-- An entry the intersection test is exact about: it has an address, and if it is interleaved its stripe is not a single
    address. -/
structure Exact (r : AddrRange) : Prop where
  inhabited : ∃ a, r.contains a = true
  stripe : r.interleaved = true → r.size ≠ 1
  lowMask : r.interleaved = true → r.LowMask

/-- A range that may be tested against the entries: where spans meet, both are plain or both of one interleaving. -/
structure Placeable (m : AddrRangeMap V) (r : AddrRange) : Prop extends Exact r where
  compatible : ∀ n ∈ m.tree, r.Compatible n.range

/-- The calls of the runs considered: insertions of placeable ranges, ranged erasures that leave no cached iterator
    behind, and every other call. -/
def Op.Placed (m : AddrRangeMap V) : Op V → Prop
  | .insert r _ => m.Placeable r
  | .eraseRange p q => m.SegmentUncached p q
  | _ => True

structure Valid (maxCacheSize : Nat) (m : AddrRangeMap V) : Prop extends Searchable maxCacheSize m where
  exact_ : ∀ n ∈ m.tree, Exact n.range

theorem Op.Placed.leavesCache (h : op.Placed m) : op.LeavesCache m := by
  cases op with
  | eraseRange p q => exact h
  | _ => trivial

theorem Exact.span (h : Exact r) : r.start < r.end_ :=
  let ⟨_, ha⟩ := h.inhabited
  span_of_contains ha

theorem Exact.sound (h : Exact r) : Sound r := by
  refine ⟨fun hi => ?_, h.lowMask⟩
  obtain ⟨a, ha⟩ := h.inhabited
  have hmasks : r.masks = [] := by simpa [interleaved] using hi
  have hsel := (contains_iff_span.1 ha).2.2
  rw [hmasks] at hsel
  exact hsel.symm

theorem Placeable.notUnit (h : m.Placeable r) (hn : n ∈ m.tree) (he : Exact n.range) : r.NotUnit n.range := by
  intro ho hint
  refine he.stripe ?_
  rcases h.compatible n hn ho with ⟨hr, hnp⟩ | hm
  · rcases hint with hint | hint
    · rw [hr] at hint
      cases hint
    · exact hint
  · exact hint.elim (fun hr => (interleaved_of_mergesWith hm).trans hr) id

section

variable (h : Valid maxCacheSize m)
include h

theorem Valid.insert (hp : m.Placeable r) (d : V) :
    ∃ m' it, m.insert maxCacheSize r d = .ok (m', it) ∧
      (it = none → m'.tree = m.tree ∧ ∃ n ∈ m.tree, ∃ a, r.contains a = true ∧ n.range.contains a = true) := by
  have hunit : ∀ n ∈ m.tree, r.NotUnit n.range := fun n hn => hp.notUnit hn (h.exact_ n hn)
  have shared : ∀ n ∈ m.tree, r.intersects n.range = .ok true →
      ∃ a, r.contains a = true ∧ n.range.contains a = true := fun n hn hc =>
    exists_shared_of_intersects hp.inhabited (h.exact_ n hn).inhabited (hp.compatible n hn) (hunit n hn) hc
  obtain ⟨m₁, hit, hf, hfinds⟩ :=
    find_ok (r := r) h.numbered h.cache fun n hn => intersects_ok (hp.compatible n hn)
  unfold AddrRangeMap.insert intersects
  rw [hf, Run.ok_bind]
  cases hfinds with
  | cached hn _ hc => exact ⟨_, _, rfl, fun _ => ⟨rfl, _, hn, shared _ hn hc⟩⟩
  | tree hn _ _ hc => exact ⟨_, _, rfl, fun _ => ⟨rfl, _, hn, shared _ hn hc⟩⟩
  | absent => exact ⟨_, _, rfl, fun hnone => by cases hnone⟩

theorem Valid.step_insert (hp : m.Placeable r) {it : Option Nat}
    (hi : m.insert maxCacheSize r d = .ok (m', it)) (hn : Numbered m') (hc : CacheValid maxCacheSize m') :
    Valid maxCacheSize m' := by
  cases it with
  | none =>
    obtain ⟨m₁, it₁, hi₁, hnone⟩ := h.insert hp d
    cases hi.symm.trans hi₁
    have htree := (hnone rfl).1
    exact ⟨h.sublist hn hc (by rw [htree]), fun n hmem => h.exact_ n (htree ▸ hmem)⟩
  | some it =>
    obtain ⟨hs, -, hperm, -⟩ := h.toSearchable.insert hp.span hp.sound (fun n hn => hp.notUnit hn (h.exact_ n hn)) hi
    refine ⟨hs, fun n hmem => ?_⟩
    rcases List.mem_cons.1 (hperm.mem_iff.1 hmem) with rfl | hmem
    · exact hp.toExact
    · exact h.exact_ n hmem

theorem Valid.sublist (hn : Numbered m') (hc : CacheValid maxCacheSize m')
    (hs : m'.tree.Sublist m.tree) : Valid maxCacheSize m' :=
  ⟨h.toSearchable.sublist hn hc hs, fun n hmem => h.exact_ n (hs.subset hmem)⟩

theorem step_valid (hop : op.Placed m) (hs : m.step maxCacheSize op = .ok m') :
    Valid maxCacheSize m' := by
  have hn := step_numbered h.numbered hs
  have hc := (step_cacheValid_iff h.numbered h.cache hs).2 hop.leavesCache
  cases op with
  | insert r d =>
    obtain ⟨⟨m₁, it⟩, hi, rfl⟩ := Run.map_eq_ok.1 hs
    exact h.step_insert hop hi hn hc
  | contains r =>
    obtain ⟨⟨m₁, it⟩, hi, rfl⟩ := Run.map_eq_ok.1 hs
    exact h.sublist hn hc (by rw [(find_cases hi).tree_eq.1])
  | containsAddr a =>
    obtain ⟨⟨m₁, it⟩, hi, rfl⟩ := Run.map_eq_ok.1 hs
    exact h.sublist hn hc (by rw [(find_cases hi).tree_eq.1])
  | intersects r =>
    obtain ⟨⟨m₁, it⟩, hi, rfl⟩ := Run.map_eq_ok.1 hs
    exact h.sublist hn hc (by rw [(find_cases hi).tree_eq.1])
  | erase p =>
    refine h.sublist hn hc ?_
    rw [erase_eq_ok hs]
    exact List.filter_sublist
  | eraseRange p q => exact h.sublist hn hc (eraseRange_sublist hs)
  | clear =>
    cases hs
    exact h.sublist hn hc (List.nil_sublist _)

end

inductive Built (maxCacheSize : Nat) : AddrRangeMap V → Prop
  | empty : Built maxCacheSize {}
  | step {m m' : AddrRangeMap V} (op : Op V) (h : Built maxCacheSize m) (placed : op.Placed m)
      (hs : m.step maxCacheSize op = .ok m') : Built maxCacheSize m'

theorem Built.valid (h : Built maxCacheSize m) : Valid maxCacheSize m := by
  induction h with
  | empty => exact ⟨searchable_empty _, by simp⟩
  | step _ _ placed hs ih => exact step_valid ih placed hs

/-- **Lookups are exact and do not depend on the cache**: the answers of `contains` and `insert` are functions of the
    entries, with at most one entry for an address. -/
theorem lookup_exact {maxCacheSize : Nat} {m : AddrRangeMap V} (h : Built maxCacheSize m) :
    (∀ a, (∀ n ∈ m.tree, ∀ n' ∈ m.tree, n.range.contains a = true → n'.range.contains a = true → n = n') ∧
      ((a = -1 → ∀ n ∈ m.tree, n.range.interleaved = true) → ∃ m', m.containsAddr maxCacheSize a =
        .ok (m', (m.tree.find? (fun n => n.range.contains a)).map RangeNode.id) ∧ m'.tree = m.tree)) ∧
    ∀ r d, m.Placeable r → ∃ m' it, m.insert maxCacheSize r d = .ok (m', it) ∧
      (it.isSome ↔ ∀ n ∈ m.tree, ∀ a, ¬ (r.contains a = true ∧ n.range.contains a = true)) ∧
      (it.isSome → it = some m.nextId ∧ m'.tree.Perm (⟨m.nextId, r, d⟩ :: m.tree)) ∧
      (it = none → m'.tree = m.tree) := by
  have hv := h.valid
  refine ⟨fun a => ⟨fun n hn n' hn' => hv.laid.unique hn hn', fun ha => ?_⟩, fun r d hp => ?_⟩
  · obtain ⟨m', hc, htree, -⟩ := hv.containsAddr ha
    exact ⟨m', hc, htree⟩
  · obtain ⟨m', it, hi, hnone⟩ := hv.insert hp d
    cases it with
    | none =>
      obtain ⟨htree, n, hn, a, hshared⟩ := hnone rfl
      refine ⟨m', none, hi, ⟨fun hsome => ?_, fun hno => absurd hshared (hno n hn a)⟩, fun hsome => ?_, fun _ => htree⟩
      · cases hsome
      · cases hsome
    | some it =>
      obtain ⟨-, rfl, hperm, hapart⟩ :=
        hv.toSearchable.insert hp.span hp.sound (fun n hn => hp.notUnit hn (hv.exact_ n hn)) hi
      refine ⟨m', _, hi, ⟨fun _ n hn a => (hapart n hn).disjoint a, fun _ => rfl⟩, fun _ => ⟨rfl, hperm⟩, fun hno => ?_⟩
      cases hno

theorem exact_page (a : Addr) (ha : (rangeSize a 0x1000).contains a = true) : Exact (rangeSize a 0x1000) where
  inhabited := ⟨a, ha⟩
  stripe := fun hi => absurd hi Bool.false_ne_true
  lowMask := fun hi => absurd hi Bool.false_ne_true

theorem built_twoRanges : Built 3 twoRanges := by
  have h₁ : Built 3 (⟨[⟨0, rangeSize 0x1000 0x1000, ()⟩], [], 1⟩ : AddrRangeMap Unit) :=
    .step (.insert (rangeSize 0x1000 0x1000) ()) .empty ⟨exact_page _ (by decide), by simp⟩ (by decide +kernel)
  have h₂ : Built 3 { twoRanges with cache := [] } :=
    .step (.insert (rangeSize 0x2000 0x1000) ()) h₁ ⟨exact_page _ (by decide), by decide⟩ (by decide +kernel)
  exact .step (.containsAddr 0x2040) h₂ trivial (by decide +kernel)

theorem lookup_exact_first_range :
    ∃ m', twoRanges.containsAddr 3 0x1040 = .ok (m', some 0) ∧ m'.tree = twoRanges.tree :=
  ((lookup_exact built_twoRanges).1 0x1040).2 (fun h => absurd h (by decide))

/-- **The last address is found where it is not**: the range looked up ends at 0, and so lies inside any plain range that
    is tried.  Which one that is depends on the cache. -/
theorem last_address_found :
    Built 3 twoRanges ∧ (∀ n ∈ twoRanges.tree, n.range.contains (-1) = false) ∧
      twoRanges.containsAddr 3 (-1) = .ok (twoRanges, some 1) ∧
      ∃ m', twoRanges.containsAddr 3 0x1040 = .ok (m', some 0) ∧ m'.tree = twoRanges.tree ∧
        m'.containsAddr 3 (-1) = .ok (m', some 0) :=
  ⟨built_twoRanges, by decide +kernel, by decide +kernel, { twoRanges with cache := [0, 1] }, by decide +kernel, rfl,
    by decide +kernel⟩

end AddrRangeMap

end Gem5
