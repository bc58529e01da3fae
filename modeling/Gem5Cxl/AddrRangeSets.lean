import Gem5Cxl.AddrRangeMapFind
/-!
# AddrRangeSets — ranges as sets of addresses (`base/addr_range.hh`)

`intersects` and `isSubset` against the addresses that ranges contain, and `exclude` as a set difference.  `intersects`
takes a range of size one for the single address it starts at, which is right for a plain range but not for a stripe.
-/
namespace Gem5
namespace AddrRange

variable {s r e : AddrRange} {a b : Addr} {masks : List Addr} {t : Bool}

/-! ## `isSubset` -/

theorem sel_congr (h : ∀ m ∈ masks, a &&& m = b &&& m) : sel a masks = sel b masks := by
  induction masks with
  | nil => rfl
  | cons m ms ih => rw [sel, sel, h m List.mem_cons_self, ih fun m' hm' => h m' (List.mem_cons_of_mem _ hm')]

theorem and_eq_of_div_eq {l : Nat} {m : Addr} (h : a.toNat / 2 ^ l = b.toNat / 2 ^ l)
    (hm : ∀ i < l, m.getLsbD i = false) : a &&& m = b &&& m := by
  refine BitVec.eq_of_getLsbD_eq fun i _ => ?_
  rw [BitVec.getLsbD_and, BitVec.getLsbD_and]
  by_cases hi : i < l
  · rw [hm i hi, Bool.and_false, Bool.and_false]
  · obtain ⟨k, rfl⟩ := Nat.exists_eq_add_of_le (Nat.le_of_not_lt hi)
    have hbit := congrArg (Nat.testBit · k) h
    rw [Nat.testBit_div_two_pow, Nat.testBit_div_two_pow, Nat.add_comm k l] at hbit
    exact congrArg (· && m.getLsbD (l + k)) hbit

theorem granularity_spec (hi : r.interleaved = true) : r.granularity = 0 ∨
    ∃ l, r.granularity.toNat = 2 ^ l ∧ ∀ m ∈ r.masks, ∀ i < l, m.getLsbD i = false := by
  rw [granularity, if_pos hi]
  dsimp only
  generalize hc : r.masks.foldl (fun c m => c ||| m.setWidth 32) (0 : BitVec 32) = combined
  by_cases hzero : combined = 0
  · rw [hzero]
    exact .inl rfl
  obtain ⟨i, hi32, hbit⟩ := exists_getLsbD_of_ne_zero hzero
  have hext : ∀ j < 32, (combined.signExtend 64).getLsbD j = combined.getLsbD j := fun j hj => by
    rw [BitVec.getLsbD_signExtend, if_pos hj, decide_eq_true (by omega), Bool.true_and]
  obtain ⟨hlt, -, hbelow⟩ := ctz64_spec (a := combined.signExtend 64) (by omega) ((hext i hi32).trans hbit)
  have hle : ctz64 (combined.signExtend 64) ≤ i := Nat.le_of_not_lt fun h => by
    have := hbelow i h
    rw [hext i hi32, hbit] at this
    cases this
  refine .inr ⟨ctz64 (combined.signExtend 64), ?_, fun m hm j hj => ?_⟩
  · rw [BitVec.toNat_shiftLeft, Nat.shiftLeft_eq, Nat.mod_eq_of_lt]
    · exact Nat.one_mul _
    · rw [show (1#64).toNat = 1 from rfl, Nat.one_mul]
      exact Nat.pow_lt_pow_right (by decide) hlt
  · have hj32 : j < 32 := by omega
    have hcomb := hbelow j hj
    rw [hext j hj32, ← hc, getLsbD_combinedMask, Bool.or_eq_false_iff, List.any_eq_false] at hcomb
    have hmj := hcomb.2 m hm
    rwa [BitVec.getLsbD_setWidth, decide_eq_true hj32, Bool.true_and, Bool.not_eq_true] at hmj

theorem div_eq_first_or_last {lo x hi p : Nat} (hp : 0 < p) (hlo : lo ≤ x) (hhi : x ≤ hi) (h : hi - lo < p) :
    x / p = lo / p ∨ x / p = hi / p := by
  have h1 : lo / p ≤ x / p := Nat.div_le_div_right hlo
  have h2 : x / p ≤ hi / p := Nat.div_le_div_right hhi
  have h3 : hi / p ≤ lo / p + 1 := by
    rw [← Nat.add_div_right lo hp]
    exact Nat.div_le_div_right (by omega)
  omega

/-- **What `isSubset` takes for a subset is one.** -/
theorem contains_of_isSubset (hr : ∃ b, r.contains b = true) (h : s.isSubset r = .ok true) (ha : s.contains a = true) :
    r.contains a = true := by
  obtain ⟨hs, he, -⟩ := contains_iff_span.1 ha
  unfold isSubset at h
  split at h
  · cases h
  split at h
  · rename_i hsi hri
    simp only [Except.ok.injEq, Bool.and_eq_true, decide_eq_true_eq] at h
    obtain ⟨⟨hfirst, hlast⟩, hsize⟩ := h
    obtain ⟨hfs, -, hfsel⟩ := contains_iff_span.1 hfirst
    obtain ⟨-, hle, hlsel⟩ := contains_iff_span.1 hlast
    have hplain : s.masks = [] := by simpa [interleaved] using hsi
    have hwidth : s.size = s.end_ - s.start := by
      rw [size, hplain]
      exact BitVec.ushiftRight_zero _
    rw [hwidth] at hsize
    rcases granularity_spec hri with hg | ⟨l, hg, hbits⟩
    · rw [hg] at hsize
      bv_omega
    · have hspan : (s.end_ - 1).toNat - s.start.toNat < 2 ^ l := by
        rw [BitVec.le_def, hg] at hsize
        bv_omega
      have hsel : sel a r.masks = r.intlvMatch := by
        rcases div_eq_first_or_last (Nat.two_pow_pos l) (x := a.toNat) (BitVec.le_def.1 hs) (by bv_omega) hspan with h | h
        · rw [sel_congr fun m hm => and_eq_of_div_eq h (hbits m hm), hfsel]
        · rw [sel_congr fun m hm => and_eq_of_div_eq h (hbits m hm), hlsel]
      exact contains_iff_span.2 ⟨BitVec.le_trans hfs hs, by bv_omega, hsel⟩
  · rename_i hri
    simp only [Except.ok.injEq, Bool.and_eq_true, decide_eq_true_eq] at h
    obtain ⟨b, hb⟩ := hr
    have hplain : r.masks = [] := by simpa [interleaved] using hri
    obtain ⟨-, -, hsel⟩ := contains_iff_span.1 hb
    rw [hplain] at hsel
    refine contains_iff_span.2 ⟨BitVec.le_trans h.1 hs, by bv_omega, ?_⟩
    rw [hplain, ← hsel]
    rfl

/-! ## `intersects` -/

def IntersectsSound (s r : AddrRange) : Prop :=
  ∀ t, s.intersects r = .ok t → (t = true ↔ ∃ a, s.contains a = true ∧ r.contains a = true)

theorem intersects_of_overlaps (ho : s.Overlaps r) : s.intersects r =
    if !s.interleaved && !r.interleaved then .ok true
    else if r.size = 1 then .ok (s.contains r.start)
    else if s.mergesWith r then .ok (s.intlvMatch == r.intlvMatch)
    else .error (.panic "Cannot test intersection") := by
  rw [intersects, if_neg]
  rintro (h | h)
  · exact BitVec.not_le.2 ho.1 h
  · exact BitVec.not_le.2 ho.2 h

theorem NotUnit.intersectsSound (hu : s.NotUnit r) (hs : ∃ a, s.contains a = true) (hr : ∃ a, r.contains a = true) :
    IntersectsSound s r := by
  intro t ht
  have hc : s.Compatible r := by
    intro ho
    rw [intersects_of_overlaps ho] at ht
    split at ht
    · rename_i hplain
      exact .inl (by simpa using hplain)
    · rename_i hplain
      have hint : s.interleaved = true ∨ r.interleaved = true := by
        cases hsi : s.interleaved <;> cases hri : r.interleaved <;> simp_all
      rw [if_neg (hu ho hint)] at ht
      split at ht
      · rename_i hm
        exact .inr hm
      · cases ht
  cases t with
  | true => exact iff_of_true rfl (exists_shared_of_intersects hs hr hc hu ht)
  | false =>
    have hapart := apart_of_intersects_false hu ht
    exact iff_of_false Bool.false_ne_true fun ⟨a, ha⟩ => hapart.disjoint a ha

theorem intersectsSound_of_single (hr : ∃ a, r.contains a = true) (hone : ∀ b, r.contains b = true → b = r.start)
    (hsize : r.size = 1) (ho : s.Overlaps r) (hint : s.interleaved = true ∨ r.interleaved = true) :
    IntersectsSound s r := by
  intro t ht
  have hplain : (!s.interleaved && !r.interleaved) = false := by
    rcases hint with h | h
    · rw [h]
      rfl
    · rw [h, Bool.not_true, Bool.and_false]
  rw [intersects_of_overlaps ho, hplain, if_neg Bool.false_ne_true, if_pos hsize] at ht
  cases ht
  obtain ⟨b, hb⟩ := hr
  constructor
  · intro h
    exact ⟨r.start, h, hone b hb ▸ hb⟩
  · rintro ⟨a, ha, ha'⟩
    exact hone a ha' ▸ ha

theorem eq_start_of_size_one (hplain : r.interleaved = false) (hsize : r.size = 1) (ha : r.contains a = true) :
    a = r.start := by
  have hmasks : r.masks = [] := by simpa [interleaved] using hplain
  obtain ⟨hs, he, -⟩ := contains_iff_span.1 ha
  rw [size, hmasks] at hsize
  have hsize : r.end_ - r.start = 1 := by rw [← hsize]; exact (BitVec.ushiftRight_zero _).symm
  bv_omega

/-- The loop of `exclude` over the ranges that are left. -/
def excludeFrom (r : AddrRange) (nextStart : Addr) : List AddrRange → Except Failure (List AddrRange)
  | [] => .ok (if nextStart < r.end_ then [{ start := nextStart, end_ := r.end_ }] else [])
  | e :: es => do
    assertThat !e.interleaved
    let hit ← r.intersects e
    if !hit then excludeFrom r nextStart es
    else if e.start ≤ nextStart then
      if e.end_ < r.end_ then excludeFrom r (if nextStart < e.end_ then e.end_ else nextStart) es else .ok []
    else
      let gap : AddrRange := { start := nextStart, end_ := e.start }
      if e.end_ < r.end_ then (excludeFrom r e.end_ es).map fun ranges => gap :: ranges else .ok [gap]

def exclude (r : AddrRange) (excludeRanges : List AddrRange) : Except Failure (List AddrRange) := do
  assertThat !r.interleaved
  r.excludeFrom r.start (sort excludeRanges)

def excludeAll (base toExclude : List AddrRange) : Except Failure (List AddrRange) :=
  (base.mapM fun r : AddrRange => r.exclude (sort toExclude)).map List.flatten

structure Plain (r : AddrRange) : Prop where
  masks : r.masks = []
  intlvMatch : r.intlvMatch = 0

theorem Plain.interleaved (h : r.Plain) : r.interleaved = false := by rw [AddrRange.interleaved, h.masks]; rfl

theorem Plain.contains_iff (h : r.Plain) : r.contains a = true ↔ r.start ≤ a ∧ a < r.end_ := by
  rw [contains_iff_span, h.masks, h.intlvMatch]
  exact ⟨fun h => ⟨h.1, h.2.1⟩, fun h => ⟨h.1, h.2, rfl⟩⟩

theorem Plain.intersects (hr : r.Plain) (he : e.Plain) :
    r.intersects e = .ok (decide (r.start < e.end_ ∧ e.start < r.end_)) := by
  unfold AddrRange.intersects
  rw [hr.interleaved, he.interleaved]
  split
  · rename_i h
    rw [decide_eq_false]
    bv_omega
  · rename_i h
    rw [decide_eq_true (by bv_omega)]
    rfl

/-- Plain ranges with an address each, one behind the other. -/
structure Pieces (out : List AddrRange) : Prop where
  plain : ∀ x ∈ out, x.Plain ∧ x.start < x.end_
  order : out.Pairwise fun x y => x.end_ ≤ y.start

/-- What is left of `[nextStart, r.end_)` without the ranges of `es`. -/
structure Leaves (r : AddrRange) (nextStart : Addr) (es out : List AddrRange) : Prop extends Pieces out where
  above : ∀ x ∈ out, nextStart ≤ x.start
  mem : ∀ a, (∃ x ∈ out, x.contains a = true) ↔
    (nextStart ≤ a ∧ a < r.end_) ∧ ∀ e ∈ es, e.contains a = false

variable {next : Addr} {es out : List AddrRange}

theorem Pieces.nil : Pieces [] := ⟨fun _ hx => absurd hx List.not_mem_nil, List.Pairwise.nil⟩

theorem gap_plain (lo hi : Addr) : Plain { start := lo, end_ := hi } := ⟨rfl, rfl⟩

theorem Pieces.single {lo hi : Addr} (h : lo < hi) : Pieces [{ start := lo, end_ := hi }] :=
  ⟨List.forall_mem_singleton.2 ⟨gap_plain lo hi, h⟩, List.pairwise_singleton ..⟩

theorem Leaves.nil (h : ∀ a, next ≤ a → a < r.end_ → ∃ e ∈ es, e.contains a = true) : Leaves r next es [] where
  toPieces := Pieces.nil
  above _ hx := absurd hx List.not_mem_nil
  mem a := by
    refine iff_of_false (fun ⟨_, hx, _⟩ => absurd hx List.not_mem_nil) fun ⟨⟨hlo, hhi⟩, hno⟩ => ?_
    obtain ⟨e, he, hea⟩ := h a hlo hhi
    rw [hno e he] at hea
    cases hea

theorem Leaves.skip {next' : Addr} (h : Leaves r next' es out) (hle : next ≤ next')
    (he : ∀ a, next' ≤ a ∧ a < r.end_ ↔ (next ≤ a ∧ a < r.end_) ∧ e.contains a = false) : Leaves r next (e :: es) out where
  toPieces := h.toPieces
  above x hx := BitVec.le_trans hle (h.above x hx)
  mem a := by rw [h.mem, he, List.forall_mem_cons, and_assoc]

theorem Leaves.gap {hi next' : Addr} (h : Leaves r next' es out) (hgap : next < hi) (hle : hi ≤ next')
    (hes : ∀ e ∈ es, ∀ a, a < hi → e.contains a = false)
    (he : ∀ a, (next ≤ a ∧ a < hi) ∨ (next' ≤ a ∧ a < r.end_) ↔ (next ≤ a ∧ a < r.end_) ∧ e.contains a = false) :
    Leaves r next (e :: es) ({ start := next, end_ := hi } :: out) where
  plain := List.forall_mem_cons.2 ⟨⟨gap_plain _ _, hgap⟩, h.plain⟩
  order := List.pairwise_cons.2 ⟨fun x hx => BitVec.le_trans hle (h.above x hx), h.order⟩
  above := List.forall_mem_cons.2 ⟨BitVec.le_refl _, fun x hx => BitVec.le_trans (by bv_omega) (h.above x hx)⟩
  mem a := by
    rw [List.exists_mem_cons_iff, h.mem, (gap_plain _ _).contains_iff, List.forall_mem_cons, ← and_assoc, ← he]
    constructor
    · rintro (hin | ⟨hin, hno⟩)
      · exact ⟨.inl hin, fun e he => hes e he a hin.2⟩
      · exact ⟨.inr hin, hno⟩
    · rintro ⟨hin | hin, hno⟩
      · exact .inl hin
      · exact .inr ⟨hin, hno⟩

/-- **The loop leaves what the sorted ranges do not cover.** -/
theorem excludeFrom_spec (hr : r.Plain) (hnext : r.start ≤ next) (hes : ∀ e ∈ es, e.Plain ∧ e.start ≤ e.end_)
    (hsort : es.Pairwise fun e e' => e.start.toNat ≤ e'.start.toNat) :
    ∃ out, r.excludeFrom next es = .ok out ∧ Leaves r next es out := by
  induction es generalizing next with
  | nil =>
    rw [excludeFrom]
    split
    · rename_i h
      refine ⟨_, rfl, Pieces.single h, List.forall_mem_singleton.2 (BitVec.le_refl _), fun a => ?_⟩
      simp [(gap_plain next r.end_).contains_iff]
    · rename_i h
      exact ⟨_, rfl, Leaves.nil fun a hlo hhi => absurd (Std.lt_of_le_of_lt hlo hhi) h⟩
  | cons e es ih =>
    obtain ⟨⟨hplain, hvalid⟩, hes⟩ := List.forall_mem_cons.1 hes
    obtain ⟨hfirst, hsort⟩ := List.pairwise_cons.1 hsort
    have hout : ∀ a, e.contains a = false ↔ ¬ (e.start ≤ a ∧ a < e.end_) := fun a => by
      rw [← hplain.contains_iff, Bool.not_eq_true]
    rw [excludeFrom, hplain.interleaved, hr.intersects hplain]
    simp only [Bool.not_false, assertThat_true, Run.ok_bind]
    by_cases hhit : r.start < e.end_ ∧ e.start < r.end_
    · simp only [decide_eq_true hhit, Bool.not_true, Bool.false_eq_true, if_false]
      by_cases hstart : e.start ≤ next
      · rw [if_pos hstart]
        by_cases hend : e.end_ < r.end_
        · rw [if_pos hend]
          have hle : r.start ≤ if next < e.end_ then e.end_ else next := by split <;> bv_omega
          obtain ⟨out, heq, hl⟩ := ih hle hes hsort
          refine ⟨out, heq, hl.skip (by split <;> bv_omega) fun a => ?_⟩
          rw [hout]
          split <;> bv_omega
        · rw [if_neg hend]
          exact ⟨[], rfl, Leaves.nil fun a hlo hhi =>
            ⟨e, List.mem_cons_self, hplain.contains_iff.2 ⟨BitVec.le_trans hstart hlo, by bv_omega⟩⟩⟩
      · rw [if_neg hstart]
        -- the list is sorted, so no later range reaches into the gap
        have hlater : ∀ e' ∈ es, ∀ a, a < e.start → e'.contains a = false := fun e' he' a ha => by
          have hle := hfirst e' he'
          rw [← Bool.not_eq_true, (hes e' he').1.contains_iff]
          bv_omega
        by_cases hend : e.end_ < r.end_
        · have hle : r.start ≤ e.end_ := by bv_omega
          obtain ⟨out, heq, hl⟩ := ih hle hes hsort
          refine ⟨_, by rw [if_pos hend, heq]; rfl, hl.gap (by bv_omega) hvalid hlater fun a => ?_⟩
          rw [hout]
          bv_omega
        · rw [if_neg hend]
          have hrest : Leaves r r.end_ es [] := Leaves.nil fun a hlo hhi => absurd hhi (BitVec.not_lt.2 hlo)
          refine ⟨_, rfl, hrest.gap (by bv_omega) (BitVec.le_of_lt hhit.2) hlater fun a => ?_⟩
          rw [hout]
          bv_omega
    · simp only [decide_eq_false hhit, Bool.not_false, if_true]
      obtain ⟨out, heq, hl⟩ := ih hnext hes hsort
      refine ⟨out, heq, hl.skip (BitVec.le_refl _) fun a => ?_⟩
      rw [hout]
      bv_omega

theorem exclude_spec (hr : r.Plain) {l : List AddrRange} (hl : ∀ e ∈ l, e.Plain ∧ e.valid = true) :
    ∃ out, r.exclude l = .ok out ∧ Pieces out ∧
      ∀ a, (∃ x ∈ out, x.contains a = true) ↔ r.contains a = true ∧ ∀ e ∈ l, e.contains a = false := by
  have hes : ∀ e ∈ sort l, e.Plain ∧ e.start ≤ e.end_ := fun e he =>
    ⟨(hl e (mem_sort.1 he)).1, of_decide_eq_true (hl e (mem_sort.1 he)).2⟩
  obtain ⟨out, heq, h⟩ := excludeFrom_spec hr (BitVec.le_refl r.start) hes
    (pairwise_sort fun e he => (hl e he).1.masks)
  refine ⟨out, ?_, h.toPieces, fun a => ?_⟩
  · rw [exclude, hr.interleaved, Bool.not_false, assertThat_true, Run.ok_bind, heq]
  · simp only [h.mem, hr.contains_iff, mem_sort]

theorem excludeAll_spec {base l : List AddrRange} (hb : ∀ r ∈ base, r.Plain) (hl : ∀ e ∈ l, e.Plain ∧ e.valid = true) :
    ∃ out, excludeAll base l = .ok out ∧
      ∀ a, (∃ x ∈ out, x.contains a = true) ↔ (∃ r ∈ base, r.contains a = true) ∧ ∀ e ∈ l, e.contains a = false := by
  have hsorted : ∀ e ∈ sort l, e.Plain ∧ e.valid = true := fun e he => hl e (mem_sort.1 he)
  suffices h : ∃ outs, (base.mapM fun r : AddrRange => r.exclude (sort l)) = .ok outs ∧
      ∀ a, (∃ x ∈ outs.flatten, x.contains a = true) ↔
        (∃ r ∈ base, r.contains a = true) ∧ ∀ e ∈ l, e.contains a = false by
    obtain ⟨outs, heq, hmem⟩ := h
    exact ⟨outs.flatten, by rw [excludeAll, heq]; rfl, hmem⟩
  induction base with
  | nil => exact ⟨[], rfl, fun a => by simp⟩
  | cons r base ih =>
    obtain ⟨hr, hb⟩ := List.forall_mem_cons.1 hb
    obtain ⟨out, heq, -, hmem⟩ := exclude_spec hr hsorted
    obtain ⟨outs, heqs, hmems⟩ := ih hb
    refine ⟨out :: outs, ?_, fun a => ?_⟩
    · rw [List.mapM_cons, heq, Run.ok_bind, heqs]
      rfl
    · have h1 := hmem a
      simp only [mem_sort] at h1
      simp only [List.flatten_cons, List.mem_append, or_and_right, exists_or, h1, hmems, List.exists_mem_cons_iff]

/-- **`exclude` is set difference**: it leaves pieces in increasing order that together hold the addresses of the range in
no excluded one; and over a list of ranges it is the union. -/
theorem exclude_is_difference {base l : List AddrRange} (hr : r.Plain) (hb : ∀ r ∈ base, r.Plain)
    (hl : ∀ e ∈ l, e.Plain ∧ e.valid = true) :
    (∃ out, r.exclude l = .ok out ∧ (∀ x ∈ out, ∃ a, x.contains a = true) ∧ out.Pairwise (fun x y => x.end_ ≤ y.start) ∧
      out.Pairwise (fun x y => ∀ a, ¬(x.contains a = true ∧ y.contains a = true)) ∧
      ∀ a, (∃ x ∈ out, x.contains a = true) ↔ r.contains a = true ∧ ∀ e ∈ l, e.contains a = false) ∧
    ∃ out, excludeAll base l = .ok out ∧
      ∀ a, (∃ x ∈ out, x.contains a = true) ↔ (∃ r ∈ base, r.contains a = true) ∧ ∀ e ∈ l, e.contains a = false := by
  obtain ⟨out, heq, hp, hmem⟩ := exclude_spec hr hl
  refine ⟨⟨out, heq, fun x hx => ?_, hp.order, hp.order.imp_of_mem fun {x y} hx hy hxy a ⟨ha, ha'⟩ => ?_, hmem⟩,
    excludeAll_spec hb hl⟩
  · obtain ⟨hplain, hlt⟩ := hp.plain x hx
    exact ⟨x.start, hplain.contains_iff.2 ⟨BitVec.le_refl _, hlt⟩⟩
  · have h1 := (hp.plain x hx).1.contains_iff.1 ha
    have h2 := (hp.plain y hy).1.contains_iff.1 ha'
    bv_omega

theorem exclude_some : ∃ out, AddrRange.exclude { start := 0, end_ := 10 } [{ start := 5, end_ := 7 },
    { start := 2, end_ := 4 }, { start := 6, end_ := 6 }, { start := 2, end_ := 4 }, { start := 3, end_ := 5 }] = .ok out ∧
    ∀ a : Addr, (∃ x ∈ out, x.contains a = true) ↔ (a < 2 ∨ 7 ≤ a ∧ a < 10) := by
  have hnone : ∀ r ∈ ([] : List AddrRange), r.Plain := fun r hr => absurd hr List.not_mem_nil
  obtain ⟨⟨out, heq, -, -, -, hmem⟩, -⟩ := exclude_is_difference (r := { start := 0, end_ := 10 })
    (l := [{ start := 5, end_ := 7 }, { start := 2, end_ := 4 }, { start := 6, end_ := 6 }, { start := 2, end_ := 4 },
      { start := 3, end_ := 5 }]) ⟨rfl, rfl⟩ hnone (by
        simp only [List.forall_mem_cons]
        exact ⟨⟨⟨rfl, rfl⟩, rfl⟩, ⟨⟨rfl, rfl⟩, rfl⟩, ⟨⟨rfl, rfl⟩, rfl⟩, ⟨⟨rfl, rfl⟩, rfl⟩, ⟨⟨rfl, rfl⟩, rfl⟩,
          fun e he => absurd he List.not_mem_nil⟩)
  refine ⟨out, heq, fun a => (hmem a).trans ?_⟩
  simp only [List.forall_mem_cons, List.not_mem_nil, false_imp_iff, implies_true, and_true, ← Bool.not_eq_true,
    (gap_plain _ _).contains_iff]
  bv_omega

end AddrRange
end Gem5
