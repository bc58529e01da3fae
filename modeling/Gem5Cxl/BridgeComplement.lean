import Gem5Cxl.BridgeRouting
/-!
# BridgeComplement — what the DMA side of a bridge advertises (`PciBridgeResponsePort::getAddrRanges`, `dev/PciBridge2.cc`)

A DMA port should take the addresses that no downstream range takes.  `gaps` sweeps over the sorted ranges with one
variable, where the last range ended, one address further than it should; a range that ends before an earlier one moves
it back, and the last gap is given an exclusive end of 2^64, which is 0.  On spans of numbers the sweep is `InGaps`; which
spans it gets right is `Chain`, and `complement_iff` says so of the bridge.
-/
namespace Gem5

/-! ## The sweep over spans -/
namespace Sweep

def top : Nat := 2 ^ 64 - 1

abbrev Span := Nat × Nat

def Covered (ws : List Span) (a : Nat) : Prop := ∃ w ∈ ws, w.1 ≤ a ∧ a ≤ w.2

/-- Where the gap after a span that ends at `last` is taken to begin. -/
def next (last : Nat) : Nat := (last + 2) % 2 ^ 64

def InGaps : Nat → List Span → Nat → Prop
  | _, [], _ => False
  | from_, w :: ws, a => (from_ ≤ a ∧ a < w.1) ∨ InGaps (next w.2) ws a

/-- **The spans the sweep gets right.**  `first` is the start of all of them, `reach` the last address so far and `last`
the end of the latest span.  The spans reach the last address.  Before a span there is no gap, and the latest span ended
no more than two addresses before it; or there is one, and the latest span ended one address before another did. -/
def Chain (first reach last : Nat) : List Span → Prop
  | [] => reach = top
  | w :: ws =>
    (if top < last + 2 then w.1 ≤ first else if reach + 1 < w.1 then last + 1 = reach else w.1 ≤ last + 2) ∧
      Chain first (max reach w.2) w.2 ws

def Exact : List Span → Prop
  | [] => False
  | w :: ws => Chain w.1 w.2 w.2 ws

/-- What is known of the addresses `S` of the spans swept over: the latest starts at `start`. -/
structure Swept (first start reach : Nat) (S : Nat → Prop) : Prop where
  pos : 0 < first
  first_le : first ≤ start
  within : ∀ a, S a → first ≤ a ∧ a ≤ reach
  solid : ∀ a, start ≤ a → a ≤ reach → S a
  first_mem : S first

theorem Swept.single {w : Span} (hpos : 0 < w.1) (hw : w.1 ≤ w.2) : Swept w.1 w.1 w.2 (fun a => w.1 ≤ a ∧ a ≤ w.2) where
  pos := hpos
  first_le := Nat.le_refl _
  within _ h := h
  solid _ h h' := ⟨h, h'⟩
  first_mem := ⟨Nat.le_refl _, hw⟩

theorem Swept.step {first start reach : Nat} {S : Nat → Prop} (h : Swept first start reach S) {w : Span}
    (hstart : start ≤ w.1) :
    Swept first w.1 (max reach w.2) (fun a => S a ∨ (w.1 ≤ a ∧ a ≤ w.2)) where
  pos := h.pos
  first_le := Nat.le_trans h.first_le hstart
  within a ha := by
    have hfirst := h.first_le
    rcases ha with ha | ha
    · have := h.within a ha
      omega
    · omega
  solid a ha ha' := by
    by_cases hend : a ≤ w.2
    · exact .inr ⟨ha, hend⟩
    · exact .inl (h.solid a (by omega) (by omega))
  first_mem := .inl h.first_mem

theorem InGaps.first {first a : Nat} (hpos : 0 < first) (hfirst : first ≤ a) : ∀ {ws : List Span} {start last : Nat},
    start ≤ last → last ≤ top → a < start → (∀ w ∈ ws, start ≤ w.1 ∧ w.1 ≤ w.2 ∧ w.2 ≤ top) →
    ws.Pairwise (fun w w' => w.1 ≤ w'.1) → InGaps (next last) ws a → InGaps (next last) ws first
  | [], _, _, _, _, _, _, _, h => h
  | w :: ws, start, last, hle, htop, ha, hws, hsorted, h => by
    obtain ⟨hs, hw, hwtop⟩ := hws w List.mem_cons_self
    rw [List.pairwise_cons] at hsorted
    rcases h with h | h
    · have hwrap : next last ≤ 1 := by
        have hbegin := h.1
        unfold next at hbegin ⊢
        unfold top at htop
        omega
      exact .inl ⟨by omega, by omega⟩
    · refine .inr (InGaps.first hpos hfirst hw hwtop (by omega) (fun w' hw' => ?_) hsorted.2 h)
      exact ⟨hsorted.1 w' hw', (hws w' (List.mem_cons_of_mem _ hw')).2⟩

theorem gap_iff {first start reach last : Nat} {S : Nat → Prop} (h : Swept first start reach S) (hlast : start ≤ last)
    (hreach : last ≤ reach) {s : Nat} (hs : start ≤ s) (hrtop : reach ≤ top) :
    ((∀ a, first ≤ a → S a → ¬ (next last ≤ a ∧ a < s)) ∧ ∀ a, start ≤ a → a < s → S a ∨ next last ≤ a) ↔
      if top < last + 2 then s ≤ first else if reach + 1 < s then last + 1 = reach else s ≤ last + 2 := by
  have hfirst := h.first_le
  have hpos := h.pos
  split_ifs with hwrap hgap
  · -- the gap is taken to begin at 0 or 1
    have hnext : next last ≤ 1 := by
      unfold next top at *
      omega
    constructor
    · rintro ⟨hfree, -⟩
      by_contra hlt
      exact hfree first (Nat.le_refl _) h.first_mem ⟨by omega, by omega⟩
    · intro hle
      refine ⟨fun a ha _ hin => by omega, fun a ha _ => .inr (by omega)⟩
  all_goals
    have hnext : next last = last + 2 := by
      unfold next top at *
      omega
    rw [hnext]
  · constructor
    · rintro ⟨hfree, hall⟩
      have hnot : ¬ S (reach + 1) := fun hS => by
        have := (h.within _ hS).2
        omega
      have hle := (hall (reach + 1) (by omega) hgap).resolve_left hnot
      by_contra hne
      exact hfree (last + 2) (by omega) (h.solid _ (by omega) (by omega)) ⟨Nat.le_refl _, by omega⟩
    · intro heq
      refine ⟨fun a _ hS hin => ?_, fun a ha _ => ?_⟩
      · have := (h.within a hS).2
        omega
      · by_cases hin : a ≤ reach
        · exact .inl (h.solid a ha hin)
        · exact .inr (by omega)
  · constructor
    · rintro ⟨hfree, -⟩
      by_contra hlt
      exact hfree (last + 2) (by omega) (h.solid _ (by omega) (by omega)) ⟨Nat.le_refl _, by omega⟩
    · intro hle
      exact ⟨fun a _ _ hin => by omega, fun a ha has => .inl (h.solid a ha (by omega))⟩

/-- **The rest of the sweep**: no gap holds a covered address, and no address is left out. -/
theorem chain_iff {first : Nat} : ∀ {ws : List Span} {start reach last : Nat} {S : Nat → Prop},
    Swept first start reach S → start ≤ last → last ≤ reach → reach ≤ top →
    (∀ w ∈ ws, start ≤ w.1 ∧ w.1 ≤ w.2 ∧ w.2 ≤ top) → ws.Pairwise (fun w w' => w.1 ≤ w'.1) →
    (((∀ a, first ≤ a → S a ∨ Covered ws a → ¬ InGaps (next last) ws a) ∧
        ∀ a, start ≤ a → a ≤ top → (S a ∨ Covered ws a) ∨ InGaps (next last) ws a) ↔
      Chain first reach last ws)
  | [], start, reach, last, S, h, hlast, hreach, hrtop, _, _ => by
    constructor
    · rintro ⟨-, hall⟩
      have hin := hall top (by omega) (Nat.le_refl _)
      rcases hin with (hin | ⟨w, hw, -⟩) | hin
      · exact Nat.le_antisymm hrtop (h.within top hin).2
      · cases hw
      · exact hin.elim
    · intro heq
      refine ⟨fun _ _ _ hin => hin, fun a ha hatop => .inl (.inl (h.solid a ha ?_))⟩
      rw [show reach = top from heq]
      exact hatop
  | w :: ws, start, reach, last, S, h, hlast, hreach, hrtop, hws, hsorted => by
    obtain ⟨hs, hw, hwtop⟩ := hws w List.mem_cons_self
    rw [List.pairwise_cons] at hsorted
    have hrest : ∀ w' ∈ ws, w.1 ≤ w'.1 ∧ w'.1 ≤ w'.2 ∧ w'.2 ≤ top := fun w' hw' =>
      ⟨hsorted.1 w' hw', (hws w' (List.mem_cons_of_mem _ hw')).2⟩
    have ih := chain_iff (h.step hs) hw (Nat.le_max_right _ _) (Nat.max_le.2 ⟨hrtop, hwtop⟩) hrest hsorted.2
    have hgap := gap_iff h hlast hreach hs hrtop
    have hcov : ∀ a, (S a ∨ Covered (w :: ws) a) ↔ (S a ∨ (w.1 ≤ a ∧ a ≤ w.2)) ∨ Covered ws a := fun a => by
      simp only [Covered, List.exists_mem_cons_iff, or_assoc]
    -- below the next span nothing to come is covered
    have hlater : ∀ a, a < w.1 → ¬ ((w.1 ≤ a ∧ a ≤ w.2) ∨ Covered ws a) := by
      rintro a ha (hin | ⟨w', hw', hin⟩)
      · omega
      · have := (hrest w' hw').1
        omega
    rw [Chain, ← ih, ← hgap]
    constructor
    · rintro ⟨hfree, hall⟩
      have hfree' : ∀ a, first ≤ a → (S a ∨ (w.1 ≤ a ∧ a ≤ w.2)) ∨ Covered ws a → ¬ InGaps (next w.2) ws a :=
        fun a ha hin hgap => hfree a ha ((hcov a).2 hin) (.inr hgap)
      refine ⟨⟨fun a ha hS hin => hfree a ha (.inl hS) (.inl hin), fun a ha haw => ?_⟩, hfree', fun a ha hatop => ?_⟩
      · rcases hall a ha (by omega) with hin | hin | hin
        · rcases (hcov a).1 hin with (hS | hin') | hin'
          · exact .inl hS
          · exact absurd (.inl hin') (hlater a haw)
          · exact absurd (.inr hin') (hlater a haw)
        · exact .inr hin.1
        · have hbelow := InGaps.first h.pos (Nat.le_trans h.first_le ha) hw hwtop haw hrest hsorted.2 hin
          exact absurd hbelow (hfree' first (Nat.le_refl _) (.inl (.inl h.first_mem)))
      · rcases hall a (by omega) hatop with hin | hin | hin
        · exact .inl ((hcov a).1 hin)
        · omega
        · exact .inr hin
    · rintro ⟨⟨hfree, hleft⟩, hfree', hall⟩
      constructor
      · rintro a ha hin (hgap | hgap)
        · rcases (hcov a).1 hin with (hS | hin') | hin'
          · exact hfree a ha hS hgap
          · exact hlater a hgap.2 (.inl hin')
          · exact hlater a hgap.2 (.inr hin')
        · exact hfree' a ha ((hcov a).1 hin) hgap
      · intro a ha hatop
        by_cases haw : a < w.1
        · rcases hleft a ha haw with hS | hnext
          · exact .inl (.inl hS)
          · exact .inr (.inl ⟨hnext, haw⟩)
        · rcases hall a (by omega) hatop with hin | hin
          · exact .inl ((hcov a).2 hin)
          · exact .inr (.inr hin)

/-- **The sweep gives the complement** exactly on the spans that `Exact` allows. -/
theorem exact_iff {ws : List Span} (hne : ws ≠ []) (hws : ∀ w ∈ ws, 0 < w.1 ∧ w.1 ≤ w.2 ∧ w.2 ≤ top)
    (hsorted : ws.Pairwise (fun w w' => w.1 ≤ w'.1)) :
    (∀ a, a ≤ top → (Covered ws a ∧ ¬ InGaps 0 ws a) ∨ (InGaps 0 ws a ∧ ¬ Covered ws a)) ↔ Exact ws := by
  cases ws with
  | nil => exact absurd rfl hne
  | cons w ws =>
    obtain ⟨hpos, hw, hwtop⟩ := hws w List.mem_cons_self
    rw [List.pairwise_cons] at hsorted
    have hrest : ∀ w' ∈ ws, w.1 ≤ w'.1 ∧ w'.1 ≤ w'.2 ∧ w'.2 ≤ top := fun w' hw' =>
      ⟨hsorted.1 w' hw', (hws w' (List.mem_cons_of_mem _ hw')).2⟩
    have hcov : ∀ a, Covered (w :: ws) a ↔ (w.1 ≤ a ∧ a ≤ w.2) ∨ Covered ws a := fun a => by
      simp only [Covered, List.exists_mem_cons_iff]
    have hfirst : ∀ a, Covered (w :: ws) a → w.1 ≤ a := by
      rintro a ⟨w', hw', hin⟩
      rcases List.mem_cons.1 hw' with rfl | hw'
      · exact hin.1
      · exact Nat.le_trans (hrest w' hw').1 hin.1
    have htop : ∀ a, Covered (w :: ws) a → a ≤ top := by
      rintro a ⟨w', hw', hin⟩
      exact Nat.le_trans hin.2 (hws w' hw').2.2
    rw [Exact, ← chain_iff (Swept.single hpos hw) hw (Nat.le_refl _) hwtop hrest hsorted.2]
    constructor
    · intro hall
      refine ⟨fun a ha hin hgap => ?_, fun a ha hatop => ?_⟩
      · rcases hall a (htop a ((hcov a).2 hin)) with ⟨-, hfree⟩ | ⟨-, hfree⟩
        · exact hfree (.inr hgap)
        · exact hfree ((hcov a).2 hin)
      · rcases hall a hatop with ⟨hin, -⟩ | ⟨hgap | hgap, -⟩
        · exact .inl ((hcov a).1 hin)
        · omega
        · exact .inr hgap
    · rintro ⟨hfree, hall⟩ a hatop
      by_cases ha : w.1 ≤ a
      · rcases hall a ha hatop with hin | hgap
        · refine .inl ⟨(hcov a).2 hin, ?_⟩
          rintro (hgap | hgap)
          · omega
          · exact hfree a ha hin hgap
        · exact .inr ⟨.inr hgap, fun hin => hfree a ha ((hcov a).1 hin) hgap⟩
      · exact .inr ⟨.inl ⟨Nat.zero_le a, by omega⟩, fun hin => ha (hfirst a hin)⟩

end Sweep

/-! ## The ranges of a bridge -/

namespace AddrRange

/-- The addresses from the first to the last; a range up to 2^64 ends at 0. -/
def Spans (r : AddrRange) (a : Addr) : Prop := r.start ≤ a ∧ a ≤ r.end_ - 1

instance (r : AddrRange) (a : Addr) : Decidable (r.Spans a) := inferInstanceAs (Decidable (_ ∧ _))

def span (r : AddrRange) : Sweep.Span := (r.start.toNat, (r.end_ - 1).toNat)

theorem next_span (r : AddrRange) : Sweep.next r.span.2 = (r.end_ + 1).toNat := by
  have hlt := r.end_.isLt
  rw [Sweep.next, span, BitVec.toNat_sub, BitVec.toNat_add]
  change ((2 ^ 64 - 1 + r.end_.toNat) % 2 ^ 64 + 2) % 2 ^ 64 = (r.end_.toNat + 1) % 2 ^ 64
  omega

theorem covered_map_span (l : List AddrRange) (a : Addr) :
    Sweep.Covered (l.map span) a.toNat ↔ ∃ r ∈ l, r.Spans a := by
  simp only [Sweep.Covered, List.mem_map, exists_exists_and_eq_and, Spans, span, BitVec.le_def]

end AddrRange

namespace PciBridge2

theorem gaps_iff (a : Addr) : ∀ (rs : List AddrRange) (last : Addr),
    (∃ r ∈ (gaps last rs).1, r.contains a = true) ↔ Sweep.InGaps last.toNat (rs.map AddrRange.span) a.toNat
  | [], last => by simp [gaps, Sweep.InGaps]
  | r :: rs, last => by
    have hgap : (rangeIn last (r.start - 1)).contains a = true ↔ last.toNat ≤ a.toNat ∧ a.toNat < r.start.toNat := by
      rw [rangeIn_contains, BitVec.sub_add_cancel, Bool.and_eq_true, decide_eq_true_eq, decide_eq_true_eq, BitVec.le_def,
        BitVec.lt_def]
    have hrest := gaps_iff a rs (r.end_ + 1)
    rw [← AddrRange.next_span] at hrest
    rw [List.map_cons, Sweep.InGaps, ← hrest, gaps]
    split_ifs with hlt
    · simp only [List.exists_mem_cons_iff, hgap, AddrRange.span]
    · have hnone : ¬ (last.toNat ≤ a.toNat ∧ a.toNat < r.span.1) := fun h => hlt (Nat.lt_of_le_of_lt h.1 h.2)
      rw [or_iff_right hnone]

theorem outsideRanges_iff (rs : List AddrRange) (a : Addr) :
    (∃ r ∈ outsideRanges rs, r.contains a = true) ↔ Sweep.InGaps 0 (rs.map AddrRange.span) a.toNat := by
  have hgaps := gaps_iff a rs 0
  -- a range up to the last address has the exclusive end 0
  have hempty : ∀ last, ¬ (rangeIn last addrMax).contains a = true := fun last h => by
    rw [rangeIn_contains, Bool.and_eq_true, decide_eq_true_eq, decide_eq_true_eq] at h
    exact absurd h.2 (Nat.not_lt_zero _)
  rw [← show ((0 : Addr).toNat) = 0 from rfl, ← hgaps, outsideRanges]
  generalize gaps 0 rs = g
  obtain ⟨l, last⟩ := g
  dsimp only
  split_ifs with hlast
  · rfl
  · constructor
    · rintro ⟨r, hr, hin⟩
      rcases List.mem_append.1 hr with hr | hr
      · exact ⟨r, hr, hin⟩
      · rw [List.mem_singleton.1 hr] at hin
        exact absurd hin (hempty last)
    · rintro ⟨r, hr, hin⟩
      exact ⟨r, List.mem_append_left _ hr, hin⟩

end PciBridge2

namespace ConfigClass

theorem span_rangeSize {bar size : BitVec 32} (hbar : bar.setWidth 64 ≠ 0) (hsize : size ≠ 0) :
    0 < (rangeSize (bar.setWidth 64) (size.setWidth 64)).span.1 ∧
      (rangeSize (bar.setWidth 64) (size.setWidth 64)).span.1 ≤ (rangeSize (bar.setWidth 64) (size.setWidth 64)).span.2 := by
  have hpos : size.toNat ≠ 0 := fun h => hsize (BitVec.eq_of_toNat_eq h)
  have hbpos : (bar.setWidth 64).toNat ≠ 0 := fun h => hbar (BitVec.eq_of_toNat_eq h)
  have hb := bar.isLt
  have hs := size.isLt
  simp only [AddrRange.span, rangeSize]
  bv_omega

theorem mem_fillRanges {c : ConfigClass} {r : AddrRange} (hr : r ∈ c.fillRanges []) :
    r.masks = [] ∧ 0 < r.span.1 ∧ r.span.1 ≤ r.span.2 := by
  have hwin : ∀ k, r ∈ c.windowRange k → r.masks = [] ∧ 0 < r.span.1 ∧ r.span.1 ≤ r.span.2 := by
    intro k hk
    unfold windowRange at hk
    split_ifs at hk with hvalid
    · obtain rfl := List.mem_singleton.1 hk
      have hne : (c.base k).toNat ≠ 0 := fun h => hvalid.2.2.2 (BitVec.eq_of_toNat_eq h)
      have hlt := hvalid.2.2.1
      rw [BitVec.lt_def] at hlt
      simp only [AddrRange.span, rangeIn, BitVec.add_sub_cancel, true_and]
      omega
    · cases hk
  simp only [fillRanges, List.nil_append, windowRanges, List.mem_append] at hr
  rcases hr with hbar | (hr | hr) | hr
  · unfold barRanges at hbar
    rcases List.mem_append.1 hbar with hbar | hbar <;> split_ifs at hbar with hb
    · obtain rfl := List.mem_singleton.1 hbar
      exact ⟨rfl, span_rangeSize hb.2 hb.1⟩
    · cases hbar
    · obtain rfl := List.mem_singleton.1 hbar
      exact ⟨rfl, span_rangeSize hb.2 hb.1⟩
    · cases hbar
  · exact hwin _ hr
  · exact hwin _ hr
  · exact hwin _ hr

end ConfigClass

namespace PciBridge2

/-- **A DMA port advertises the complement of the downstream ranges** exactly if the sweep is right on their spans. -/
theorem complement_iff {b : PciBridge2} {i : PortId} (hi : i ≠ 0) (hne : (b.storage i).fillRanges [] ≠ []) :
    (∀ a : Addr, Xor (∃ r ∈ (b.storage i).fillRanges [], r.Spans a) (∃ r ∈ b.getAddrRanges i, r.contains a = true)) ↔
      Sweep.Exact ((AddrRange.sort ((b.storage i).fillRanges [])).map AddrRange.span) := by
  have hranges : b.getAddrRanges i = outsideRanges (AddrRange.sort ((b.storage i).fillRanges [])) := by
    unfold getAddrRanges
    simp only [if_neg hi]
  have hmem : ∀ r, r ∈ AddrRange.sort ((b.storage i).fillRanges []) ↔ r ∈ (b.storage i).fillRanges [] := fun r =>
    AddrRange.mem_sort
  have hspans : ∀ w ∈ (AddrRange.sort ((b.storage i).fillRanges [])).map AddrRange.span,
      0 < w.1 ∧ w.1 ≤ w.2 ∧ w.2 ≤ Sweep.top := by
    intro w hw
    obtain ⟨r, hr, rfl⟩ := List.mem_map.1 hw
    obtain ⟨-, hpos, hle⟩ := ConfigClass.mem_fillRanges ((hmem r).1 hr)
    exact ⟨hpos, hle, Nat.le_pred_of_lt (r.end_ - 1).isLt⟩
  have hsorted := AddrRange.pairwise_sort (l := (b.storage i).fillRanges []) fun r hr => (ConfigClass.mem_fillRanges hr).1
  have hmap : (AddrRange.sort ((b.storage i).fillRanges [])).map AddrRange.span ≠ [] := fun h => by
    obtain ⟨r, hr⟩ := List.exists_mem_of_ne_nil _ hne
    rw [List.map_eq_nil_iff] at h
    have hr' := (hmem r).2 hr
    rw [h] at hr'
    cases hr'
  rw [← Sweep.exact_iff hmap hspans (List.pairwise_map.2 hsorted), hranges]
  have hcov : ∀ a : Addr, (∃ r ∈ (b.storage i).fillRanges [], r.Spans a) ↔
      Sweep.Covered ((AddrRange.sort ((b.storage i).fillRanges [])).map AddrRange.span) a.toNat := fun a => by
    rw [AddrRange.covered_map_span]
    simp only [hmem]
  constructor
  · intro hall a ha
    have hlt : a < 2 ^ 64 := Nat.lt_of_le_pred (Nat.two_pow_pos 64) ha
    have hx := hall (BitVec.ofNat 64 a)
    rw [hcov, outsideRanges_iff, BitVec.toNat_ofNat, Nat.mod_eq_of_lt hlt] at hx
    exact hx
  · intro hall a
    rw [hcov, outsideRanges_iff]
    exact hall a.toNat (Nat.le_pred_of_lt a.isLt)

theorem complement_of_window_to_top :
    ∃ b, (create {}).configure [⟨1, 0x24, 4, 0xFFF00010⟩] = .ok b ∧
      ∀ a : Addr, Xor (∃ r ∈ (b.storage 1).fillRanges [], r.Spans a) (∃ r ∈ b.getAddrRanges 1, r.contains a = true) := by
  obtain ⟨b, hb, hfill⟩ : ∃ b, (create {}).configure [⟨1, 0x24, 4, 0xFFF00010⟩] = .ok b ∧
      (b.storage 1).fillRanges [] = [rangeIn 0x100000 addrMax] := ⟨_, rfl, by decide +kernel⟩
  refine ⟨b, hb, (complement_iff (by decide) ?_).2 ?_⟩
  · rw [hfill]
    exact List.cons_ne_nil _ _
  · rw [hfill]
    rfl

/-- The address after a window is advertised by neither side; with an I/O window inside the memory window, addresses of
the memory window are advertised by both. -/
theorem complement_off :
    (∃ b, (create {}).configure [⟨1, 0x20, 4, 0x90009000⟩] = .ok b ∧
        ¬ (∃ r ∈ (b.storage 1).fillRanges [], r.Spans 0x90100000) ∧
        ¬ ∃ r ∈ b.getAddrRanges 1, r.contains 0x90100000 = true) ∧
      ∃ b, (create {}).configure [⟨1, 0x20, 4, 0x3FF02000⟩, ⟨1, 0x1C, 2, 0x0000⟩, ⟨1, 0x24, 4, 0x5FF05000⟩] = .ok b ∧
        (∃ r ∈ (b.storage 1).fillRanges [], r.Spans 0x30000000) ∧
        ∃ r ∈ b.getAddrRanges 1, r.contains 0x30000000 = true :=
  ⟨⟨_, rfl, by decide +kernel, by decide +kernel⟩, ⟨_, rfl, by decide +kernel, by decide +kernel⟩⟩

end PciBridge2

end Gem5
