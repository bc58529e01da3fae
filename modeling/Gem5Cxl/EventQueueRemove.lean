import Gem5Cxl.EventQueueRep
/-!
# EventQueueRemove — removal from the queue, by name and from the head

A bin's top is the only member whose `nextBin` is read.  When the top goes, the member under it becomes the top, and
`removeItem` and `popHead` copy the pointer then; when another member goes, `nextBin` is not touched.
-/
namespace Gem5
namespace EventQ

open List (mem_cons mem_cons_of_mem mem_cons_self)
open Chain

theorem nextInBin_setEvent (q : EventQueue) (e : EventId) (p : Option EventId) (i : EventId) :
    (q.setEvent e { q.event e with nextInBin := p }).nextInBin i = if i = e then p else q.nextInBin i := by
  unfold EventQueue.nextInBin
  rw [setEvent_event]
  split <;> rfl

theorem nextBin_setEvent_nextInBin (q : EventQueue) (e : EventId) (p : Option EventId) :
    (q.setEvent e { q.event e with nextInBin := p }).nextBin = q.nextBin :=
  funext (field_setEvent (·.nextBin) q e rfl)

theorem seekInBin_eq (q : EventQueue) (e : EventId) (r₂ : List EventId) : ∀ (r₁ : List EventId) (t : EventId) (n : Nat),
    Links q.nextInBin (q.nextInBin t) (r₁ ++ e :: r₂) none → e ∉ r₁ → r₁.length < n →
      ∃ l curr, t :: r₁ = l ++ [curr] ∧ seekInBin q.event e n t (q.nextInBin t) = .ok curr
  | _, _, 0, _, _, hn => by simp at hn
  | [], t, n + 1, hl, _, _ => by
    refine ⟨[], t, rfl, ?_⟩
    rw [hl.1, seekInBin, if_pos rfl]
  | a :: r₁, t, n + 1, hl, he, hn => by
    obtain ⟨hta, hl⟩ := hl
    have hae : a ≠ e := fun h => he (h ▸ mem_cons_self)
    obtain ⟨l, curr, heq, hs⟩ :=
      seekInBin_eq q e r₂ r₁ a n hl (fun h => he (mem_cons_of_mem a h)) (by simpa using hn)
    refine ⟨t :: l, curr, by rw [heq]; rfl, ?_⟩
    rw [hta, seekInBin, if_neg (by simpa using hae)]
    exact hs

variable {bins : List (EventId × List EventId)} {q : EventQueue} {r : List EventId} {t e : EventId}

theorem binLinks_popTop {t' : EventId} (hl : BinLinks q.nextBin q.nextInBin (some t) ((t, t' :: r) :: bins))
    (ht : t' ∉ flat bins) : BinLinks (q.setEvent t' { q.event t' with nextBin := q.nextBin t }).nextBin
      (q.setEvent t' { q.event t' with nextBin := q.nextBin t }).nextInBin (some t') ((t', r) :: bins) := by
  refine ⟨⟨rfl, ?_⟩, fun b hb => ?_⟩
  · rw [nextBin_setEvent, if_pos rfl]
    refine links_congr (fun i hi => ?_) hl.tops.2
    rw [nextBin_setEvent, if_neg (fun hit : i = t' => ht (hit ▸ top_mem_flat hi))]
  · rw [nextInBin_setEvent_nextBin]
    rcases mem_cons.1 hb with rfl | hb
    · exact (hl.members _ mem_cons_self).2
    · exact hl.members b (mem_cons_of_mem _ hb)

/-- **`removeItem` takes the event out of the bin it is given**, and writes no event outside that bin. -/
theorem removeItem_eq (hl : BinLinks q.nextBin q.nextInBin (some t) ((t, r) :: bins))
    (hnd : (flat ((t, r) :: bins)).Nodup) (he : e = t ∨ e ∈ r) (hlen : r.length ≤ q.rounds) :
    ∃ q' p, removeItem q e t = .ok (q', p) ∧ BinLinks q'.nextBin q'.nextInBin p (dropItem e ((t, r) :: bins)) ∧
      SameData q q' ∧ q'.head = q.head ∧ ∀ i, i ∉ t :: r → q'.event i = q.event i := by
  rw [flat_cons, List.nodup_cons, List.nodup_append] at hnd
  obtain ⟨htr, hr, hbins, hdisj⟩ := hnd
  by_cases het : e = t
  · subst het
    cases r with
    | nil =>
      have hnull : (q.event e).nextInBin = none := hl.members (e, []) mem_cons_self
      refine ⟨q, q.nextBin e, ?_, ?_, SameData.refl q, rfl, fun _ _ => rfl⟩
      · simp [removeItem, hnull, EventQueue.nextBin]
      · simp only [dropItem, if_true]
        exact ⟨hl.tops.2, fun b hb => hl.members b (mem_cons_of_mem _ hb)⟩
    | cons t' r =>
      have hnext : (q.event e).nextInBin = some t' := (hl.members (e, t' :: r) mem_cons_self).1
      refine ⟨_, some t', ?_, ?_, sameData_setEvent q t' { q.event t' with nextBin := q.nextBin e } rfl, rfl,
        fun i hi => ?_⟩
      · simp [removeItem, hnext, EventQueue.nextBin]
      · simp only [dropItem, if_true]
        exact binLinks_popTop hl (fun hm => hdisj t' mem_cons_self t' hm rfl)
      · rw [setEvent_event, if_neg (fun hit => hi (by simp [hit]))]
  · have her : e ∈ r := he.resolve_left het
    obtain ⟨r₁, r₂, hre, hr₁⟩ : ∃ r₁ r₂, r = r₁ ++ e :: r₂ ∧ e ∉ r₁ := List.eq_append_cons_of_mem her
    have hstack := hl.members (t, r) mem_cons_self
    simp only [hre] at hstack
    have hlt : r₁.length < q.rounds := by
      rw [hre, List.length_append, List.length_cons] at hlen
      omega
    obtain ⟨l, curr, heq, hseek⟩ := seekInBin_eq q e r₂ r₁ t q.rounds hstack hr₁ hlt
    have hcurr : curr ∈ t :: r := by
      have : curr ∈ t :: r₁ := heq ▸ List.mem_append_right l mem_cons_self
      rcases mem_cons.1 this with h | h
      · exact h ▸ mem_cons_self
      · exact mem_cons_of_mem t (hre ▸ List.mem_append_left _ h)
    have hcurrb : curr ∉ flat bins := fun hm => by
      rcases mem_cons.1 hcurr with h | h
      · exact htr (h ▸ List.mem_append_right r hm)
      · exact hdisj curr h curr hm rfl
    refine ⟨_, some t, ?_, ?_, sameData_setEvent q curr { q.event curr with nextInBin := q.nextInBin e } rfl, rfl,
      fun i hi => ?_⟩
    · have hnext : (q.event t).nextInBin = q.nextInBin t := rfl
      rw [removeItem, if_neg het, hnext, hseek]
      rfl
    · have hdrop : dropItem e ((t, r) :: bins) = (t, r₁ ++ r₂) :: bins := by
        have herase : (r₁ ++ e :: r₂).erase e = r₁ ++ r₂ := by simp [List.erase_append_right _ hr₁]
        simp only [dropItem, if_neg het, hre, herase]
      rw [hdrop]
      have hnd' : (l ++ curr :: e :: r₂).Nodup := by
        have : l ++ curr :: e :: r₂ = t :: (r₁ ++ e :: r₂) := by
          rw [← List.cons_append, heq, List.append_assoc]
          rfl
        rw [this, ← hre]
        exact List.nodup_cons.2 ⟨fun hm => htr (List.mem_append_left _ hm), hr⟩
      refine ⟨?_, fun b hb => ?_⟩
      · rw [nextBin_setEvent_nextInBin]
        exact hl.tops
      · rcases mem_cons.1 hb with rfl | hb
        · -- the stack from its top, with the event spliced out after `curr`
          have hfull : Links q.nextInBin (some t) (l ++ curr :: e :: r₂) none := by
            have : l ++ curr :: e :: r₂ = (t :: r₁) ++ e :: r₂ := by rw [heq, List.append_assoc]; rfl
            rw [this]
            exact ⟨rfl, hstack⟩
          have hsp := links_unlink (g := (q.setEvent curr { q.event curr with nextInBin := q.nextInBin e }).nextInBin)
            hfull hnd' (by rw [nextInBin_setEvent, if_pos rfl]) (fun i hi => by rw [nextInBin_setEvent, if_neg hi])
          have hcat : l ++ curr :: r₂ = t :: (r₁ ++ r₂) := by
            rw [← List.cons_append, heq, List.append_assoc]
            rfl
          rw [hcat] at hsp
          exact hsp.2
        · have hb1 : ∀ i, i = b.1 ∨ i ∈ b.2 →
              q.nextInBin i = (q.setEvent curr { q.event curr with nextInBin := q.nextInBin e }).nextInBin i := by
            intro i hi
            rw [nextInBin_setEvent, if_neg (fun hic : i = curr => hcurrb (hic ▸ mem_flat.2 ⟨b, hb, hi⟩))]
          rw [← hb1 b.1 (Or.inl rfl)]
          exact links_congr (fun i hi => hb1 i (Or.inr hi)) (hl.members b (mem_cons_of_mem _ hb))
    · rw [setEvent_event, if_neg (fun hit : i = curr => hi (hit ▸ hcurr))]

theorem rep_dropItem {q' : EventQueue} (pre : List (EventId × List EventId)) {c : EventId × List EventId}
    {post : List (EventId × List EventId)} (h : Rep q (pre ++ c :: post)) (he : e = c.1 ∨ e ∈ c.2)
    (hl : BinLinks q'.nextBin q'.nextInBin q'.head (pre ++ dropItem e (c :: post))) (hs : SameData q q') :
    Rep q' (pre ++ dropItem e (c :: post)) ∧
      flat (pre ++ dropItem e (c :: post)) = (flat (pre ++ c :: post)).erase e := by
  have hec : e ∈ flat (c :: post) := mem_flat.2 ⟨c, mem_cons_self, he⟩
  have hpre : e ∉ flat pre := by
    intro hm
    have hnd := h.nodup
    rw [flat_append, List.nodup_append] at hnd
    exact hnd.2.2 e hm e hec rfl
  have hflat : flat (pre ++ dropItem e (c :: post)) = (flat (pre ++ c :: post)).erase e := by
    rw [flat_append, flat_append, List.erase_append_right _ hpre, flat_dropItem he]
  refine ⟨⟨hl, ?_, ?_, fun x hx => ?_⟩, hflat⟩
  · rw [hs.key]
    exact binSorted_dropItem h.sorted
  · rw [hflat]
    exact h.nodup.erase e
  · rw [hs.rounds]
    rw [hflat] at hx
    exact h.bounded x (List.mem_of_mem_erase hx)

/-- **`remove` takes a queued event out of the sorted list**; it does not reach its panic. -/
theorem remove_eq (h : Rep q bins) (he : e ∈ flat bins) (hq : (q.event e).queue = true) :
    ∃ q' bins', remove q e = .ok q' ∧ Rep q' bins' ∧ flat bins' = (flat bins).erase e ∧ SameData q q' := by
  cases bins with
  | nil => simp at he
  | cons b rest =>
    have hhead : q.head = some b.1 := h.links.tops.1
    rcases h.sorted.mem_cases he with ⟨hm, hk⟩ | ⟨hm, hk⟩
    · -- the event is in the head's bin
      have hlen : b.2.length ≤ q.rounds :=
        Nat.le_trans (Nat.le_of_lt (stack_length_lt_flat mem_cons_self)) h.length_le
      obtain ⟨q₁, p, hr, hl, hs, -, -⟩ := removeItem_eq (e := e) (hhead ▸ h.links) h.nodup hm hlen
      obtain ⟨h1, h2⟩ := rep_dropItem [] h hm hl (hs.withHead p)
      refine ⟨_, _, ?_, h1, h2, hs.withHead p⟩
      have heqv : (q.event b.1).eqv (q.event e) = true := (Event.eqv_iff _ _).2 hk
      simp only [remove, hhead, hq, assertThat_true, heqv, if_true, hr]
      rfl
    · obtain ⟨pre, c, post, heq, hseek, hpre, hpost⟩ :=
        seekBin_eq q e rest b q.rounds h.links.tops.2 h.rest_length_lt hk
      have heqv : (q.event b.1).eqv (q.event e) = false :=
        Bool.eq_false_iff.2 (fun hc => ne_of_lt hk ((Event.eqv_iff _ _).1 hc))
      have hsplit : pre ++ c :: post = (pre ++ [c]) ++ post := by simp
      rw [heq, hsplit] at h he
      -- every bin up to `c` is before the event, so the event is in a bin after `c`
      have hep : e ∈ flat post := by
        rw [flat_append] at he
        refine (List.mem_append.1 he).resolve_left (fun hm' => ?_)
        obtain ⟨x, hx, hex⟩ := mem_flat.1 hm'
        have hkx := h.sorted.key_eq (List.mem_append_left post hx) hex
        exact absurd (hpre x hx) (hkx ▸ lt_irrefl _)
      cases post with
      | nil => simp at hep
      | cons d post =>
        have hd : (e = d.1 ∨ e ∈ d.2) ∧ q.key d.1 = q.key e :=
          ((binSorted_append.1 h.sorted).2.1.mem_cases hep).resolve_right (fun hc => hpost d rfl hc.2)
        have hlen : d.2.length ≤ q.rounds :=
          Nat.le_trans (Nat.le_of_lt (stack_length_lt_flat (List.mem_append_right _ mem_cons_self))) h.length_le
        have hnd := h.nodup
        rw [flat_append, List.nodup_append] at hnd
        obtain ⟨q₁, p, hr, hl, hs, hhd, hother⟩ := removeItem_eq (e := e) h.links.suffix hnd.2.1 hd.1 hlen
        -- `removeItem` wrote inside the bin of `d` only, so the bins up to `c` are laid out as before
        have hsame : ∀ i ∈ flat (pre ++ [c]), q₁.event i = q.event i := by
          refine fun i hi => hother i (fun hm' => ?_)
          refine hnd.2.2 i hi i (mem_flat.2 ⟨d, mem_cons_self, ?_⟩) rfl
          rcases mem_cons.1 hm' with h' | h'
          · exact Or.inl h'
          · exact Or.inr h'
        have hstacks : ∀ x ∈ pre ++ [c], Links q₁.nextInBin (q₁.nextInBin x.1) x.2 none := by
          intro x hx
          have hx1 : ∀ i, i = x.1 ∨ i ∈ x.2 → q.nextInBin i = q₁.nextInBin i := fun i hi => by
            simp only [EventQueue.nextInBin, hsame i (mem_flat.2 ⟨x, hx, hi⟩)]
          rw [← hx1 x.1 (Or.inl rfl)]
          exact links_congr (fun i hi => hx1 i (Or.inr hi)) (h.links.members x (List.mem_append_left _ hx))
        have htops : ∃ r, Links q₁.nextBin q.head ((pre ++ [c]).map Prod.fst) r := by
          obtain ⟨r, ht⟩ := h.links.tops_upto
          exact ⟨r, links_congr (fun i hi => by simp only [EventQueue.nextBin, hsame i (top_mem_flat hi)]) ht⟩
        let q' := q₁.setEvent c.1 { q₁.event c.1 with nextBin := p }
        have hs' : SameData q q' := hs.trans (sameData_setEvent q₁ c.1 _ rfl)
        have hlink : BinLinks q'.nextBin q'.nextInBin q'.head ((pre ++ [c]) ++ dropItem e (d :: post)) := by
          have hc : c.1 ∈ flat (pre ++ [c]) := mem_flat.2 ⟨c, by simp, Or.inl rfl⟩
          have hhd' : q'.head = q.head := hhd
          rw [hhd', List.append_assoc, List.singleton_append]
          refine binLinks_redirect htops hstacks hl (hsplit ▸ h.sorted).top_notMem (fun hm' => ?_)
          have hm'' := top_mem_flat hm'
          rw [flat_dropItem hd.1] at hm''
          exact hnd.2.2 c.1 hc c.1 (List.mem_of_mem_erase hm'') rfl
        obtain ⟨h1, h2⟩ := rep_dropItem (pre ++ [c]) h hd.1 hlink hs'
        refine ⟨q', _, ?_, h1, ?_, hs'⟩
        · have heqv' : (q.event d.1).eqv (q.event e) = true := (Event.eqv_iff _ _).2 hd.2
          have hnext : (q.event b.1).nextBin = q.nextBin b.1 := rfl
          simp only [remove, hhead, hq, assertThat_true, heqv, hnext, hseek]
          simp only [bind, Except.bind, Bool.false_eq_true, if_false, List.head?_cons, Option.map_some, heqv',
            Bool.not_true, hr]
          rfl
        · rw [h2, heq, hsplit]

/-! ## The head -/

@[simp] theorem setFlags_event (q : EventQueue) (e i : EventId) (f : Flags) :
    (q.setFlags e f).event i = if i = e then { q.event e with flags := f } else q.event i := rfl

section

variable (q : EventQueue) (e : EventId) (f : Flags)

theorem setFlags_nextBin : (q.setFlags e f).nextBin = q.nextBin :=
  funext (field_setEvent (·.nextBin) q e rfl)

theorem setFlags_nextInBin : (q.setFlags e f).nextInBin = q.nextInBin :=
  funext (field_setEvent (·.nextInBin) q e rfl)

theorem setFlags_key : (q.setFlags e f).key = q.key :=
  funext (field_setEvent Event.key q e rfl)

end

theorem Rep.setFlags (h : Rep q bins) (e : EventId) (f : Flags) : Rep (q.setFlags e f) bins :=
  h.congr (fun _ _ => by rw [setFlags_nextBin]) (fun _ _ => by rw [setFlags_nextInBin])
    (fun _ _ => by rw [setFlags_key]) rfl (Nat.le_refl _)

theorem popHead_of_removeItem {q' : EventQueue} {p : Option EventId} (hhead : q.head = some t)
    (hr : removeItem (q.setFlags t { (q.event t).flags with scheduled := false }) t t = .ok (q', p)) :
    popHead q = .ok (t, { q' with head := p }) := by
  rw [removeItem, if_pos rfl] at hr
  rw [popHead, hhead]
  have hnext : ((q.setFlags t { (q.event t).flags with scheduled := false }).event t).nextInBin = (q.event t).nextInBin := by
    rw [setFlags_event, if_pos rfl]
  rw [hnext] at hr
  dsimp only
  cases hn : (q.event t).nextInBin with
  | none =>
    rw [hn] at hr
    cases hr
    rfl
  | some next =>
    rw [hn] at hr
    cases hr
    rfl

theorem popHead_eq (h : Rep q ((t, r) :: bins)) :
    ∃ q' bins', popHead q = .ok (t, q') ∧ Rep q' bins' ∧ flat bins' = r ++ flat bins ∧
      SameData (q.setFlags t { (q.event t).flags with scheduled := false }) q' := by
  have hhead : q.head = some t := h.links.tops.1
  let q₁ := q.setFlags t { (q.event t).flags with scheduled := false }
  have h₁ : Rep q₁ ((t, r) :: bins) := h.setFlags t _
  have hhead₁ : q₁.head = some t := hhead
  have hlen : r.length ≤ q₁.rounds := by
    have hlt : r.length < (flat ((t, r) :: bins)).length := stack_length_lt_flat (b := (t, r)) mem_cons_self
    exact Nat.le_trans (Nat.le_of_lt hlt) h₁.length_le
  obtain ⟨q', p, hr, hl, hs, -, -⟩ := removeItem_eq (e := t) (hhead₁ ▸ h₁.links) h₁.nodup (.inl rfl) hlen
  obtain ⟨h1, h2⟩ := rep_dropItem [] h₁ (.inl rfl) hl (hs.withHead p)
  have hfirst : (flat ((t, r) :: bins)).erase t = r ++ flat bins := by simp
  exact ⟨_, _, popHead_of_removeItem hhead hr, h1, h2.trans hfirst, hs.withHead p⟩

/-! ## The walk -/

theorem dumpBins_eq (q : EventQueue) (m : Nat) : ∀ (bins : List (EventId × List EventId)) (n : Nat) (p : Option EventId),
    BinLinks q.nextBin q.nextInBin p bins → bins.length ≤ n → (∀ b ∈ bins, b.2.length < m) →
      dumpBins q.event m n p = some (flat bins)
  | [], n, p, hl, _, _ => by
    have hp : p = none := hl.tops
    subst hp
    cases n <;> rfl
  | b :: bins, 0, _, _, hn, _ => by simp at hn
  | b :: bins, n + 1, p, hl, hn, hm => by
    have hp : p = some b.1 := hl.tops.1
    have hbin : dumpBin q.event m (some b.1) = some (b.1 :: b.2) :=
      follow_eq _ (b.1 :: b.2) m _ ⟨rfl, hl.members b mem_cons_self⟩ (hm b mem_cons_self)
    have hrest := dumpBins_eq q m bins n (q.nextBin b.1)
      ⟨hl.tops.2, fun c hc => hl.members c (mem_cons_of_mem b hc)⟩ (by simpa using hn)
      (fun c hc => hm c (mem_cons_of_mem b hc))
    have hnext : (q.event b.1).nextBin = q.nextBin b.1 := rfl
    subst hp
    simp only [dumpBins, hbin, hnext, hrest, Option.bind_eq_bind, Option.bind_some, Option.pure_def, flat_cons,
      List.cons_append]

theorem Rep.dump_eq (h : Rep q bins) : q.dump = some (flat bins) := by
  refine dumpBins_eq q q.rounds bins q.rounds q.head h.links ?_ (fun b hb => ?_)
  · exact Nat.le_trans (length_le_flat bins) h.length_le
  · exact Nat.lt_of_lt_of_le (stack_length_lt_flat hb) h.length_le

end EventQ
end Gem5
