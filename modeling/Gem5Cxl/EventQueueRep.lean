import Gem5Cxl.EventQueue
import Mathlib.Data.Prod.Lex
import Mathlib.Data.List.Perm.Subperm
/-!
# EventQueueRep — the bins a queue represents, and what each pointer operation does to them

`Rep q bins` says that the pointers of `q` lay out `bins`, sorted and without repetition.  Each of `insert`, `remove`
and `popHead` is shown to take a represented queue to a represented queue and to act on the flat list of events as a
sorted list: `insertTop`, `erase`, `tail`.  None of them touches anything else of an event (`SameData`).
-/
namespace Gem5
namespace EventQ

open Chain

def Event.key (x : Event) : ℕ ×ₗ ℤ := toLex (x.when, x.priority)

theorem Event.lt_iff (l r : Event) : l.lt r = true ↔ l.key < r.key := by
  simp [Event.lt, Event.key, Prod.Lex.toLex_lt_toLex]

theorem Event.le_iff (l r : Event) : l.le r = true ↔ l.key ≤ r.key := by
  simp [Event.le, Event.key, Prod.Lex.toLex_le_toLex]

theorem Event.eqv_iff (l r : Event) : l.eqv r = true ↔ l.key = r.key := by
  simp [Event.eqv, Event.key, Prod.ext_iff]

def EventQueue.key (q : EventQueue) (e : EventId) : ℕ ×ₗ ℤ := (q.event e).key

def EventQueue.nextBin (q : EventQueue) (e : EventId) : Option EventId := (q.event e).nextBin
def EventQueue.nextInBin (q : EventQueue) (e : EventId) : Option EventId := (q.event e).nextInBin

/-- **The pointers of `q` lay out `bins`**: sorted, without repetition, of constructed events. -/
structure Rep (q : EventQueue) (bins : List (EventId × List EventId)) : Prop where
  links : BinLinks q.nextBin q.nextInBin q.head bins
  sorted : BinSorted q.key bins
  nodup : (flat bins).Nodup
  bounded : ∀ e ∈ flat bins, e < q.rounds

theorem rep_empty : Rep {} [] where
  links := ⟨rfl, fun _ h => nomatch h⟩
  sorted := ⟨List.Pairwise.nil, fun _ h => nomatch h⟩
  nodup := List.nodup_nil
  bounded := fun _ h => nomatch h

variable {bins post : List (EventId × List EventId)} {q q' : EventQueue} {e : EventId} {p : Option EventId}

theorem Rep.congr (h : Rep q bins) (hb : ∀ e ∈ flat bins, q'.nextBin e = q.nextBin e)
    (hi : ∀ e ∈ flat bins, q'.nextInBin e = q.nextInBin e) (hk : ∀ e ∈ flat bins, q'.key e = q.key e)
    (hh : q'.head = q.head) (hr : q.rounds ≤ q'.rounds) : Rep q' bins where
  links := by
    refine ⟨hh ▸ links_congr (fun e he => (hb e (top_mem_flat he)).symm) h.links.tops, fun b hm => ?_⟩
    rw [hi b.1 (mem_flat.2 ⟨b, hm, Or.inl rfl⟩)]
    exact links_congr (fun e he => (hi e (mem_flat.2 ⟨b, hm, Or.inr he⟩)).symm) (h.links.members b hm)
  sorted := h.sorted.congr hk
  nodup := h.nodup
  bounded := fun e he => Nat.lt_of_lt_of_le (h.bounded e he) hr

/-! ## The frame -/

def Event.data (x : Event) : Event := { x with nextBin := none, nextInBin := none }

structure SameData (q q' : EventQueue) : Prop where
  data : ∀ e, (q'.event e).data = (q.event e).data
  curTick : q'.curTick = q.curTick
  counter : q'.instanceCounter = q.instanceCounter
  trace : q'.trace = q.trace

theorem SameData.refl (q : EventQueue) : SameData q q := ⟨fun _ => rfl, rfl, rfl, rfl⟩

theorem SameData.trans {q'' : EventQueue} (h : SameData q q') (h' : SameData q' q'') : SameData q q'' :=
  ⟨fun e => (h'.data e).trans (h.data e), h'.curTick.trans h.curTick, h'.counter.trans h.counter,
    h'.trace.trans h.trace⟩

theorem data_eq_iff (x y : Event) :
    x.data = y.data ↔ x.when = y.when ∧ x.priority = y.priority ∧ x.flags = y.flags ∧ x.queue = y.queue := by
  simp [Event.data, Event.mk.injEq]

section

variable (h : SameData q q')
include h

theorem SameData.key : q'.key = q.key := by
  funext e
  obtain ⟨hw, hp, -, -⟩ := (data_eq_iff _ _).1 (h.data e)
  unfold EventQueue.key Event.key
  rw [hw, hp]

theorem SameData.flags (e : EventId) :
    (q'.event e).flags = (q.event e).flags := ((data_eq_iff _ _).1 (h.data e)).2.2.1

theorem SameData.queue (e : EventId) :
    (q'.event e).queue = (q.event e).queue := ((data_eq_iff _ _).1 (h.data e)).2.2.2

theorem SameData.rounds : q'.rounds = q.rounds := by
  unfold EventQueue.rounds
  rw [h.counter]

theorem SameData.withHead (p : Option EventId) :
    SameData q { q' with head := p } := ⟨h.data, h.curTick, h.counter, h.trace⟩

end

@[simp] theorem setEvent_event (q : EventQueue) (e i : EventId) (x : Event) :
    (q.setEvent e x).event i = if i = e then x else q.event i := rfl

theorem field_setEvent {β : Type} (f : Event → β) (q : EventQueue) (e : EventId) {x : Event}
    (hx : f x = f (q.event e)) (i : EventId) : f ((q.setEvent e x).event i) = f (q.event i) := by
  rw [setEvent_event]
  split
  · rename_i hi
    rw [hx, hi]
  · rfl

section

variable (q : EventQueue) (e : EventId)

theorem sameData_setEvent (x : Event) (hx : x.data = (q.event e).data) :
    SameData q (q.setEvent e x) :=
  ⟨field_setEvent Event.data q e hx, rfl, rfl, rfl⟩

theorem sameData_insertBefore (c : Option EventId) :
    SameData q (insertBefore q e c) := by
  unfold insertBefore
  split
  · exact sameData_setEvent q e _ rfl
  · split
    · exact sameData_setEvent q e _ rfl
    · exact sameData_setEvent q e _ rfl

theorem nextBin_setEvent (p : Option EventId) (i : EventId) :
    (q.setEvent e { q.event e with nextBin := p }).nextBin i = if i = e then p else q.nextBin i := by
  unfold EventQueue.nextBin
  rw [setEvent_event]
  split <;> rfl

theorem nextInBin_setEvent_nextBin (p : Option EventId) :
    (q.setEvent e { q.event e with nextBin := p }).nextInBin = q.nextInBin :=
  funext (field_setEvent (·.nextInBin) q e rfl)

end

/-! ## `insert` -/

theorem insertBefore_event_of_ne (q : EventQueue) (e : EventId) (c : Option EventId) {i : EventId} (h : i ≠ e) :
    (insertBefore q e c).event i = q.event i := by
  unfold insertBefore
  split
  · simp [h]
  · split <;> simp [h]

theorem binLinks_insertBefore_of_notMem {c : Option EventId} (h : BinLinks q.nextBin q.nextInBin p bins)
    (he : e ∉ flat bins) : BinLinks (insertBefore q e c).nextBin (insertBefore q e c).nextInBin p bins := by
  have hne : ∀ i ∈ flat bins, i ≠ e := fun i hi hie => he (hie ▸ hi)
  refine ⟨links_congr (fun i hi => ?_) h.tops, fun b hb => ?_⟩
  · unfold EventQueue.nextBin
    rw [insertBefore_event_of_ne q e c (hne i (top_mem_flat hi))]
  · have hb1 : (insertBefore q e c).nextInBin b.1 = q.nextInBin b.1 := by
      unfold EventQueue.nextInBin
      rw [insertBefore_event_of_ne q e c (hne b.1 (mem_flat.2 ⟨b, hb, Or.inl rfl⟩))]
    rw [hb1]
    refine links_congr (fun i hi => ?_) (h.members b hb)
    unfold EventQueue.nextInBin
    rw [insertBefore_event_of_ne q e c (hne i (mem_flat.2 ⟨b, hb, Or.inr hi⟩))]

theorem binLinks_insertBefore (h : BinLinks q.nextBin q.nextInBin (post.head?.map Prod.fst) post) (he : e ∉ flat post) :
    BinLinks (insertBefore q e (post.head?.map Prod.fst)).nextBin (insertBefore q e (post.head?.map Prod.fst)).nextInBin
      (some e) (pushBin q.key e post) := by
  cases post with
  | nil =>
    refine ⟨⟨rfl, ?_⟩, fun b hb => ?_⟩
    · simp [insertBefore, EventQueue.nextBin]
    · obtain rfl := List.mem_singleton.1 hb
      simp [insertBefore, EventQueue.nextInBin]
  | cons b bins =>
    have hk := binLinks_insertBefore_of_notMem (c := some b.1) h he
    have hlt := Event.lt_iff (q.event e) (q.event b.1)
    simp only [List.head?_cons, Option.map_some] at h hk ⊢
    rw [pushBin]
    split
    · rename_i hkey
      have hnew : (insertBefore q e (some b.1)).event e = { q.event e with nextBin := some b.1, nextInBin := none } := by
        simp [insertBefore, hlt.2 hkey]
      refine ⟨⟨rfl, ?_⟩, fun c hc => ?_⟩
      · have : (insertBefore q e (some b.1)).nextBin e = some b.1 := by simp [EventQueue.nextBin, hnew]
        rw [this]
        exact hk.tops
      · rcases List.mem_cons.1 hc with rfl | hc
        · simp [EventQueue.nextInBin, hnew]
        · exact hk.members c hc
    · rename_i hkey
      -- the event goes on top of the bin of `b`, whose own `nextBin` is dead from here on
      have hnew : (insertBefore q e (some b.1)).event e =
          { q.event e with nextBin := q.nextBin b.1, nextInBin := some b.1 } := by
        have : (q.event e).lt (q.event b.1) = false := Bool.eq_false_iff.2 (fun hc => hkey (hlt.1 hc))
        simp [insertBefore, this, EventQueue.nextBin]
      have hbe : b.1 ≠ e := fun hbe => he (hbe ▸ mem_flat.2 ⟨b, List.mem_cons_self, Or.inl rfl⟩)
      refine ⟨⟨rfl, ?_⟩, fun c hc => ?_⟩
      · have h1 : (insertBefore q e (some b.1)).nextBin e = q.nextBin b.1 := by simp [EventQueue.nextBin, hnew]
        have h2 : (insertBefore q e (some b.1)).nextBin b.1 = q.nextBin b.1 := by
          simp [EventQueue.nextBin, insertBefore_event_of_ne q e _ hbe]
        rw [h1, ← h2]
        exact hk.tops.2
      · rcases List.mem_cons.1 hc with rfl | hc
        · refine ⟨by simp [EventQueue.nextInBin, hnew], hk.members b List.mem_cons_self⟩
        · exact hk.members c (List.mem_cons_of_mem b hc)

/-- **The search for a bin**: from a bin before the event, it stops at the last bin before the event, and answers the
top of the next one. -/
theorem seekBin_eq (q : EventQueue) (e : EventId) : ∀ (rest : List (EventId × List EventId)) (b : EventId × List EventId)
    (n : Nat), Links q.nextBin (q.nextBin b.1) (rest.map Prod.fst) none → rest.length < n → q.key b.1 < q.key e →
      ∃ pre c post, b :: rest = pre ++ c :: post ∧
        seekBin q.event e n b.1 (q.nextBin b.1) = .ok (c.1, post.head?.map Prod.fst) ∧
        (∀ x ∈ pre ++ [c], q.key x.1 < q.key e) ∧ (∀ x ∈ post.head?, ¬ q.key x.1 < q.key e)
  | [], b, 0, _, hn, _ => by simp at hn
  | [], b, n + 1, hl, _, hb => by
    have hnull : q.nextBin b.1 = none := hl
    refine ⟨[], b, [], rfl, by simp [hnull, seekBin], by simpa using hb, by simp⟩
  | d :: rest, b, 0, _, hn, _ => by simp at hn
  | d :: rest, b, n + 1, hl, hn, hb => by
    obtain ⟨hd, hl⟩ := hl
    have hlt := Event.lt_iff (q.event d.1) (q.event e)
    by_cases hde : q.key d.1 < q.key e
    · obtain ⟨pre, c, post, heq, hs, h1, h2⟩ := seekBin_eq q e rest d n hl (by simpa using hn) hde
      refine ⟨b :: pre, c, post, by rw [heq]; rfl, ?_, ?_, h2⟩
      · rw [hd, seekBin, if_pos (hlt.2 hde)]
        exact hs
      · intro x hx
        rcases List.mem_cons.1 hx with rfl | hx
        · exact hb
        · exact h1 x hx
    · refine ⟨[], b, d :: rest, rfl, ?_, by simpa using hb, by simpa using hde⟩
      rw [hd, seekBin, if_neg (fun hc => hde (hlt.1 hc))]
      rfl

theorem Rep.length_le (h : Rep q bins) : (flat bins).length ≤ q.rounds := by
  have hsub : (flat bins).Subperm (List.range q.rounds) :=
    List.Nodup.subperm h.nodup (fun e he => List.mem_range.2 (h.bounded e he))
  simpa using List.Subperm.length_le hsub

theorem Rep.rest_length_lt {b : EventId × List EventId} {rest : List (EventId × List EventId)} (h : Rep q (b :: rest)) :
    rest.length < q.rounds := by
  have h1 := length_le_flat (b :: rest)
  have h2 := h.length_le
  simp only [List.length_cons] at h1
  omega

/-- Redirecting the last bin before a point, with everything after it laid out from the new pointer. -/
theorem binLinks_redirect {t : Option EventId} {pre post' : List (EventId × List EventId)}
    {c : EventId × List EventId} (htops : ∃ r, Links q.nextBin p ((pre ++ [c]).map Prod.fst) r)
    (hstacks : ∀ b ∈ pre ++ [c], Links q.nextInBin (q.nextInBin b.1) b.2 none)
    (hpost : BinLinks q.nextBin q.nextInBin t post') (hpre : c.1 ∉ pre.map Prod.fst) (hc : c.1 ∉ post'.map Prod.fst) :
    BinLinks (q.setEvent c.1 { q.event c.1 with nextBin := t }).nextBin
      (q.setEvent c.1 { q.event c.1 with nextBin := t }).nextInBin p (pre ++ c :: post') := by
  have hother : ∀ i, i ≠ c.1 → q.nextBin i = (q.setEvent c.1 { q.event c.1 with nextBin := t }).nextBin i := by
    intro i hi
    rw [nextBin_setEvent, if_neg hi]
  refine ⟨?_, fun b hb => ?_⟩
  · obtain ⟨r, htops⟩ := htops
    rw [List.map_append, List.map_cons] at htops ⊢
    refine links_splice htops (fun i hi => hother i (fun hic => hpre (hic ▸ hi))) ?_
    rw [nextBin_setEvent, if_pos rfl]
    exact links_congr (fun i hi => hother i (fun hic => hc (hic ▸ hi))) hpost.tops
  · rw [nextInBin_setEvent_nextBin]
    rcases List.mem_append.1 hb with hb | hb
    · exact hstacks b (List.mem_append_left [c] hb)
    · rcases List.mem_cons.1 hb with rfl | hb
      · exact hstacks b (List.mem_append_right pre List.mem_cons_self)
      · exact hpost.members b hb

theorem rep_pushBin (pre : List (EventId × List EventId)) (h : Rep q (pre ++ post)) (he : e ∉ flat (pre ++ post))
    (hb : e < q.rounds) (hpre : ∀ b ∈ pre, q.key b.1 < q.key e) (hpost : ∀ b ∈ post.head?, ¬ q.key b.1 < q.key e)
    (hl : BinLinks q'.nextBin q'.nextInBin q'.head (pre ++ pushBin q.key e post)) (hs : SameData q q') :
    Rep q' (pre ++ pushBin q.key e post) ∧
      flat (pre ++ pushBin q.key e post) = insertTop q.key e (flat (pre ++ post)) := by
  have hflat : flat (pre ++ pushBin q.key e post) = insertTop q.key e (flat (pre ++ post)) := by
    rw [flat_append, flat_append, flat_pushBin, insertTop_append]
    · intro a ha
      obtain ⟨b, hbm, hab⟩ := mem_flat.1 ha
      rw [h.sorted.key_eq (List.mem_append_left post hbm) hab]
      exact hpre b hbm
    · cases post with
      | nil => simp
      | cons b post => simpa using hpost b rfl
  refine ⟨⟨hl, ?_, ?_, fun x hx => ?_⟩, hflat⟩
  · rw [hs.key]
    exact binSorted_pushBin h.sorted hpre hpost
  · rw [hflat]
    exact nodup_insertTop h.nodup he
  · rw [hs.rounds]
    rw [hflat, mem_insertTop] at hx
    rcases hx with rfl | hx
    · exact hb
    · exact h.bounded x hx

@[simp] theorem insertBefore_head (q : EventQueue) (e : EventId) (c : Option EventId) :
    (insertBefore q e c).head = q.head := by
  unfold insertBefore
  split
  · rfl
  · split <;> rfl

/-- **`insert` inserts into the sorted list, on top of the events of the same bin.** -/
theorem insert_eq (h : Rep q bins) (he : e ∉ flat bins) (hb : e < q.rounds) :
    ∃ q' bins', insert q e = .ok q' ∧ Rep q' bins' ∧ flat bins' = insertTop q.key e (flat bins) ∧ SameData q q' := by
  have hhead := h.links.head_eq
  by_cases hfront : ∀ b ∈ bins.head?, ¬ q.key b.1 < q.key e
  · -- the head case
    let q' := { insertBefore q e (bins.head?.map Prod.fst) with head := some e }
    have hs : SameData q q' := (sameData_insertBefore q e _).withHead _
    have hi : insert q e = .ok q' := by
      unfold insert
      rw [hhead]
      cases bins with
      | nil => rfl
      | cons b bins =>
        have hle : (q.event e).le (q.event b.1) = true := (Event.le_iff _ _).2 (not_lt.1 (hfront b rfl))
        simp only [List.head?_cons, Option.map_some, hle, if_true, q']
    have hl := binLinks_insertBefore (hhead ▸ h.links) he
    obtain ⟨h1, h2⟩ := rep_pushBin [] h he hb (by simp) hfront hl hs
    exact ⟨q', _, hi, h1, h2, hs⟩
  · cases bins with
    | nil => exact absurd (fun b hb => by simp at hb) hfront
    | cons b rest =>
      have hbe : q.key b.1 < q.key e := by simpa using hfront
      obtain ⟨pre, c, post, heq, hseek, hpre, hpost⟩ :=
        seekBin_eq q e rest b q.rounds h.links.tops.2 (h.rest_length_lt) hbe
      let q₁ := insertBefore q e (post.head?.map Prod.fst)
      let q' := q₁.setEvent c.1 { q₁.event c.1 with nextBin := some e }
      have hs : SameData q q' := (sameData_insertBefore q e _).trans (sameData_setEvent q₁ c.1 _ rfl)
      have hi : insert q e = .ok q' := by
        have hle : (q.event e).le (q.event b.1) = false :=
          Bool.eq_false_iff.2 (fun hc => not_le.2 hbe ((Event.le_iff _ _).1 hc))
        have hnext : (q.event b.1).nextBin = q.nextBin b.1 := rfl
        unfold insert
        rw [hhead]
        simp only [List.head?_cons, Option.map_some, hle, Bool.false_eq_true, if_false]
        rw [hnext, hseek]
        rfl
      have hsplit : pre ++ c :: post = (pre ++ [c]) ++ post := by simp
      rw [heq] at h he
      have hl₁ := binLinks_insertBefore_of_notMem (c := post.head?.map Prod.fst) h.links he
      have hlpost : BinLinks q.nextBin q.nextInBin (post.head?.map Prod.fst) post :=
        BinLinks.suffix (hsplit ▸ h.links : BinLinks q.nextBin q.nextInBin q.head ((pre ++ [c]) ++ post))
      have hlink : BinLinks q'.nextBin q'.nextInBin q'.head ((pre ++ [c]) ++ pushBin q.key e post) := by
        have hhd : q'.head = q.head := insertBefore_head q e _
        rw [hhd, List.append_assoc, List.singleton_append]
        refine binLinks_redirect (hsplit ▸ hl₁).tops_upto
          (fun x hx => hl₁.members x (hsplit ▸ List.mem_append_left post hx))
          (binLinks_insertBefore hlpost (fun hm => he (by simp [hm]))) h.sorted.top_notMem (fun hm => ?_)
        -- the bin redirected is neither the new event nor one of the bins after it
        have hm' := top_mem_flat hm
        rw [flat_pushBin] at hm'
        rcases List.mem_cons.1 hm' with hce | hcp
        · exact he (hce ▸ mem_flat.2 ⟨c, by simp, Or.inl rfl⟩)
        · have hnd := h.nodup
          rw [flat_append, flat_cons, List.nodup_append] at hnd
          exact (List.nodup_cons.1 hnd.2.1).1 (List.mem_append_right _ hcp)
      rw [hsplit] at h he
      obtain ⟨h1, h2⟩ := rep_pushBin (pre ++ [c]) h he hb hpre hpost hlink hs
      refine ⟨q', _, hi, h1, ?_, hs⟩
      rw [h2, heq, hsplit]

end EventQ
end Gem5
