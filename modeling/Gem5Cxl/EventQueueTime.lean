import Gem5Cxl.EventQueueRun
/-!
# EventQueueTime — simulated time never runs backwards

No pending event lies before the current tick: `schedule` and `reschedule` assert it, and `serviceOne` moves the time to
the first event of a sorted list.  So the values given to `setCurTick` only grow, whatever the `process` functions call,
further `serviceOne` calls included.
-/
namespace Gem5
namespace EventQ

/-! ## The values given to `setCurTick` -/

mutual

/-- The values a call gives to `setCurTick`, in order. -/
def setTicks : Call → EventQueue → List Nat
  | .construct _ _, _ => []
  | .schedule _ _, _ => []
  | .deschedule _, _ => []
  | .reschedule _ _ _, _ => []
  | .squash _, _ => []
  | .serviceOne body, q =>
    match popHead q with
    | .error _ => []
    | .ok (e, q) =>
      if (q.event e).flags.squashed then []
      else (beginProcess q e).curTick :: setTicksAll body (beginProcess q e)

def setTicksAll : List Call → EventQueue → List Nat
  | [], _ => []
  | c :: cs, q =>
    setTicks c q ++ match exec c q with
      | .error _ => []
      | .ok q => setTicksAll cs q

end

/-! ## Pending events are not past -/

def Timely (q : EventQueue) : Prop := ∀ e, (q.event e).flags.scheduled = true → q.curTick ≤ (q.event e).when

theorem SameData.when {q q' : EventQueue} (h : SameData q q') (e : EventId) : (q'.event e).when = (q.event e).when :=
  ((data_eq_iff _ _).1 (h.data e)).1

variable {q q' q₁ : EventQueue} {e i : EventId} {when : Nat} {l : List EventId} {s : Bool}
  {r : Except Failure EventQueue} {ticks : List Nat}

/-- A step keeps time if it neither moves the tick nor makes an event pending before it. -/
theorem Timely.step (h : Timely q) (ht : q'.curTick = q.curTick) (he : ∀ e, (q'.event e).flags.scheduled = true →
    ((q.event e).flags.scheduled = true ∧ (q'.event e).when = (q.event e).when) ∨ q.curTick ≤ (q'.event e).when) :
    Timely q' := by
  intro e hsch
  rw [ht]
  rcases he e hsch with ⟨hold, hwhen⟩ | hlater
  · rw [hwhen]
    exact h e hold
  · exact hlater

theorem Timely.setFlags (h : Timely q) (e : EventId) (f : Flags)
    (hf : f.scheduled = true → (q.event e).flags.scheduled = true) : Timely (q.setFlags e f) := by
  refine h.step rfl fun i hi => .inl ?_
  rw [setFlags_event] at hi ⊢
  split at hi
  · rename_i hie
    rw [if_pos hie, hie]
    exact ⟨hf hi, rfl⟩
  · rename_i hie
    rw [if_neg hie]
    exact ⟨hi, rfl⟩

theorem Timely.release (h : Timely q) (e : EventId) : Timely (EventQ.release q e) := by
  rw [EventQ.release]
  split
  · exact h.setFlags e {} (fun hc => (by cases hc))
  · exact h

theorem Timely.addTrace (h : Timely q) (a : Action) (e : EventId) : Timely (q.addTrace a e) := h

theorem insert_sameData (h : insert q e = .ok q') : SameData q q' := by
  rw [insert] at h
  split at h
  · cases h
    exact (sameData_insertBefore q e _).withHead _
  · split at h
    · cases h
      exact (sameData_insertBefore q e _).withHead _
    · rw [Run.bind_eq_ok] at h
      obtain ⟨⟨prev, curr⟩, -, h⟩ := h
      cases h
      exact (sameData_insertBefore q e _).trans (sameData_setEvent _ _ _ rfl)

theorem removeItem_sameData {t : EventId} {top : Option EventId} (h : removeItem q e t = .ok (q', top)) :
    SameData q q' := by
  rw [removeItem] at h
  split at h
  · split at h
    · cases h
      exact .refl q
    · cases h
      exact sameData_setEvent q _ _ rfl
  · rw [Run.bind_eq_ok] at h
    obtain ⟨curr, -, h⟩ := h
    cases h
    exact sameData_setEvent q _ _ rfl

theorem remove_sameData (h : remove q e = .ok q') : SameData q q' := by
  rw [remove] at h
  split at h
  · cases h
  · rw [Run.bind_eq_ok] at h
    obtain ⟨_, -, h⟩ := h
    split at h
    · rw [Run.bind_eq_ok] at h
      obtain ⟨⟨q₁, top⟩, hitem, h⟩ := h
      cases h
      exact (removeItem_sameData hitem).withHead _
    · rw [Run.bind_eq_ok] at h
      obtain ⟨⟨prev, curr⟩, -, h⟩ := h
      cases curr with
      | none => cases h
      | some c =>
        simp only at h
        split at h
        · cases h
        · rw [Run.bind_eq_ok] at h
          obtain ⟨⟨q₁, top⟩, hitem, h⟩ := h
          cases h
          exact (removeItem_sameData hitem).trans (sameData_setEvent q₁ _ _ rfl)

theorem Timely.enter {q q' : EventQueue} (h : Timely q) {e : EventId} {when : Nat} (hwhen : q.curTick ≤ when)
    (hi : insert (setWhen q e when) e = .ok q') (f : Flags) (a : Action) : Timely ((q'.setFlags e f).addTrace a e) := by
  have hs := insert_sameData hi
  refine h.step hs.curTick fun i hsch => ?_
  change ((q'.setFlags e f).event i).flags.scheduled = true at hsch
  change _ ∧ ((q'.setFlags e f).event i).when = _ ∨ _ ≤ ((q'.setFlags e f).event i).when
  rw [setFlags_event] at hsch ⊢
  have hnew := hs.when i
  rw [setWhen, setEvent_event] at hnew
  by_cases hie : i = e
  · rw [if_pos hie] at hnew
    rw [if_pos hie]
    refine .inr ?_
    change q.curTick ≤ (q'.event e).when
    rw [← hie, hnew]
    exact hwhen
  · have hflags := hs.flags i
    rw [setWhen, setEvent_event, if_neg hie] at hflags
    rw [if_neg hie] at hsch hnew ⊢
    exact .inl ⟨hflags ▸ hsch, hnew⟩

theorem Timely.remove {q q' : EventQueue} (h : Timely q) {e : EventId} (hr : EventQ.remove q e = .ok q') : Timely q' := by
  have hs := remove_sameData hr
  refine h.step hs.curTick fun i hi => .inl ⟨?_, hs.when i⟩
  rw [← hs.flags i]
  exact hi

theorem Timely.schedule (h : Timely q) (he : EventQ.schedule q e when = .ok q') :
    Timely q' ∧ q'.curTick = q.curTick := by
  simp only [EventQ.schedule, Run.bind_eq_ok, assertThat_eq_ok, decide_eq_true_eq] at he
  obtain ⟨_, hwhen, _, -, _, -, q₁, hi, he⟩ := he
  cases he
  exact ⟨h.enter hwhen hi _ _, (insert_sameData hi).curTick⟩

theorem release_curTick (q : EventQueue) (e : EventId) : (release q e).curTick = q.curTick := by
  rw [release]
  split
  · rfl
  · rfl

theorem Timely.deschedule (h : Timely q) (he : EventQ.deschedule q e = .ok q') :
    Timely q' ∧ q'.curTick = q.curTick := by
  simp only [EventQ.deschedule, Run.bind_eq_ok, assertThat_eq_ok] at he
  obtain ⟨_, -, _, -, q₁, hr, he⟩ := he
  cases he
  have h₁ : Timely (q₁.setFlags e { (q₁.event e).flags with squashed := false, scheduled := false }) :=
    (h.remove hr).setFlags e _ (fun hc => (by cases hc))
  exact ⟨(h₁.addTrace .descheduled e).release e, (release_curTick _ e).trans (remove_sameData hr).curTick⟩

theorem Timely.reschedule (h : Timely q) {always : Bool} (he : EventQ.reschedule q e when always = .ok q') :
    Timely q' ∧ q'.curTick = q.curTick := by
  simp only [EventQ.reschedule, Run.bind_eq_ok, assertThat_eq_ok, decide_eq_true_eq] at he
  obtain ⟨_, hwhen, _, -, _, -, he⟩ := he
  split at he
  · simp only [Run.bind_eq_ok] at he
    obtain ⟨q₁, hr, q₂, hi, he⟩ := he
    cases he
    have hs := remove_sameData hr
    exact ⟨(h.remove hr).enter (hs.curTick.symm ▸ hwhen) hi _ _, (insert_sameData hi).curTick.trans hs.curTick⟩
  · simp only [Run.pure_eq_ok, Run.ok_bind, Run.bind_eq_ok] at he
    obtain ⟨q₂, hi, he⟩ := he
    cases he
    exact ⟨h.enter hwhen hi _ _, (insert_sameData hi).curTick⟩

theorem Timely.construct (h : Timely q) {p : Int} {f : Flags} (he : EventQ.construct q p f = .ok q') :
    Timely q' ∧ q'.curTick = q.curTick := by
  simp only [EventQ.construct, Run.bind_eq_ok, assertThat_eq_ok, Bool.and_eq_true, Bool.not_eq_true'] at he
  obtain ⟨_, hf, he⟩ := he
  cases he
  refine ⟨h.step rfl fun i hi => .inl ?_, rfl⟩
  simp only [setEvent_event] at hi ⊢
  split at hi
  · rw [hf.1.1] at hi
    cases hi
  · rename_i hie
    rw [if_neg hie]
    exact ⟨hi, rfl⟩

/-! ## Servicing -/

section

variable (h : Queued s q l) (hp : EventQ.popHead q = .ok (e, q'))
include h hp

theorem Queued.of_popHead : ∃ rest, l = e :: rest ∧ Queued s q' rest := by
  cases l with
  | nil =>
    rw [EventQ.popHead, h.ordered.head_none] at hp
    cases hp
  | cons x rest =>
    obtain ⟨q₁, hpop, hq₁, -⟩ := h.popHead
    rw [hpop] at hp
    cases hp
    exact ⟨rest, rfl, hq₁⟩

theorem Queued.head_le (hi : (q.event i).flags.scheduled = true) : q.key e ≤ q.key i := by
  obtain ⟨rest, rfl, -⟩ := h.of_popHead hp
  rcases List.mem_cons.1 ((h.mem i).2 hi) with rfl | hmem
  · exact le_refl _
  · rcases (List.pairwise_cons.1 h.ordered.2).1 i hmem with hlt | ⟨heq, -⟩
    · exact le_of_lt hlt
    · exact le_of_eq heq

theorem Queued.head_when_le (hi : (q.event i).flags.scheduled = true) : (q.event e).when ≤ (q.event i).when := by
  rcases Prod.Lex.le_iff.1 (h.head_le hp hi) with hlt | ⟨heq, -⟩
  · exact Nat.le_of_lt hlt
  · exact Nat.le_of_eq heq

end

theorem popHead_data (hp : popHead q = .ok (e, q')) :
    SameData (q.setFlags e { (q.event e).flags with scheduled := false }) q' := by
  rw [popHead] at hp
  split at hp
  · cases hp
  · simp only at hp
    split at hp
    · cases hp
      refine SameData.withHead (sameData_setEvent _ _ _ ?_) _
      rfl
    · cases hp
      exact (SameData.refl _).withHead _

theorem Timely.popHead {q q' : EventQueue} (h : Timely q) {e : EventId} (hp : EventQ.popHead q = .ok (e, q')) :
    Timely q' ∧ q'.curTick = q.curTick := by
  have hs := popHead_data hp
  have h₁ := h.setFlags e { (q.event e).flags with scheduled := false } (fun hc => (by cases hc))
  refine ⟨h₁.step hs.curTick fun i hi => .inl ⟨hs.flags i ▸ hi, hs.when i⟩, hs.curTick⟩

/-- **Servicing moves the time to the head, and no pending event is behind it.** -/
theorem Timely.beginProcess {s : Bool} {q q' : EventQueue} {l : List EventId} (hq : Queued s q l) {e : EventId}
    (hp : EventQ.popHead q = .ok (e, q')) :
    Timely (EventQ.beginProcess q' e) ∧ (EventQ.beginProcess q' e).curTick = (q.event e).when := by
  have hs := popHead_data hp
  have hwhen : ∀ i, (q'.event i).when = (q.event i).when := fun i => by
    rw [hs.when, setFlags_event]
    split
    · rename_i hi
      rw [hi]
    · rfl
  refine ⟨fun i hi => ?_, hwhen e⟩
  change (q'.event e).when ≤ (q'.event i).when
  rw [hwhen, hwhen]
  refine hq.head_when_le hp ?_
  have hflags := hs.flags i
  change (q'.event i).flags.scheduled = true at hi
  rw [hflags, setFlags_event] at hi
  split at hi
  · cases hi
  · exact hi

theorem endProcess_timely {x : Option EventId} (h : Timely q) (he : endProcess q e = .ok (q', x)) :
    Timely q' ∧ q'.curTick = q.curTick := by
  rw [endProcess] at he
  split at he
  · rw [Run.bind_eq_ok] at he
    obtain ⟨_, -, he⟩ := he
    cases he
    exact ⟨h, rfl⟩
  · cases he
    exact ⟨h.release e, release_curTick q e⟩

/-- What the time does over calls from `q`: the ticks grow from the one of `q`, and a call that returns leaves a timely
queue with the last of them. -/
structure Forward (q : EventQueue) (ticks : List Nat) (r : Except Failure EventQueue) : Prop where
  sorted : (q.curTick :: ticks).Pairwise (· ≤ ·)
  after : ∀ q', r = .ok q' → Timely q' ∧ ∀ t ∈ q.curTick :: ticks, t ≤ q'.curTick

theorem forward_still (h : ∀ q', r = .ok q' → Timely q' ∧ q'.curTick = q.curTick) : Forward q [] r where
  sorted := List.pairwise_singleton _ _
  after := fun q' hq' => ⟨(h q' hq').1, fun _ ht => Nat.le_of_eq ((List.mem_singleton.1 ht).trans (h q' hq').2.symm)⟩

theorem Forward.append {t₁ t₂ : List Nat} {r₁ r₂ : Except Failure EventQueue} (h₁ : Forward q t₁ r₁)
    (hr : r₁ = .ok q₁) (h₂ : Forward q₁ t₂ r₂) : Forward q (t₁ ++ t₂) r₂ where
  sorted := by
    rw [← List.cons_append, List.pairwise_append]
    refine ⟨h₁.sorted, (List.pairwise_cons.1 h₂.sorted).2, fun a ha b hb => ?_⟩
    exact Nat.le_trans ((h₁.after q₁ hr).2 a ha) ((List.pairwise_cons.1 h₂.sorted).1 b hb)
  after := by
    intro q' hq'
    obtain ⟨htimely, hlast⟩ := h₂.after q' hq'
    refine ⟨htimely, fun t ht => ?_⟩
    rw [← List.cons_append, List.mem_append] at ht
    rcases ht with ht | ht
    · exact Nat.le_trans ((h₁.after q₁ hr).2 t ht) (hlast _ List.mem_cons_self)
    · exact hlast t (List.mem_cons_of_mem _ ht)

theorem Forward.service (hle : q.curTick ≤ q₁.curTick) (h : Forward q₁ ticks r) :
    Forward q (q₁.curTick :: ticks) r where
  sorted := by
    refine List.pairwise_cons.2 ⟨fun t ht => ?_, h.sorted⟩
    rcases List.mem_cons.1 ht with rfl | ht
    · exact hle
    · exact Nat.le_trans hle ((List.pairwise_cons.1 h.sorted).1 t ht)
  after := by
    intro q' hq'
    obtain ⟨htimely, hlast⟩ := h.after q' hq'
    refine ⟨htimely, fun t ht => ?_⟩
    rcases List.mem_cons.1 ht with rfl | ht
    · exact Nat.le_trans hle (hlast _ List.mem_cons_self)
    · exact hlast t ht

theorem Forward.end (h : Forward q ticks r) (e : EventId) :
    Forward q ticks ((r >>= fun q => endProcess q e).map Prod.fst) where
  sorted := h.sorted
  after := by
    intro q' hq'
    rw [Run.map_eq_ok] at hq'
    obtain ⟨⟨q₂, x⟩, hq₂, rfl⟩ := hq'
    rw [Run.bind_eq_ok] at hq₂
    obtain ⟨q₁, hr, hend⟩ := hq₂
    obtain ⟨htimely, hlast⟩ := h.after q₁ hr
    obtain ⟨htimely', heq⟩ := endProcess_timely htimely hend
    refine ⟨htimely', fun t ht => ?_⟩
    rw [heq]
    exact hlast t ht

mutual

theorem exec_forward : ∀ (c : Call) {q : EventQueue} {l : List EventId}, Queued true q l → Timely q →
    Forward q (setTicks c q) (exec c q)
  | .construct p f, q, l, _, h => by
    rw [setTicks, exec]
    exact forward_still fun q' he => h.construct he
  | .schedule e w, q, l, _, h => by
    rw [setTicks, exec]
    exact forward_still fun q' he => h.schedule he
  | .deschedule e, q, l, _, h => by
    rw [setTicks, exec]
    exact forward_still fun q' he => h.deschedule he
  | .reschedule e w a, q, l, _, h => by
    rw [setTicks, exec]
    exact forward_still fun q' he => h.reschedule he
  | .squash e, q, l, _, h => by
    rw [setTicks, exec]
    refine forward_still fun q' he => ?_
    cases he
    exact ⟨h.setFlags e _ id, rfl⟩
  | .serviceOne body, q, l, hq, h => by
    rw [setTicks, exec, serviceOne]
    cases hp : popHead q with
    | error f => exact forward_still fun q' he => nomatch he
    | ok r =>
      obtain ⟨e, q₁⟩ := r
      obtain ⟨htimely, htick⟩ := Timely.beginProcess hq hp
      obtain ⟨hpopped, hsame⟩ := h.popHead hp
      rw [Run.ok_bind]
      simp only
      cases hsq : (q₁.event e).flags.squashed with
      | true =>
        rw [if_pos rfl, if_neg (by decide)]
        refine forward_still fun q' he => ?_
        cases he
        have h₁ : Timely (q₁.setFlags e { (q₁.event e).flags with squashed := false }) := hpopped.setFlags e _ id
        exact ⟨h₁.release e, (release_curTick _ e).trans hsame⟩
      | false =>
        rw [if_neg (by decide), if_pos (by decide)]
        obtain ⟨rest, rfl, hrest⟩ := hq.of_popHead hp
        have hle : q.curTick ≤ (beginProcess q₁ e).curTick := by
          rw [htick]
          exact h e ((hq.mem e).1 List.mem_cons_self)
        exact ((execAll_forward body (hrest.beginProcess e) htimely).service hle).end e

theorem execAll_forward : ∀ (cs : List Call) {q : EventQueue} {l : List EventId}, Queued true q l → Timely q →
    Forward q (setTicksAll cs q) (execAll cs q)
  | [], q, l, _, h => by
    rw [setTicksAll, execAll]
    exact forward_still fun q' he => by
      cases he
      exact ⟨h, rfl⟩
  | c :: cs, q, l, hq, h => by
    have hc := exec_forward c hq h
    have hfine := exec_fine true c q l (fun hs => nomatch hs) hq
    rw [setTicksAll, execAll]
    cases hr : exec c q with
    | error f =>
      simp only [List.append_nil]
      exact ⟨hc.sorted, fun q' he => nomatch he⟩
    | ok q₁ =>
      rw [hr] at hfine
      obtain ⟨l₁, hq₁⟩ := hfine
      exact hc.append hr (execAll_forward cs hq₁ (hc.after q₁ hr).1)

end

theorem Reach.timely (h : Reach true q) : Timely q := by
  induction h with
  | empty => exact fun e he => nomatch he
  | @call q q' c hq _ he ih =>
    obtain ⟨l, hl⟩ := hq.queued
    exact ((exec_forward c hl ih).after q' he).1
  | @process q q' e hq hp _ _ =>
    obtain ⟨l, hl⟩ := hq.queued
    exact (Timely.beginProcess hl hp).1

/-- **Simulated time never runs backwards**: in every state of every run, those inside a `process` included, no pending
event lies before the current tick; the values any further calls give to `setCurTick` grow from it; and the event
serviced is one of the least priority value among those pending at its tick. -/
theorem time_never_runs_backwards {q : EventQueue} (h : Reach true q) :
    (∀ e, (q.event e).flags.scheduled = true → q.curTick ≤ (q.event e).when) ∧
    (∀ calls, (q.curTick :: setTicksAll calls q).Pairwise (· ≤ ·)) ∧
    (∀ e q', popHead q = .ok (e, q') → ∀ i, (q.event i).flags.scheduled = true → (q.event i).when = (q.event e).when →
      (q.event e).priority ≤ (q.event i).priority) := by
  obtain ⟨l, hl⟩ := h.queued
  refine ⟨h.timely, fun calls => (execAll_forward calls hl h.timely).sorted, fun e q' hp i hi heq => ?_⟩
  rcases Prod.Lex.le_iff.1 (hl.head_le hp hi) with hlt | ⟨-, hle⟩
  · exact absurd heq (Nat.ne_of_gt hlt)
  · exact hle

theorem time_never_runs_backwards_again :
    ∃ q, execAll [.construct 0 {}, .schedule 1 10] {} = .ok q ∧
      setTicksAll [.serviceOne [.schedule 1 20], .serviceOne []] q = [10, 20] ∧
      (q.curTick :: setTicksAll [.serviceOne [.schedule 1 20], .serviceOne []] q).Pairwise (· ≤ ·) := by
  refine ⟨_, rfl, rfl, ?_⟩
  exact (time_never_runs_backwards (Reach.execAll [.construct 0 {}, .schedule 1 10] Reach.empty (fun hs => nomatch hs)
    rfl)).2.1 _

end EventQ
end Gem5
