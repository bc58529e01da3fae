import Gem5Cxl.EventQueueRun
/-!
# EventCheckpoint — what a checkpoint keeps of the events (`Event::serialize`, `Event::unserialize`)

`unserialize` clears the `Scheduled` flag of an event that was scheduled and not squashed, and `checkpointReschedule`
then looks at that flag: the pending events of a checkpoint are dropped, and those that were squashed are put back.
-/
namespace Gem5
namespace EventQ

open Chain

structure Section where
  when : Nat
  priority : Int
  flags : Flags
deriving DecidableEq, Repr

def Event.serialize (x : Event) : Section := { when := x.when, priority := x.priority, flags := x.flags }

def restoredFlags (f : Flags) : Flags :=
  let f := { f with initialized := true }
  if f.scheduled && !f.squashed then { f with squashed := false, scheduled := false } else f

def unserialize (q : EventQueue) (e : EventId) (cp : Section) : Except Failure EventQueue := do
  assertThat (!(q.event e).flags.scheduled)
  assertThat (q.event e).flags.initialized
  return q.setEvent e { q.event e with when := cp.when, priority := cp.priority, flags := restoredFlags cp.flags }

def checkpointReschedule (q : EventQueue) (e : EventId) : Except Failure EventQueue :=
  if (q.event e).flags.scheduled then insert q e else .ok q

def unserializeEvent (q : EventQueue) (e : EventId) (cp : Section) : Except Failure EventQueue := do
  let q ← unserialize q e cp
  checkpointReschedule q e

def unserializeAll (cp : EventId → Section) : List EventId → EventQueue → Except Failure EventQueue
  | [], q => .ok q
  | e :: es, q => do
    let q ← unserializeEvent q e (cp e)
    unserializeAll cp es q

/-- The events the queue will execute, in order: `serviceOne` takes them off the front and passes the squashed over. -/
def services (q : EventQueue) : Option (List EventId) :=
  q.dump.map fun l => l.filter fun e => !(q.event e).flags.squashed

/-! ## One event -/

theorem restoredFlags_scheduled (f : Flags) : (restoredFlags f).scheduled = (f.scheduled && f.squashed) := by
  rw [restoredFlags]
  cases f.scheduled <;> cases f.squashed <;> rfl

structure Fresh (q : EventQueue) (bins : List (EventId × List EventId)) (e : EventId) : Prop where
  notMem : e ∉ flat bins
  unscheduled : (q.event e).flags.scheduled = false
  initialized : (q.event e).flags.initialized = true
  bounded : e < q.rounds

variable {bins : List (EventId × List EventId)} {e : EventId} {q : EventQueue}

/-- **Restoring an event** puts it into the queue exactly if it was both scheduled and squashed. -/
theorem unserializeEvent_eq (h : Rep q bins) (he : Fresh q bins e) (cp : Section) :
    ∃ q' bins', unserializeEvent q e cp = .ok q' ∧ Rep q' bins' ∧ q'.rounds = q.rounds ∧
      (∀ i, i ∈ flat bins' ↔ (i = e ∧ (cp.flags.scheduled && cp.flags.squashed) = true) ∨ i ∈ flat bins) ∧
      (∀ i, i ≠ e → (q'.event i).data = (q.event i).data) ∧ (q'.event e).flags = restoredFlags cp.flags := by
  generalize hq₁ : q.setEvent e { q.event e with when := cp.when, priority := cp.priority, flags := restoredFlags cp.flags }
    = q₁
  have hev : ∀ i, i ≠ e → q₁.event i = q.event i := fun i hi => by
    rw [← hq₁, setEvent_event, if_neg hi]
  have hself : (q₁.event e).flags = restoredFlags cp.flags := by
    rw [← hq₁, setEvent_event, if_pos rfl]
  have hne : ∀ i ∈ flat bins, i ≠ e := fun i hi hie => he.notMem (hie ▸ hi)
  have hrep₁ : Rep q₁ bins := h.congr (fun i hi => by simp only [EventQueue.nextBin, hev i (hne i hi)])
    (fun i hi => by simp only [EventQueue.nextInBin, hev i (hne i hi)])
    (fun i hi => by simp only [EventQueue.key, hev i (hne i hi)]) (by rw [← hq₁]; rfl) (by rw [← hq₁]; exact Nat.le_refl _)
  have hrun : unserializeEvent q e cp = checkpointReschedule q₁ e := by
    rw [unserializeEvent, unserialize, he.unscheduled, he.initialized]
    change checkpointReschedule _ e = _
    rw [hq₁]
  have hrounds : q₁.rounds = q.rounds := by rw [← hq₁]; rfl
  rw [hrun, checkpointReschedule, hself, restoredFlags_scheduled]
  cases hb : cp.flags.scheduled && cp.flags.squashed with
  | true =>
    obtain ⟨q', bins', hi, hrep', hflat, hs⟩ := insert_eq hrep₁ he.notMem (hrounds ▸ he.bounded)
    refine ⟨q', bins', by rw [if_pos rfl, hi], hrep', hs.rounds.trans hrounds, fun i => ?_, fun i hi => ?_, ?_⟩
    · rw [hflat, mem_insertTop, and_iff_left rfl]
    · rw [hs.data, hev i hi]
    · rw [hs.flags, hself]
  | false =>
    refine ⟨q₁, bins, by rw [if_neg (by decide)], hrep₁, hrounds, fun i => ?_, fun i hi => by rw [hev i hi], hself⟩
    simp

def Restored (x : Event) (q : EventQueue) (e : EventId) : Prop :=
  ∃ q' l, unserializeEvent q e x.serialize = .ok q' ∧ q'.dump = some l ∧
    if x.flags.scheduled = true ∧ x.flags.squashed = false then
      l.count e = 1 ∧ (q'.event e).when = x.when ∧ (q'.event e).priority = x.priority ∧
        (q'.event e).flags.scheduled = true
    else e ∉ l ∧ (q'.event e).flags.scheduled = false

theorem restored_iff (x : Event) (h : Rep q bins) (he : Fresh q bins e) :
    Restored x q e ↔ x.flags.scheduled = false := by
  obtain ⟨q₁, bins₁, hrun, hrep, -, hmem, -, hflags⟩ := unserializeEvent_eq h he x.serialize
  have hsch : (q₁.event e).flags.scheduled = (x.flags.scheduled && x.flags.squashed) := by
    rw [hflags]
    exact restoredFlags_scheduled x.flags
  constructor
  · rintro ⟨q', l, hrun', -, hspec⟩
    rw [hrun] at hrun'
    cases hrun'
    by_contra hs
    rw [Bool.not_eq_false] at hs
    rw [hs, Bool.true_and] at hsch
    split at hspec
    · rename_i hc
      rw [hsch, hc.2] at hspec
      exact Bool.false_ne_true hspec.2.2.2
    · rename_i hc
      rw [hsch] at hspec
      exact hc ⟨hs, hspec.2⟩
  · intro hs
    refine ⟨q₁, flat bins₁, hrun, hrep.dump_eq, ?_⟩
    rw [if_neg fun hc => by rw [hs] at hc; exact Bool.false_ne_true hc.1]
    refine ⟨fun hin => ?_, by rw [hsch, hs, Bool.false_and]⟩
    rcases (hmem e).1 hin with ⟨-, hc⟩ | hc
    · change (x.flags.scheduled && x.flags.squashed) = true at hc
      rw [hs, Bool.false_and] at hc
      cases hc
    · exact he.notMem hc

/-! ## The events of a checkpoint -/

/-- **The rebuilt queue holds squashed events only.** -/
theorem unserializeAll_eq (cp : EventId → Section) (es : List EventId) (hnd : es.Nodup) (h : Rep q bins)
    (hfresh : ∀ e ∈ es, Fresh q bins e) (hsq : ∀ e ∈ flat bins, (q.event e).flags.squashed = true) :
    ∃ q' bins', unserializeAll cp es q = .ok q' ∧ Rep q' bins' ∧ ∀ e ∈ flat bins', (q'.event e).flags.squashed = true := by
  induction es generalizing q bins with
  | nil => exact ⟨q, bins, rfl, h, hsq⟩
  | cons e es ih =>
    obtain ⟨hnot, hnd⟩ := List.nodup_cons.1 hnd
    have he := hfresh e List.mem_cons_self
    obtain ⟨q₁, bins₁, hrun, hrep₁, hrounds, hmem, hdata, hflags⟩ := unserializeEvent_eq h he (cp e)
    have hflags' : ∀ i, i ≠ e → (q₁.event i).flags = (q.event i).flags := fun i hi =>
      ((data_eq_iff _ _).1 (hdata i hi)).2.2.1
    rw [unserializeAll, hrun, Run.ok_bind]
    refine ih hnd hrep₁ (fun i hi => ?_) (fun i hi => ?_)
    · have hie : i ≠ e := fun hc => hnot (hc ▸ hi)
      have hold := hfresh i (List.mem_cons_of_mem _ hi)
      refine ⟨fun hin => ?_, by rw [hflags' i hie]; exact hold.unscheduled, by rw [hflags' i hie]; exact hold.initialized,
        hrounds ▸ hold.bounded⟩
      rcases (hmem i).1 hin with ⟨hc, -⟩ | hc
      · exact hie hc
      · exact hold.notMem hc
    · by_cases hie : i = e
      · rw [hie, hflags, restoredFlags]
        rcases (hmem i).1 hi with ⟨-, hc⟩ | hc
        · rw [Bool.and_eq_true] at hc
          simp [hc.1, hc.2]
        · exact absurd (hie ▸ hc) he.notMem
      · rcases (hmem i).1 hi with ⟨hc, -⟩ | hc
        · exact absurd hc hie
        · rw [hflags' i hie]
          exact hsq i hc

/-- What a checkpoint of a queue is for: from the sections of the events, it is rebuilt to service the same unsquashed
events in the same order of time and priority. -/
def Rebuilt (q q₀ : EventQueue) (es : List EventId) : Prop :=
  ∃ q' l l', unserializeAll (fun e => (q.event e).serialize) es q₀ = .ok q' ∧ services q = some l ∧ services q' = some l' ∧
    l'.Perm l ∧ l'.map q'.key = l.map q.key

theorem rebuilt_iff {q₀ : EventQueue} {l es : List EventId} (hq : q.dump = some l) (hnd : es.Nodup) (h₀ : Rep q₀ [])
    (hfresh : ∀ e ∈ es, Fresh q₀ [] e) : Rebuilt q q₀ es ↔ ∀ e ∈ l, (q.event e).flags.squashed = true := by
  obtain ⟨q₁, bins, hrun, hrep, hsq⟩ := unserializeAll_eq (fun e => (q.event e).serialize) es hnd h₀ hfresh
    (fun e he => nomatch he)
  have hnil : services q₁ = some [] := by
    rw [services, hrep.dump_eq, Option.map_some]
    congr 1
    exact List.filter_eq_nil_iff.2 fun e he => by rw [hsq e he]; decide
  have hsome : services q = some (l.filter fun e => !(q.event e).flags.squashed) := by
    rw [services, hq, Option.map_some]
  constructor
  · rintro ⟨q', m, m', hrun', hm, hm', hperm, -⟩ e he
    rw [hrun] at hrun'
    cases hrun'
    rw [hnil] at hm'
    cases hm'
    rw [hsome, ← hperm.nil_eq] at hm
    have := List.filter_eq_nil_iff.1 (Option.some.inj hm) e he
    simpa using this
  · intro hall
    have hempty : (l.filter fun e => !(q.event e).flags.squashed) = [] :=
      List.filter_eq_nil_iff.2 fun e he => by rw [hall e he]; decide
    exact ⟨q₁, [], [], hrun, by rw [hsome, hempty], hnil, .refl _, rfl⟩

/-- **What a checkpoint keeps**: an event is restored as it was exactly if it was not scheduled, and a queue exactly if
all its pending events were squashed. -/
theorem checkpoint_restores {q : EventQueue} {l : List EventId} (hq : Queued true q l) :
    (∀ (x : Event) (e : EventId), (q.event e).flags.scheduled = false → (q.event e).flags.initialized = true →
      (Restored x q e ↔ x.flags.scheduled = false)) ∧
    ∀ (q₀ : EventQueue) (es : List EventId), Queued true q₀ [] → es.Nodup →
      (∀ e ∈ es, (q₀.event e).flags.initialized = true) →
      (Rebuilt q q₀ es ↔ ∀ e, (q.event e).flags.scheduled = true → (q.event e).flags.squashed = true) := by
  refine ⟨fun x e hs hi => ?_, fun q₀ es h₀ hnd hinit => ?_⟩
  · obtain ⟨⟨bins, hrep, hflat⟩, -⟩ := hq.ordered
    refine restored_iff x hrep ⟨fun hin => ?_, hs, hi, hq.constructed e hi⟩
    have := (hq.mem e).1 (hflat ▸ hin)
    rw [hs] at this
    cases this
  · obtain ⟨⟨bins, hrep, hflat⟩, -⟩ := h₀.ordered
    have hbins : bins = [] := by
      cases bins with
      | nil => rfl
      | cons b bins => cases hflat
    subst hbins
    have hnone : ∀ e, (q₀.event e).flags.scheduled = false := fun e =>
      Bool.eq_false_iff.2 fun hc => List.not_mem_nil ((h₀.mem e).2 hc)
    rw [rebuilt_iff hq.ordered.dump_eq hnd hrep fun e he =>
      ⟨List.not_mem_nil, hnone e, hinit e he, h₀.constructed e (hinit e he)⟩]
    exact forall_congr' fun e => by rw [hq.mem e]

/-- An event scheduled at tick 10 is not in the queue restored from its checkpoint. -/
theorem pending_event_dropped :
    ∃ q q₀ q', execAll [.construct 0 {}, .schedule 1 10] {} = .ok q ∧ exec (.construct 0 {}) {} = .ok q₀ ∧
      q.dump = some [1] ∧ (q.event 1).flags.scheduled = true ∧ (q.event 1).flags.squashed = false ∧
      unserializeEvent q₀ 1 (q.event 1).serialize = .ok q' ∧ q'.dump = some [] ∧ (q'.event 1).flags.scheduled = false ∧
      ¬ Restored (q.event 1) q₀ 1 := by
  refine ⟨_, _, _, rfl, rfl, rfl, rfl, rfl, rfl, rfl, rfl, ?_⟩
  rintro ⟨q', l, hrun, -, hspec⟩
  cases hrun
  exact Bool.false_ne_true hspec.2.2.2

theorem idle_event_restored : ∃ q, exec (.construct 0 {}) {} = .ok q ∧ Restored (q.event 1) q 1 := by
  refine ⟨_, rfl, ?_⟩
  have hreach : Reach true _ := Reach.empty.call (.construct 0 {}) (fun hs => nomatch hs) rfl
  obtain ⟨l, hl⟩ := hreach.queued
  exact ((checkpoint_restores hl).1 _ 1 rfl rfl).2 rfl

end EventQ
end Gem5
