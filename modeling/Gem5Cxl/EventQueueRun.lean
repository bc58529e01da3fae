import Gem5Cxl.EventQueueRemove
/-!
# EventQueueRun — runs of the event queue refine a sorted list

`Queued s q l`: the queue `q` holds exactly the scheduled events, as the list `l`, ordered by `(when, priority)` and,
within a bin, the most recently inserted first.  Every call keeps it, whatever the events' `process` functions call in
turn, and no call ends in a panic or in a loop that does not stop.
-/
namespace Gem5
namespace EventQ

open Chain

/-! ## The order -/

theorem insertedAt_le (e : EventId) : ∀ (t : List (Action × EventId)), insertedAt t e ≤ t.length
  | [] => Nat.le_refl 0
  | (a, x) :: t => by
    have := insertedAt_le e t
    rw [insertedAt]
    split
    · simp
    · simp only [List.length_cons]
      omega

/-- `a` comes before `b`: a smaller bin, or the same bin and inserted later. -/
def Before (q : EventQueue) (a b : EventId) : Prop :=
  q.key a < q.key b ∨ (q.key a = q.key b ∧ insertedAt q.trace b < insertedAt q.trace a)

/-- **The queue lays out `l`, in order.** -/
def Ordered (q : EventQueue) (l : List EventId) : Prop :=
  (∃ bins, Rep q bins ∧ flat bins = l) ∧ l.Pairwise (Before q)

variable {l : List EventId} {q : EventQueue} {e : EventId} {s : Bool}

theorem Ordered.nodup (h : Ordered q l) : l.Nodup := by
  obtain ⟨⟨bins, hr, rfl⟩, -⟩ := h
  exact hr.nodup

theorem Ordered.dump_eq (h : Ordered q l) : q.dump = some l := by
  obtain ⟨⟨bins, hr, rfl⟩, -⟩ := h
  exact hr.dump_eq

theorem Ordered.head_none (h : Ordered q []) : q.head = none := by
  obtain ⟨⟨bins, hrep, hflat⟩, -⟩ := h
  cases bins with
  | nil => exact hrep.links.head_eq
  | cons b bins => cases hflat

theorem Ordered.congr {q' : EventQueue} (h : Ordered q l) (hb : ∀ e ∈ l, q'.nextBin e = q.nextBin e)
    (hi : ∀ e ∈ l, q'.nextInBin e = q.nextInBin e) (hk : ∀ e ∈ l, q'.key e = q.key e) (hh : q'.head = q.head)
    (hr : q.rounds ≤ q'.rounds) (ht : ∀ e ∈ l, insertedAt q'.trace e = insertedAt q.trace e) : Ordered q' l := by
  obtain ⟨⟨bins, hrep, rfl⟩, ho⟩ := h
  refine ⟨⟨bins, hrep.congr hb hi hk hh hr, rfl⟩, ho.imp_of_mem (fun ha hb hab => ?_)⟩
  unfold Before
  rw [hk _ ha, hk _ hb, ht _ ha, ht _ hb]
  exact hab

section

variable (h : Ordered q l)
include h

theorem Ordered.setFlags (e : EventId) (f : Flags) : Ordered (q.setFlags e f) l :=
  h.congr (fun _ _ => by rw [setFlags_nextBin]) (fun _ _ => by rw [setFlags_nextInBin])
    (fun _ _ => by rw [setFlags_key]) rfl (Nat.le_refl _) (fun _ _ => rfl)

theorem Ordered.addTrace (a : Action) (e : EventId) (ha : a = .descheduled ∨ a = .executed) :
    Ordered (q.addTrace a e) l := by
  refine h.congr (fun _ _ => rfl) (fun _ _ => rfl) (fun _ _ => rfl) rfl (Nat.le_refl _) (fun i _ => ?_)
  have hno : ¬ (e = i ∧ (a = .scheduled ∨ a = .rescheduled)) := by
    rintro ⟨-, h1 | h1⟩ <;> rcases ha with h2 | h2 <;> rw [h1] at h2 <;> cases h2
  simp only [EventQueue.addTrace, insertedAt, if_neg hno]

theorem Ordered.setEvent (he : e ∉ l) (x : Event) : Ordered (q.setEvent e x) l := by
  have hev : ∀ i ∈ l, (q.setEvent e x).event i = q.event i := fun i hi => by
    rw [setEvent_event, if_neg (fun hie : i = e => he (hie ▸ hi))]
  exact h.congr (fun i hi => by simp only [EventQueue.nextBin, hev i hi])
    (fun i hi => by simp only [EventQueue.nextInBin, hev i hi]) (fun i hi => by simp only [EventQueue.key, hev i hi]) rfl
    (Nat.le_refl _) (fun _ _ => rfl)

theorem Ordered.insert (he : e ∉ l) (hb : e < q.rounds) (a : Action)
    (ha : a = .scheduled ∨ a = .rescheduled) :
    ∃ q', EventQ.insert q e = .ok q' ∧ SameData q q' ∧ Ordered (q'.addTrace a e) (insertTop q.key e l) := by
  obtain ⟨⟨bins, hrep, rfl⟩, ho⟩ := h
  obtain ⟨q', bins', hi, hrep', hflat, hs⟩ := insert_eq hrep he hb
  have hmark : ∀ i, i ≠ e → insertedAt (q'.addTrace a e).trace i = insertedAt q.trace i := fun i hie => by
    have hno : ¬ (e = i ∧ (a = .scheduled ∨ a = .rescheduled)) := fun hc => hie hc.1.symm
    simp only [EventQueue.addTrace, insertedAt, if_neg hno, hs.trace]
  have hnew : insertedAt (q'.addTrace a e).trace e = q.trace.length + 1 := by
    simp [EventQueue.addTrace, insertedAt, ha, hs.trace]
  have hne : ∀ i ∈ flat bins, i ≠ e := fun i hm hie => he (hie ▸ hm)
  have hkey : (q'.addTrace a e).key = q.key := hs.key
  refine ⟨q', hi, hs, ⟨bins', hrep'.congr (fun _ _ => rfl) (fun _ _ => rfl) (fun _ _ => rfl) rfl (Nat.le_refl _),
    hflat⟩, ?_⟩
  refine pairwise_insertTop hrep.sorted.pairwise_le (ho.imp_of_mem (fun hx hy hxy => ?_)) (fun x hx hlt => ?_)
    (fun x hx hge => ?_)
  · unfold Before
    rw [hkey, hmark _ (hne _ hx), hmark _ (hne _ hy)]
    exact hxy
  · exact Or.inl (hkey ▸ hlt)
  · -- an event of the same bin was inserted before this one
    unfold Before
    rw [hkey, hnew, hmark x (hne x hx)]
    rcases lt_or_eq_of_le (not_lt.1 hge) with hlt | heq
    · exact Or.inl hlt
    · exact Or.inr ⟨heq, Nat.lt_succ_of_le (insertedAt_le x q.trace)⟩

theorem Ordered.remove (he : e ∈ l) (hq : (q.event e).queue = true) :
    ∃ q', EventQ.remove q e = .ok q' ∧ SameData q q' ∧ Ordered q' (l.erase e) := by
  obtain ⟨⟨bins, hrep, rfl⟩, ho⟩ := h
  obtain ⟨q', bins', hr, hrep', hflat, hs⟩ := remove_eq hrep he hq
  refine ⟨q', hr, hs, ⟨bins', hrep', hflat⟩, (ho.sublist List.erase_sublist).imp (fun {x y} hxy => ?_)⟩
  unfold Before
  rw [hs.key, hs.trace]
  exact hxy

end

theorem Ordered.popHead (h : Ordered q (e :: l)) : ∃ q', EventQ.popHead q = .ok (e, q') ∧ Ordered q' l ∧
      SameData (q.setFlags e { (q.event e).flags with scheduled := false }) q' := by
  obtain ⟨⟨bins, hrep, hflat⟩, ho⟩ := h
  cases bins with
  | nil => cases hflat
  | cons b bins =>
    obtain ⟨t, r⟩ := b
    rw [flat_cons, List.cons.injEq] at hflat
    obtain ⟨rfl, rfl⟩ := hflat
    obtain ⟨q', bins', hp, hrep', hflat', hs⟩ := popHead_eq hrep
    refine ⟨q', hp, ⟨⟨bins', hrep', hflat'⟩, (List.pairwise_cons.1 ho).2.imp (fun {x y} hxy => ?_)⟩, hs⟩
    unfold Before
    rw [hs.key, hs.trace, setFlags_key]
    exact hxy

/-! ## The invariant of a run -/

/-- **The queue holds exactly the scheduled events, as `l`.**  With `s = false` no event is squashed. -/
structure Queued (s : Bool) (q : EventQueue) (l : List EventId) : Prop where
  ordered : Ordered q l
  mem : ∀ e, e ∈ l ↔ (q.event e).flags.scheduled = true
  ready : ∀ e, (q.event e).flags.scheduled = true → (q.event e).flags.initialized = true ∧ (q.event e).queue = true
  constructed : ∀ e, (q.event e).flags.initialized = true → e < q.rounds
  unsquashed : s = false → ∀ e, (q.event e).flags.squashed = false

theorem queued_empty (s : Bool) : Queued s {} [] where
  ordered := ⟨⟨[], rep_empty, rfl⟩, List.Pairwise.nil⟩
  mem := by simp
  ready := by simp
  constructed := by simp
  unsquashed := by simp

/-- What a call leaves behind: a queue in order, or a failed assertion, or a read of the null head. -/
def Fine (s : Bool) (r : Except Failure EventQueue) : Prop :=
  match r with
  | .ok q => ∃ l, Queued s q l
  | .error f => f = .assertFailed ∨ f = .nullPointer

theorem fine_bind {x : Except Failure EventQueue} {f : EventQueue → Except Failure EventQueue} (hx : Fine s x)
    (hf : ∀ q l, Queued s q l → Fine s (f q)) : Fine s (x >>= f) := by
  cases x with
  | error e => exact hx
  | ok q =>
    obtain ⟨l, hl⟩ := hx
    exact hf q l hl

theorem fine_assert {b : Bool} {f : Unit → Except Failure EventQueue} (hf : b = true → Fine s (f ())) :
    Fine s (assertThat b >>= f) := by
  cases b with
  | false => exact Or.inl rfl
  | true => exact hf rfl

theorem Queued.setFlags (h : Queued s q l) (e : EventId) (f : Flags)
    (hsch : f.scheduled = (q.event e).flags.scheduled)
    (hinit : f.initialized = true → (q.event e).flags.initialized = true)
    (hkeep : f.scheduled = true → f.initialized = true) (hsq : s = false → f.squashed = false) :
    Queued s (q.setFlags e f) l where
  ordered := h.ordered.setFlags e f
  mem := fun i => by
    rw [h.mem i, setFlags_event]
    split
    · rename_i hi
      rw [hi, ← hsch]
    · rfl
  ready := fun i hi => by
    rw [setFlags_event] at hi ⊢
    split
    · rename_i hie
      rw [if_pos hie] at hi
      exact ⟨hkeep hi, (h.ready e (hsch ▸ hi)).2⟩
    · rename_i hie
      rw [if_neg hie] at hi
      exact h.ready i hi
  constructed := fun i hi => by
    rw [setFlags_event] at hi
    split at hi
    · rename_i hie
      exact hie ▸ h.constructed e (hinit hi)
    · exact h.constructed i hi
  unsquashed := fun hs i => by
    rw [setFlags_event]
    split
    · exact hsq hs
    · exact h.unsquashed hs i

theorem Queued.squash (h : Queued true q l) (e : EventId) : Queued true (EventQ.squash q e) l :=
  h.setFlags e _ rfl id (fun hs => (h.ready e hs).1) (fun hc => nomatch hc)

theorem Queued.release (h : Queued s q l) (e : EventId) : Queued s (EventQ.release q e) l := by
  unfold EventQ.release
  split
  · rename_i hm
    simp only [Bool.and_eq_true, Bool.not_eq_true'] at hm
    exact h.setFlags e {} hm.2.symm (fun hc => nomatch hc) (fun hc => nomatch hc) (fun _ => rfl)
  · exact h

theorem Queued.beginProcess (h : Queued s q l) (e : EventId) : Queued s (EventQ.beginProcess q e) l where
  ordered :=
    Ordered.addTrace (q := { q with curTick := (q.event e).when })
      (h.ordered.congr (fun _ _ => rfl) (fun _ _ => rfl) (fun _ _ => rfl) rfl (Nat.le_refl _) (fun _ _ => rfl))
      .executed e (Or.inr rfl)
  mem := h.mem
  ready := h.ready
  constructed := h.constructed
  unsquashed := h.unsquashed

theorem construct_fine (h : Queued s q l) (p : Int) (f : Flags) (hf : s = false → f.squashed = false) :
    Fine s (construct q p f) := by
  refine fine_assert (fun ha => ⟨l, ?_⟩)
  simp only [Bool.and_eq_true, Bool.not_eq_true'] at ha
  have hfresh : ∀ i, (q.event i).flags.initialized = true → i ≠ q.instanceCounter + 1 :=
    fun i hi => Nat.ne_of_lt (h.constructed i hi)
  have hnew : q.instanceCounter + 1 ∉ l := fun hm => hfresh _ (h.ready _ ((h.mem _).1 hm)).1 rfl
  refine ⟨?_, fun i => ?_, fun i hi => ?_, fun i hi => ?_, fun hs i => ?_⟩
  · exact (h.ordered.setEvent hnew _).congr (fun _ _ => rfl) (fun _ _ => rfl) (fun _ _ => rfl) rfl
      (Nat.le_succ (q.instanceCounter + 1)) (fun _ _ => rfl)
  · rw [h.mem i]
    simp only [setEvent_event]
    split
    · rename_i hi
      have hfalse : (q.event i).flags.scheduled = false :=
        Bool.eq_false_iff.2 (fun hc => hfresh i (h.ready i hc).1 hi)
      simp [hfalse, ha.1.1]
    · rfl
  · simp only [setEvent_event] at hi ⊢
    split at hi
    · rw [ha.1.1] at hi
      cases hi
    · rename_i hie
      rw [if_neg hie]
      exact h.ready i hi
  · simp only [setEvent_event] at hi
    show i < q.instanceCounter + 1 + 1
    split at hi
    · rename_i hie
      exact hie ▸ Nat.lt_succ_self _
    · exact Nat.lt_succ_of_lt (h.constructed i hi)
  · simp only [setEvent_event]
    split
    · exact hf hs
    · exact h.unsquashed hs i

/-- **An event enters the queue**: `setWhen` and `insert`, then its flags and the trace line. -/
theorem queued_enter (ho : Ordered q l) (he : e ∉ l)
    (hmem : ∀ i, i ≠ e → (i ∈ l ↔ (q.event i).flags.scheduled = true)) (hready : ∀ i, i ≠ e → (q.event
    i).flags.scheduled = true → (q.event i).flags.initialized = true ∧ (q.event i).queue = true)
    (hcons : ∀ i, (q.event i).flags.initialized = true → i < q.rounds)
    (hsq : s = false → ∀ i, (q.event i).flags.squashed = false) (hinit : (q.event e).flags.initialized = true)
    (when : Nat) (a : Action) (ha : a = .scheduled ∨ a = .rescheduled) :
    ∃ q', insert (setWhen q e when) e = .ok q' ∧ (q'.event e).flags = (q.event e).flags ∧
      ∀ f : Flags, f.scheduled = true → f.initialized = true → (s = false → f.squashed = false) →
        ∃ l', Queued s ((q'.setFlags e f).addTrace a e) l' := by
  have hw : ∀ i, ((setWhen q e when).event i).flags = (q.event i).flags := fun i => by
    simp only [setWhen, setEvent_event]
    split
    · rename_i hi
      rw [hi]
    · rfl
  have hwq : ∀ i, i ≠ e → ((setWhen q e when).event i).queue = (q.event i).queue := fun i hi => by
    simp only [setWhen, setEvent_event, if_neg hi]
  obtain ⟨q', hi, hs, hord⟩ := (ho.setEvent he { q.event e with when := when, queue := true }).insert he
    (hcons e hinit) a ha
  have hflags : ∀ i, (q'.event i).flags = (q.event i).flags := fun i => (hs.flags i).trans (hw i)
  refine ⟨q', hi, hflags e, fun f hf1 hf2 hf3 => ⟨insertTop (setWhen q e when).key e l, ?_⟩⟩
  have hev : ∀ i, (((q'.setFlags e f).addTrace a e).event i) =
      if i = e then { q'.event e with flags := f } else q'.event i := fun i => rfl
  refine ⟨hord.setFlags e f, fun i => ?_, fun i hi => ?_, fun i hi => ?_, fun hsf i => ?_⟩
  · rw [mem_insertTop, hev]
    split
    · rename_i hie
      simp [hie, hf1]
    · rename_i hie
      rw [hflags i, ← hmem i hie]
      simp [hie]
  · rw [hev] at hi ⊢
    split
    · refine ⟨hf2, ?_⟩
      show (q'.event e).queue = true
      rw [hs.queue e, setEvent_event, if_pos rfl]
    · rename_i hie
      rw [if_neg hie, hflags i] at hi
      rw [hflags i, hs.queue i]
      exact ⟨(hready i hie hi).1, (hwq i hie).trans (hready i hie hi).2⟩
  · have hr : ((q'.setFlags e f).addTrace a e).rounds = q.rounds := hs.rounds
    rw [hr]
    rw [hev] at hi
    split at hi
    · rename_i hie
      exact hie ▸ hcons e hinit
    · rw [hflags i] at hi
      exact hcons i hi
  · rw [hev]
    split
    · exact hf3 hsf
    · rw [hflags i]
      exact hsq hsf i

section

variable (h : Queued s q l)
include h

theorem schedule_fine (e : EventId) (when : Nat) : Fine s (schedule q e when) := by
  refine fine_assert (fun _ => fine_assert (fun hns => fine_assert (fun hinit => ?_)))
  have he : e ∉ l := fun hm => by
    rw [(h.mem e).1 hm] at hns
    cases hns
  obtain ⟨q', hi, hfl, hq'⟩ := queued_enter h.ordered he (fun i _ => h.mem i) (fun i _ => h.ready i) h.constructed
    h.unsquashed hinit when .scheduled (Or.inl rfl)
  rw [hi]
  exact hq' _ rfl (by rw [hfl]; exact hinit) (fun hs => by rw [hfl]; exact h.unsquashed hs e)

theorem Queued.remove (hsch : (q.event e).flags.scheduled = true) :
    ∃ q', EventQ.remove q e = .ok q' ∧ SameData q q' ∧ Ordered q' (l.erase e) :=
  h.ordered.remove ((h.mem e).2 hsch) (h.ready e hsch).2

theorem Queued.mem_erase {i : EventId} (hi : i ≠ e) :
    i ∈ l.erase e ↔ (q.event i).flags.scheduled = true := by
  rw [List.mem_erase_of_ne hi, h.mem i]

theorem Queued.notMem_erase (e : EventId) :
    e ∉ l.erase e := fun hm => ((List.Nodup.mem_erase_iff h.ordered.nodup).1 hm).1 rfl

theorem deschedule_fine (e : EventId) : Fine s (deschedule q e) := by
  refine fine_assert (fun hsch => fine_assert (fun hinit => ?_))
  obtain ⟨q', hr, hs, ho⟩ := h.remove hsch
  rw [hr]
  let f : Flags := { (q'.event e).flags with squashed := false, scheduled := false }
  refine ⟨l.erase e, Queued.release ?_ e⟩
  have hev : ∀ i, (((q'.setFlags e f).addTrace .descheduled e).event i) =
      if i = e then { q'.event e with flags := f } else q'.event i := fun i => rfl
  refine ⟨(ho.setFlags e f).addTrace .descheduled e (Or.inl rfl), fun i => ?_, fun i hi => ?_, fun i hi => ?_,
    fun hsf i => ?_⟩
  · rw [hev]
    split
    · rename_i hie
      subst hie
      simp [h.notMem_erase i, f]
    · rename_i hie
      rw [hs.flags i]
      exact h.mem_erase hie
  · rw [hev] at hi ⊢
    split at hi
    · cases hi
    · rename_i hie
      rw [if_neg hie, hs.flags i, hs.queue i]
      exact h.ready i (hs.flags i ▸ hi)
  · have hrd : ((q'.setFlags e f).addTrace .descheduled e).rounds = q.rounds := hs.rounds
    rw [hrd]
    rw [hev] at hi
    split at hi
    · rename_i hie
      exact hie ▸ h.constructed e hinit
    · exact h.constructed i (hs.flags i ▸ hi)
  · rw [hev]
    split
    · rfl
    · rw [hs.flags i]
      exact h.unsquashed hsf i

theorem reschedule_fine (e : EventId) (when : Nat) (always : Bool) :
    Fine s (reschedule q e when always) := by
  refine fine_assert (fun _ => fine_assert (fun _ => fine_assert (fun hinit => ?_)))
  by_cases hsch : (q.event e).flags.scheduled = true
  · obtain ⟨q₁, hr, hs, ho⟩ := h.remove hsch
    obtain ⟨q', hi, hfl, hq'⟩ := queued_enter (s := s) ho (h.notMem_erase e)
      (fun i hie => by rw [hs.flags i]; exact h.mem_erase hie)
      (fun i _ hi => by rw [hs.flags i, hs.queue i]; exact h.ready i (hs.flags i ▸ hi))
      (fun i hi => by rw [hs.rounds]; exact h.constructed i (hs.flags i ▸ hi))
      (fun hsf i => by rw [hs.flags i]; exact h.unsquashed hsf i) (by rw [hs.flags e]; exact hinit) when .rescheduled
      (Or.inr rfl)
    rw [if_pos hsch, hr]
    show Fine s (insert (setWhen q₁ e when) e >>= _)
    rw [hi]
    exact hq' _ rfl (by rw [hfl, hs.flags e]; exact hinit) (fun _ => rfl)
  · have he : e ∉ l := fun hm => hsch ((h.mem e).1 hm)
    obtain ⟨q', hi, hfl, hq'⟩ := queued_enter h.ordered he (fun i _ => h.mem i) (fun i _ => h.ready i) h.constructed
      h.unsquashed hinit when .rescheduled (Or.inr rfl)
    rw [if_neg hsch]
    show Fine s (insert (setWhen q e when) e >>= _)
    rw [hi]
    exact hq' _ rfl (by rw [hfl]; exact hinit) (fun _ => rfl)

end

/-! ## Servicing -/

theorem Queued.popHead (h : Queued s q (e :: l)) : ∃ q', EventQ.popHead q = .ok (e, q') ∧ Queued s q' l ∧
      (q'.event e).flags = { (q.event e).flags with scheduled := false } := by
  obtain ⟨q', hp, ho, hs⟩ := h.ordered.popHead
  have hflags : ∀ i, (q'.event i).flags =
      if i = e then { (q.event e).flags with scheduled := false } else (q.event i).flags := fun i => by
    rw [hs.flags i, setFlags_event]
    split <;> rfl
  have hqueue : ∀ i, (q'.event i).queue = (q.event i).queue := fun i => by
    rw [hs.queue i, setFlags_event]
    split
    · rename_i hie
      rw [hie]
    · rfl
  have hel : e ∉ l := (List.nodup_cons.1 h.ordered.nodup).1
  refine ⟨q', hp, ⟨ho, fun i => ?_, fun i hi => ?_, fun i hi => ?_, fun hsf i => ?_⟩, by rw [hflags, if_pos rfl]⟩
  · rw [hflags]
    split
    · rename_i hie
      simp [hie, hel]
    · rename_i hie
      rw [← h.mem i]
      simp [hie]
  · rw [hflags] at hi
    split at hi
    · cases hi
    · rename_i hie
      rw [hflags, if_neg hie, hqueue i]
      exact h.ready i hi
  · rw [show q'.rounds = q.rounds from hs.rounds]
    rw [hflags] at hi
    split at hi
    · rename_i hie
      exact hie ▸ h.constructed e hi
    · exact h.constructed i hi
  · rw [hflags]
    split
    · exact h.unsquashed hsf e
    · exact h.unsquashed hsf i

theorem endProcess_fine (h : Queued s q l) (e : EventId) : Fine s ((endProcess q e).map Prod.fst) := by
  unfold endProcess
  split
  · cases hm : (!(q.event e).flags.managed || !(q.event e).flags.isMainQueue)
    · exact Or.inl rfl
    · exact ⟨l, h⟩
  · exact ⟨l, h.release e⟩

theorem serviceOne_fine (h : Queued s q l) (process : EventQueue → Except Failure EventQueue)
    (hp : ∀ q l, Queued s q l → Fine s (process q)) : Fine s ((serviceOne process q).map Prod.fst) := by
  cases l with
  | nil =>
    rw [serviceOne, EventQ.popHead, h.ordered.head_none]
    exact Or.inr rfl
  | cons e l =>
    obtain ⟨q', hpop, hq', -⟩ := h.popHead
    rw [serviceOne, hpop]
    show Fine s (Except.map Prod.fst (if (!(q'.event e).flags.squashed) = true then _ else _))
    split
    · have hproc := hp _ _ (hq'.beginProcess e)
      show Fine s (Except.map Prod.fst (process (EventQ.beginProcess q' e) >>= fun q₂ => endProcess q₂ e))
      cases hr : process (EventQ.beginProcess q' e) with
      | error f =>
        rw [hr] at hproc
        exact hproc
      | ok q₂ =>
        rw [hr] at hproc
        obtain ⟨l₂, hq₂⟩ := hproc
        exact endProcess_fine hq₂ e
    · exact ⟨l, (hq'.setFlags e { (q'.event e).flags with squashed := false } rfl id (fun hs => (hq'.ready e hs).1)
        (fun _ => rfl)).release e⟩

/-! ## Runs -/

mutual

theorem exec_fine (s : Bool) : ∀ (c : Call) (q : EventQueue) (l : List EventId), (s = false → plain c = true) →
    Queued s q l → Fine s (exec c q)
  | .construct p f, q, l, hs, h => by
    rw [exec]
    refine construct_fine h p f (fun hsf => ?_)
    have := hs hsf
    rwa [plain, Bool.not_eq_true'] at this
  | .schedule e w, q, l, _, h => by
    rw [exec]
    exact schedule_fine h e w
  | .deschedule e, q, l, _, h => by
    rw [exec]
    exact deschedule_fine h e
  | .reschedule e w a, q, l, _, h => by
    rw [exec]
    exact reschedule_fine h e w a
  | .squash e, q, l, hs, h => by
    rw [exec]
    cases s with
    | false => exact absurd (hs rfl) (by simp [plain])
    | true => exact ⟨l, h.squash e⟩
  | .serviceOne body, q, l, hs, h => by
    rw [exec]
    exact serviceOne_fine h _ (fun q l hq => execAll_fine s body q l (fun hsf => by simpa [plain] using hs hsf) hq)

theorem execAll_fine (s : Bool) : ∀ (cs : List Call) (q : EventQueue) (l : List EventId),
    (s = false → plainAll cs = true) → Queued s q l → Fine s (execAll cs q)
  | [], q, l, _, h => ⟨l, h⟩
  | c :: cs, q, l, hs, h => by
    have hs' : s = false → plain c = true ∧ plainAll cs = true := fun hsf => by
      have := hs hsf
      rwa [plainAll, Bool.and_eq_true] at this
    rw [execAll]
    exact fine_bind (exec_fine s c q l (fun hsf => (hs' hsf).1) h)
      (fun q' l' h' => execAll_fine s cs q' l' (fun hsf => (hs' hsf).2) h')

end

/-- The states of the runs from the empty queue, those inside a `process` included.  With `s = false` the calls
squash no event. -/
inductive Reach (s : Bool) : EventQueue → Prop
  | empty : Reach s {}
  | call {q q' : EventQueue} (c : Call) : Reach s q → (s = false → plain c = true) → exec c q = .ok q' → Reach s q'
  | process {q q' : EventQueue} {e : EventId} : Reach s q → popHead q = .ok (e, q') →
      (q'.event e).flags.squashed = false → Reach s (beginProcess q' e)

theorem Reach.queued (h : Reach s q) : ∃ l, Queued s q l := by
  induction h with
  | empty => exact ⟨[], queued_empty s⟩
  | @call q q' c _ hs he ih =>
    obtain ⟨l, hl⟩ := ih
    have hfine := exec_fine s c q l hs hl
    rw [he] at hfine
    exact hfine
  | @process q q' e _ hp _ ih =>
    obtain ⟨l, hl⟩ := ih
    cases l with
    | nil =>
      rw [popHead, hl.ordered.head_none] at hp
      cases hp
    | cons x l =>
      obtain ⟨q₁, hpop, hq₁, -⟩ := hl.popHead
      rw [hpop] at hp
      cases hp
      exact ⟨l, hq₁.beginProcess e⟩

theorem Reach.execAll : ∀ (cs : List Call) {q q' : EventQueue}, Reach s q →
    (s = false → plainAll cs = true) → EventQ.execAll cs q = .ok q' → Reach s q'
  | [], q, q', h, _, he => by
    rw [EventQ.execAll] at he
    cases he
    exact h
  | c :: cs, q, q', h, hs, he => by
    rw [EventQ.execAll, Run.bind_eq_ok] at he
    obtain ⟨q₁, h1, h2⟩ := he
    have hs' : s = false → plain c = true ∧ plainAll cs = true := fun hsf => by
      have := hs hsf
      rwa [plainAll, Bool.and_eq_true] at this
    exact Reach.execAll cs (h.call c (fun hsf => (hs' hsf).1) h1) (fun hsf => (hs' hsf).2) h2

/-- **The event queue refines a sorted list**: in every state of every run, walking the two-level structure gives the
scheduled events, each once, by `(when, priority)` and the latest insertion first within a bin; no call ends in the
`event not found!` panic; and `serviceOne` takes, and executes, the first event of that list. -/
theorem eventQueue_refines_sorted_list (s : Bool) (q : EventQueue) (h : Reach s q) :
    ∃ l, q.dump = some l ∧ l.Nodup ∧ (∀ e, e ∈ l ↔ (q.event e).flags.scheduled = true) ∧ l.Pairwise (Before q) ∧
      (s = false → ∀ e, (q.event e).flags.squashed = false) ∧
      (∀ calls, (s = false → plainAll calls = true) →
        ∀ f, execAll calls q = .error f → f = .assertFailed ∨ f = .nullPointer) ∧
      (∀ e ∈ l, ∃ q', remove q e = .ok q' ∧ q'.dump = some (l.erase e)) ∧
      (l = [] → ∀ process, serviceOne process q = .error .nullPointer) ∧
      (∀ e rest, l = e :: rest → ∃ q', popHead q = .ok (e, q') ∧ q'.dump = some rest ∧
        ∀ process, serviceOne process q =
          if (q.event e).flags.squashed then
            .ok (release (q'.setFlags e { (q'.event e).flags with squashed := false }) e, none)
          else process (beginProcess q' e) >>= fun q'' => endProcess q'' e) := by
  obtain ⟨l, hl⟩ := h.queued
  refine ⟨l, hl.ordered.dump_eq, hl.ordered.nodup, hl.mem, hl.ordered.2, hl.unsquashed, ?_, ?_, ?_, ?_⟩
  · intro calls hs f hf
    have hfine := execAll_fine s calls q l hs hl
    rw [hf] at hfine
    exact hfine
  · intro e he
    obtain ⟨q', hr, -, ho⟩ := hl.remove ((hl.mem e).1 he)
    exact ⟨q', hr, ho.dump_eq⟩
  · rintro rfl process
    rw [serviceOne, popHead, hl.ordered.head_none]
    rfl
  · rintro e rest rfl
    obtain ⟨q', hp, hq', hfl⟩ := hl.popHead
    refine ⟨q', hp, hq'.ordered.dump_eq, fun process => ?_⟩
    have hsq : (q'.event e).flags.squashed = (q.event e).flags.squashed := by rw [hfl]
    rw [serviceOne, hp, ← hsq]
    cases hb : (q'.event e).flags.squashed <;> simp [bind, Except.bind, hb, pure, Except.pure]

theorem eventQueue_refines_sorted_list_stacked :
    ∃ q, execAll [.construct 0 {}, .construct 0 {}, .schedule 1 10, .schedule 2 10] {} = .ok q ∧
      q.dump = some [2, 1] ∧ ∃ q', popHead q = .ok (2, q') ∧ q'.dump = some [1] := by
  refine ⟨_, rfl, rfl, ?_⟩
  obtain ⟨l, hd, -, -, -, -, -, -, -, hserve⟩ := eventQueue_refines_sorted_list false _
    (Reach.execAll [.construct 0 {}, .construct 0 {}, .schedule 1 10, .schedule 2 10] Reach.empty (fun _ => rfl) rfl)
  have hl : l = [2, 1] := Option.some.inj (hd.symm.trans rfl)
  obtain ⟨q', hp, hd', -⟩ := hserve 2 [1] hl
  exact ⟨q', hp, hd'⟩

end EventQ
end Gem5
