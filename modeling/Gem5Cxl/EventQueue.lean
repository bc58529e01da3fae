import Gem5Cxl.Basic
import Gem5Cxl.Chain
/-!
# EventQueue — the simulator's event queue (`sim/eventq.hh`, `sim/eventq.cc`), serial mode

The queue is a linked list of linked lists.  `nextBin` links the tops of the bins, a bin being all events of one
`(when, priority)`; `nextInBin` links the events stacked in one bin.  Only a top's `nextBin` means anything: insertion
and removal leave the pointers of the events under a top as they were.

Events live on a heap indexed by their `instance` number.  The loops of the source run over that heap, and the model
bounds each by `instanceCounter + 1` rounds (`Failure.looping` past it).  `trace` is the output of `Event::trace`, the
latest line first.  `inParallelMode` is false throughout, so `schedule` always inserts and the current-queue assertions
hold.
-/
namespace Gem5
namespace EventQ

abbrev EventId := Nat

/-- The bits of `EventBase::Flags` the queue reads or writes; `initialized` is the check `flags & InitMask ==
Initialized`. -/
structure Flags where
  squashed : Bool := false
  scheduled : Bool := false
  managed : Bool := false
  isExitEvent : Bool := false
  isMainQueue : Bool := false
  initialized : Bool := false
deriving DecidableEq, Repr

/-- `class Event`.  `queue` is `true` once `setWhen` has recorded this queue. -/
structure Event where
  nextBin : Option EventId := none
  nextInBin : Option EventId := none
  when : Nat := 0
  priority : Int := 0
  flags : Flags := {}
  queue : Bool := false
deriving DecidableEq, Repr

def Event.lt (l r : Event) : Bool := l.when < r.when || (l.when == r.when && l.priority < r.priority)

def Event.le (l r : Event) : Bool := l.when < r.when || (l.when == r.when && l.priority ≤ r.priority)

def Event.eqv (l r : Event) : Bool := l.when == r.when && l.priority == r.priority

inductive Action where
  | scheduled
  | descheduled
  | rescheduled
  | executed
deriving DecidableEq, Repr

structure EventQueue where
  head : Option EventId := none
  curTick : Nat := 0
  event : EventId → Event := fun _ => {}
  instanceCounter : Nat := 0
  trace : List (Action × EventId) := []

def EventQueue.setEvent (q : EventQueue) (e : EventId) (x : Event) : EventQueue :=
  { q with event := fun i => if i = e then x else q.event i }

def EventQueue.setFlags (q : EventQueue) (e : EventId) (f : Flags) : EventQueue :=
  q.setEvent e { q.event e with flags := f }

def EventQueue.addTrace (q : EventQueue) (a : Action) (e : EventId) : EventQueue :=
  { q with trace := (a, e) :: q.trace }

def EventQueue.rounds (q : EventQueue) : Nat := q.instanceCounter + 1

/-! ## The two-level list -/

/-- `Event::insertBefore(event, curr)`; the event returned is `event` itself. -/
def insertBefore (q : EventQueue) (event : EventId) (curr : Option EventId) : EventQueue :=
  match curr with
  | none => q.setEvent event { q.event event with nextBin := none, nextInBin := none }
  | some c =>
    if (q.event event).lt (q.event c) then
      q.setEvent event { q.event event with nextBin := some c, nextInBin := none }
    else
      -- `curr->nextBin` can now become stale
      q.setEvent event { q.event event with nextBin := (q.event c).nextBin, nextInBin := some c }

/-- The loop of `insert` and of `remove` that looks for a bin: from `prev` and `curr = prev->nextBin`, step while
`curr` is before `event`. -/
def seekBin (ev : EventId → Event) (event : EventId) : Nat → EventId → Option EventId →
    Except Failure (EventId × Option EventId)
  | 0, _, _ => .error .looping
  | _ + 1, prev, none => .ok (prev, none)
  | n + 1, prev, some curr =>
    if (ev curr).lt (ev event) then seekBin ev event n curr (ev curr).nextBin else .ok (prev, some curr)

def insert (q : EventQueue) (event : EventId) : Except Failure EventQueue :=
  match q.head with
  | none => .ok { insertBefore q event none with head := some event }
  | some h =>
    if (q.event event).le (q.event h) then
      .ok { insertBefore q event (some h) with head := some event }
    else do
      let (prev, curr) ← seekBin q.event event q.rounds h (q.event h).nextBin
      let q' := insertBefore q event curr
      return q'.setEvent prev { q'.event prev with nextBin := some event }

/-- The loop of `removeItem`: from `curr` and `next = curr->nextInBin`, step until `next` is `event`. -/
def seekInBin (ev : EventId → Event) (event : EventId) : Nat → EventId → Option EventId → Except Failure EventId
  | 0, _, _ => .error .looping
  | n + 1, curr, next =>
    if next = some event then .ok curr
    else match next with
      | none => .error (.panic "event not found!")
      | some x => seekInBin ev event n x (ev x).nextInBin

/-- `Event::removeItem(event, top)`: the new top of the bin, or the next bin when the bin is used up. -/
def removeItem (q : EventQueue) (event top : EventId) : Except Failure (EventQueue × Option EventId) :=
  if event = top then
    match (q.event top).nextInBin with
    | none => .ok (q, (q.event top).nextBin)
    | some next =>
      .ok (q.setEvent next { q.event next with nextBin := (q.event top).nextBin }, some next)
  else do
    let curr ← seekInBin q.event event q.rounds top (q.event top).nextInBin
    return (q.setEvent curr { q.event curr with nextInBin := (q.event event).nextInBin }, some top)

def remove (q : EventQueue) (event : EventId) : Except Failure EventQueue :=
  match q.head with
  | none => .error (.panic "event not found!")
  | some h => do
    assertThat (q.event event).queue
    if (q.event h).eqv (q.event event) then
      let (q', top) ← removeItem q event h
      return { q' with head := top }
    else
      let (prev, curr) ← seekBin q.event event q.rounds h (q.event h).nextBin
      match curr with
      | none => .error (.panic "event not found!")
      | some c =>
        if !(q.event c).eqv (q.event event) then .error (.panic "event not found!")
        else
          let (q', top) ← removeItem q event c
          return q'.setEvent prev { q'.event prev with nextBin := top }

/-! ## The interface -/

/-- `Event::release`, with the default `releaseImpl`: a managed event that is not scheduled is deleted, and `~Event`
clears its flags. -/
def release (q : EventQueue) (e : EventId) : EventQueue :=
  if (q.event e).flags.managed && !(q.event e).flags.scheduled then q.setFlags e {} else q

/-- The constructor `Event(p, f)`; `f` may hold the publicly writable flags only. -/
def construct (q : EventQueue) (p : Int) (f : Flags) : Except Failure EventQueue := do
  assertThat (!f.scheduled && !f.isMainQueue && !f.initialized)
  let e := q.instanceCounter + 1
  return { q.setEvent e { priority := p, flags := { f with initialized := true } } with instanceCounter := e }

def setWhen (q : EventQueue) (e : EventId) (when : Nat) : EventQueue :=
  q.setEvent e { q.event e with when := when, queue := true }

/-- `EventQueue::schedule`; the default `acquireImpl` does nothing. -/
def schedule (q : EventQueue) (e : EventId) (when : Nat) : Except Failure EventQueue := do
  assertThat (decide (q.curTick ≤ when))
  assertThat (!(q.event e).flags.scheduled)
  assertThat (q.event e).flags.initialized
  let q ← insert (setWhen q e when) e
  return (q.setFlags e { (q.event e).flags with scheduled := true }).addTrace .scheduled e

def deschedule (q : EventQueue) (e : EventId) : Except Failure EventQueue := do
  assertThat (q.event e).flags.scheduled
  assertThat (q.event e).flags.initialized
  let q ← remove q e
  let q := q.setFlags e { (q.event e).flags with squashed := false, scheduled := false }
  return release (q.addTrace .descheduled e) e

def reschedule (q : EventQueue) (e : EventId) (when : Nat) (always : Bool) : Except Failure EventQueue := do
  assertThat (decide (q.curTick ≤ when))
  assertThat (always || (q.event e).flags.scheduled)
  assertThat (q.event e).flags.initialized
  let q ← if (q.event e).flags.scheduled then remove q e else pure q
  let q ← insert (setWhen q e when) e
  return (q.setFlags e { (q.event e).flags with squashed := false, scheduled := true }).addTrace .rescheduled e

def squash (q : EventQueue) (e : EventId) : EventQueue :=
  q.setFlags e { (q.event e).flags with squashed := true }

/-- The first half of `serviceOne`: take the head off the queue. -/
def popHead (q : EventQueue) : Except Failure (EventId × EventQueue) :=
  match q.head with
  | none => .error .nullPointer
  | some event =>
    let next := (q.event event).nextInBin
    let q := q.setFlags event { (q.event event).flags with scheduled := false }
    match next with
    | some next =>
      -- update the next bin pointer since it could be stale
      .ok (event, { q.setEvent next { q.event next with nextBin := (q.event event).nextBin } with head := some next })
    | none => .ok (event, { q with head := (q.event event).nextBin })

/-- What `serviceOne` does before it calls `process` on an event that was not squashed. -/
def beginProcess (q : EventQueue) (e : EventId) : EventQueue :=
  { q with curTick := (q.event e).when }.addTrace .executed e

/-- What `serviceOne` does after `process` returned: an exit event is returned, any other event released. -/
def endProcess (q : EventQueue) (e : EventId) : Except Failure (EventQueue × Option EventId) :=
  if (q.event e).flags.isExitEvent then do
    assertThat (!(q.event e).flags.managed || !(q.event e).flags.isMainQueue)
    return (q, some e)
  else return (release q e, none)

def serviceOne (process : EventQueue → Except Failure EventQueue) (q : EventQueue) :
    Except Failure (EventQueue × Option EventId) := do
  let (e, q) ← popHead q
  if !(q.event e).flags.squashed then
    let q ← process (beginProcess q e)
    endProcess q e
  else
    let q := q.setFlags e { (q.event e).flags with squashed := false }
    return (release q e, none)

/-- A call on the queue.  `serviceOne` carries the calls its event's `process` makes. -/
inductive Call where
  | construct (p : Int) (f : Flags)
  | schedule (e : EventId) (when : Nat)
  | deschedule (e : EventId)
  | reschedule (e : EventId) (when : Nat) (always : Bool)
  | squash (e : EventId)
  | serviceOne (process : List Call)

mutual

def exec : Call → EventQueue → Except Failure EventQueue
  | .construct p f, q => construct q p f
  | .schedule e w, q => schedule q e w
  | .deschedule e, q => deschedule q e
  | .reschedule e w a, q => reschedule q e w a
  | .squash e, q => .ok (squash q e)
  | .serviceOne body, q => (serviceOne (execAll body) q).map Prod.fst

def execAll : List Call → EventQueue → Except Failure EventQueue
  | [], q => .ok q
  | c :: cs, q => exec c q >>= execAll cs

end

mutual

/-- A call that squashes no event, nor makes one squashed, itself or in a `process`. -/
def plain : Call → Bool
  | .construct _ f => !f.squashed
  | .schedule _ _ => true
  | .deschedule _ => true
  | .reschedule _ _ _ => true
  | .squash _ => false
  | .serviceOne body => plainAll body

def plainAll : List Call → Bool
  | [] => true
  | c :: cs => plain c && plainAll cs

end

/-! ## Walking the queue -/

def dumpBin (ev : EventId → Event) (rounds : Nat) (top : Option EventId) : Option (List EventId) :=
  Chain.follow (fun e => (ev e).nextInBin) rounds top

def dumpBins (ev : EventId → Event) (rounds : Nat) : Nat → Option EventId → Option (List EventId)
  | _, none => some []
  | 0, some _ => none
  | n + 1, some top => do
    let bin ← dumpBin ev rounds (some top)
    let rest ← dumpBins ev rounds n (ev top).nextBin
    return bin ++ rest

def EventQueue.dump (q : EventQueue) : Option (List EventId) := dumpBins q.event q.rounds q.rounds q.head

def insertedAt : List (Action × EventId) → EventId → Nat
  | [], _ => 0
  | (a, x) :: t, e => if x = e ∧ (a = .scheduled ∨ a = .rescheduled) then t.length + 1 else insertedAt t e

end EventQ
end Gem5
