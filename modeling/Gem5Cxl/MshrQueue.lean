import Gem5Cxl.Mshr
import Gem5Cxl.IterList
import Mathlib.Algebra.Order.Ring.Nat
/-!
# MshrQueue — the MSHRs of a cache (`mem/cache/queue.hh`, `mem/cache/mshr_queue.cc`)

A fixed number of entries, named by their index.  A free entry is in `freeList`; an allocated one is in `allocatedList`,
and in `readyList` until it is sent downstream.  Each entry keeps its iterators into the last two.  A call through an
iterator whose node was erased is undefined in the source and fails here.
-/
namespace Gem5

namespace MshrQueue

structure Entry where
  mshr : Mshr := {}
  allocIter : Nat := 0
  readyIter : Nat := 0

end MshrQueue

structure MshrQueue where
  numEntries : Nat
  numReserve : Nat
  entries : Nat → MshrQueue.Entry := fun _ => {}
  allocatedList : IterList Nat := .empty
  readyList : IterList Nat := .empty
  freeList : List Nat
  numInService : Int := 0
  allocated : Int := 0

namespace MshrQueue

def new (numEntries reserve : Nat) : MshrQueue where
  numEntries := numEntries + reserve
  numReserve := reserve
  freeList := List.range (numEntries + reserve)

def isFull (q : MshrQueue) : Bool := decide ((q.numEntries : Int) - q.numReserve ≤ q.allocated)

def mshr (q : MshrQueue) (i : Nat) : Mshr := (q.entries i).mshr

def setEntry (q : MshrQueue) (i : Nat) (e : Entry) : MshrQueue := { q with entries := Function.update q.entries i e }

def setMshr (q : MshrQueue) (i : Nat) (s : Mshr) : MshrQueue := q.setEntry i { q.entries i with mshr := s }

/-- What goes through an iterator whose node is gone is undefined. -/
def deref {α : Type} : Option α → Except Failure α
  | none => .error .nullPointer
  | some a => .ok a

def readyPos (q : MshrQueue) (i : Nat) : Except Failure Nat :=
  match q.readyList.elems.getLast? with
  | none => .ok q.readyList.elems.length
  | some back =>
    if (q.mshr back).readyTime ≤ (q.mshr i).readyTime then .ok q.readyList.elems.length
    else
      match q.readyList.elems.findIdx? fun j => decide ((q.mshr i).readyTime < (q.mshr j).readyTime) with
      | some k => .ok k
      | none => .error (.panic "Failed to add to ready list.")

/-- `mshr->readyIter = addToReadyList(mshr)`. -/
def addToReadyList (q : MshrQueue) (i : Nat) : Except Failure MshrQueue := do
  let k ← q.readyPos i
  .ok { q.setEntry i { q.entries i with readyIter := q.readyList.next } with readyList := q.readyList.insertAt k i }

def allocate (q : MshrQueue) (blkAddr blkSize : Nat) (pkt : MissPacket) (whenReady order : Nat) (allocOnFill : Bool) :
    Except Failure MshrQueue :=
  match q.freeList with
  | [] => .error .assertFailed
  | i :: freeList => do
    assertThat (decide ((q.mshr i).getNumTargets = 0))
    let s ← (q.mshr i).allocate blkAddr blkSize pkt whenReady order allocOnFill
    let entry : Entry := { q.entries i with mshr := s, allocIter := q.allocatedList.next }
    let q : MshrQueue :=
      { q.setEntry i entry with
        freeList := freeList, allocatedList := q.allocatedList.insertAt q.allocatedList.elems.length i }
    let q ← q.addToReadyList i
    .ok { q with allocated := q.allocated + 1 }

/-- The entry leaves the count of those in service, or the ready list. -/
def unlink (q : MshrQueue) (i : Nat) : Except Failure MshrQueue :=
  if (q.mshr i).inService then .ok { q with numInService := q.numInService - 1 }
  else do
    let readyList ← deref (q.readyList.erase (q.entries i).readyIter)
    .ok { q with readyList := readyList }

def deallocate (q : MshrQueue) (i : Nat) : Except Failure MshrQueue := do
  let allocatedList ← deref (q.allocatedList.erase (q.entries i).allocIter)
  let q ← ({ q with
    allocatedList := allocatedList, freeList := i :: q.freeList, allocated := q.allocated - 1 } : MshrQueue).unlink i
  let s ← (q.mshr i).deallocate
  .ok (q.setMshr i s)

def moveToFront (q : MshrQueue) (i : Nat) : Except Failure MshrQueue :=
  if !(q.mshr i).inService then do
    let front ← deref (q.readyList.get (q.entries i).readyIter)
    assertThat (decide (i = front))
    let readyList ← deref (q.readyList.erase (q.entries i).readyIter)
    .ok { q.setEntry i { q.entries i with readyIter := readyList.next } with readyList := readyList.insertAt 0 i }
  else .ok q

def maxTick : Nat := 2 ^ 64 - 1

def getNext (q : MshrQueue) (curTick : Nat) : Option Nat :=
  match q.readyList.elems with
  | [] => none
  | i :: _ => if curTick < (q.mshr i).readyTime then none else some i

def nextReadyTime (q : MshrQueue) : Nat :=
  match q.readyList.elems with
  | [] => maxTick
  | i :: _ => (q.mshr i).readyTime

/-- The node `delay` looks for: from the entry's own on, the first that is not ready after it. -/
def delayPos (q : MshrQueue) (i : Nat) : Option Nat :=
  ((q.readyList.nodes.dropWhile fun n => decide (n.1 ≠ (q.entries i).readyIter)).find? fun n =>
    decide ((q.mshr n.2).readyTime ≤ (q.mshr i).readyTime)).map Prod.fst

def reposition (q : MshrQueue) (i : Nat) : Except Failure MshrQueue :=
  match h : q.readyList.get (q.entries i).readyIter with
  | none => .error .nullPointer
  | some a => .ok { q with readyList := q.readyList.splice (q.delayPos i) (q.entries i).readyIter a (IterList.get_eq_some.1 h) }

def delay (q : MshrQueue) (i curTick delayTicks : Nat) : Except Failure MshrQueue := do
  let s ← (q.mshr i).delay curTick delayTicks
  (q.setMshr i s).reposition i

def markInService (q : MshrQueue) (i : Nat) (pendingModifiedResp : Bool) : Except Failure MshrQueue := do
  let s ← (q.mshr i).markInService pendingModifiedResp
  let readyList ← deref (q.readyList.erase (q.entries i).readyIter)
  .ok { q.setMshr i s with readyList := readyList, numInService := q.numInService + 1 }

def markPending (q : MshrQueue) (i : Nat) : Except Failure MshrQueue := do
  assertThat (q.mshr i).inService
  ({ q.setMshr i { q.mshr i with inService := false } with
    numInService := q.numInService - 1 } : MshrQueue).addToReadyList i

/-- The entry whose MSHR is now `s` is deallocated if it has no targets left. -/
def deallocateIfDone (q : MshrQueue) (i curTick : Nat) (s : Mshr) : Except Failure MshrQueue :=
  if !s.hasTargets then do
    let (s, promoted) ← s.promoteDeferredTargets curTick
    if !promoted then (q.setMshr i s).deallocate i else .ok (q.setMshr i s)
  else .ok (q.setMshr i s)

def forceDeallocateTarget (q : MshrQueue) (i curTick : Nat) : Except Failure (MshrQueue × Bool) := do
  assertThat (q.mshr i).hasTargets
  let s ← (q.mshr i).popTarget
  let q' ← q.deallocateIfDone i curTick s
  .ok (q', q.isFull && !q'.isFull)

end MshrQueue
end Gem5
