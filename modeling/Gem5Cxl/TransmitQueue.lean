import Gem5Cxl.InsertLast
import Gem5Cxl.PacketQueue
/-!
# TransmitQueue — the transmit list of a packet queue with forced order (`mem/packet_queue.cc`)

`PacketQueue` with `forceOrder` and the sanity check as parameters.  `PacketQueue.lean` has the queue of a
`SimpleTimingPort`, which is this one with `forceOrder` off (`toPacketQueue_schedSendTiming`).  The queue is run by calls
of `schedSendTiming`, the firing of its send event and the retries of its peer; what it owes its users in every run is
`delivery`.
-/
namespace Gem5

structure PacketPtr where
  id : Nat
  pkt : Packet
  isSecure : Bool := false

def PacketPtr.matchAddr (p q : PacketPtr) : Bool := decide (p.pkt.addr = q.pkt.addr) && decide (p.isSecure = q.isSecure)

theorem PacketPtr.matchAddr_comm (p q : PacketPtr) : p.matchAddr q = q.matchAddr p := by
  simp only [matchAddr, eq_comm]

namespace TransmitQueue

structure Deferred where
  tick : Nat
  ptr : PacketPtr

end TransmitQueue

structure TransmitQueue where
  forceOrder : Bool
  disableSanityCheck : Bool
  transmitList : List TransmitQueue.Deferred := []
  waitingOnRetry : Bool := false
  /-- the tick the send event is scheduled at -/
  sendEvent : Option Nat := none

namespace TransmitQueue

open PacketQueue (maxTick)

/-- Where the search of `schedSendTiming` from the end of the list stops. -/
def stops (forceOrder : Bool) (dp e : Deferred) : Bool :=
  (forceOrder && e.ptr.matchAddr dp.ptr) || decide (e.tick ≤ dp.tick)

/-- `schedSendEvent`.  `curTick() + 1` wraps, and the event queue asserts that nothing is scheduled in the past. -/
def schedSendEvent (q : TransmitQueue) (curTick when : Nat) : Except Failure TransmitQueue :=
  if q.waitingOnRetry then do
    assertThat q.sendEvent.isNone
    return q
  else if when = maxTick then .ok q
  else
    let when := max when ((curTick + 1) % 2 ^ 64)
    match q.sendEvent with
    | none => do
      assertThat (decide (curTick ≤ when))
      return { q with sendEvent := some when }
    | some w =>
      if when < w then do
        assertThat (decide (curTick ≤ when))
        return { q with sendEvent := some when }
      else .ok q

def schedSendTiming (q : TransmitQueue) (curTick : Nat) (ptr : PacketPtr) (when : Nat) :
    Except Failure TransmitQueue := do
  assertThat (decide (curTick ≤ when))
  assertThat (!ptr.pkt.isExpressSnoop)
  panicIf (!q.disableSanityCheck && decide (128 < q.transmitList.length)) "Packet queue has grown beyond 128 packets\n"
  match InsertLast.insert (stops q.forceOrder ⟨when, ptr⟩) ⟨when, ptr⟩ q.transmitList with
  | some l => return { q with transmitList := l }
  | none => schedSendEvent { q with transmitList := ⟨when, ptr⟩ :: q.transmitList } curTick when

def readyTime : List Deferred → Nat
  | [] => maxTick
  | d :: _ => d.tick

/-- `sendDeferredPacket`: the packet that was sent, if the peer accepted it. -/
def sendDeferredPacket (q : TransmitQueue) (curTick : Nat) (accepted : Bool) :
    Except Failure (TransmitQueue × Option Deferred) := do
  assertThat (!q.waitingOnRetry)
  match q.transmitList with
  | [] => .error .assertFailed
  | dp :: l =>
    assertThat (decide (dp.tick ≤ curTick))
    if accepted then
      let q ← schedSendEvent { q with transmitList := l } curTick (readyTime l)
      return (q, some dp)
    else return ({ q with waitingOnRetry := true }, none)

def processSendEvent (q : TransmitQueue) (curTick : Nat) (accepted : Bool) :
    Except Failure (TransmitQueue × Option Deferred) := do
  assertThat (!q.waitingOnRetry)
  sendDeferredPacket { q with sendEvent := none } curTick accepted

def retry (q : TransmitQueue) (curTick : Nat) (accepted : Bool) : Except Failure (TransmitQueue × Option Deferred) := do
  assertThat q.waitingOnRetry
  sendDeferredPacket { q with waitingOnRetry := false } curTick accepted

/-! ## The queue without forced order -/

def toPacketQueue (q : TransmitQueue) : PacketQueue where
  transmitList := q.transmitList.map fun d => ⟨d.tick, d.ptr.pkt⟩
  waitingOnRetry := q.waitingOnRetry
  sendEvent := q.sendEvent

theorem insertAfter_map (dp : Deferred) : ∀ l : List Deferred,
    PacketQueue.insertAfter ⟨dp.tick, dp.ptr.pkt⟩ (l.map fun d => ⟨d.tick, d.ptr.pkt⟩) =
      (InsertLast.insert (stops false dp) dp l).map fun l => l.map fun d => ⟨d.tick, d.ptr.pkt⟩
  | [] => rfl
  | e :: t => by
    rw [List.map_cons, PacketQueue.insertAfter, insertAfter_map dp t, InsertLast.insert]
    cases InsertLast.insert (stops false dp) dp t with
    | some t' => rfl
    | none =>
      simp only [Option.map_none, stops, Bool.false_and, Bool.false_or, decide_eq_true_eq]
      split_ifs <;> rfl

theorem toPacketQueue_schedSendEvent (q : TransmitQueue) {curTick : Nat} (hcur : curTick < maxTick) (when : Nat) :
    (q.schedSendEvent curTick when).map toPacketQueue = q.toPacketQueue.schedSendEvent curTick when := by
  have hnext : (curTick + 1) % 2 ^ 64 = curTick + 1 := Nat.mod_eq_of_lt (by unfold maxTick at hcur; omega)
  have hpast : decide (curTick ≤ max when (curTick + 1)) = true := decide_eq_true (by omega)
  obtain ⟨force, sanity, l, waiting, event⟩ := q
  unfold schedSendEvent PacketQueue.schedSendEvent
  simp only [toPacketQueue, hnext, hpast]
  cases waiting with
  | true => cases event <;> rfl
  | false =>
    simp only [Bool.false_eq_true, if_false]
    by_cases hm : when = maxTick
    · simp only [if_pos hm]
      rfl
    · simp only [if_neg hm]
      cases event with
      | none => rfl
      | some w =>
        dsimp only
        split_ifs <;> rfl

/-- **With `forceOrder` off and the sanity check on** this is the queue of `PacketQueue.lean`. -/
theorem toPacketQueue_schedSendTiming {q : TransmitQueue} (hf : q.forceOrder = false)
    (hs : q.disableSanityCheck = false) {curTick : Nat} (hcur : curTick < maxTick) (ptr : PacketPtr) (when : Nat) :
    (q.schedSendTiming curTick ptr when).map toPacketQueue = q.toPacketQueue.schedSendTiming curTick ptr.pkt when := by
  have hins := insertAfter_map ⟨when, ptr⟩ q.transmitList
  unfold schedSendTiming PacketQueue.schedSendTiming
  simp only [hf, hs, Bool.not_false, Bool.true_and, toPacketQueue, List.length_map, hins]
  by_cases h1 : curTick ≤ when
  · by_cases h2 : ptr.pkt.isExpressSnoop = true
    · simp [h1, h2, assertThat, Except.map]
    · by_cases h3 : 128 < q.transmitList.length
      · simp [h1, h2, h3, panicIf, Except.map]
      · simp only [h1, h2, h3, decide_true, decide_false, Bool.not_false, assertThat_true, Run.ok_bind, panicIf,
          Bool.false_eq_true, if_false]
        cases InsertLast.insert (stops false ⟨when, ptr⟩) ⟨when, ptr⟩ q.transmitList with
        | some l => rfl
        | none => exact toPacketQueue_schedSendEvent _ hcur when
  · simp [h1, assertThat, Except.map]

end TransmitQueue

end Gem5
