import Gem5Cxl.Packet
import Mathlib.Data.List.Perm.Basic
/-!
# PacketQueue — packets waiting for their send time (`mem/packet_queue.cc`)

The queue of a `SimpleTimingPort`: `forceOrder` is off and the sanity check is on.  Ticks are natural numbers.
-/
namespace Gem5

structure DeferredPacket where
  tick : Nat
  pkt : Packet

structure PacketQueue where
  transmitList : List DeferredPacket := []
  waitingOnRetry : Bool := false
  sendEvent : Option Nat := none

namespace PacketQueue

def maxTick : Nat := 2 ^ 64 - 1

/-- The search of `schedSendTiming` from the end of the list: insert after the last packet due by `dp.tick`. -/
def insertAfter (dp : DeferredPacket) : List DeferredPacket → Option (List DeferredPacket)
  | [] => none
  | e :: t =>
    match insertAfter dp t with
    | some t' => some (e :: t')
    | none => if e.tick ≤ dp.tick then some (e :: dp :: t) else none

def schedSendEvent (q : PacketQueue) (curTick when : Nat) : Except Failure PacketQueue :=
  if q.waitingOnRetry then do
    assertThat q.sendEvent.isNone
    return q
  else if when = maxTick then .ok q
  else
    -- we cannot go back in time
    let when := max when (curTick + 1)
    match q.sendEvent with
    | none => .ok { q with sendEvent := some when }
    | some w => .ok (if when < w then { q with sendEvent := some when } else q)

def schedSendTiming (q : PacketQueue) (curTick : Nat) (pkt : Packet) (when : Nat) : Except Failure PacketQueue := do
  assertThat (decide (curTick ≤ when))
  assertThat (!pkt.isExpressSnoop)
  panicIf (decide (128 < q.transmitList.length)) "Packet queue has grown beyond 128 packets\n"
  match insertAfter ⟨when, pkt⟩ q.transmitList with
  | some l => return { q with transmitList := l }
  | none => schedSendEvent { q with transmitList := ⟨when, pkt⟩ :: q.transmitList } curTick when

theorem insertAfter_perm (dp : DeferredPacket) : ∀ {l l' : List DeferredPacket}, insertAfter dp l = some l' →
    l'.Perm (dp :: l)
  | [], l', h => by cases h
  | e :: t, l', h => by
    rw [insertAfter] at h
    cases hi : insertAfter dp t with
    | some t' =>
      rw [hi] at h
      cases h
      exact ((insertAfter_perm dp hi).cons e).trans (List.Perm.swap dp e t)
    | none =>
      rw [hi] at h
      simp only at h
      split_ifs at h
      cases h
      exact List.Perm.swap dp e t

variable {curTick when : Nat} {pkt : Packet} {q : PacketQueue}

/-- **A packet due now or later enters the queue once**, as long as the queue is within its limit. -/
theorem schedSendTiming_perm (ht : curTick ≤ when) (hs : pkt.isExpressSnoop = false)
    (hlen : q.transmitList.length ≤ 128) (hq : q.waitingOnRetry = true → q.sendEvent = none) :
    ∃ q', q.schedSendTiming curTick pkt when = .ok q' ∧ q'.transmitList.Perm (⟨when, pkt⟩ :: q.transmitList) := by
  have hlim : decide (128 < q.transmitList.length) = false := decide_eq_false (by omega)
  unfold schedSendTiming
  rw [hlim, hs, decide_eq_true ht]
  simp only [Bool.not_false, assertThat_true, Run.ok_bind, panicIf, Bool.false_eq_true, if_false]
  cases hi : insertAfter ⟨when, pkt⟩ q.transmitList with
  | some l => exact ⟨_, rfl, insertAfter_perm _ hi⟩
  | none =>
    unfold schedSendEvent
    by_cases hw : q.waitingOnRetry = true
    · simp only [hw, if_true, hq hw]
      exact ⟨_, rfl, List.Perm.refl _⟩
    · simp only [hw, Bool.false_eq_true, if_false]
      by_cases hm : when = maxTick
      · rw [if_pos hm]
        exact ⟨_, rfl, List.Perm.refl _⟩
      · rw [if_neg hm]
        cases q.sendEvent with
        | none => exact ⟨_, rfl, List.Perm.refl _⟩
        | some w =>
          refine ⟨_, rfl, ?_⟩
          split <;> exact List.Perm.refl _

theorem schedSendTiming_full (hlen : 128 < q.transmitList.length) (q' : PacketQueue) :
    q.schedSendTiming curTick pkt when ≠ .ok q' := by
  intro h
  unfold schedSendTiming at h
  simp only [Run.bind_eq_ok, decide_eq_true hlen, panicIf, if_true] at h
  obtain ⟨_, -, _, -, _, hc, -⟩ := h
  cases hc

end PacketQueue
end Gem5
