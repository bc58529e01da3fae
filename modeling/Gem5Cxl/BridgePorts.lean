import Gem5Cxl.BridgeRouting
import Gem5Cxl.SendQueue
/-!
# BridgePorts — the timing ports of the bridge (`dev/PciBridge2.cc`)

Four response ports take requests and four request ports forward them; responses come back the other way.  A request is
stamped with the bus number of the port it arrived on, and its response is routed by that number.  What the peer answers
to `sendTimingReq` and `sendTimingResp` is an argument, and the retry the bridge sends to a peer is the clearing of
`retryReq`.
-/
namespace Gem5

inductive Line where
  | req (q : PortId)
  | resp (p : PortId)
deriving DecidableEq, Repr

structure BridgePorts where
  bridge : PciBridge2
  curTick : Nat := 0
  queue : Line → SendQueue := fun _ => {}
  outstandingResponses : PortId → Nat := fun _ => 0
  retryReq : PortId → Bool := fun _ => false

def Packet.receiveDelay (pkt : Packet) : Nat := (pkt.headerDelay + pkt.payloadDelay).toNat

def Packet.clearDelays (pkt : Packet) : Packet := { pkt with headerDelay := 0, payloadDelay := 0 }

namespace BridgePorts

def setQueue (s : BridgePorts) (l : Line) (q : SendQueue) : BridgePorts :=
  { s with queue := Function.update s.queue l q }

def reqQueueFull (s : BridgePorts) (q : PortId) : Bool :=
  decide ((s.queue (.req q)).transmitList.length = s.bridge.params.reqSize)

def respQueueFull (s : BridgePorts) (p : PortId) : Bool :=
  decide (s.outstandingResponses p = s.bridge.params.respSize)

def reserve (s : BridgePorts) (p : PortId) (pkt : Packet) : Except Failure BridgePorts :=
  if pkt.needsResponse then
    assertThat (decide (s.outstandingResponses p ≠ s.bridge.params.respSize)) >>= fun _ =>
      pure { s with outstandingResponses := Function.update s.outstandingResponses p (s.outstandingResponses p + 1) }
  else pure s

/-- `schedTimingReq` of the port the address decodes to.  The send time handed over is relative to nothing: the delay of
the bridge and that of the packet. -/
def forward (s : BridgePorts) (pkt : Packet) : Except Failure BridgePorts := do
  let l := Line.req (s.bridge.getRequestPort pkt.addr)
  let q ← (s.queue l).schedTimingReq s.curTick s.bridge.params.reqSize pkt.clearDelays
    (s.bridge.params.delay + pkt.receiveDelay)
  pure (s.setQueue l q)

/-- `PciBridgeResponsePort::recvTimingReq`: the new state, the packet as it was left, and whether it was accepted. -/
def recvTimingReq (s : BridgePorts) (p : PortId) (pkt : Packet) : Except Failure (BridgePorts × Packet × Bool) :=
  let pkt := s.bridge.stamp p pkt
  let stalled := { s with retryReq := Function.update s.retryReq p true }
  panicIf pkt.cacheResponding "Should not see packets where cache is responding" >>= fun _ =>
  if s.retryReq p then .ok (s, pkt, false)
  else if s.reqQueueFull (s.bridge.getRequestPort pkt.addr) then .ok (stalled, pkt, false)
  else if pkt.needsResponse && s.respQueueFull p then .ok (stalled, pkt, false)
  else s.reserve p pkt >>= fun s => s.forward pkt >>= fun s => .ok (s, pkt.clearDelays, true)

/-- `PciBridgeRequestPort::recvTimingResp`, which accepts every response. -/
def recvTimingResp (s : BridgePorts) (pkt : Packet) : Except Failure BridgePorts := do
  let l := Line.resp (s.bridge.responsePortOf pkt)
  let q ← (s.queue l).schedTimingResp s.curTick pkt.clearDelays (s.bridge.params.delay + pkt.receiveDelay)
  pure (s.setQueue l q)

/-- After a request was sent: the next one is scheduled, and every stalled response port sends its retry. -/
def requestSent (s : BridgePorts) (q : PortId) : Except Failure BridgePorts := do
  let queue ← (s.queue (.req q)).popFront s.curTick
  pure { s.setQueue (.req q) queue with retryReq := fun _ => false }

/-- After a response was sent: its space is free, the next one is scheduled, and the port sends its retry. -/
def responseSent (s : BridgePorts) (p : PortId) : Except Failure BridgePorts := do
  assertThat (decide (s.outstandingResponses p ≠ 0))
  let queue ← (s.queue (.resp p)).popFront s.curTick
  pure { s.setQueue (.resp p) queue with
    outstandingResponses := Function.update s.outstandingResponses p (s.outstandingResponses p - 1)
    retryReq := Function.update s.retryReq p false }

def trySendTiming (s : BridgePorts) (l : Line) (taken : Bool) : Except Failure BridgePorts :=
  (s.queue l).front s.curTick >>= fun _ =>
  if taken then
    match l with
    | .req q => s.requestSent q
    | .resp p => s.responseSent p
  else .ok s

/-- The send event of a queue fires: it is no longer scheduled, and calls `trySendTiming`. -/
def processSendEvent (s : BridgePorts) (l : Line) (taken : Bool) : Except Failure BridgePorts :=
  (s.setQueue l { s.queue l with sendEvent := none }).trySendTiming l taken

/-! ## What a port call does -/

section

variable (b : PciBridge2) (p : PortId) (pkt : Packet)

@[simp] theorem stamp_addr : (b.stamp p pkt).addr = pkt.addr := by
  unfold PciBridge2.stamp
  split <;> rfl

@[simp] theorem stamp_needsResponse : (b.stamp p pkt).needsResponse = pkt.needsResponse := by
  unfold PciBridge2.stamp
  split <;> rfl

@[simp] theorem stamp_cacheResponding : (b.stamp p pkt).cacheResponding = pkt.cacheResponding := by
  unfold PciBridge2.stamp
  split <;> rfl

@[simp] theorem stamp_receiveDelay : (b.stamp p pkt).receiveDelay = pkt.receiveDelay := by
  unfold PciBridge2.stamp
  split <;> rfl

end

@[simp] theorem setQueue_queue_self (s : BridgePorts) (l : Line) (q : SendQueue) : (s.setQueue l q).queue l = q := by
  simp [setQueue]

variable {l : Line} {p : PortId} {pkt : Packet} {s : BridgePorts}

theorem setQueue_queue_of_ne (s : BridgePorts) {l' : Line} (q : SendQueue) (h : l' ≠ l) :
    (s.setQueue l q).queue l' = s.queue l' := by
  simp [setQueue, h]

def accepts (s : BridgePorts) (p : PortId) (pkt : Packet) : Bool :=
  !s.retryReq p && !s.reqQueueFull (s.bridge.getRequestPort pkt.addr) && !(pkt.needsResponse && s.respQueueFull p)

def reserved (s : BridgePorts) (p : PortId) (pkt : Packet) : PortId → Nat :=
  if pkt.needsResponse then Function.update s.outstandingResponses p (s.outstandingResponses p + 1)
  else s.outstandingResponses

/-- **A request that is not accepted** changes nothing but the port's `retryReq`. -/
theorem recvTimingReq_refused (hc : pkt.cacheResponding = false) (h : s.accepts p pkt = false) :
    ∃ r, s.recvTimingReq p pkt = .ok ({ s with retryReq := r }, s.bridge.stamp p pkt, false) := by
  unfold recvTimingReq
  simp only [stamp_cacheResponding, hc, panicIf, Bool.false_eq_true, if_false, Run.ok_bind, stamp_addr,
    stamp_needsResponse]
  by_cases hr : s.retryReq p = true
  · rw [if_pos hr]
    exact ⟨s.retryReq, rfl⟩
  rw [if_neg hr]
  by_cases hf : s.reqQueueFull (s.bridge.getRequestPort pkt.addr) = true
  · rw [if_pos hf]
    exact ⟨_, rfl⟩
  rw [if_neg hf]
  have hn : (pkt.needsResponse && s.respQueueFull p) = true := by
    simp only [accepts, Bool.not_eq_true] at h hr hf
    simpa [hr, hf] using h
  rw [if_pos hn]
  exact ⟨_, rfl⟩

/-- **A request that is accepted** enters the queue of the port its address decodes to. -/
theorem recvTimingReq_accepted (hc : pkt.cacheResponding = false) (h : s.accepts p pkt = true) : s.recvTimingReq p pkt =
      ((s.queue (.req (s.bridge.getRequestPort pkt.addr))).schedTimingResp s.curTick (s.bridge.stamp p pkt).clearDelays
        (s.bridge.params.delay + pkt.receiveDelay)).map (fun q =>
          ({ s.setQueue (.req (s.bridge.getRequestPort pkt.addr)) q with outstandingResponses := s.reserved p pkt },
            (s.bridge.stamp p pkt).clearDelays, true)) := by
  simp only [accepts, Bool.and_eq_true, Bool.not_eq_true'] at h
  obtain ⟨⟨hr, hf⟩, hn⟩ := h
  have hlen : (s.queue (.req (s.bridge.getRequestPort pkt.addr))).transmitList.length ≠ s.bridge.params.reqSize :=
    of_decide_eq_false hf
  unfold recvTimingReq
  simp only [stamp_cacheResponding, hc, panicIf, Bool.false_eq_true, if_false, Run.ok_bind, stamp_addr,
    stamp_needsResponse, hr, hf, hn]
  have hres : s.reserve p (s.bridge.stamp p pkt) = .ok { s with outstandingResponses := s.reserved p pkt } := by
    unfold reserve reserved
    simp only [stamp_needsResponse]
    by_cases hneed : pkt.needsResponse = true
    · have hout : s.outstandingResponses p ≠ s.bridge.params.respSize := by
        rw [hneed, Bool.true_and] at hn
        exact of_decide_eq_false hn
      simp [hneed, assertThat, hout]
    · simp [hneed]
  rw [hres, Run.ok_bind]
  unfold forward
  simp only [stamp_addr, stamp_receiveDelay]
  rw [SendQueue.schedTimingReq_eq _ _ hlen]
  cases (s.queue (.req (s.bridge.getRequestPort pkt.addr))).schedTimingResp s.curTick (s.bridge.stamp p pkt).clearDelays
    (s.bridge.params.delay + pkt.receiveDelay) with
  | error f => rfl
  | ok q => rfl

def sent (s : BridgePorts) (l : Line) (queue : SendQueue) : BridgePorts :=
  match l with
  | .req _ => { s.setQueue l queue with retryReq := fun _ => false }
  | .resp p => { s.setQueue l queue with
      outstandingResponses := Function.update s.outstandingResponses p (s.outstandingResponses p - 1)
      retryReq := Function.update s.retryReq p false }

theorem sent_queue (s : BridgePorts) (l : Line) (q : SendQueue) :
    (s.sent l q).queue = Function.update s.queue l q := by
  cases l <;> rfl

theorem sent_curTick (s : BridgePorts) (l : Line) (q : SendQueue) : (s.sent l q).curTick = s.curTick := by
  cases l <;> rfl

/-- **`trySendTiming` on a queue whose head is due**: the peer refuses, and nothing changes; or it takes the head, and
the next packet is scheduled. -/
theorem trySendTiming_eq_ok {s' : BridgePorts} {taken : Bool} {d : DeferredPacket}
    (hfront : (s.queue l).front s.curTick = .ok d) : s.trySendTiming l taken = .ok s' ↔
      taken = false ∧ s' = s ∨
      taken = true ∧ (∀ p, l = .resp p → s.outstandingResponses p ≠ 0) ∧
        ∃ q, (s.queue l).popFront s.curTick = .ok q ∧ s' = s.sent l q := by
  unfold trySendTiming
  rw [hfront, Run.ok_bind]
  cases taken with
  | false => simp [eq_comm]
  | true =>
    cases l with
    | req p =>
      simp only [if_true, requestSent, Run.bind_eq_ok, Run.pure_eq_ok, Except.ok.injEq, sent]
      simp [eq_comm]
    | resp p =>
      simp only [if_true, responseSent, Run.bind_eq_ok, Run.pure_eq_ok, Except.ok.injEq, sent, assertThat_eq_ok,
        decide_eq_true_eq]
      simp [eq_comm]

end BridgePorts
end Gem5
