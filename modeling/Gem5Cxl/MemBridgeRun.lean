import Gem5Cxl.MemBridge
/-!
# MemBridgeRun — flow control of the bridge, over every interleaving

The bridge with what was accepted and sent on each side.  `stalled` is the CPU side's view: a request was refused, and no
retry came since.  The memory side answers each forwarded request that needs a response at most once, and a peer that
refused a packet retries it.
-/
namespace Gem5
namespace MemBridge

structure World where
  bridge : MemBridge
  reqs : Ledger := {}
  resps : Ledger := {}
  stalled : Bool := false

inductive Event where
  | advance (tick : Nat)
  | recvTimingReq (pkt : Packet)
  | recvTimingResp (pkt : Packet)
  | requestEvent (taken : Bool)
  | responseEvent (taken : Bool)
  | recvReqRetry (taken : Bool)
  | recvRespRetry (taken : Bool)

def responsesDue (pkts : List Packet) : Nat := pkts.countP Packet.needsResponse

namespace World

def sentRequest (w : World) (b : MemBridge) (taken : Bool) : Except Failure World := do
  let d ← b.memSide.front b.curTick
  let (b', told) ← b.trySendRequest taken
  .ok { w with bridge := b', reqs := w.reqs.offer d.pkt taken, stalled := w.stalled && !told }

def sentResponse (w : World) (b : MemBridge) (taken : Bool) : Except Failure World := do
  let d ← b.cpuSide.front b.curTick
  let (b', told) ← b.trySendResponse taken
  .ok { w with bridge := b', resps := w.resps.offer d.pkt taken, stalled := w.stalled && !told }

def step (w : World) : Event → Except Failure World
  | .advance tick => .ok { w with bridge := { w.bridge with curTick := tick } }
  | .recvTimingReq pkt => do
    let (b, accepted) ← w.bridge.recvTimingReq pkt
    .ok { w with
      bridge := b
      reqs := if accepted then w.reqs.accept pkt.clearDelays else w.reqs
      stalled := w.stalled || !accepted }
  | .recvTimingResp pkt => do
    let b ← w.bridge.recvTimingResp pkt
    .ok { w with bridge := b, resps := w.resps.accept pkt.clearDelays }
  | .requestEvent taken =>
    w.sentRequest { w.bridge with memSide := { w.bridge.memSide with sendEvent := none } } taken
  | .responseEvent taken =>
    w.sentResponse { w.bridge with cpuSide := { w.bridge.cpuSide with sendEvent := none } } taken
  | .recvReqRetry taken => w.sentRequest w.bridge taken
  | .recvRespRetry taken => w.sentResponse w.bridge taken

def Enabled (w : World) : Event → Prop
  | .advance tick => w.bridge.curTick ≤ tick ∧ (∀ t, w.bridge.memSide.sendEvent = some t → tick ≤ t) ∧
      ∀ t, w.bridge.cpuSide.sendEvent = some t → tick ≤ t
  | .recvTimingReq pkt => pkt.cacheResponding = false
  | .recvTimingResp _ => w.resps.accepted.length < responsesDue w.reqs.sent
  | .requestEvent _ => w.bridge.memSide.sendEvent = some w.bridge.curTick
  | .responseEvent _ => w.bridge.cpuSide.sendEvent = some w.bridge.curTick
  | .recvReqRetry _ => w.reqs.owed = true
  | .recvRespRetry _ => w.resps.owed = true

end World

inductive Reach (clock : Clock) (delay reqQueueLimit respQueueLimit : Nat) : World → Prop
  | init (curTick : Nat) : Reach clock delay reqQueueLimit respQueueLimit
      { bridge := { clock := clock, delay := delay, reqQueueLimit := reqQueueLimit, respQueueLimit := respQueueLimit,
                    curTick := curTick } }
  | step {w w' : World} (e : Event) (h : Reach clock delay reqQueueLimit respQueueLimit w) (enabled : w.Enabled e)
      (hs : w.step e = .ok w') : Reach clock delay reqQueueLimit respQueueLimit w'

/-! ## The invariant -/

structure Inv (reqQueueLimit respQueueLimit : Nat) (w : World) : Prop where
  reqLimit : w.bridge.reqQueueLimit = reqQueueLimit
  respLimit : w.bridge.respQueueLimit = respQueueLimit
  reqs : w.bridge.memSide.Waits w.bridge.curTick w.reqs
  resps : w.bridge.cpuSide.Waits w.bridge.curTick w.resps
  reqLen : w.bridge.memSide.transmitList.length ≤ reqQueueLimit
  outstanding_le : w.bridge.outstandingResponses ≤ respQueueLimit
  outstanding : w.bridge.outstandingResponses + w.resps.sent.length = responsesDue w.reqs.accepted
  answered : w.resps.accepted.length ≤ responsesDue w.reqs.sent
  wakeup : w.bridge.retryReq = true → w.bridge.memSide.transmitList ≠ [] ∨ 0 < w.bridge.outstandingResponses
  stalled : w.stalled = w.bridge.retryReq

theorem responsesDue_append (l l' : List Packet) : responsesDue (l ++ l') = responsesDue l + responsesDue l' :=
  List.countP_append

theorem responsesDue_singleton (pkt : Packet) : responsesDue [pkt] = if pkt.needsResponse then 1 else 0 :=
  List.countP_singleton

section Steps

variable {reqQueueLimit respQueueLimit : Nat} {w : World}

section

variable (h : Inv reqQueueLimit respQueueLimit w)
include h

theorem Inv.reserved : w.bridge.cpuSide.transmitList.length ≤ w.bridge.outstandingResponses := by
  have hsent : responsesDue w.reqs.sent ≤ responsesDue w.reqs.accepted := by
    rw [h.reqs.inOrder, responsesDue_append]
    exact Nat.le_add_right _ _
  have hresp := congrArg List.length h.resps.inOrder
  rw [List.length_append, List.length_map] at hresp
  have := h.outstanding
  have := h.answered
  omega

theorem Inv.recvTimingReq (hreq : 0 < reqQueueLimit) (hresp : 0 < respQueueLimit)
    {pkt : Packet} (hc : pkt.cacheResponding = false) :
    ∃ w', w.step (.recvTimingReq pkt) = .ok w' ∧ Inv reqQueueLimit respQueueLimit w' := by
  have hrefuse : ∀ b : MemBridge, b = { w.bridge with retryReq := true } →
      (b.memSide.transmitList ≠ [] ∨ 0 < b.outstandingResponses) →
      Inv reqQueueLimit respQueueLimit { w with bridge := b, stalled := w.stalled || !false } := by
    rintro b rfl hwake
    exact { h with wakeup := fun _ => hwake, stalled := Bool.or_true _ }
  unfold World.step MemBridge.recvTimingReq
  simp only [hc, panicIf, Bool.false_eq_true, if_false, Run.ok_bind]
  by_cases hstall : w.bridge.retryReq = true
  · rw [if_pos hstall]
    refine ⟨_, rfl, hrefuse w.bridge ?_ (h.wakeup hstall)⟩
    rw [← hstall]
  rw [if_neg hstall]
  by_cases hfull : w.bridge.reqQueueFull = true
  · rw [if_pos hfull]
    refine ⟨_, rfl, hrefuse _ rfl (.inl fun hnil => ?_)⟩
    rw [reqQueueFull, decide_eq_true_eq, h.reqLimit, show w.bridge.memSide.transmitList = [] from hnil] at hfull
    exact absurd hfull (Nat.ne_of_lt hreq)
  rw [if_neg hfull]
  by_cases hspace : (pkt.needsResponse && w.bridge.respQueueFull) = true
  · rw [if_pos hspace]
    refine ⟨_, rfl, hrefuse _ rfl (.inr ?_)⟩
    have hout := (Bool.and_eq_true _ _ ▸ hspace).2
    rw [respQueueFull, decide_eq_true_eq, h.respLimit] at hout
    exact hout ▸ hresp
  rw [if_neg hspace]
  rw [reqQueueFull, decide_eq_true_eq, h.reqLimit] at hfull
  have hlen : w.bridge.memSide.transmitList.length ≠ w.bridge.reqQueueLimit := by rw [h.reqLimit]; exact hfull
  have hle : w.bridge.curTick ≤ w.bridge.sendTick pkt :=
    Nat.le_trans (w.bridge.clock.le_clockEdge _ _) (Nat.le_add_right _ _)
  obtain ⟨q, hq, hwaits, hlist⟩ := h.reqs.schedTimingResp hle pkt.clearDelays
  rw [← SendQueue.schedTimingReq_eq _ _ hlen] at hq
  have hneeds : pkt.clearDelays.needsResponse = pkt.needsResponse := rfl
  -- the new state, with the space that was reserved
  have hinv : ∀ out, out = w.bridge.outstandingResponses + (if pkt.needsResponse then 1 else 0) → out ≤ respQueueLimit →
      Inv reqQueueLimit respQueueLimit { w with
        bridge := { w.bridge with memSide := q, outstandingResponses := out }
        reqs := w.reqs.accept pkt.clearDelays
        stalled := w.stalled || !true } := by
    intro out hout hle'
    refine { h with
      reqs := hwaits, reqLen := ?_, outstanding_le := hle', outstanding := ?_, wakeup := fun hr => absurd hr hstall
      stalled := ?_ }
    · have := h.reqLen
      rw [hlist, List.length_append, List.length_singleton]
      omega
    · have := h.outstanding
      simp only [Ledger.accept, responsesDue_append, responsesDue_singleton, hneeds, hout]
      omega
    · rw [Bool.not_true, Bool.or_false]
      exact h.stalled
  rw [hq]
  by_cases hn : pkt.needsResponse = true
  · have hroom : w.bridge.outstandingResponses ≠ w.bridge.respQueueLimit := fun heq =>
      hspace (by rw [hn, respQueueFull, heq, decide_eq_true rfl]; rfl)
    rw [if_pos hn, decide_eq_true hroom]
    refine ⟨_, rfl, hinv _ (by rw [if_pos hn]) ?_⟩
    have := h.outstanding_le
    rw [h.respLimit] at hroom
    omega
  · rw [if_neg hn]
    exact ⟨_, rfl, hinv _ (by rw [if_neg hn]; rfl) h.outstanding_le⟩

theorem Inv.recvTimingResp {pkt : Packet}
    (hdue : w.resps.accepted.length < responsesDue w.reqs.sent) :
    ∃ w', w.step (.recvTimingResp pkt) = .ok w' ∧ Inv reqQueueLimit respQueueLimit w' := by
  have hle : w.bridge.curTick ≤ w.bridge.sendTick pkt :=
    Nat.le_trans (w.bridge.clock.le_clockEdge _ _) (Nat.le_add_right _ _)
  obtain ⟨q, hq, hwaits, hlist⟩ := h.resps.schedTimingResp hle pkt.clearDelays
  simp only [World.step, MemBridge.recvTimingResp, hq, Run.ok_bind]
  refine ⟨_, rfl, { h with resps := hwaits, answered := ?_ }⟩
  simp only [Ledger.accept, List.length_append, List.length_singleton]
  omega

end

theorem retryStalledReq_eq (b : MemBridge) : b.retryStalledReq = ({ b with retryReq := false }, b.retryReq) := by
  obtain ⟨clock, delay, reqQueueLimit, respQueueLimit, curTick, memSide, cpuSide, outstandingResponses, retryReq⟩ := b
  cases retryReq <;> rfl

section

variable (h : Inv reqQueueLimit respQueueLimit w)
include h

theorem Inv.sentRequest {q : SendQueue} (hdue : q.Due w.bridge.curTick)
    (hq : q.transmitList = w.bridge.memSide.transmitList) (taken : Bool) :
    ∃ w', w.sentRequest { w.bridge with memSide := q } taken = .ok w' ∧ Inv reqQueueLimit respQueueLimit w' := by
  obtain ⟨d, rest, hlist, hfront⟩ := hdue.front
  have hin : w.reqs.accepted = w.reqs.sent ++ q.transmitList.map DeferredPacket.pkt := by
    rw [hq]
    exact h.reqs.inOrder
  have hlen : q.transmitList.length ≤ reqQueueLimit := by
    rw [hq]
    exact h.reqLen
  unfold World.sentRequest trySendRequest
  simp only [hfront, Run.ok_bind]
  cases taken with
  | true =>
    obtain ⟨q', hpop, hwaits, hrest⟩ := hdue.popNext (w.bridge.clock.le_clockEdge w.bridge.curTick 0) hlist hin
    rw [hlist, List.length_cons] at hlen
    simp only [if_true, hpop, Run.ok_bind, retryStalledReq_eq]
    refine ⟨_, rfl, { h with
      reqs := hwaits, reqLen := ?_, answered := ?_, wakeup := fun hr => (by cases hr), stalled := ?_ }⟩
    · rw [hrest]
      omega
    · have := h.answered
      simp only [Ledger.offer, if_true, responsesDue_append]
      omega
    · simp only [h.stalled, Bool.and_not_self]
  | false =>
    refine ⟨_, rfl, { h with
      reqs := hdue.refused d.pkt hin, reqLen := hlen, wakeup := fun hr => ?_, stalled := ?_ }⟩
    · rcases h.wakeup hr with hne | hpos
      · exact .inl (by rw [show q.transmitList = _ from hq]; exact hne)
      · exact .inr hpos
    · rw [Bool.not_false, Bool.and_true]
      exact h.stalled

theorem Inv.sentResponse (hreq : 0 < reqQueueLimit) {q : SendQueue}
    (hdue : q.Due w.bridge.curTick) (hq : q.transmitList = w.bridge.cpuSide.transmitList) (taken : Bool) :
    ∃ w', w.sentResponse { w.bridge with cpuSide := q } taken = .ok w' ∧ Inv reqQueueLimit respQueueLimit w' := by
  obtain ⟨d, rest, hlist, hfront⟩ := hdue.front
  have hin : w.resps.accepted = w.resps.sent ++ q.transmitList.map DeferredPacket.pkt := by
    rw [hq]
    exact h.resps.inOrder
  unfold World.sentResponse trySendResponse
  simp only [hfront, Run.ok_bind]
  cases taken with
  | true =>
    obtain ⟨q', hpop, hwaits, -⟩ := hdue.popNext (w.bridge.clock.le_clockEdge w.bridge.curTick 0) hlist hin
    have hpos : 0 < w.bridge.outstandingResponses := by
      have hres := h.reserved
      rw [← hq, hlist, List.length_cons] at hres
      omega
    have hcount : w.bridge.outstandingResponses - 1 + (w.resps.offer d.pkt true).sent.length =
        responsesDue w.reqs.accepted := by
      have := h.outstanding
      simp only [Ledger.offer, if_true, List.length_append, List.length_singleton]
      omega
    have hle : w.bridge.outstandingResponses - 1 ≤ respQueueLimit := Nat.le_trans (Nat.sub_le _ _) h.outstanding_le
    simp only [if_true, decide_eq_true (Nat.ne_of_gt hpos), assertThat_true, Run.ok_bind, hpop, retryStalledReq_eq,
      reqQueueFull]
    by_cases hfull : w.bridge.memSide.transmitList.length = w.bridge.reqQueueLimit
    · -- a full request queue is not empty
      simp only [hfull, decide_true, Bool.not_true, Bool.false_eq_true, if_false]
      refine ⟨_, rfl, { h with
        resps := hwaits, outstanding_le := hle, outstanding := hcount, wakeup := fun _ => .inl fun hnil => ?_
        stalled := ?_ }⟩
      · rw [show w.bridge.memSide.transmitList = [] from hnil, h.reqLimit] at hfull
        exact absurd hfull (Nat.ne_of_lt hreq)
      · rw [Bool.not_false, Bool.and_true]
        exact h.stalled
    · simp only [hfull, decide_false, Bool.not_false, if_true]
      refine ⟨_, rfl, { h with
        resps := hwaits, outstanding_le := hle, outstanding := hcount, wakeup := fun hr => (by cases hr), stalled := ?_ }⟩
      simp only [h.stalled, Bool.and_not_self]
  | false =>
    refine ⟨_, rfl, { h with resps := hdue.refused d.pkt hin, stalled := ?_ }⟩
    rw [Bool.not_false, Bool.and_true]
    exact h.stalled

theorem Inv.step (hreq : 0 < reqQueueLimit) (hresp : 0 < respQueueLimit)
    {e : Event} (he : w.Enabled e) : ∃ w', w.step e = .ok w' ∧ Inv reqQueueLimit respQueueLimit w' := by
  cases e with
  | advance tick =>
    obtain ⟨hle, hmem, hcpu⟩ := he
    exact ⟨_, rfl, { h with reqs := h.reqs.advance hle hmem, resps := h.resps.advance hle hcpu }⟩
  | recvTimingReq pkt => exact h.recvTimingReq hreq hresp he
  | recvTimingResp pkt => exact h.recvTimingResp he
  | requestEvent taken => exact h.sentRequest (h.reqs.due_of_event he) rfl taken
  | responseEvent taken => exact h.sentResponse hreq (h.resps.due_of_event he) rfl taken
  | recvReqRetry taken => exact h.sentRequest (h.reqs.due_of_owed he) rfl taken
  | recvRespRetry taken => exact h.sentResponse hreq (h.resps.due_of_owed he) rfl taken

end

end Steps

theorem Reach.inv {clock : Clock} {delay reqQueueLimit respQueueLimit : Nat} {w : World}
    (h : Reach clock delay reqQueueLimit respQueueLimit w) (hreq : 0 < reqQueueLimit) (hresp : 0 < respQueueLimit) :
    Inv reqQueueLimit respQueueLimit w := by
  induction h with
  | init curTick =>
    exact ⟨rfl, rfl, SendQueue.waits_empty _, SendQueue.waits_empty _, Nat.zero_le _, Nat.zero_le _, rfl, Nat.le_refl _,
      fun h => (by cases h), rfl⟩
  | step e _ enabled hs ih =>
    obtain ⟨w', hw', hinv⟩ := ih.step hreq hresp enabled
    obtain rfl := Except.ok.inj (hw'.symm.trans hs)
    exact hinv

/-- **Flow control.**  The outstanding responses are those of the accepted requests that need one, without those handed
upstream, and both limits hold.  Requests and responses are forwarded once and in order.  No assertion fails.  While a
stalled request is remembered, a request or a response is still to leave, and the CPU side is told to retry when it
does. -/
theorem flow_control {clock : Clock} {delay reqQueueLimit respQueueLimit : Nat} {w : World} (hreq : 0 < reqQueueLimit)
    (hresp : 0 < respQueueLimit) (h : Reach clock delay reqQueueLimit respQueueLimit w) :
    w.bridge.outstandingResponses + w.resps.sent.length = responsesDue w.reqs.accepted ∧
      w.bridge.outstandingResponses ≤ respQueueLimit ∧
      w.bridge.memSide.transmitList.length ≤ reqQueueLimit ∧
      w.reqs.accepted = w.reqs.sent ++ w.bridge.memSide.transmitList.map DeferredPacket.pkt ∧
      w.resps.accepted = w.resps.sent ++ w.bridge.cpuSide.transmitList.map DeferredPacket.pkt ∧
      (∀ e, w.Enabled e → ∃ w', w.step e = .ok w') ∧
      (w.bridge.retryReq = true → w.bridge.memSide.transmitList ≠ [] ∨ 0 < w.bridge.outstandingResponses) ∧
      w.stalled = w.bridge.retryReq := by
  have hinv := h.inv hreq hresp
  refine ⟨hinv.outstanding, hinv.outstanding_le, hinv.reqLen, hinv.reqs.inOrder, hinv.resps.inOrder, fun e he => ?_,
    hinv.wakeup, hinv.stalled⟩
  obtain ⟨w', hw', -⟩ := hinv.step hreq hresp he
  exact ⟨w', hw'⟩

theorem flow_control_read :
    ∃ w, Reach (Clock.periodic 1 (by decide)) 2 1 1 w ∧ w.reqs.sent.length = 1 ∧ w.bridge.outstandingResponses = 1 ∧
      w.bridge.outstandingResponses + w.resps.sent.length = responsesDue w.reqs.accepted := by
  have h₀ : Reach (Clock.periodic 1 (by decide)) 2 1 1 _ := .init 0
  have h₁ := h₀.step (.recvTimingReq { cmd := .readReq, req := { paddr := 0 }, addr := 0, size := 4 }) rfl rfl
  have h₂ := h₁.step (.advance 2) ⟨by decide, fun t ht => Nat.le_of_eq (Option.some.inj ht), fun t ht => (by cases ht)⟩ rfl
  have h₃ := h₂.step (.requestEvent true) rfl rfl
  exact ⟨_, h₃, rfl, rfl, (flow_control (by decide) (by decide) h₃).1⟩

/-- Without room for requests, a stalled request is remembered by an empty bridge. -/
theorem stalled_for_ever :
    ∃ w, Reach (Clock.periodic 1 (by decide)) 2 0 1 w ∧ w.bridge.retryReq = true ∧
      w.bridge.memSide.transmitList = [] ∧ w.bridge.outstandingResponses = 0 := by
  have h₀ : Reach (Clock.periodic 1 (by decide)) 2 0 1 _ := .init 0
  have h₁ := h₀.step (.recvTimingReq { cmd := .readReq, req := { paddr := 0 }, addr := 0, size := 4 }) rfl rfl
  exact ⟨_, h₁, rfl, rfl, rfl⟩

end MemBridge

end Gem5
