import Gem5Cxl.BridgePorts
/-!
# MemBridge — the bridge between two memory systems (`mem/bridge.cc`)

`class Bridge` keeps a queue of requests on its memory side and one of responses on its CPU side.  A request that needs a
response reserves the space for it when it is accepted.  A request that finds no space is refused and remembered in
`retryReq`; the CPU side is told to retry when a request or a response has left.  The queues are those of `SendQueue`;
after a send the next one is scheduled at its tick or at the next clock edge, so never in the past.
-/
namespace Gem5

/-- A clock: the edge that is `cycles` cycles after the first one not before `curTick`. -/
structure Clock where
  clockEdge : Nat → Nat → Nat
  le_clockEdge : ∀ curTick cycles, curTick ≤ clockEdge curTick cycles

/-- `ClockedObject::clockEdge`, for a clock that ticks from 0. -/
def Clock.periodic (period : Nat) (h : 0 < period) : Clock where
  clockEdge curTick cycles := (curTick + period - 1) / period * period + period * cycles
  le_clockEdge curTick cycles := by
    have hdiv := Nat.div_add_mod' (curTick + period - 1) period
    have hmod := Nat.mod_lt (curTick + period - 1) h
    omega

structure MemBridge where
  clock : Clock
  /-- in cycles -/
  delay : Nat
  reqQueueLimit : Nat
  respQueueLimit : Nat
  curTick : Nat := 0
  memSide : SendQueue := {}
  cpuSide : SendQueue := {}
  outstandingResponses : Nat := 0
  retryReq : Bool := false

/-- What `trySendTiming` does after the peer took the head. -/
def SendQueue.popNext (now edge : Nat) (q : SendQueue) : Except Failure SendQueue :=
  match q.transmitList.tail with
  | [] => .ok { q with transmitList := [] }
  | d :: rest => ({ q with transmitList := d :: rest } : SendQueue).schedule now (max d.tick edge)

namespace MemBridge

def respQueueFull (b : MemBridge) : Bool := decide (b.outstandingResponses = b.respQueueLimit)

def reqQueueFull (b : MemBridge) : Bool := decide (b.memSide.transmitList.length = b.reqQueueLimit)

def sendTick (b : MemBridge) (pkt : Packet) : Nat := b.clock.clockEdge b.curTick b.delay + pkt.receiveDelay

def recvTimingReq (b : MemBridge) (pkt : Packet) : Except Failure (MemBridge × Bool) := do
  panicIf pkt.cacheResponding "Should not see packets where cache is responding"
  if b.retryReq then .ok (b, false)
  else if b.reqQueueFull then .ok ({ b with retryReq := true }, false)
  else if pkt.needsResponse && b.respQueueFull then .ok ({ b with retryReq := true }, false)
  else do
    let outstandingResponses ←
      if pkt.needsResponse then do
        assertThat (decide (b.outstandingResponses ≠ b.respQueueLimit))
        pure (b.outstandingResponses + 1)
      else pure b.outstandingResponses
    let memSide ← b.memSide.schedTimingReq b.curTick b.reqQueueLimit pkt.clearDelays (b.sendTick pkt)
    .ok ({ b with memSide := memSide, outstandingResponses := outstandingResponses }, true)

/-- `BridgeRequestPort::recvTimingResp`, which accepts every response. -/
def recvTimingResp (b : MemBridge) (pkt : Packet) : Except Failure MemBridge := do
  let cpuSide ← b.cpuSide.schedTimingResp b.curTick pkt.clearDelays (b.sendTick pkt)
  .ok { b with cpuSide := cpuSide }

/-- `retryStalledReq`: whether the CPU side was told to retry. -/
def retryStalledReq (b : MemBridge) : MemBridge × Bool :=
  if b.retryReq then ({ b with retryReq := false }, true) else (b, false)

def trySendRequest (b : MemBridge) (taken : Bool) : Except Failure (MemBridge × Bool) := do
  let _ ← b.memSide.front b.curTick
  if taken then do
    let memSide ← b.memSide.popNext b.curTick (b.clock.clockEdge b.curTick 0)
    .ok ({ b with memSide := memSide } : MemBridge).retryStalledReq
  else .ok (b, false)

def trySendResponse (b : MemBridge) (taken : Bool) : Except Failure (MemBridge × Bool) := do
  let _ ← b.cpuSide.front b.curTick
  if taken then do
    assertThat (decide (b.outstandingResponses ≠ 0))
    let cpuSide ← b.cpuSide.popNext b.curTick (b.clock.clockEdge b.curTick 0)
    let b : MemBridge := { b with cpuSide := cpuSide, outstandingResponses := b.outstandingResponses - 1 }
    .ok (if !b.reqQueueFull then b.retryStalledReq else (b, false))
  else .ok (b, false)

end MemBridge

/-! ## One queue -/
namespace SendQueue

/-- **A queue of the bridge and what went through it.**  The head waits for the send event, which comes when it is due,
or for the retry of the peer. -/
structure Waits (now : Nat) (q : SendQueue) (g : Ledger) : Prop where
  inOrder : g.accepted = g.sent ++ q.transmitList.map DeferredPacket.pkt
  idle : q.transmitList = [] → q.sendEvent = none ∧ g.owed = false
  busy : ∀ d rest, q.transmitList = d :: rest →
    (∃ t, q.sendEvent = some t ∧ d.tick ≤ t ∧ now ≤ t ∧ g.owed = false) ∨
      q.sendEvent = none ∧ d.tick ≤ now ∧ g.owed = true

theorem waits_empty (now : Nat) : Waits now {} {} where
  inOrder := rfl
  idle _ := ⟨rfl, rfl⟩
  busy d rest h := by cases h

variable {g : Ledger} {now : Nat} {q : SendQueue}

theorem Waits.advance {t : Nat} (h : q.Waits now g) (hle : now ≤ t) (hev : ∀ x, q.sendEvent = some x → t ≤ x) :
    q.Waits t g := by
  refine ⟨h.inOrder, h.idle, fun d rest hd => ?_⟩
  rcases h.busy d rest hd with ⟨x, hx, hdx, -, ho⟩ | ⟨hs, htick, ho⟩
  · exact .inl ⟨x, hx, hdx, hev x hx, ho⟩
  · exact .inr ⟨hs, Nat.le_trans htick hle, ho⟩

theorem Waits.schedTimingResp {when : Nat} (h : q.Waits now g) (hle : now ≤ when) (pkt : Packet) :
    ∃ q', q.schedTimingResp now pkt when = .ok q' ∧ q'.Waits now (g.accept pkt) ∧
      q'.transmitList = q.transmitList ++ [⟨when, pkt⟩] := by
  by_cases hq : q.transmitList = []
  · have hwake : q.wake now when = .ok { q with sendEvent := some when } :=
      (wake_eq_ok fun hq => (h.idle hq).1).2 (.inl ⟨hq, hle, rfl⟩)
    refine ⟨_, by rw [SendQueue.schedTimingResp, hwake]; rfl, ⟨?_, fun hnil => ?_, fun d rest hd => ?_⟩, rfl⟩
    · simp [Ledger.accept, emplaceBack, h.inOrder, hq]
    · simp [emplaceBack] at hnil
    · simp only [emplaceBack, hq, List.nil_append, List.cons.injEq] at hd
      obtain ⟨rfl, -⟩ := hd
      exact .inl ⟨when, rfl, Nat.le_refl _, hle, (h.idle hq).2⟩
  · have hwake : q.wake now when = .ok q := (wake_eq_ok fun hq => (h.idle hq).1).2 (.inr ⟨hq, rfl⟩)
    refine ⟨_, by rw [SendQueue.schedTimingResp, hwake]; rfl, ⟨?_, fun hnil => ?_, fun d rest hd => ?_⟩, rfl⟩
    · simp [Ledger.accept, emplaceBack, h.inOrder]
    · simp [emplaceBack] at hnil
    · -- the head is the one that was there
      obtain ⟨e, t, het⟩ := List.exists_cons_of_ne_nil hq
      simp only [emplaceBack, het, List.cons_append, List.cons.injEq] at hd
      obtain ⟨rfl, -⟩ := hd
      exact h.busy e t het

theorem Waits.due_of_event (h : q.Waits now g) (he : q.sendEvent = some now) :
    ({ q with sendEvent := none } : SendQueue).Due now := by
  cases hq : q.transmitList with
  | nil =>
    rw [(h.idle hq).1] at he
    cases he
  | cons d rest =>
    rcases h.busy d rest hq with ⟨t, hs, hdt, -, -⟩ | ⟨hs, -, -⟩
    · rw [hs] at he
      obtain rfl := Option.some.inj he
      exact ⟨d, rest, rfl, hdt, rfl⟩
    · rw [hs] at he
      cases he

theorem Waits.due_of_owed (h : q.Waits now g) (ho : g.owed = true) : q.Due now := by
  cases hq : q.transmitList with
  | nil =>
    rw [(h.idle hq).2] at ho
    cases ho
  | cons d rest =>
    rcases h.busy d rest hq with ⟨t, -, -, -, ho'⟩ | ⟨hs, htick, -⟩
    · rw [ho'] at ho
      cases ho
    · exact ⟨d, rest, hq, htick, hs⟩

theorem Due.popNext {edge : Nat} {d : DeferredPacket} {rest : List DeferredPacket} (h : q.Due now)
    (hedge : now ≤ edge) (hq : q.transmitList = d :: rest)
    (hin : g.accepted = g.sent ++ q.transmitList.map DeferredPacket.pkt) :
    ∃ q', q.popNext now edge = .ok q' ∧ q'.Waits now (g.offer d.pkt true) ∧ q'.transmitList = rest := by
  obtain ⟨-, -, -, -, hev⟩ := h
  have hin' : (g.offer d.pkt true).accepted = (g.offer d.pkt true).sent ++ rest.map DeferredPacket.pkt := by
    simp [Ledger.offer, hin, hq]
  unfold SendQueue.popNext
  rw [hq, List.tail_cons]
  cases rest with
  | nil => exact ⟨_, rfl, ⟨hin', fun _ => ⟨hev, rfl⟩, fun e t he => (by cases he)⟩, rfl⟩
  | cons e t =>
    refine ⟨_, schedule_eq_ok.2 ⟨Nat.le_trans hedge (Nat.le_max_right _ _), hev, rfl⟩, ⟨hin', fun hnil => (by cases hnil),
      fun e' t' he' => ?_⟩, rfl⟩
    obtain ⟨rfl, -⟩ := List.cons.inj he'
    exact .inl ⟨_, rfl, Nat.le_max_left _ _, Nat.le_trans hedge (Nat.le_max_right _ _), rfl⟩

theorem Due.refused (h : q.Due now) (pkt : Packet)
    (hin : g.accepted = g.sent ++ q.transmitList.map DeferredPacket.pkt) : q.Waits now (g.offer pkt false) := by
  obtain ⟨d, rest, hq, htick, hev⟩ := h
  refine ⟨hin, fun hnil => ?_, fun e t he => .inr ⟨hev, ?_, rfl⟩⟩
  · rw [hnil] at hq
    cases hq
  · obtain ⟨rfl, -⟩ := List.cons.inj (hq.symm.trans he)
    exact htick

end SendQueue

end Gem5
