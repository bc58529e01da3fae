import Gem5Cxl.BridgePorts
/-!
# BridgeProtocol — runs of the timing ports under any interleaving

The environment calls the ports in any order.  It keeps to three rules: the packets it sends have no cache responding, a
peer sends a retry only when it owes one, and time does not pass a scheduled send event.  The bridge computes a send time
as the delay alone and not as the delay from now, so a run can schedule a send in the past, which fails an assertion.
`protocol_iff` says which runs do not.
-/
namespace Gem5

inductive PortEvent where
  | recvTimingReq (p : PortId) (pkt : Packet)
  | recvTimingResp (pkt : Packet)
  /-- the send event of a queue fires, and the peer answers -/
  | sendEvent (l : Line) (taken : Bool)
  /-- `recvReqRetry` or `recvRespRetry`, and the peer's answer -/
  | retry (l : Line) (taken : Bool)
  | advance (t : Nat)
  | writeConfig (w : PciBridge2.ConfigWrite)

structure World where
  ports : BridgePorts
  ledger : Line → Ledger := fun _ => {}

namespace World

def record (w : World) (s : BridgePorts) (l : Line) (g : Ledger) : World :=
  { ports := s, ledger := Function.update w.ledger l g }

def answered (w : World) (l : Line) (taken : Bool) : Ledger :=
  match (w.ports.queue l).transmitList with
  | [] => w.ledger l
  | d :: _ => (w.ledger l).offer d.pkt taken

def step (w : World) : PortEvent → Except Failure World
  | .recvTimingReq p pkt => (w.ports.recvTimingReq p pkt).map (fun (s, pkt', accepted) =>
      let l := Line.req (w.ports.bridge.getRequestPort pkt.addr)
      w.record s l (if accepted then (w.ledger l).accept pkt' else w.ledger l))
  | .recvTimingResp pkt => (w.ports.recvTimingResp pkt).map (fun s =>
      let l := Line.resp (w.ports.bridge.responsePortOf pkt)
      w.record s l ((w.ledger l).accept pkt.clearDelays))
  | .sendEvent l taken => (w.ports.processSendEvent l taken).map (fun s => w.record s l (w.answered l taken))
  | .retry l taken => (w.ports.trySendTiming l taken).map (fun s => w.record s l (w.answered l taken))
  | .advance t => .ok { w with ports := { w.ports with curTick := t } }
  | .writeConfig c => (w.ports.bridge.writeConfig c).map (fun b => { w with ports := { w.ports with bridge := b } })

def run : World → List PortEvent → Except Failure World
  | w, [] => .ok w
  | w, e :: es => w.step e >>= fun w' => w'.run es

def Enabled (w : World) : PortEvent → Prop
  | .recvTimingReq _ pkt => pkt.cacheResponding = false
  | .recvTimingResp _ => True
  | .sendEvent l _ => (w.ports.queue l).sendEvent = some w.ports.curTick
  | .retry l _ => (w.ledger l).owed = true
  | .advance t => w.ports.curTick ≤ t ∧ ∀ l x, (w.ports.queue l).sendEvent = some x → t ≤ x
  | .writeConfig c => ∃ b, w.ports.bridge.writeConfig c = .ok b

/-- The packet behind the head is not due in the past, and a response that leaves has its space reserved. -/
def SendTimely (w : World) (l : Line) : Prop :=
  (∀ d rest, (w.ports.queue l).transmitList.tail = d :: rest → w.ports.curTick ≤ d.tick) ∧
    ∀ p, l = .resp p → w.ports.outstandingResponses p ≠ 0

/-- **No send is scheduled in the past**: a packet that finds its queue empty comes no later than its delay after tick
zero, and so for the packet behind one that is sent. -/
def Timely (w : World) : PortEvent → Prop
  | .recvTimingReq p pkt => w.ports.accepts p pkt = true →
      (w.ports.queue (.req (w.ports.bridge.getRequestPort pkt.addr))).transmitList = [] →
      w.ports.curTick ≤ w.ports.bridge.params.delay + pkt.receiveDelay
  | .recvTimingResp pkt => (w.ports.queue (.resp (w.ports.bridge.responsePortOf pkt))).transmitList = [] →
      w.ports.curTick ≤ w.ports.bridge.params.delay + pkt.receiveDelay
  | .sendEvent l taken => taken = true → w.SendTimely l
  | .retry l taken => taken = true → w.SendTimely l
  | .advance _ => True
  | .writeConfig _ => True

def Along (P : World → PortEvent → Prop) : World → List PortEvent → Prop
  | _, [] => True
  | w, e :: es => P w e ∧ ∀ w', w.step e = .ok w' → Along P w' es

def Tracked (w : World) : Prop := ∀ l, (w.ports.queue l).Tracks w.ports.curTick (w.ledger l)

def start (b : PciBridge2) (t : Nat) : World := { ports := { bridge := b, curTick := t } }

theorem tracked_start (b : PciBridge2) (t : Nat) : (start b t).Tracked :=
  fun _ => SendQueue.tracks_empty t

variable {l : Line} {q : SendQueue} {s s' : BridgePorts} {w w' : World} {p : PortId} {pkt : Packet} {e : PortEvent}

theorem Tracked.record (h : w.Tracked) {g : Ledger} (hs : s.queue = Function.update w.ports.queue l q)
    (ht : s.curTick = w.ports.curTick) (hq : q.Tracks w.ports.curTick g) : (w.record s l g).Tracked := by
  intro l'
  simp only [World.record, hs, ht]
  by_cases hl : l' = l
  · subst hl
    simp only [Function.update_self]
    exact hq
  · simp only [Function.update_of_ne hl]
    exact h l'

/-! ## One step -/

theorem recvTimingReq_iff (h : w.Tracked) (hc : pkt.cacheResponding = false) :
    (∃ w', w.step (.recvTimingReq p pkt) = .ok w') ↔ w.Timely (.recvTimingReq p pkt) := by
  cases ha : w.ports.accepts p pkt with
  | false =>
    obtain ⟨r, hr⟩ := BridgePorts.recvTimingReq_refused hc ha
    simp [step, hr, Except.map, Timely, ha]
  | true =>
    have hiff := (h (.req (w.ports.bridge.getRequestPort pkt.addr))).schedTimingResp_iff
      (w.ports.bridge.stamp p pkt).clearDelays (w.ports.bridge.params.delay + pkt.receiveDelay)
    simp only [step, BridgePorts.recvTimingReq_accepted hc ha, Timely, ha, forall_const, ← hiff, Run.exists_map_eq_ok]

theorem recvTimingReq_tracked (h : w.Tracked) (hc : pkt.cacheResponding = false)
    (hs : w.step (.recvTimingReq p pkt) = .ok w') : w'.Tracked := by
  cases ha : w.ports.accepts p pkt with
  | false =>
    obtain ⟨r, hr⟩ := BridgePorts.recvTimingReq_refused hc ha
    simp only [step, hr, Except.map, Except.ok.injEq] at hs
    subst hs
    exact h.record (Function.update_eq_self _ _).symm rfl (h _)
  | true =>
    simp only [step, BridgePorts.recvTimingReq_accepted hc ha, Run.map_eq_ok] at hs
    obtain ⟨_, ⟨q, hq, rfl⟩, rfl⟩ := hs
    exact h.record rfl rfl ((h _).schedTimingResp hq)

theorem recvTimingResp_eq_ok :
    s.recvTimingResp pkt = .ok s' ↔ ∃ q, (s.queue (.resp (s.bridge.responsePortOf pkt))).schedTimingResp s.curTick
      pkt.clearDelays (s.bridge.params.delay + pkt.receiveDelay) = .ok q ∧
        s.setQueue (.resp (s.bridge.responsePortOf pkt)) q = s' := by
  simp only [BridgePorts.recvTimingResp, Run.bind_eq_ok, Run.pure_eq_ok, Except.ok.injEq]

theorem recvTimingResp_iff (h : w.Tracked) :
    (∃ w', w.step (.recvTimingResp pkt) = .ok w') ↔ w.Timely (.recvTimingResp pkt) := by
  have hiff := (h (.resp (w.ports.bridge.responsePortOf pkt))).schedTimingResp_iff pkt.clearDelays
    (w.ports.bridge.params.delay + pkt.receiveDelay)
  simp only [step, Timely, ← hiff, Run.exists_map_eq_ok, recvTimingResp_eq_ok]
  constructor
  · rintro ⟨_, q, hq, -⟩
    exact ⟨q, hq⟩
  · rintro ⟨q, hq⟩
    exact ⟨_, q, hq, rfl⟩

theorem recvTimingResp_tracked (h : w.Tracked) (hs : w.step (.recvTimingResp pkt) = .ok w') : w'.Tracked := by
  simp only [step, Run.map_eq_ok, recvTimingResp_eq_ok] at hs
  obtain ⟨_, ⟨q, hq, rfl⟩, rfl⟩ := hs
  exact h.record rfl rfl ((h _).schedTimingResp hq)

theorem trySendTiming_iff (taken : Bool) (hdue : (s.queue l).Due s.curTick) :
    (∃ s', s.trySendTiming l taken = .ok s') ↔ (taken = true →
      (∀ d rest, (s.queue l).transmitList.tail = d :: rest → s.curTick ≤ d.tick) ∧
        ∀ p, l = .resp p → s.outstandingResponses p ≠ 0) := by
  obtain ⟨_, _, -, hfront⟩ := hdue.front
  simp only [BridgePorts.trySendTiming_eq_ok hfront, ← hdue.popFront_iff]
  constructor
  · rintro ⟨_, ⟨hf, -⟩ | ⟨-, hout, q, hq, -⟩⟩ ht
    · rw [hf] at ht
      cases ht
    · exact ⟨⟨q, hq⟩, hout⟩
  · intro himp
    cases taken with
    | false => exact ⟨s, .inl ⟨rfl, rfl⟩⟩
    | true =>
      obtain ⟨⟨q, hq⟩, hout⟩ := himp rfl
      exact ⟨_, .inr ⟨rfl, hout, q, hq, rfl⟩⟩

theorem Tracked.trySendTiming (h : w.Tracked) {taken : Bool} (hs : s = w.ports.setQueue l q)
    (hq : q.transmitList = (w.ports.queue l).transmitList) (hdue : q.Due w.ports.curTick)
    (hok : s.trySendTiming l taken = .ok s') : (w.record s' l (w.answered l taken)).Tracked := by
  subst hs
  have hsq : (w.ports.setQueue l q).queue l = q := by simp
  have hin := (h l).inOrder
  rw [← hq] at hin
  obtain ⟨d, rest, hd, hfront⟩ := hdue.front
  rw [BridgePorts.trySendTiming_eq_ok (by rw [hsq]; exact hfront), hsq] at hok
  have hans : w.answered l taken = (w.ledger l).offer d.pkt taken := by simp only [answered, ← hq, hd]
  rw [hans]
  rcases hok with ⟨rfl, rfl⟩ | ⟨rfl, -, q', hq', rfl⟩
  · exact h.record rfl rfl (hdue.tracks_refused d.pkt hin)
  · refine h.record ?_ ?_ (hdue.tracks_popFront hd hin hq')
    · rw [BridgePorts.sent_queue, BridgePorts.setQueue, Function.update_idem]
    · rw [BridgePorts.sent_curTick]
      rfl

theorem step_iff (h : w.Tracked) (he : w.Enabled e) : (∃ w', w.step e = .ok w') ↔ w.Timely e := by
  cases e with
  | recvTimingReq p pkt => exact recvTimingReq_iff h he
  | recvTimingResp pkt => exact recvTimingResp_iff h
  | sendEvent l taken =>
    have hq := BridgePorts.setQueue_queue_self w.ports l { w.ports.queue l with sendEvent := none }
    have hiff := trySendTiming_iff taken (by rw [hq]; exact (h l).due_of_event he)
    rw [hq] at hiff
    simp only [step, Run.exists_map_eq_ok, BridgePorts.processSendEvent]
    exact hiff
  | retry l taken =>
    simp only [step, Run.exists_map_eq_ok]
    exact trySendTiming_iff taken ((h l).due_of_owed he)
  | advance t => simp [step, Timely]
  | writeConfig c =>
    obtain ⟨b, hb⟩ := he
    simp [step, Timely, hb, Except.map]

theorem step_tracked (h : w.Tracked) (he : w.Enabled e) (hs : w.step e = .ok w') : w'.Tracked := by
  cases e with
  | recvTimingReq p pkt => exact recvTimingReq_tracked h he hs
  | recvTimingResp pkt => exact recvTimingResp_tracked h hs
  | sendEvent l taken =>
    obtain ⟨s, hsent, rfl⟩ := Run.map_eq_ok.1 hs
    exact h.trySendTiming (q := { w.ports.queue l with sendEvent := none }) rfl rfl ((h l).due_of_event he) hsent
  | retry l taken =>
    obtain ⟨s, hsent, rfl⟩ := Run.map_eq_ok.1 hs
    refine h.trySendTiming ?_ rfl ((h l).due_of_owed he) hsent
    rw [BridgePorts.setQueue, Function.update_eq_self]
  | advance t =>
    injection hs with hs
    subst hs
    intro l
    exact (h l).advance he.1 (he.2 l)
  | writeConfig c =>
    obtain ⟨b, -, rfl⟩ := Run.map_eq_ok.1 hs
    exact h

/-! ## Every run -/

/-- What every accepted packet may expect: all that a queue accepted was sent, in order and once, but for what waits in
it; and what waits has its send event ahead, or a retry to come. -/
def InOrder (w : World) : Prop :=
  ∀ l, (w.ledger l).accepted = (w.ledger l).sent ++ (w.ports.queue l).transmitList.map DeferredPacket.pkt ∧
    ((w.ports.queue l).transmitList ≠ [] →
      (∃ t, (w.ports.queue l).sendEvent = some t ∧ w.ports.curTick ≤ t) ∨ (w.ledger l).owed = true)

theorem Tracked.inOrder (h : w.Tracked) : w.InOrder := by
  intro l
  refine ⟨(h l).inOrder, ?_⟩
  intro hne
  obtain ⟨d, rest, hd⟩ := List.exists_cons_of_ne_nil hne
  rcases (h l).busy d rest hd with ⟨hev, hle, -⟩ | ⟨-, -, ho⟩
  · exact .inl ⟨d.tick, hev, hle⟩
  · exact .inr ho

theorem run_iff : ∀ (es : List PortEvent) {w : World}, w.Tracked → Along Enabled w es →
    ((∃ w', w.run es = .ok w') ↔ Along Timely w es) ∧ ∀ w', w.run es = .ok w' → w'.Tracked
  | [], w, h, _ => by
    refine ⟨⟨fun _ => trivial, fun _ => ⟨w, rfl⟩⟩, ?_⟩
    intro w' hw
    injection hw with hw
    rw [← hw]
    exact h
  | e :: es, w, h, ⟨he, hes⟩ => by
    have hnext : ∀ w₁, w.step e = .ok w₁ → w₁.Tracked := fun w₁ h₁ => step_tracked h he h₁
    constructor
    · constructor
      · rintro ⟨w', hw⟩
        obtain ⟨w₁, h₁, h₂⟩ := Run.bind_eq_ok.1 hw
        refine ⟨(step_iff h he).1 ⟨w₁, h₁⟩, ?_⟩
        intro w₂ h₂'
        rw [h₁] at h₂'
        injection h₂' with h₂'
        subst h₂'
        exact (run_iff es (hnext w₁ h₁) (hes w₁ h₁)).1.1 ⟨w', h₂⟩
      · rintro ⟨ht, hts⟩
        obtain ⟨w₁, h₁⟩ := (step_iff h he).2 ht
        obtain ⟨w', h₂⟩ := (run_iff es (hnext w₁ h₁) (hes w₁ h₁)).1.2 (hts w₁ h₁)
        exact ⟨w', Run.bind_eq_ok.2 ⟨w₁, h₁, h₂⟩⟩
    · intro w' hw
      obtain ⟨w₁, h₁, h₂⟩ := Run.bind_eq_ok.1 hw
      exact (run_iff es (hnext w₁ h₁) (hes w₁ h₁)).2 w' h₂

/-- **The port protocol**: a run in which the surroundings keep to their rules fails no assertion and keeps every queue in
order exactly when no send is scheduled in the past. -/
theorem protocol_iff (b : PciBridge2) (t : Nat) (es : List PortEvent) (h : Along Enabled (start b t) es) :
    (∃ w, (start b t).run es = .ok w ∧ w.InOrder) ↔ Along Timely (start b t) es := by
  obtain ⟨hiff, hinv⟩ := run_iff es (tracked_start b t) h
  rw [← hiff]
  constructor
  · rintro ⟨w, hw, -⟩
    exact ⟨w, hw⟩
  · rintro ⟨w, hw⟩
    exact ⟨w, hw, (hinv w hw).inOrder⟩

theorem along_cons {P : World → PortEvent → Prop} {es : List PortEvent} (hp : P w e) (hs : w.step e = .ok w')
    (h : Along P w' es) : Along P w (e :: es) := by
  refine ⟨hp, ?_⟩
  intro w₁ h₁
  rw [hs] at h₁
  injection h₁ with h₁
  rw [← h₁]
  exact h

def sampleRead : Packet := { cmd := .readReq, req := { paddr := 0 }, addr := 0, size := 4 }

/-- With a delay of 50, a read that arrives at tick 0 is forwarded, and its response delivered, at tick 50. -/
theorem protocol_iff_read :
    ∃ w, (start (PciBridge2.create { delay := 50 }) 0).run [.recvTimingReq 0 sampleRead, .advance 50,
      .sendEvent (.req 0) true, .recvTimingResp sampleRead.response, .sendEvent (.resp 0) true] = .ok w ∧ w.InOrder := by
  apply (protocol_iff _ _ _ ?_).2
  · refine along_cons (fun _ _ => by decide) rfl (along_cons trivial rfl (along_cons ?_ rfl
      (along_cons (fun _ => by decide) rfl (along_cons ?_ rfl trivial))))
    · rintro -
      refine ⟨?_, ?_⟩
      · rintro d rest hd
        cases hd
      · rintro p hp
        cases hp
    · rintro -
      refine ⟨?_, ?_⟩
      · rintro d rest hd
        cases hd
      · rintro p hp
        cases hp
        decide
  · refine along_cons rfl rfl (along_cons ⟨by decide, ?_⟩ rfl (along_cons rfl rfl (along_cons trivial rfl
      (along_cons rfl rfl trivial))))
    -- the one send event is that of the request
    rintro (q | p) x hx
    · match q, hx with
      | 0, hx =>
        injection hx with hx
        rw [← hx]
        decide
    · cases hx

/-- With no delay, a read that arrives at tick 1 is scheduled to leave at tick 0. -/
theorem sendTime_in_past :
    Along Enabled (start (PciBridge2.create {}) 0) [.advance 1, .recvTimingReq 0 sampleRead] ∧
      (start (PciBridge2.create {}) 0).run [.advance 1, .recvTimingReq 0 sampleRead] = .error .assertFailed := by
  constructor
  · refine along_cons ⟨by decide, ?_⟩ rfl ⟨rfl, fun _ _ => trivial⟩
    rintro l x hx
    cases hx
  · rfl

end World
end Gem5
