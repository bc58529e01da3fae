import Gem5Cxl.BridgeProtocol
/-!
# BridgeResponse — responses go back to the port that accepted the request

A request carries the bus number of the port it arrived on, and its response is routed by that number.  Over any
interleaving, a port's `outstandingResponses` counts the requests it accepted whose response has not come back, and the
responses that wait in its queue.
-/
namespace Gem5

namespace PciBridge2

def inBuses (b : PciBridge2) (i : PortId) (n : Int) : Prop :=
  ((b.storage i).storage1.secondaryBusNumber.toNat : Int) ≤ n ∧
    n ≤ ((b.storage i).storage1.subordinateBusNumber.toNat : Int)

/-- **The bus ranges of the three root ports are assigned**: written and not empty, disjoint, and without the upstream
bus. -/
structure BusesAssigned (b : PciBridge2) : Prop where
  written : ∀ i, i ≠ 0 → (b.storage i).isValid = true
  nonempty : ∀ i, i ≠ 0 → (b.storage i).storage1.secondaryBusNumber ≤ (b.storage i).storage1.subordinateBusNumber
  disjoint : ∀ i j n, i ≠ 0 → j ≠ 0 → b.inBuses i n → b.inBuses j n → i = j
  upstream : ∀ i, i ≠ 0 → ¬ b.inBuses i (b.storage 0).pciBus

def SameBuses (b b' : PciBridge2) : Prop :=
  ∀ i, (b'.storage i).storage1.secondaryBusNumber = (b.storage i).storage1.secondaryBusNumber ∧
    (b'.storage i).storage1.subordinateBusNumber = (b.storage i).storage1.subordinateBusNumber ∧
    (b'.storage i).isValid = (b.storage i).isValid

variable {b : PciBridge2} {n : Int}

theorem SameBuses.getResponsePort {b' : PciBridge2} (h : b.SameBuses b') (n : Int) :
    b'.getResponsePort n = b.getResponsePort n := by
  unfold PciBridge2.getResponsePort
  congr 1
  funext i
  rw [(h i).1, (h i).2.1, (h i).2.2]

theorem getResponsePort_of_inBuses (h : b.BusesAssigned) {i : PortId} (hi : i ≠ 0) (hn : b.inBuses i n) :
    b.getResponsePort n = i := by
  rw [PciBridge2.getResponsePort, select_eq hi]
  constructor
  · simp only [Bool.and_eq_true, decide_eq_true_eq]
    exact ⟨hn, h.written i hi⟩
  · intro j hj hlt
    by_contra hc
    simp only [Bool.not_eq_false, Bool.and_eq_true, decide_eq_true_eq] at hc
    exact ne_of_gt hlt (h.disjoint i j n hi hj hn hc.1)

theorem getResponsePort_of_outside (hn : ∀ i, i ≠ 0 → ¬ b.inBuses i n) : b.getResponsePort n = 0 := by
  rw [PciBridge2.getResponsePort, select_eq_zero]
  intro i hi
  by_contra hc
  simp only [Bool.not_eq_false, Bool.and_eq_true, decide_eq_true_eq] at hc
  exact hn i hi hc.1

theorem getResponsePort_requesterBus (h : b.BusesAssigned) (p : PortId) : b.getResponsePort (b.requesterBus p) = p := by
  unfold requesterBus
  by_cases hp : p = 0
  · rw [if_pos hp, getResponsePort_of_outside h.upstream, hp]
  · rw [if_neg hp]
    apply getResponsePort_of_inBuses h hp
    have hle := h.nonempty p hp
    rw [BitVec.le_def] at hle
    exact ⟨le_refl _, by omega⟩

/-- A request as a port may get it: it carries no bus number for this root complex, or one that decodes to the port. -/
def Arrives (b : PciBridge2) (p : PortId) (pkt : Packet) : Prop :=
  pkt.reqBus b.params.rcId = -1 ∨ b.responsePortOf pkt = p

theorem responsePortOf_stamp (h : b.BusesAssigned) {p : PortId} {pkt : Packet} (ha : b.Arrives p pkt) :
    b.responsePortOf (b.stamp p pkt) = p := by
  unfold stamp
  split
  · rw [responsePortOf]
    simp only [Function.update_self]
    exact getResponsePort_requesterBus h p
  · rename_i hne
    exact ha.resolve_left hne

end PciBridge2

namespace BridgePorts

/-- An accepted request whose response has not come back, with the port that accepted it. -/
abbrev Open := PortId × Packet

/-- **Every interleaving**: the ports, and the open requests in the order they were accepted.  A response answers one of
them, and carries the bus number that one left with.  Bus numbers are written only while no request is open. -/
inductive Reach : BridgePorts → List Open → Prop where
  | start {b : PciBridge2} (t : Nat) : b.BusesAssigned → Reach { bridge := b, curTick := t } []
  | recvTimingReq {s s' : BridgePorts} {o : List Open} {p : PortId} {pkt pkt' : Packet} {accepted : Bool} :
      Reach s o → s.bridge.Arrives p pkt → pkt.cacheResponding = false →
      s.recvTimingReq p pkt = .ok (s', pkt', accepted) →
      Reach s' (if accepted && pkt.needsResponse then o ++ [(p, pkt')] else o)
  | recvTimingResp {s s' : BridgePorts} {o₁ o₂ : List Open} {p : PortId} {r pkt : Packet} :
      Reach s (o₁ ++ (p, r) :: o₂) →
      pkt.reqBus s.bridge.params.rcId = r.reqBus s.bridge.params.rcId →
      s.recvTimingResp pkt = .ok s' → Reach s' (o₁ ++ o₂)
  | sendEvent {s s' : BridgePorts} {o : List Open} {l : Line} {taken : Bool} :
      Reach s o → (s.queue l).sendEvent = some s.curTick → s.processSendEvent l taken = .ok s' → Reach s' o
  | retry {s s' : BridgePorts} {o : List Open} {l : Line} {taken : Bool} :
      Reach s o → s.trySendTiming l taken = .ok s' → Reach s' o
  | advance {s : BridgePorts} {o : List Open} (t : Nat) : Reach s o → Reach { s with curTick := t } o
  | writeConfig {s : BridgePorts} {o : List Open} {w : PciBridge2.ConfigWrite} {b : PciBridge2} :
      Reach s o → s.bridge.writeConfig w = .ok b → b.BusesAssigned → (o = [] ∨ s.bridge.SameBuses b) →
      Reach { s with bridge := b } o

def openAt (o : List Open) (p : PortId) : Nat := o.countP (fun e => decide (e.1 = p))

/-- **The counters are sound**: every open request decodes to the port that accepted it, and a port's counter is its open
requests and its waiting responses. -/
structure Accounted (s : BridgePorts) (o : List Open) : Prop where
  buses : s.bridge.BusesAssigned
  routed : ∀ e ∈ o, s.bridge.responsePortOf e.2 = e.1
  counted : ∀ p, s.outstandingResponses p = openAt o p + (s.queue (.resp p)).transmitList.length
  bounded : ∀ p, s.outstandingResponses p ≤ s.bridge.params.respSize

theorem openAt_append (o o' : List Open) (p : PortId) : openAt (o ++ o') p = openAt o p + openAt o' p :=
  List.countP_append

theorem openAt_cons (e : Open) (o : List Open) (p : PortId) :
    openAt (e :: o) p = openAt o p + if e.1 = p then 1 else 0 := by
  unfold openAt
  rw [List.countP_cons]
  simp only [decide_eq_true_eq]

theorem openAt_nil (p : PortId) : openAt [] p = 0 := rfl

variable {now : Nat} {pkt : Packet} {q q' : SendQueue} {l : Line} {s s' : BridgePorts} {taken : Bool} {o : List Open}
  {p : PortId}

theorem schedTimingResp_length {when : Nat} (h : q.schedTimingResp now pkt when = .ok q') :
    q'.transmitList.length = q.transmitList.length + 1 := by
  obtain ⟨q₁, hw, hq⟩ := Run.bind_eq_ok.1 h
  have hq₁ := SendQueue.wake_transmitList hw
  injection hq with hq
  rw [← hq, SendQueue.emplaceBack, hq₁, List.length_append, List.length_singleton]

theorem front_eq_ok {d : DeferredPacket} (h : q.front now = .ok d) : q.transmitList = d :: q.transmitList.tail := by
  unfold SendQueue.front at h
  split at h
  · cases h
  · rename_i e rest he
    obtain ⟨_, -, hd⟩ := Run.bind_eq_ok.1 h
    injection hd with hd
    rw [he, hd, List.tail_cons]

theorem popFront_transmitList (h : q.popFront now = .ok q') : q'.transmitList = q.transmitList.tail := by
  unfold SendQueue.popFront at h
  split at h
  · rename_i ht
    injection h with h
    rw [← h, ht]
  · rename_i d rest ht
    rw [(SendQueue.schedule_eq_ok.1 h).2.2, ht]

/-- **A send that returns**: the peer refused, or it took the head, and a response had its space reserved. -/
theorem trySendTiming_cases (h : s.trySendTiming l taken = .ok s') :
    s' = s ∨ ∃ d q, (s.queue l).transmitList = d :: q.transmitList ∧ s' = s.sent l q := by
  obtain ⟨d, hfront, -⟩ := Run.bind_eq_ok.1 h
  rcases (trySendTiming_eq_ok hfront).1 h with ⟨-, hs⟩ | ⟨-, -, q, hq, hs⟩
  · exact .inl hs
  · refine .inr ⟨d, q, ?_, hs⟩
    rw [popFront_transmitList hq]
    exact front_eq_ok hfront

/-! ## One step -/

theorem Accounted.congr (h : s.Accounted o) (hb : s'.bridge = s.bridge)
    (ho : s'.outstandingResponses = s.outstandingResponses)
    (hq : ∀ p, (s'.queue (.resp p)).transmitList = (s.queue (.resp p)).transmitList) : s'.Accounted o := by
  refine ⟨?_, ?_, ?_, ?_⟩
  · rw [hb]
    exact h.buses
  · rw [hb]
    exact h.routed
  · intro p
    rw [ho, hq]
    exact h.counted p
  · intro p
    rw [ho, hb]
    exact h.bounded p

theorem Accounted.trySendTiming (h : s.Accounted o) (hs : s.trySendTiming l taken = .ok s') : s'.Accounted o := by
  rcases trySendTiming_cases hs with rfl | ⟨d, q, hq, rfl⟩
  · exact h
  cases l with
  | req r =>
    refine h.congr rfl rfl ?_
    intro p
    rw [sent_queue, Function.update_of_ne (by simp)]
  | resp p₀ =>
    refine ⟨h.buses, h.routed, ?_, ?_⟩
    · intro p
      have hc := h.counted p
      by_cases hp : p = p₀
      · subst hp
        rw [hq, List.length_cons] at hc
        simp only [sent, setQueue, Function.update_self]
        omega
      · rw [sent_queue, Function.update_of_ne (by simp [hp])]
        simp only [sent, Function.update_of_ne hp]
        exact hc
    · intro p
      have hb := h.bounded p
      by_cases hp : p = p₀
      · subst hp
        simp only [sent, Function.update_self]
        exact le_trans (Nat.sub_le _ _) hb
      · simp only [sent, Function.update_of_ne hp]
        exact hb

theorem Accounted.recvTimingReq (h : s.Accounted o) {pkt' : Packet} {accepted : Bool} (ha : s.bridge.Arrives p pkt)
    (hc : pkt.cacheResponding = false) (hs : s.recvTimingReq p pkt = .ok (s', pkt', accepted)) :
    s'.Accounted (if accepted && pkt.needsResponse then o ++ [(p, pkt')] else o) := by
  cases hacc : s.accepts p pkt with
  | false =>
    obtain ⟨r, hr⟩ := recvTimingReq_refused hc hacc
    rw [hr] at hs
    simp only [Except.ok.injEq, Prod.mk.injEq] at hs
    obtain ⟨rfl, -, rfl⟩ := hs
    exact h.congr rfl rfl (fun _ => rfl)
  | true =>
    rw [recvTimingReq_accepted hc hacc] at hs
    obtain ⟨q, -, hq⟩ := Run.map_eq_ok.1 hs
    simp only [Prod.mk.injEq] at hq
    obtain ⟨rfl, rfl, rfl⟩ := hq
    have hqueue : ∀ p', ((s.setQueue (.req (s.bridge.getRequestPort pkt.addr)) q).queue (.resp p')).transmitList =
        (s.queue (.resp p')).transmitList := by
      intro p'
      rw [setQueue_queue_of_ne s q (by simp)]
    by_cases hn : pkt.needsResponse = true
    · -- the counter goes up, and so do the open requests of the port
      have hroom : s.outstandingResponses p ≠ s.bridge.params.respSize := by
        simp only [accepts, Bool.and_eq_true, Bool.not_eq_true', hn, Bool.true_and, respQueueFull] at hacc
        exact of_decide_eq_false hacc.2
      rw [hn, Bool.true_and, if_pos rfl]
      refine ⟨h.buses, ?_, ?_, ?_⟩
      · intro e he
        rcases List.mem_append.1 he with he | he
        · exact h.routed e he
        · rw [List.mem_singleton.1 he]
          exact PciBridge2.responsePortOf_stamp h.buses ha
      · intro p'
        have hcount := h.counted p'
        rw [openAt_append, openAt_cons, openAt_nil, hqueue]
        simp only [reserved, hn, if_true]
        by_cases hp : p' = p
        · subst hp
          simp only [Function.update_self, if_true]
          omega
        · rw [Function.update_of_ne hp, if_neg (Ne.symm hp)]
          omega
      · intro p'
        have hbound := h.bounded p'
        simp only [reserved, hn, if_true]
        by_cases hp : p' = p
        · subst hp
          rw [Function.update_self]
          exact Nat.lt_of_le_of_ne hbound hroom
        · rw [Function.update_of_ne hp]
          exact hbound
    · rw [Bool.not_eq_true] at hn
      rw [hn, Bool.and_false, if_neg Bool.false_ne_true]
      refine h.congr rfl ?_ hqueue
      simp [reserved, hn]

theorem Accounted.recvTimingResp {o₁ o₂ : List Open} {r : Packet} (h : s.Accounted (o₁ ++ (p, r) :: o₂))
    (hbus : pkt.reqBus s.bridge.params.rcId = r.reqBus s.bridge.params.rcId) (hs : s.recvTimingResp pkt = .ok s') :
    s'.Accounted (o₁ ++ o₂) := by
  have hport : s.bridge.responsePortOf pkt = p := by
    have hr := h.routed (p, r) (by simp)
    rw [PciBridge2.responsePortOf] at hr ⊢
    rw [hbus]
    exact hr
  obtain ⟨q, hq, rfl⟩ := World.recvTimingResp_eq_ok.1 hs
  rw [hport] at hq ⊢
  refine ⟨h.buses, ?_, ?_, h.bounded⟩
  · intro e he
    apply h.routed e
    rcases List.mem_append.1 he with he | he
    · exact List.mem_append_left _ he
    · exact List.mem_append_right _ (List.mem_cons_of_mem _ he)
  · intro p'
    have hc := h.counted p'
    rw [openAt_append, openAt_cons] at hc
    rw [openAt_append]
    by_cases hp : p' = p
    · subst hp
      rw [if_pos rfl] at hc
      rw [setQueue_queue_self, schedTimingResp_length hq]
      exact hc.trans (by omega)
    · rw [if_neg (Ne.symm hp)] at hc
      rw [setQueue_queue_of_ne s q (by simp [hp])]
      exact hc

theorem Accounted.writeConfig (h : s.Accounted o) {w : PciBridge2.ConfigWrite} {b : PciBridge2}
    (hw : s.bridge.writeConfig w = .ok b) (hb : b.BusesAssigned) (ho : o = [] ∨ s.bridge.SameBuses b) :
    ({ s with bridge := b } : BridgePorts).Accounted o := by
  have hp := PciBridge2.writeConfig_params hw
  refine ⟨hb, ?_, h.counted, ?_⟩
  · intro e he
    rcases ho with rfl | hsame
    · cases he
    · have hr := h.routed e he
      rw [PciBridge2.responsePortOf] at hr ⊢
      rw [hsame.getResponsePort, hp]
      exact hr
  · intro p
    simp only [hp]
    exact h.bounded p

theorem Reach.accounted (h : Reach s o) : s.Accounted o := by
  induction h with
  | start t hb =>
    refine ⟨hb, ?_, fun _ => rfl, fun _ => Nat.zero_le _⟩
    intro e he
    cases he
  | recvTimingReq _ ha hc hs ih => exact ih.recvTimingReq ha hc hs
  | recvTimingResp _ hbus hs ih => exact ih.recvTimingResp hbus hs
  | @sendEvent s s' o l taken _ _ hs ih =>
    have hclear : (s.setQueue l { s.queue l with sendEvent := none }).Accounted o := by
      refine ih.congr rfl rfl ?_
      intro p
      by_cases hl : Line.resp p = l
      · subst hl
        rw [setQueue_queue_self]
      · rw [setQueue_queue_of_ne s _ hl]
    exact hclear.trySendTiming hs
  | retry _ hs ih => exact ih.trySendTiming hs
  | advance t _ ih => exact ih.congr rfl rfl (fun _ => rfl)
  | writeConfig _ hw hb ho ih => exact ih.writeConfig hw hb ho

/-- **Responses return to the port that accepted the request**, over every interleaving: the response to an open request
is routed to its port, a port's counter is its requests that are not answered yet and stays within its limit, and a
waiting response finds the counter above zero. -/
theorem responses_return (s : BridgePorts) (o : List Open) (h : Reach s o) :
    (∀ p r, (p, r) ∈ o → ∀ pkt : Packet,
      pkt.reqBus s.bridge.params.rcId = r.reqBus s.bridge.params.rcId → s.bridge.responsePortOf pkt = p) ∧
    (∀ p, s.outstandingResponses p = openAt o p + (s.queue (.resp p)).transmitList.length) ∧
    (∀ p, s.outstandingResponses p ≤ s.bridge.params.respSize) ∧
    ∀ p, (s.queue (.resp p)).transmitList ≠ [] → s.outstandingResponses p ≠ 0 := by
  have hacc := h.accounted
  refine ⟨?_, hacc.counted, hacc.bounded, ?_⟩
  · intro p r hr pkt hbus
    have hport := hacc.routed (p, r) hr
    rw [PciBridge2.responsePortOf] at hport ⊢
    rw [hbus]
    exact hport
  · intro p hne hz
    have hc := hacc.counted p
    have hpos := List.length_pos_of_ne_nil hne
    omega

def sampleBridge : PciBridge2 where
  params := {}
  storage i :=
    { storage1 := { secondaryBusNumber := BitVec.ofNat 8 i, subordinateBusNumber := BitVec.ofNat 8 i }
      isValid := true }

theorem sampleBridge_busesAssigned : sampleBridge.BusesAssigned := by
  have hin : ∀ (i : PortId) (n : Int), sampleBridge.inBuses i n → n = (i : Nat) := by
    intro i n hn
    have hi := i.isLt
    simp only [PciBridge2.inBuses, sampleBridge, BitVec.toNat_ofNat] at hn
    omega
  refine ⟨fun _ _ => rfl, fun _ _ => BitVec.le_refl _, ?_, ?_⟩
  · intro i j n _ _ hni hnj
    have hij := (hin i n hni).symm.trans (hin j n hnj)
    exact Fin.ext (by omega)
  · intro i hi hn
    have hz : (0 : Int) = (i : Nat) := hin i _ hn
    exact hi (Fin.ext (by omega))

theorem responses_return_dma : ∃ s r, Reach s [(2, r)] ∧ s.bridge.responsePortOf r = 2 ∧ s.outstandingResponses 2 = 1 := by
  have hreq : ({ bridge := sampleBridge } : BridgePorts).recvTimingReq 2 World.sampleRead = .ok (_, _, true) := rfl
  have hreach := Reach.recvTimingReq (.start 0 sampleBridge_busesAssigned) (.inl rfl) rfl hreq
  obtain ⟨hport, hcount, -, -⟩ := responses_return _ _ hreach
  exact ⟨_, _, hreach, hport 2 _ (List.mem_singleton.2 rfl) _ rfl, hcount 2⟩

def stampedRead : Packet := { World.sampleRead with reqBus := fun _ => 1 }

/-- A request that comes upstream with the bus number of root port 1 is answered there, and the response it does not
expect finds its counter at zero. -/
theorem stamped_response_astray :
    sampleBridge.BusesAssigned ∧ sampleBridge.responsePortOf stampedRead.response = 1 ∧
    (World.start sampleBridge 0).run [.recvTimingReq 0 stampedRead, .sendEvent (.req 0) true,
      .recvTimingResp stampedRead.response, .sendEvent (.resp 1) true] = .error .assertFailed ∧
    ∃ w, (World.start sampleBridge 0).run [.recvTimingReq 0 stampedRead, .sendEvent (.req 0) true,
      .recvTimingResp stampedRead.response] = .ok w ∧ w.ports.outstandingResponses 0 = 1 ∧
        w.ports.outstandingResponses 1 = 0 :=
  ⟨sampleBridge_busesAssigned, by decide, rfl, _, rfl, rfl, rfl⟩

end BridgePorts
end Gem5
