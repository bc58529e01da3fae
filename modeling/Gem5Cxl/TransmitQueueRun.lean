import Gem5Cxl.TransmitQueue
/-!
# TransmitQueueRun — every run of a packet queue

The queue, the clock, and what was enqueued and sent.  `enqueued` is in the order of the calls and numbers the pointers;
`sent` has the tick of each send.  The event queue fires the send event at its tick, and a peer that refused a packet
retries at any time.  What each call keeps is `Inv`.
-/
namespace Gem5
namespace TransmitQueue

open PacketQueue (maxTick)

structure Sys where
  queue : TransmitQueue
  curTick : Nat
  enqueued : List Deferred := []
  sent : List (Deferred × Nat) := []

inductive Op where
  | advance (tick : Nat)
  | schedSendTiming (pkt : Packet) (isSecure : Bool) (when : Nat)
  | processSendEvent (accepted : Bool)
  | retry (accepted : Bool)

namespace Sys

/-- What may happen: time does not pass the send event, which fires at its tick, and retries come when one is due.  No
packet is to be sent at `MaxTick`, the tick that stands for never. -/
def Legal (s : Sys) : Op → Prop
  | .advance tick => s.curTick ≤ tick ∧ tick < maxTick ∧ ∀ w, s.queue.sendEvent = some w → tick ≤ w
  | .schedSendTiming pkt _ when => s.curTick ≤ when ∧ when < maxTick ∧ pkt.isExpressSnoop = false
  | .processSendEvent _ => s.queue.sendEvent = some s.curTick
  | .retry _ => s.queue.waitingOnRetry = true

def fresh (s : Sys) (pkt : Packet) (isSecure : Bool) (when : Nat) : Deferred :=
  ⟨when, { id := s.enqueued.length, pkt := pkt, isSecure := isSecure }⟩

def afterSend (s : Sys) (r : TransmitQueue × Option Deferred) : Sys :=
  { s with queue := r.1, sent := s.sent ++ r.2.toList.map fun d => (d, s.curTick) }

def step (s : Sys) : Op → Except Failure Sys
  | .advance tick => .ok { s with curTick := tick }
  | .schedSendTiming pkt isSecure when => do
    let d := s.fresh pkt isSecure when
    let queue ← s.queue.schedSendTiming s.curTick d.ptr when
    return { s with queue := queue, enqueued := s.enqueued ++ [d] }
  | .processSendEvent accepted => (s.queue.processSendEvent s.curTick accepted).map s.afterSend
  | .retry accepted => (s.queue.retry s.curTick accepted).map s.afterSend

end Sys

inductive Reach : Sys → Prop
  | init (forceOrder disableSanityCheck : Bool) (curTick : Nat) (h : curTick < maxTick) :
    Reach { queue := { forceOrder := forceOrder, disableSanityCheck := disableSanityCheck }, curTick := curTick }
  | step {s s' : Sys} (op : Op) (h : Reach s) (legal : s.Legal op) (hs : s.step op = .ok s') : Reach s'

/-! ## Invariants -/

/-- Which of two packets leaves first: by tick and then by call; with forced order, by call for one address. -/
def Before (forceOrder : Bool) (p q : Deferred) : Prop :=
  if forceOrder then p.ptr.matchAddr q.ptr = true → p.ptr.id < q.ptr.id
  else p.tick < q.tick ∨ p.tick = q.tick ∧ p.ptr.id < q.ptr.id

/-- **Who sends the front**: the peer's retry or the send event, and not both. -/
structure Armed (q : TransmitQueue) (curTick : Nat) : Prop where
  waiting : q.waitingOnRetry = true → q.sendEvent = none ∧ ∃ d l, q.transmitList = d :: l ∧ d.tick ≤ curTick
  event : ∀ t, q.sendEvent = some t → curTick ≤ t ∧
    ∃ d l, q.transmitList = d :: l ∧ d.tick ≤ t ∧ t ≤ max d.tick (curTick + 1)
  idle : q.waitingOnRetry = false → q.sendEvent = none → q.transmitList = []

structure Inv (s : Sys) : Prop where
  clock : s.curTick < maxTick
  ticks : ∀ d ∈ s.queue.transmitList, d.tick < maxTick
  armed : s.queue.Armed s.curTick
  perm : (s.sent.map Prod.fst ++ s.queue.transmitList).Perm s.enqueued
  ids : s.enqueued.map (fun d => d.ptr.id) = List.range s.enqueued.length
  sentAt : ∀ x ∈ s.sent, x.1.tick ≤ x.2 ∧ x.2 ≤ s.curTick
  order : (s.sent.map Prod.fst ++ s.queue.transmitList).Pairwise (Before s.queue.forceOrder)

variable {d : Deferred} {s s' : Sys} {curTick when : Nat} {q : TransmitQueue} {l : List Deferred}
  {isSecure accepted : Bool} {pkt : Packet} {op : Op}

theorem Inv.id_lt (h : Inv s) (hd : d ∈ s.enqueued) : d.ptr.id < s.enqueued.length := by
  have hmem : d.ptr.id ∈ s.enqueued.map fun d => d.ptr.id := List.mem_map.2 ⟨d, hd, rfl⟩
  rw [h.ids] at hmem
  exact List.mem_range.1 hmem

/-! ## The send event -/

def due (curTick when : Nat) : Nat := max when (curTick + 1)

def rearm (event : Option Nat) (t : Nat) : Nat :=
  match event with
  | none => t
  | some w => min t w

theorem schedSendEvent_eq (hcur : curTick < maxTick) (hw : q.waitingOnRetry = false) (hm : when ≠ maxTick) :
    q.schedSendEvent curTick when = .ok { q with sendEvent := some (rearm q.sendEvent (due curTick when)) } := by
  have hnext : (curTick + 1) % 2 ^ 64 = curTick + 1 := Nat.mod_eq_of_lt (by unfold maxTick at hcur; omega)
  have hpast : decide (curTick ≤ max when (curTick + 1)) = true := decide_eq_true (by omega)
  obtain ⟨force, sanity, l, waiting, event⟩ := q
  unfold schedSendEvent
  simp only at hw
  simp only [hw, Bool.false_eq_true, if_false, if_neg hm, hnext, hpast, assertThat_true, Run.ok_bind, Run.pure_eq_ok, due]
  cases event with
  | none => rfl
  | some w =>
    simp only [rearm]
    split_ifs with hlt
    · rw [Nat.min_eq_left (Nat.le_of_lt hlt)]
    · rw [Nat.min_eq_right (Nat.le_of_not_lt hlt)]

theorem schedSendEvent_armed (hcur : curTick < maxTick) (hw : q.waitingOnRetry = false) (he : q.sendEvent = none)
    (ht : ∀ d ∈ q.transmitList, d.tick < maxTick) :
    ∃ q', q.schedSendEvent curTick (readyTime q.transmitList) = .ok q' ∧ q'.transmitList = q.transmitList ∧
      q'.forceOrder = q.forceOrder ∧ q'.Armed curTick := by
  cases hl : q.transmitList with
  | nil =>
    refine ⟨q, ?_, hl, rfl, ?_⟩
    · rw [schedSendEvent, if_neg (by rw [hw]; decide), readyTime, if_pos rfl]
    · refine ⟨fun h => absurd (h.symm.trans hw) (by decide), fun t h => ?_, fun _ _ => hl⟩
      rw [he] at h
      cases h
  | cons d l =>
    have hd : d.tick < maxTick := ht d (by rw [hl]; exact List.mem_cons_self)
    have hsched := schedSendEvent_eq hcur hw (Nat.ne_of_lt hd)
    rw [he] at hsched
    refine ⟨_, hsched, hl, rfl, ?_⟩
    refine ⟨fun h => absurd (h.symm.trans hw) (by decide), fun t h => ?_, fun _ h => ?_⟩
    · obtain rfl := Option.some.inj h
      refine ⟨?_, d, l, hl, ?_, Nat.le_refl _⟩ <;> simp only [rearm, due] <;> omega
    · cases h

/-! ## One call -/

theorem schedSendTiming_spec (ptr : PacketPtr) (hcur : curTick < maxTick) (harm : q.Armed curTick)
    (hle : curTick ≤ when) (hwhen : when < maxTick) (hsnoop : ptr.pkt.isExpressSnoop = false)
    (hlen : q.disableSanityCheck = true ∨ q.transmitList.length ≤ 128) :
    ∃ q' pre post, q.schedSendTiming curTick ptr when = .ok q' ∧ q.transmitList = pre ++ post ∧
      q'.transmitList = pre ++ ⟨when, ptr⟩ :: post ∧ (∀ e ∈ post, stops q.forceOrder ⟨when, ptr⟩ e = false) ∧
      (∀ e, pre.getLast? = some e → stops q.forceOrder ⟨when, ptr⟩ e = true) ∧ q'.forceOrder = q.forceOrder ∧
      q'.Armed curTick := by
  have hpanic : (!q.disableSanityCheck && decide (128 < q.transmitList.length)) = false := by
    rcases hlen with h | h
    · rw [h]
      rfl
    · rw [decide_eq_false (by omega), Bool.and_false]
  unfold schedSendTiming
  rw [decide_eq_true hle, hsnoop, hpanic]
  simp only [Bool.not_false, assertThat_true, Run.ok_bind, panicIf, Bool.false_eq_true, if_false, Run.pure_eq_ok]
  cases hins : InsertLast.insert (stops q.forceOrder ⟨when, ptr⟩) ⟨when, ptr⟩ q.transmitList with
  | some l' =>
    obtain ⟨pre, e, post, hl, rfl, he, hpost⟩ := InsertLast.insert_eq_some hins
    refine ⟨_, pre ++ [e], post, rfl, by simp [hl], by simp, hpost, fun e' he' => ?_, rfl, ?_⟩
    · rw [List.getLast?_concat] at he'
      obtain rfl := Option.some.inj he'
      exact he
    · -- the front is the one it was
      have hfront : ∀ {d l}, q.transmitList = d :: l → ∃ l'', pre ++ e :: ⟨when, ptr⟩ :: post = d :: l'' := by
        intro d l hd
        rw [hl] at hd
        cases pre with
        | nil =>
          obtain ⟨rfl, -⟩ := List.cons.inj hd
          exact ⟨_, rfl⟩
        | cons x pre =>
          obtain ⟨rfl, -⟩ := List.cons.inj hd
          exact ⟨_, rfl⟩
      refine ⟨fun h => ?_, fun t h => ?_, fun hw he => ?_⟩
      · obtain ⟨hnone, d, l, hd, htick⟩ := harm.waiting h
        obtain ⟨l'', hl''⟩ := hfront hd
        exact ⟨hnone, d, l'', hl'', htick⟩
      · obtain ⟨hcur', d, l, hd, hrest⟩ := harm.event t h
        obtain ⟨l'', hl''⟩ := hfront hd
        exact ⟨hcur', d, l'', hl'', hrest⟩
      · have hnil := harm.idle hw he
        rw [hl] at hnil
        simp at hnil
  | none =>
    have hnone := InsertLast.insert_eq_none.1 hins
    have hlater : ∀ d ∈ q.transmitList, when < d.tick := by
      intro d hd
      have hstop := hnone d hd
      unfold stops at hstop
      rw [Bool.or_eq_false_iff, decide_eq_false_iff_not] at hstop
      exact Nat.lt_of_not_le hstop.2
    have hw : q.waitingOnRetry = false := by
      -- a refused packet is due, so nothing goes before it
      by_contra hne
      obtain ⟨-, d, l, hd, htick⟩ := harm.waiting (Bool.of_not_eq_false hne)
      have := hlater d (by rw [hd]; exact List.mem_cons_self)
      omega
    have hsched := schedSendEvent_eq (q := { q with transmitList := ⟨when, ptr⟩ :: q.transmitList }) hcur hw
      (Nat.ne_of_lt hwhen)
    refine ⟨_, [], q.transmitList, hsched, rfl, rfl, hnone, fun e he => (by cases he), rfl, ?_⟩
    refine ⟨fun h => absurd (h.symm.trans hw) (by decide), fun t h => ?_, fun _ h => (by cases h)⟩
    obtain rfl := Option.some.inj h
    cases he : q.sendEvent with
    | none => refine ⟨?_, _, _, rfl, ?_, ?_⟩ <;> simp only [rearm, due] <;> omega
    | some w =>
      -- the old event was for a later packet
      obtain ⟨hcur', d, l, hd, hdw, -⟩ := harm.event w he
      have := hlater d (by rw [hd]; exact List.mem_cons_self)
      refine ⟨?_, _, _, rfl, ?_, ?_⟩ <;> simp only [rearm, due] <;> omega

/-- **Sending** the front, which is due. -/
theorem sendDeferredPacket_spec (hcur : curTick < maxTick) (hw : q.waitingOnRetry = false) (he : q.sendEvent = none)
    (hl : q.transmitList = d :: l) (hd : d.tick ≤ curTick) (ht : ∀ d ∈ q.transmitList, d.tick < maxTick)
    (accepted : Bool) : ∃ q', q.sendDeferredPacket curTick accepted = .ok (q', if accepted then some d else none) ∧
      q'.transmitList = (if accepted then l else d :: l) ∧ q'.forceOrder = q.forceOrder ∧ q'.Armed curTick := by
  unfold sendDeferredPacket
  simp only [hw, hl, hd, Bool.not_false, decide_true, assertThat_true, Run.ok_bind, Run.pure_eq_ok]
  cases accepted with
  | true =>
    obtain ⟨q', hsched, hl', hf, harm⟩ := schedSendEvent_armed (q := { q with transmitList := l }) hcur hw he
      fun d' hd' => ht d' (by rw [hl]; exact List.mem_cons_of_mem _ hd')
    refine ⟨q', ?_, hl', hf, harm⟩
    simp only [if_true, hw] at hsched ⊢
    rw [hsched]
    rfl
  | false =>
    refine ⟨_, rfl, rfl, rfl, ⟨fun _ => ⟨he, d, l, rfl, hd⟩, fun t h => ?_, fun h => (by cases h)⟩⟩
    rw [he] at h
    cases h

/-- What a fresh packet is put behind leaves before it, and it leaves before the rest. -/
theorem Inv.fresh_order (h : Inv s) (hle : s.curTick ≤ when) {pre post : List Deferred}
    (hl : s.queue.transmitList = pre ++ post)
    (hpost : ∀ e ∈ post, stops s.queue.forceOrder (s.fresh pkt isSecure when) e = false)
    (hpre : ∀ e, pre.getLast? = some e → stops s.queue.forceOrder (s.fresh pkt isSecure when) e = true) :
    (s.sent.map Prod.fst ++ (pre ++ s.fresh pkt isSecure when :: post)).Pairwise (Before s.queue.forceOrder) := by
  have horder := h.order
  rw [hl, ← List.append_assoc] at horder
  rw [← List.append_assoc]
  have hid : ∀ d ∈ s.sent.map Prod.fst ++ pre, d.ptr.id < s.enqueued.length := fun d hd => by
    refine h.id_lt (h.perm.mem_iff.1 ?_)
    rw [hl, ← List.append_assoc]
    exact List.mem_append_left _ hd
  refine InsertLast.pairwise_insert horder (fun d hd => ?_) (fun e he => ?_)
  · unfold Before
    split_ifs with hf
    · exact fun _ => hid d hd
    · -- what was sent is due by now, and the element it is put behind is due by then
      have htick : d.tick ≤ when := by
        rcases List.mem_append.1 hd with hsent | hd'
        · obtain ⟨x, hx, rfl⟩ := List.mem_map.1 hsent
          have := h.sentAt x hx
          omega
        · obtain ⟨e, he⟩ : ∃ e, pre.getLast? = some e := by
            cases hlast : pre.getLast? with
            | none =>
              rw [List.getLast?_eq_none_iff.1 hlast] at hd'
              cases hd'
            | some e => exact ⟨e, rfl⟩
          have hstop := hpre e he
          unfold stops at hstop
          rw [Bool.eq_false_iff.2 hf, Bool.false_and, Bool.false_or, decide_eq_true_eq] at hstop
          obtain ⟨pre', rfl⟩ := List.getLast?_eq_some_iff.1 he
          rcases List.mem_append.1 hd' with hd' | hd'
          · rw [List.append_assoc, List.append_assoc] at horder
            have hbefore := (List.pairwise_append.1 (List.pairwise_append.1 horder).2.1).2.2 d hd' e
              (List.mem_append_left _ List.mem_cons_self)
            unfold Before at hbefore
            rw [if_neg hf] at hbefore
            change e.tick ≤ when at hstop
            omega
          · rw [List.mem_singleton.1 hd']
            exact hstop
      have := hid d hd
      simp only [Sys.fresh]
      omega
  · have hstop := hpost e he
    unfold stops at hstop
    rw [Bool.or_eq_false_iff, decide_eq_false_iff_not] at hstop
    unfold Before
    split_ifs with hf
    · intro hmatch
      rw [hf, Bool.true_and, PacketPtr.matchAddr_comm, hmatch] at hstop
      exact absurd hstop.1 (by decide)
    · exact .inl (Nat.lt_of_not_le hstop.2)

theorem Inv.schedSendTiming (h : Inv s) (hlegal : s.Legal (.schedSendTiming pkt isSecure when))
    (hstep : s.step (.schedSendTiming pkt isSecure when) = .ok s') : Inv s' := by
  obtain ⟨hle, hwhen, hsnoop⟩ := hlegal
  have hlen : s.queue.disableSanityCheck = true ∨ s.queue.transmitList.length ≤ 128 := by
    by_contra hno
    rw [not_or, Nat.not_le, Bool.not_eq_true] at hno
    simp [Sys.step, TransmitQueue.schedSendTiming, hno.1, hno.2, panicIf, hle, Sys.fresh, hsnoop] at hstep
  obtain ⟨q', pre, post, hq, hl, hl', hpost, hpre, hf, harm⟩ :=
    schedSendTiming_spec (s.fresh pkt isSecure when).ptr h.clock h.armed hle hwhen hsnoop hlen
  change (s.queue.schedSendTiming s.curTick (s.fresh pkt isSecure when).ptr when >>= _) = _ at hstep
  rw [hq] at hstep
  obtain rfl := Except.ok.inj hstep
  refine ⟨h.clock, fun d hd => ?_, harm, ?_, ?_, h.sentAt, ?_⟩
  · simp only [hl', List.mem_append, List.mem_cons] at hd
    have hold : ∀ e ∈ pre ++ post, e.tick < maxTick := fun e he => h.ticks e (by rw [hl]; exact he)
    rcases hd with hd | rfl | hd
    · exact hold d (List.mem_append_left _ hd)
    · exact hwhen
    · exact hold d (List.mem_append_right _ hd)
  · simp only [hl']
    have hperm := h.perm
    rw [hl, ← List.append_assoc] at hperm
    rw [← List.append_assoc]
    exact List.perm_middle.trans ((hperm.cons _).trans (List.perm_append_singleton _ _).symm)
  · simp only [List.map_append, List.map_cons, List.map_nil, List.length_append, List.length_cons, List.length_nil,
      Nat.zero_add, List.range_succ, h.ids]
    rfl
  · simp only [hl', hf]
    exact h.fresh_order hle hl hpost hpre

theorem Inv.afterSend (h : Inv s) (hl : s.queue.transmitList = d :: l) (hd : d.tick ≤ s.curTick)
    (hlist : q.transmitList = if accepted then l else d :: l) (hf : q.forceOrder = s.queue.forceOrder)
    (harm : q.Armed s.curTick) : Inv (s.afterSend (q, if accepted then some d else none)) := by
  have hsame : (s.afterSend (q, if accepted then some d else none)).sent.map Prod.fst ++ q.transmitList =
      s.sent.map Prod.fst ++ s.queue.transmitList := by
    rw [hlist, hl]
    cases accepted <;> simp [Sys.afterSend]
  refine ⟨h.clock, fun e he => h.ticks e ?_, harm, ?_, h.ids, fun x hx => ?_, ?_⟩
  · have he : e ∈ q.transmitList := he
    rw [hlist] at he
    rw [hl]
    cases accepted with
    | true => exact List.mem_cons_of_mem _ he
    | false => exact he
  · exact hsame ▸ h.perm
  · rcases List.mem_append.1 hx with hx | hx
    · exact h.sentAt x hx
    · cases accepted with
      | true =>
        obtain rfl : x = (d, s.curTick) := List.mem_singleton.1 hx
        exact ⟨hd, Nat.le_refl _⟩
      | false => cases hx
  · change ((s.afterSend (q, if accepted then some d else none)).sent.map Prod.fst ++ q.transmitList).Pairwise
      (Before q.forceOrder)
    rw [hsame, hf]
    exact h.order

/-- **A send that is due returns**, and sends the front if the peer accepts it. -/
theorem Inv.send_ok (h : Inv s) (hop : op = .processSendEvent accepted ∨ op = .retry accepted) (hlegal : s.Legal op) :
    ∃ q d l, s.queue.transmitList = d :: l ∧ d.tick ≤ s.curTick ∧
      s.step op = .ok (s.afterSend (q, if accepted then some d else none)) ∧
      q.transmitList = (if accepted then l else d :: l) ∧ q.forceOrder = s.queue.forceOrder ∧ q.Armed s.curTick := by
  rcases hop with rfl | rfl
  · obtain ⟨-, d, l, hl, hd, -⟩ := h.armed.event s.curTick hlegal
    have hw : s.queue.waitingOnRetry = false := by
      by_contra hne
      have hev := (h.armed.waiting (Bool.of_not_eq_false hne)).1
      rw [show s.queue.sendEvent = some s.curTick from hlegal] at hev
      cases hev
    obtain ⟨q, hq, hlist, hf, harm⟩ := sendDeferredPacket_spec (q := { s.queue with sendEvent := none }) h.clock hw rfl
      hl hd h.ticks accepted
    refine ⟨q, d, l, hl, hd, ?_, hlist, hf, harm⟩
    have hready : (!s.queue.waitingOnRetry) = true := by rw [hw]; rfl
    rw [Sys.step, processSendEvent, hready, assertThat_true, Run.ok_bind]
    exact congrArg (Except.map s.afterSend) hq
  · obtain ⟨he, d, l, hl, hd⟩ := h.armed.waiting hlegal
    obtain ⟨q, hq, hlist, hf, harm⟩ := sendDeferredPacket_spec (q := { s.queue with waitingOnRetry := false }) h.clock rfl
      he hl hd h.ticks accepted
    refine ⟨q, d, l, hl, hd, ?_, hlist, hf, harm⟩
    rw [Sys.step, retry, show s.queue.waitingOnRetry = true from hlegal, assertThat_true, Run.ok_bind]
    exact congrArg (Except.map s.afterSend) hq

theorem Inv.step (h : Inv s) (hlegal : s.Legal op) (hstep : s.step op = .ok s') : Inv s' := by
  cases op with
  | advance tick =>
    obtain ⟨hle, htick, hev⟩ := hlegal
    obtain rfl := Except.ok.inj hstep
    refine ⟨htick, h.ticks, ⟨fun hw => ?_, fun t ht => ?_, h.armed.idle⟩, h.perm, h.ids, fun x hx => ?_, h.order⟩
    · obtain ⟨he, d, l, hl, hd⟩ := h.armed.waiting hw
      exact ⟨he, d, l, hl, Nat.le_trans hd hle⟩
    · obtain ⟨-, d, l, hl, hd, hmax⟩ := h.armed.event t ht
      exact ⟨hev t ht, d, l, hl, hd, by dsimp only; omega⟩
    · have := h.sentAt x hx
      exact ⟨this.1, Nat.le_trans this.2 hle⟩
  | schedSendTiming pkt isSecure when => exact h.schedSendTiming hlegal hstep
  | processSendEvent accepted =>
    obtain ⟨q, d, l, hl, hd, hok, hlist, hf, harm⟩ := h.send_ok (.inl rfl) hlegal
    obtain rfl := Except.ok.inj (hok.symm.trans hstep)
    exact h.afterSend hl hd hlist hf harm
  | retry accepted =>
    obtain ⟨q, d, l, hl, hd, hok, hlist, hf, harm⟩ := h.send_ok (.inr rfl) hlegal
    obtain rfl := Except.ok.inj (hok.symm.trans hstep)
    exact h.afterSend hl hd hlist hf harm

theorem Reach.inv (h : Reach s) : Inv s := by
  induction h with
  | init forceOrder disableSanityCheck curTick h =>
    refine ⟨h, fun d hd => (by cases hd), ⟨fun h => (by cases h), fun t h => (by cases h), fun _ _ => rfl⟩, .nil, rfl,
      fun x hx => (by cases hx), .nil⟩
  | step op _ legal hs ih => exact ih.step legal hs

theorem Inv.sched_ok (h : Inv s) (hlegal : s.Legal (.schedSendTiming pkt isSecure when)) :
    (∃ s', s.step (.schedSendTiming pkt isSecure when) = .ok s') ∨
      s.queue.disableSanityCheck = false ∧ 128 < s.queue.transmitList.length ∧
        s.step (.schedSendTiming pkt isSecure when) = .error (.panic "Packet queue has grown beyond 128 packets\n") := by
  obtain ⟨hle, hwhen, hsnoop⟩ := hlegal
  by_cases hlen : s.queue.disableSanityCheck = true ∨ s.queue.transmitList.length ≤ 128
  · obtain ⟨q', pre, post, hq, -⟩ :=
      schedSendTiming_spec (s.fresh pkt isSecure when).ptr h.clock h.armed hle hwhen hsnoop hlen
    refine .inl ⟨{ s with queue := q', enqueued := s.enqueued ++ [s.fresh pkt isSecure when] }, ?_⟩
    change (s.queue.schedSendTiming s.curTick (s.fresh pkt isSecure when).ptr when >>= _) = _
    rw [hq]
    rfl
  · rw [not_or, Nat.not_le, Bool.not_eq_true] at hlen
    refine .inr ⟨hlen.1, hlen.2, ?_⟩
    simp only [Sys.step, TransmitQueue.schedSendTiming, hlen.1, hlen.2, panicIf, decide_eq_true hle, Sys.fresh, hsnoop,
      Bool.not_false, Bool.true_and, decide_true, assertThat_true, Run.ok_bind, if_true, Run.error_bind]

/-- **Delivery.**  What was enqueued is what was sent and what waits, each packet once.  No packet is sent before its
tick.  Packets leave by tick and then in the order of the calls; with forced order, packets of one address and security
state leave in the order of the calls.  A queue that is not empty either awaits a retry or has its send event scheduled,
in time for its front.  Sends return and send the front; enqueueing returns unless the sanity check stops it. -/
theorem delivery {s : Sys} (h : Reach s) :
    (s.sent.map Prod.fst ++ s.queue.transmitList).Perm s.enqueued ∧
      s.enqueued.map (fun d => d.ptr.id) = List.range s.enqueued.length ∧
      (∀ x ∈ s.sent, x.1.tick ≤ x.2) ∧
      (s.queue.forceOrder = false → (s.sent.map Prod.fst).Pairwise
        fun p q => p.tick < q.tick ∨ p.tick = q.tick ∧ p.ptr.id < q.ptr.id) ∧
      (s.queue.forceOrder = true → (s.sent.map Prod.fst).Pairwise
        fun p q => p.ptr.matchAddr q.ptr = true → p.ptr.id < q.ptr.id) ∧
      (s.queue.transmitList ≠ [] → Xor (s.queue.waitingOnRetry = true) (s.queue.sendEvent.isSome = true)) ∧
      (∀ t d l, s.queue.sendEvent = some t → s.queue.transmitList = d :: l → t ≤ max d.tick (s.curTick + 1)) ∧
      (∀ op accepted, op = .processSendEvent accepted ∨ op = .retry accepted → s.Legal op →
        ∃ s' d l, s.queue.transmitList = d :: l ∧ s.step op = .ok s' ∧
          s'.sent = s.sent ++ if accepted then [(d, s.curTick)] else []) ∧
      ∀ pkt isSecure when, s.Legal (.schedSendTiming pkt isSecure when) →
        (∃ s', s.step (.schedSendTiming pkt isSecure when) = .ok s') ∨
          s.queue.disableSanityCheck = false ∧ 128 < s.queue.transmitList.length ∧
            s.step (.schedSendTiming pkt isSecure when) =
              .error (.panic "Packet queue has grown beyond 128 packets\n") := by
  have hinv := h.inv
  have hsent := (List.pairwise_append.1 hinv.order).1
  refine ⟨hinv.perm, hinv.ids, fun x hx => (hinv.sentAt x hx).1, fun hf => ?_, fun hf => ?_, fun hne => ?_,
    fun t d l ht hl => ?_, fun op accepted hop hlegal => ?_, fun pkt isSecure when hlegal => hinv.sched_ok hlegal⟩
  · rw [hf] at hsent
    exact hsent
  · rw [hf] at hsent
    exact hsent
  · cases hw : s.queue.waitingOnRetry with
    | true =>
      rw [(hinv.armed.waiting hw).1]
      exact .inl ⟨rfl, by decide⟩
    | false =>
      refine .inr ⟨?_, by decide⟩
      cases he : s.queue.sendEvent with
      | none => exact absurd (hinv.armed.idle hw he) hne
      | some t => rfl
  · obtain ⟨-, d', l', hl', -, hmax⟩ := hinv.armed.event t ht
    obtain ⟨rfl, -⟩ := List.cons.inj (hl.symm.trans hl')
    exact hmax
  · obtain ⟨q, d, l, hl, -, hok, -⟩ := hinv.send_ok hop hlegal
    refine ⟨_, d, l, hl, hok, ?_⟩
    cases accepted <;> rfl

theorem delivery_refused_once :
    ∃ s : Sys, Reach s ∧ s.sent.length = 1 ∧ s.queue.transmitList = [] ∧ ∀ x ∈ s.sent, x.1.tick ≤ x.2 := by
  have h₀ := Reach.init true false 0 (by decide)
  have h₁ := h₀.step (.schedSendTiming { cmd := .readReq, req := { paddr := 0 }, addr := 0, size := 4 } false 5)
    ⟨by decide, by decide, rfl⟩ rfl
  have h₂ := h₁.step (.advance 5) ⟨by decide, by decide, fun w hw => Nat.le_of_eq (Option.some.inj hw)⟩ rfl
  have h₃ := h₂.step (.processSendEvent false) rfl rfl
  have h₄ := h₃.step (.advance 9) ⟨by decide, by decide, fun w hw => (by cases hw)⟩ rfl
  have h₅ := h₄.step (.retry true) rfl rfl
  exact ⟨_, h₅, rfl, rfl, (delivery h₅).2.2.1⟩

/-- A packet to be sent at `MaxTick` waits with no send event and no retry to come. -/
theorem sched_at_maxTick :
    ∃ q : TransmitQueue, schedSendTiming { forceOrder := false, disableSanityCheck := false } 0
        ⟨0, { cmd := .readReq, req := { paddr := 0 }, addr := 0, size := 4 }, false⟩ maxTick = .ok q ∧
      q.transmitList.length = 1 ∧ q.waitingOnRetry = false ∧ q.sendEvent = none :=
  ⟨_, rfl, rfl, rfl, rfl⟩

end TransmitQueue

end Gem5
