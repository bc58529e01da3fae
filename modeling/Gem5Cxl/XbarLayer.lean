import Gem5Cxl.Basic
import Mathlib.Data.List.Nodup
/-!
# XbarLayer — a layer of the crossbar, and whom it retries (`mem/xbar.cc`)

Source ports compete for a layer, which leads to one peer.  A port that finds the layer busy waits for it; a port whose
packet the peer refuses waits for the peer.  A retry is a call out of the layer, during which the port may call back in,
so `retryWaiting` is cut at that call; likewise a send, between `tryTiming` and the outcome.  `Sys` keeps which of the
two calls is open.
-/
namespace Gem5

inductive LayerState where
  | idle
  | busy
  | retry
deriving DecidableEq, Repr

structure XbarLayer (P : Type) where
  state : LayerState
  waitingForLayer : List P
  waitingForPeer : Option P
  releaseEvent : Option Nat
deriving DecidableEq

namespace XbarLayer

variable {P : Type} [DecidableEq P]

def create : XbarLayer P := { state := .idle, waitingForLayer := [], waitingForPeer := none, releaseEvent := none }

/-- `occupyLayer`, at tick `now`; the last two assertions are those of `schedule`. -/
def occupyLayer (l : XbarLayer P) (now untilTick : Nat) : Except Failure (XbarLayer P) := do
  assertThat (l.state = .busy)
  assertThat (untilTick ≠ 0)
  assertThat (now ≤ untilTick)
  assertThat l.releaseEvent.isNone
  .ok { l with releaseEvent := some untilTick }

def tryTiming (l : XbarLayer P) (srcPort : P) : Except Failure (XbarLayer P × Bool) :=
  if l.state = .busy ∨ l.waitingForPeer.isSome then do
    assertThat (srcPort ∉ l.waitingForLayer)
    .ok ({ l with waitingForLayer := l.waitingForLayer ++ [srcPort] }, false)
  else .ok ({ l with state := .busy }, true)

def succeededTiming (l : XbarLayer P) (now busyTime : Nat) : Except Failure (XbarLayer P) := do
  assertThat (l.state = .busy)
  l.occupyLayer now busyTime

def failedTiming (l : XbarLayer P) (srcPort : P) (now busyTime : Nat) : Except Failure (XbarLayer P) := do
  assertThat l.waitingForPeer.isNone
  assertThat (l.state = .busy)
  { l with waitingForPeer := some srcPort }.occupyLayer now busyTime

/-- `retryWaiting`, up to the retry it sends; it answers the port. -/
def retryWaiting (l : XbarLayer P) : Except Failure (XbarLayer P × Option P) :=
  match l.waitingForLayer with
  | [] => .error .assertFailed
  | retryingPort :: waiting => do
    assertThat (l.state = .idle)
    .ok ({ l with state := .retry, waitingForLayer := waiting }, some retryingPort)

/-- `retryWaiting`, once the retried port has returned; `clockEdge` is the next one. -/
def retryReturned (l : XbarLayer P) (now clockEdge : Nat) : Except Failure (XbarLayer P) :=
  if l.state = .retry then { l with state := .busy }.occupyLayer now clockEdge else .ok l

def releaseLayer (l : XbarLayer P) : Except Failure (XbarLayer P × Option P) := do
  assertThat (l.state = .busy)
  assertThat l.releaseEvent.isNone
  let l := { l with state := .idle }
  if l.waitingForLayer.isEmpty = false ∧ l.waitingForPeer.isNone then l.retryWaiting else .ok (l, none)

def recvRetry (l : XbarLayer P) : Except Failure (XbarLayer P × Option P) :=
  match l.waitingForPeer with
  | none => .error .assertFailed
  | some p =>
    let l := { l with waitingForLayer := p :: l.waitingForLayer, waitingForPeer := none }
    if l.state = .idle then l.retryWaiting
    else do
      assertThat (l.state = .busy)
      .ok (l, none)

/-! ## The layer among its ports -/

/-- The layer at a tick, with the calls that are open: the port that is sending, and whether a retry is being
delivered. -/
structure Sys (P : Type) where
  layer : XbarLayer P
  now : Nat
  sending : Option P
  retrying : Bool

inductive Event (P : Type) where
  | tryTiming (srcPort : P)
  | succeededTiming (busyTime : Nat)
  | failedTiming (busyTime : Nat)
  | retryReturned (clockEdge : Nat)
  | release
  | recvRetry
  | advance (tick : Nat)

inductive Obs (P : Type) where
  | refused (p : P)
  | peerRefused (p : P)
  | peerRetry
  | retried (p : P)
deriving DecidableEq, Repr

def Sys.sent (s : Sys P) (r : XbarLayer P × Option P) (obs : List (Obs P)) : Sys P × List (Obs P) :=
  match r.2 with
  | none => ({ s with layer := r.1 }, obs)
  | some p => ({ s with layer := r.1, retrying := true }, obs ++ [.retried p])

def Sys.step (s : Sys P) : Event P → Except Failure (Sys P × List (Obs P))
  | .tryTiming p => do
    let (l, ok) ← s.layer.tryTiming p
    if ok then .ok ({ s with layer := l, sending := some p }, []) else .ok ({ s with layer := l }, [.refused p])
  | .succeededTiming busyTime => do
    let l ← s.layer.succeededTiming s.now busyTime
    .ok ({ s with layer := l, sending := none }, [])
  | .failedTiming busyTime =>
    match s.sending with
    | none => .ok (s, [])
    | some p => do
      let l ← s.layer.failedTiming p s.now busyTime
      .ok ({ s with layer := l, sending := none }, [.peerRefused p])
  | .retryReturned clockEdge => do
    let l ← s.layer.retryReturned s.now clockEdge
    .ok ({ s with layer := l, retrying := false }, [])
  | .release => do
    let r ← { s.layer with releaseEvent := none }.releaseLayer
    .ok (s.sent r [])
  | .recvRetry => do
    let r ← s.layer.recvRetry
    .ok (s.sent r [.peerRetry])
  | .advance tick => .ok ({ s with now := tick }, [])

/-! ## Whom to retry -/

/-- The refused ports, by what was seen: the one whose packet the peer refused and that still waits for the peer, the
one that the peer has let go, and the others in the order they were refused. -/
structure Order (P : Type) where
  peer : Option P
  first : Option P
  fifo : List P

namespace Order

def awaiting (o : Order P) : List P := o.peer.toList ++ o.first.toList ++ o.fifo

/-- What is seen next; `none` is a retry out of order. -/
def next (o : Order P) : Obs P → Option (Order P)
  | .refused p => some { o with fifo := o.fifo ++ [p] }
  | .peerRefused p => some { o with peer := some p }
  | .peerRetry => some { o with peer := none, first := o.peer }
  | .retried p =>
    match o with
    | ⟨some _, _, _⟩ => none
    | ⟨none, some q, fifo⟩ => if p = q then some ⟨none, none, fifo⟩ else none
    | ⟨none, none, []⟩ => none
    | ⟨none, none, q :: fifo⟩ => if p = q then some ⟨none, none, fifo⟩ else none

def nexts (o : Order P) : List (Obs P) → Option (Order P)
  | [] => some o
  | b :: bs => (o.next b).bind fun o => o.nexts bs

end Order

/-- What the ports, the peer and the event queue do: a port that was refused waits for its retry, a port sends one packet
at a time, the peer sends a retry only after it refused, calls return in the order they were made, and ticks pass only
between them. -/
def Legal (s : Sys P) (o : Order P) : Event P → Prop
  | .tryTiming p => p ∉ o.awaiting ∧ s.sending ≠ some p
  | .succeededTiming busyTime | .failedTiming busyTime => s.sending.isSome ∧ s.now ≤ busyTime ∧ busyTime ≠ 0
  | .retryReturned clockEdge => s.retrying = true ∧ s.sending = none ∧ s.now ≤ clockEdge
  | .release => s.layer.releaseEvent = some s.now ∧ s.retrying = false ∧ s.sending = none
  | .recvRetry => o.peer.isSome
  | .advance tick =>
    s.now ≤ tick ∧ s.retrying = false ∧ s.sending = none ∧ ∀ t, s.layer.releaseEvent = some t → tick ≤ t

inductive Reach : Sys P → Order P → Prop where
  | create (now : Nat) : Reach ⟨create, now, none, false⟩ ⟨none, none, []⟩
  | step {s s' : Sys P} {o o' : Order P} {e : Event P} {obs : List (Obs P)} :
    Reach s o → Legal s o e → s.step e = .ok (s', obs) → o.nexts obs = some o' → Reach s' o'

/-! ## The invariant -/

structure Inv (s : Sys P) (o : Order P) : Prop where
  waitingForPeer : s.layer.waitingForPeer = o.peer
  waitingForLayer : s.layer.waitingForLayer = o.first.toList ++ o.fifo
  nodup : o.awaiting.Nodup
  /-- A send holds the layer, which is not yet occupied. -/
  sending : ∀ p, s.sending = some p →
    p ∉ o.awaiting ∧ s.layer.state = .busy ∧ s.layer.releaseEvent = none ∧ o.peer = none
  busy : s.sending = none → (s.layer.releaseEvent.isSome ↔ s.layer.state = .busy)
  release : ∀ t, s.layer.releaseEvent = some t → 0 < t ∧ s.now ≤ t
  /-- The retry state lasts for a retry only, and no port waits for the peer then. -/
  retry : s.layer.state = .retry → s.retrying = true ∧ o.peer = none
  retrying : s.retrying = true → 0 < s.now ∧ s.layer.state ≠ .idle
  /-- A port that the peer let go waits for the layer to be released. -/
  first : o.first.isSome → s.layer.state = .busy ∧ s.sending = none ∧ o.peer = none
  idle : s.layer.state = .idle → s.layer.waitingForLayer ≠ [] → o.peer.isSome
  /-- A port waits for the peer of an idle layer after a release only. -/
  later : s.layer.state = .idle → o.peer.isSome → 0 < s.now

/-- The step returns, what it shows is in order, and the invariant holds after it. -/
def Lands (s : Sys P) (o : Order P) (e : Event P) : Prop :=
  ∃ s' obs o', s.step e = .ok (s', obs) ∧ o.nexts obs = some o' ∧ Inv s' o'

omit [DecidableEq P] in
theorem inv_create (now : Nat) : Inv (P := P) ⟨create, now, none, false⟩ ⟨none, none, []⟩ := by
  constructor <;> simp [create, Order.awaiting]

variable {s : Sys P} {o : Order P} {p : P} {t : Nat} {waiting : List P}

omit [DecidableEq P] in
theorem Inv.notSending (h : Inv s o) (hs : s.layer.state ≠ .busy) : s.sending = none := by
  cases hq : s.sending with
  | none => rfl
  | some q => exact absurd (h.sending q hq).2.1 hs

omit [DecidableEq P] in
theorem Inv.notFirst (h : Inv s o) (hs : s.layer.state ≠ .busy ∨ s.sending.isSome ∨ o.peer.isSome) :
    o.first = none := by
  cases hf : o.first with
  | none => rfl
  | some q =>
    obtain ⟨hbusy, hsend, hpeer⟩ := h.first (by simp [hf])
    simp [hbusy, hsend, hpeer] at hs

omit [DecidableEq P] in
theorem Inv.notReleased (h : Inv s o) (hs : s.layer.state ≠ .busy) : s.layer.releaseEvent = none := by
  have := (h.busy (h.notSending hs)).not.2 hs
  simpa using this

/-! ## The steps -/

theorem tryTiming_lands (h : Inv s o) (hl : Legal s o (.tryTiming p)) : Lands s o (.tryTiming p) := by
  obtain ⟨hp, hsend⟩ := hl
  by_cases hbusy : s.layer.state = .busy ∨ s.layer.waitingForPeer.isSome
  · -- the port joins the end of the queue
    have hnot : p ∉ s.layer.waitingForLayer := by
      rw [h.waitingForLayer]
      intro hmem
      exact hp (by simp only [Order.awaiting, List.append_assoc, List.mem_append] at hmem ⊢; exact .inr hmem)
    refine ⟨{ s with layer := { s.layer with waitingForLayer := s.layer.waitingForLayer ++ [p] } }, [.refused p],
      { o with fifo := o.fifo ++ [p] }, ?_, rfl, ?_⟩
    · simp [Sys.step, tryTiming, hbusy, hnot]
    · have hwait : o.awaiting ++ [p] = Order.awaiting { o with fifo := o.fifo ++ [p] } := by simp [Order.awaiting]
      exact { h with
        waitingForLayer := by simp [h.waitingForLayer]
        nodup := by
          rw [← hwait, List.nodup_append]
          exact ⟨h.nodup, by simp, fun a ha b hb => by rintro rfl; simp_all⟩
        sending := fun q hq => by
          obtain ⟨h1, h2⟩ := h.sending q hq
          refine ⟨?_, h2⟩
          rw [← hwait, List.mem_append, List.mem_singleton]
          rintro (hq1 | rfl)
          · exact h1 hq1
          · exact hsend hq
        idle := fun hi _ => by simpa [show s.layer.state = .idle from hi, h.waitingForPeer] using hbusy }
  · -- the layer is free
    obtain ⟨hstate, hpeer⟩ := not_or.1 hbusy
    refine ⟨{ s with layer := { s.layer with state := .busy }, sending := some p }, [], o, ?_, rfl, ?_⟩
    · simp [Sys.step, tryTiming, hbusy]
    · exact { h with
        sending := by
          rintro q ⟨⟩
          exact ⟨hp, rfl, h.notReleased hstate, by simpa [h.waitingForPeer] using hpeer⟩
        busy := by rintro ⟨⟩
        retry := by rintro ⟨⟩
        retrying := fun hr => ⟨(h.retrying hr).1, by simp⟩
        first := fun hf => absurd (h.first hf).1 hstate
        idle := by rintro ⟨⟩
        later := by rintro ⟨⟩ }

omit [DecidableEq P] in
theorem occupyLayer_eq {l : XbarLayer P} {now : Nat} (hs : l.state = .busy) (ht : t ≠ 0) (hn : now ≤ t)
    (hr : l.releaseEvent = none) : l.occupyLayer now t = .ok { l with releaseEvent := some t } := by
  simp [occupyLayer, hs, ht, hn, hr]

theorem succeededTiming_lands (h : Inv s o) (hl : Legal s o (.succeededTiming t)) : Lands s o (.succeededTiming t) := by
  obtain ⟨hsend, hnow, ht⟩ := hl
  obtain ⟨q, hq⟩ := Option.isSome_iff_exists.1 hsend
  obtain ⟨-, hbusy, hrel, hpeer⟩ := h.sending q hq
  refine ⟨{ s with layer := { s.layer with releaseEvent := some t }, sending := none }, [], o, ?_, rfl, ?_⟩
  · simp [Sys.step, succeededTiming, hbusy, occupyLayer_eq hbusy ht hnow hrel]
  · exact { h with
      sending := by rintro _ ⟨⟩
      busy := fun _ => by simp [hbusy]
      release := by
        rintro _ ⟨⟩
        exact ⟨Nat.pos_of_ne_zero ht, hnow⟩
      first := fun hf => by simp [h.notFirst (.inr (.inl hsend))] at hf }

theorem failedTiming_lands (h : Inv s o) (hl : Legal s o (.failedTiming t)) : Lands s o (.failedTiming t) := by
  obtain ⟨hsend, hnow, ht⟩ := hl
  obtain ⟨q, hq⟩ := Option.isSome_iff_exists.1 hsend
  obtain ⟨hout, hbusy, hrel, hpeer⟩ := h.sending q hq
  have hfirst : o.first = none := h.notFirst (.inr (.inl hsend))
  refine ⟨{ s with layer := { s.layer with waitingForPeer := some q, releaseEvent := some t }, sending := none },
    [.peerRefused q], { o with peer := some q }, ?_, rfl, ?_⟩
  · simp [Sys.step, failedTiming, occupyLayer, hq, h.waitingForPeer, hpeer, hbusy, hrel, ht, hnow]
  · exact { h with
      waitingForPeer := rfl
      nodup := by
        have hnd := h.nodup
        simp only [Order.awaiting, hpeer, hfirst, Option.toList_none, Option.toList_some, List.nil_append,
          List.singleton_append] at hnd hout ⊢
        exact List.nodup_cons.2 ⟨hout, hnd⟩
      sending := by rintro _ ⟨⟩
      busy := fun _ => by simp [hbusy]
      release := by
        rintro _ ⟨⟩
        exact ⟨Nat.pos_of_ne_zero ht, hnow⟩
      retry := fun hr => by simp [show s.layer.state = .retry from hr] at hbusy
      first := fun hf => by
        have hsome : o.first.isSome := hf
        simp [hfirst] at hsome
      idle := fun _ _ => rfl
      later := fun hi => by simp [show s.layer.state = .idle from hi] at hbusy }

theorem retryReturned_lands (h : Inv s o) (hl : Legal s o (.retryReturned t)) : Lands s o (.retryReturned t) := by
  obtain ⟨hret, hsend, hnow⟩ := hl
  obtain ⟨hpos, hidle⟩ := h.retrying hret
  by_cases hs : s.layer.state = .retry
  · -- the port did not send: the layer is kept busy until the next edge
    have hrel : s.layer.releaseEvent = none := h.notReleased (by simp [hs])
    refine ⟨{ s with layer := { s.layer with state := .busy, releaseEvent := some t }, retrying := false }, [], o, ?_,
      rfl, ?_⟩
    · have hocc := occupyLayer_eq (l := { s.layer with state := .busy }) (t := t) rfl (by omega) hnow hrel
      simp [Sys.step, retryReturned, hs, hocc]
    · exact { h with
        sending := fun q hq => by simp [show s.sending = some q from hq] at hsend
        busy := fun _ => by simp
        release := by
          rintro _ ⟨⟩
          exact ⟨by omega, hnow⟩
        retry := by rintro ⟨⟩
        retrying := by rintro ⟨⟩
        first := fun hf => by simp [h.notFirst (.inl (by simp [hs]))] at hf
        idle := by rintro ⟨⟩
        later := by rintro ⟨⟩ }
  · refine ⟨{ s with retrying := false }, [], o, by simp [Sys.step, retryReturned, hs], rfl, ?_⟩
    exact { h with
      retry := fun hr => absurd hr hs
      retrying := by rintro ⟨⟩ }

/-- The layer is idle, and a port waits for it alone: the retry goes to the next in order. -/
theorem retried_next (hpeer : o.peer = none) (hw : o.first.toList ++ o.fifo = p :: waiting) :
    o.next (.retried p) = some ⟨none, none, waiting⟩ := by
  obtain ⟨peer, first, fifo⟩ := o
  obtain rfl : peer = none := hpeer
  cases first with
  | none =>
    obtain rfl : fifo = p :: waiting := hw
    simp [Order.next]
  | some q =>
    obtain ⟨rfl, rfl⟩ : q = p ∧ fifo = waiting := by simpa using hw
    simp [Order.next]

omit [DecidableEq P] in
theorem inv_retried (hw : s.layer.waitingForLayer = waiting) (hnd : waiting.Nodup) (hs : s.layer.state = .retry)
    (hp : s.layer.waitingForPeer = none) (hrel : s.layer.releaseEvent = none) (hsend : s.sending = none)
    (hret : s.retrying = true) (hpos : 0 < s.now) : Inv s ⟨none, none, waiting⟩ where
  waitingForPeer := hp
  waitingForLayer := hw
  nodup := hnd
  sending := by simp [hsend]
  busy := by simp [hrel, hs]
  release := by simp [hrel]
  retry := fun _ => ⟨hret, rfl⟩
  retrying := fun _ => ⟨hpos, by simp [hs]⟩
  first := by rintro ⟨⟩
  idle := by simp [hs]
  later := by simp [hs]

omit [DecidableEq P] in
theorem Inv.released (h : Inv s o) (hrel : s.layer.releaseEvent = some s.now) (hret : s.retrying = false)
    (hsend : s.sending = none) (hw : s.layer.waitingForLayer ≠ [] → o.peer.isSome) :
    Inv { s with layer := { s.layer with state := .idle, releaseEvent := none } } o :=
  { h with
    sending := fun q hq => by simp [show s.sending = some q from hq] at hsend
    busy := fun _ => by simp
    release := by rintro _ ⟨⟩
    retry := by rintro ⟨⟩
    retrying := fun hr => by simp [show s.retrying = true from hr] at hret
    first := fun hf => by
      -- a port that the peer let go is in the queue, and would have been retried
      have hpeer := hw (by rw [h.waitingForLayer]; intro hnil; simp_all)
      simp [(h.first hf).2.2] at hpeer
    idle := fun _ hne => hw hne
    later := fun _ _ => (h.release _ hrel).1 }

theorem release_lands (h : Inv s o) (hl : Legal s o .release) : Lands s o .release := by
  obtain ⟨hrel, hret, hsend⟩ := hl
  have hbusy : s.layer.state = .busy := (h.busy hsend).1 (by simp [hrel])
  by_cases hw : s.layer.waitingForLayer ≠ [] ∧ o.peer = none
  · obtain ⟨hne, hp⟩ := hw
    obtain ⟨p, waiting, hw⟩ := List.exists_cons_of_ne_nil hne
    refine ⟨{ s with
        layer := { s.layer with state := .retry, waitingForLayer := waiting, releaseEvent := none }
        retrying := true }, [.retried p], ⟨none, none, waiting⟩, ?_, ?_, ?_⟩
    · simp [Sys.step, releaseLayer, retryWaiting, hbusy, hw, h.waitingForPeer, hp, Sys.sent]
    · simp [Order.nexts, retried_next hp (h.waitingForLayer ▸ hw)]
    · have hnd : (p :: waiting).Nodup := by
        rw [← hw, h.waitingForLayer]
        simpa [Order.awaiting, hp] using h.nodup
      exact inv_retried rfl hnd.of_cons rfl (h.waitingForPeer.trans hp) rfl hsend rfl (h.release _ hrel).1
  · have hwait : s.layer.waitingForLayer ≠ [] → o.peer.isSome := fun hne => by
      rw [Option.isSome_iff_ne_none]
      exact fun hp => hw ⟨hne, hp⟩
    refine ⟨_, [], o, ?_, rfl, h.released hrel hret hsend hwait⟩
    have hskip : ¬ (¬ s.layer.waitingForLayer = [] ∧ s.layer.waitingForPeer = none) := by
      rw [h.waitingForPeer]
      exact hw
    simp [Sys.step, releaseLayer, hbusy, hskip, Sys.sent]

theorem recvRetry_lands (h : Inv s o) (hl : Legal s o .recvRetry) : Lands s o .recvRetry := by
  obtain ⟨p, hp⟩ := Option.isSome_iff_exists.1 (show o.peer.isSome from hl)
  have hfirst : o.first = none := h.notFirst (.inr (.inr hl))
  have hw : s.layer.waitingForLayer = o.fifo := by simpa [hfirst] using h.waitingForLayer
  have hnd : (p :: o.fifo).Nodup := by simpa [Order.awaiting, hp, hfirst] using h.nodup
  cases hs : s.layer.state with
  | idle =>
    have hne : s.layer.state ≠ .busy := by simp [hs]
    refine ⟨{ s with layer := { s.layer with state := .retry, waitingForPeer := none }, retrying := true },
      [.peerRetry, .retried p], ⟨none, none, o.fifo⟩, ?_, ?_, ?_⟩
    · simp [Sys.step, recvRetry, retryWaiting, hs, h.waitingForPeer, hp, Sys.sent]
    · simp [Order.nexts, Order.next, hp]
    · exact inv_retried hw hnd.of_cons rfl rfl (h.notReleased hne) (h.notSending hne) rfl (h.later hs hl)
  | busy =>
    refine ⟨{ s with layer := { s.layer with waitingForLayer := p :: s.layer.waitingForLayer, waitingForPeer := none } },
      [.peerRetry], ⟨none, some p, o.fifo⟩, ?_, ?_, ?_⟩
    · simp [Sys.step, recvRetry, hs, h.waitingForPeer, hp, Sys.sent]
    · simp [Order.nexts, Order.next, hp]
    · have hsend : s.sending = none := by
        cases hq : s.sending with
        | none => rfl
        | some q => simp [(h.sending q hq).2.2.2] at hp
      exact { h with
        waitingForPeer := rfl
        waitingForLayer := by simp [hw]
        nodup := hnd
        sending := fun q hq => by simp [show s.sending = some q from hq] at hsend
        retry := fun hr => by simp [show s.layer.state = .retry from hr] at hs
        first := fun _ => ⟨hs, hsend, rfl⟩
        idle := fun hi => by simp [show s.layer.state = .idle from hi] at hs
        later := by rintro _ ⟨⟩ }
  | retry => exact absurd (h.retry hs).2 (by simp [hp])

theorem advance_lands (h : Inv s o) (hl : Legal s o (.advance t)) : Lands s o (.advance t) := by
  obtain ⟨hnow, hret, hsend, hrel⟩ := hl
  refine ⟨{ s with now := t }, [], o, rfl, rfl, ?_⟩
  exact { h with
    release := fun u hu => ⟨(h.release u hu).1, hrel u hu⟩
    retrying := fun hr => by simp [show s.retrying = true from hr] at hret
    later := fun hi hp => Nat.lt_of_lt_of_le (h.later hi hp) hnow }

theorem step_lands (h : Inv s o) : ∀ e, Legal s o e → Lands s o e
  | .tryTiming _, hl => tryTiming_lands h hl
  | .succeededTiming _, hl => succeededTiming_lands h hl
  | .failedTiming _, hl => failedTiming_lands h hl
  | .retryReturned _, hl => retryReturned_lands h hl
  | .release, hl => release_lands h hl
  | .recvRetry, hl => recvRetry_lands h hl
  | .advance _, hl => advance_lands h hl

theorem Reach.inv (h : Reach s o) : Inv s o := by
  induction h with
  | create now => exact inv_create now
  | step _ hl hstep hnext ih =>
    obtain ⟨s', obs, o', hstep', hnext', hinv⟩ := step_lands ih _ hl
    obtain ⟨rfl, rfl⟩ := Prod.mk.inj (Except.ok.inj (hstep'.symm.trans hstep))
    obtain rfl := Option.some.inj (hnext'.symm.trans hnext)
    exact hinv

def twoRefused : Sys Nat := ⟨⟨.busy, [2], some 1, some 5⟩, 3, none, false⟩

theorem twoRefused_reach : Reach twoRefused ⟨some 1, none, [2]⟩ := by
  have hsend : Reach (P := Nat) ⟨⟨.busy, [], none, none⟩, 3, some 1, false⟩ ⟨none, none, []⟩ :=
    .step (.create 3) (e := .tryTiming 1) ⟨by simp [Order.awaiting], by simp⟩ rfl rfl
  have hwait : Reach (P := Nat) ⟨⟨.busy, [2], none, none⟩, 3, some 1, false⟩ ⟨none, none, [2]⟩ :=
    .step hsend (e := .tryTiming 2) ⟨by simp [Order.awaiting], by simp⟩ rfl rfl
  exact .step hwait (e := .failedTiming 5) ⟨rfl, by simp, by simp⟩ rfl rfl

end XbarLayer

end Gem5
