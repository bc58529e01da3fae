import Gem5Cxl.PacketQueue
/-!
# SendQueue — a deque of deferred packets and the event that sends its head (`dev/PciBridge2.cc`)

The part that the request and the response ports of the bridge share.  A queue keeps the tick its send event is
scheduled at.  What enters and leaves it is kept in a `Ledger`, with whether the peer refused the head and owes a retry;
`Tracks` relates the two.
-/
namespace Gem5

structure SendQueue where
  transmitList : List DeferredPacket := []
  sendEvent : Option Nat := none

namespace SendQueue

def schedule (now : Nat) (q : SendQueue) (when : Nat) : Except Failure SendQueue := do
  assertThat (decide (now ≤ when))
  assertThat q.sendEvent.isNone
  pure { q with sendEvent := some when }

/-- The first packet of an empty queue schedules the send event. -/
def wake (now : Nat) (q : SendQueue) (when : Nat) : Except Failure SendQueue :=
  if q.transmitList.isEmpty then q.schedule now when else .ok q

def emplaceBack (q : SendQueue) (pkt : Packet) (when : Nat) : SendQueue :=
  { q with transmitList := q.transmitList ++ [⟨when, pkt⟩] }

def schedTimingReq (now reqQueueLimit : Nat) (q : SendQueue) (pkt : Packet) (when : Nat) : Except Failure SendQueue := do
  let q ← q.wake now when
  assertThat (decide (q.transmitList.length ≠ reqQueueLimit))
  pure (q.emplaceBack pkt when)

def schedTimingResp (now : Nat) (q : SendQueue) (pkt : Packet) (when : Nat) : Except Failure SendQueue := do
  let q ← q.wake now when
  pure (q.emplaceBack pkt when)

/-- The two assertions `trySendTiming` makes before it sends the head. -/
def front (now : Nat) (q : SendQueue) : Except Failure DeferredPacket :=
  match q.transmitList with
  | [] => .error .assertFailed
  | d :: _ => assertThat (decide (d.tick ≤ now)) >>= fun _ => pure d

/-- What `trySendTiming` does after the peer took the head: pop it, and schedule the next. -/
def popFront (now : Nat) (q : SendQueue) : Except Failure SendQueue :=
  match q.transmitList.tail with
  | [] => .ok { q with transmitList := [] }
  | d :: rest => ({ q with transmitList := d :: rest } : SendQueue).schedule now d.tick

end SendQueue

/-- What went through a queue, and whether its peer owes it a retry. -/
structure Ledger where
  accepted : List Packet := []
  sent : List Packet := []
  owed : Bool := false

namespace Ledger

def accept (g : Ledger) (pkt : Packet) : Ledger := { g with accepted := g.accepted ++ [pkt] }

def offer (g : Ledger) (pkt : Packet) (taken : Bool) : Ledger :=
  if taken then { g with sent := g.sent ++ [pkt], owed := false } else { g with owed := true }

end Ledger

namespace SendQueue

/-- **A queue and what went through it**: what was accepted is what was sent, then what waits, in order.  The head of
the queue waits for its send event, which is not in the past, or for the retry the peer owes. -/
structure Tracks (now : Nat) (q : SendQueue) (g : Ledger) : Prop where
  inOrder : g.accepted = g.sent ++ q.transmitList.map DeferredPacket.pkt
  idle : q.transmitList = [] → q.sendEvent = none ∧ g.owed = false
  busy : ∀ d rest, q.transmitList = d :: rest →
    q.sendEvent = some d.tick ∧ now ≤ d.tick ∧ g.owed = false ∨ q.sendEvent = none ∧ d.tick ≤ now ∧ g.owed = true

theorem tracks_empty (now : Nat) : Tracks now {} {} := by
  constructor
  · rfl
  · intro _
    exact ⟨rfl, rfl⟩
  · rintro d rest h
    cases h

variable {now when : Nat} {q q' : SendQueue} {g : Ledger}

theorem schedule_eq_ok :
    q.schedule now when = .ok q' ↔ now ≤ when ∧ q.sendEvent = none ∧ q' = { q with sendEvent := some when } := by
  unfold schedule
  simp only [Run.bind_eq_ok, assertThat_eq_ok, decide_eq_true_eq, Option.isNone_iff_eq_none, Run.pure_eq_ok,
    Except.ok.injEq, exists_const]
  constructor
  · rintro ⟨hle, hnone, rfl⟩
    exact ⟨hle, hnone, rfl⟩
  · rintro ⟨hle, hnone, rfl⟩
    exact ⟨hle, hnone, rfl⟩

theorem Tracks.advance {t : Nat} (h : q.Tracks now g) (hle : now ≤ t) (hev : ∀ x, q.sendEvent = some x → t ≤ x) :
    q.Tracks t g := by
  refine ⟨h.inOrder, h.idle, ?_⟩
  intro d rest hd
  rcases h.busy d rest hd with ⟨hs, -, ho⟩ | ⟨hs, htick, ho⟩
  · exact .inl ⟨hs, hev d.tick hs, ho⟩
  · exact .inr ⟨hs, by omega, ho⟩

theorem wake_eq_ok (h : q.transmitList = [] → q.sendEvent = none) : q.wake now when = .ok q' ↔
      q.transmitList = [] ∧ now ≤ when ∧ q' = { q with sendEvent := some when } ∨ q.transmitList ≠ [] ∧ q' = q := by
  unfold wake
  by_cases hq : q.transmitList = []
  · rw [if_pos (List.isEmpty_iff.2 hq), schedule_eq_ok]
    simp [hq, h hq]
  · rw [if_neg (fun he => hq (List.isEmpty_iff.1 he))]
    simp [hq, eq_comm]

/-- **Queueing a packet** returns exactly when a packet that finds the queue empty is not due in the past. -/
theorem Tracks.schedTimingResp_iff (h : q.Tracks now g) (pkt : Packet) (when : Nat) :
    (∃ q', q.schedTimingResp now pkt when = .ok q') ↔ (q.transmitList = [] → now ≤ when) := by
  simp only [SendQueue.schedTimingResp, Run.bind_eq_ok, wake_eq_ok (fun hq => (h.idle hq).1), Run.pure_eq_ok,
    Except.ok.injEq]
  constructor
  · rintro ⟨_, _, ⟨-, hle, -⟩ | ⟨hne, -⟩, -⟩ hq
    · exact hle
    · exact absurd hq hne
  · intro hle
    by_cases hq : q.transmitList = []
    · exact ⟨_, _, .inl ⟨hq, hle hq, rfl⟩, rfl⟩
    · exact ⟨_, _, .inr ⟨hq, rfl⟩, rfl⟩

theorem Tracks.schedTimingResp {pkt : Packet} (h : q.Tracks now g) (hq : q.schedTimingResp now pkt when = .ok q') :
    q'.Tracks now (g.accept pkt) := by
  simp only [SendQueue.schedTimingResp, Run.bind_eq_ok, wake_eq_ok (fun hq => (h.idle hq).1), Run.pure_eq_ok,
    Except.ok.injEq] at hq
  obtain ⟨_, ⟨he, hle, rfl⟩ | ⟨hne, rfl⟩, rfl⟩ := hq
  · refine ⟨?_, ?_, ?_⟩
    · simp [Ledger.accept, emplaceBack, h.inOrder, he]
    · intro hnil
      simp [emplaceBack] at hnil
    · rintro d rest hd
      simp only [emplaceBack, he, List.nil_append, List.cons.injEq] at hd
      obtain ⟨rfl, -⟩ := hd
      exact .inl ⟨rfl, hle, (h.idle he).2⟩
  · refine ⟨?_, ?_, ?_⟩
    · simp [Ledger.accept, emplaceBack, h.inOrder]
    · intro hnil
      simp [emplaceBack] at hnil
    · rintro d rest hd
      -- the head is the one that was there
      obtain ⟨e, t, het⟩ := List.exists_cons_of_ne_nil hne
      simp only [emplaceBack, het, List.cons_append, List.cons.injEq] at hd
      obtain ⟨rfl, -⟩ := hd
      exact h.busy e t het

theorem wake_transmitList (h : q.wake now when = .ok q') : q'.transmitList = q.transmitList := by
  unfold wake at h
  split at h
  · rw [(schedule_eq_ok.1 h).2.2]
  · injection h with h
    rw [h]

theorem schedTimingReq_eq {limit : Nat} (pkt : Packet) (when : Nat) (hl : q.transmitList.length ≠ limit) :
    q.schedTimingReq now limit pkt when = q.schedTimingResp now pkt when := by
  unfold SendQueue.schedTimingReq SendQueue.schedTimingResp
  cases hw : q.wake now when with
  | error f => rfl
  | ok q' => simp [wake_transmitList hw, hl, assertThat]

def Due (now : Nat) (q : SendQueue) : Prop :=
  ∃ d rest, q.transmitList = d :: rest ∧ d.tick ≤ now ∧ q.sendEvent = none

theorem Tracks.due_of_event (h : q.Tracks now g) (he : q.sendEvent = some now) :
    ({ q with sendEvent := none } : SendQueue).Due now := by
  cases hq : q.transmitList with
  | nil =>
    rw [(h.idle hq).1] at he
    cases he
  | cons d rest =>
    rcases h.busy d rest hq with ⟨hs, -, -⟩ | ⟨hs, -, -⟩
    · rw [hs] at he
      injection he with he
      exact ⟨d, rest, rfl, by omega, rfl⟩
    · rw [hs] at he
      cases he

theorem Tracks.due_of_owed (h : q.Tracks now g) (ho : g.owed = true) : q.Due now := by
  cases hq : q.transmitList with
  | nil =>
    rw [(h.idle hq).2] at ho
    cases ho
  | cons d rest =>
    rcases h.busy d rest hq with ⟨-, -, ho'⟩ | ⟨hs, htick, -⟩
    · rw [ho'] at ho
      cases ho
    · exact ⟨d, rest, hq, htick, hs⟩

theorem Due.front (h : q.Due now) : ∃ d rest, q.transmitList = d :: rest ∧ q.front now = .ok d := by
  obtain ⟨d, rest, hq, htick, -⟩ := h
  refine ⟨d, rest, hq, ?_⟩
  simp [SendQueue.front, hq, assertThat, htick]

/-- **The next packet after a send** is scheduled, and that returns exactly when it is not due in the past. -/
theorem Due.popFront_iff (h : q.Due now) :
    (∃ q', q.popFront now = .ok q') ↔ ∀ d rest, q.transmitList.tail = d :: rest → now ≤ d.tick := by
  obtain ⟨-, -, -, -, hev⟩ := h
  unfold popFront
  split
  · rename_i ht
    simp [ht]
  · rename_i d rest ht
    simp only [schedule_eq_ok, hev, true_and]
    constructor
    · rintro ⟨_, hle, -⟩ e t he
      rw [ht] at he
      injection he with he _
      rw [← he]
      exact hle
    · intro hle
      exact ⟨_, hle d rest ht, rfl⟩

theorem Due.tracks_popFront {d : DeferredPacket} {rest : List DeferredPacket} (h : q.Due now)
    (hq : q.transmitList = d :: rest) (hin : g.accepted = g.sent ++ q.transmitList.map DeferredPacket.pkt)
    (hp : q.popFront now = .ok q') : q'.Tracks now (g.offer d.pkt true) := by
  obtain ⟨-, -, -, -, hev⟩ := h
  have hin' : (g.offer d.pkt true).accepted = (g.offer d.pkt true).sent ++ rest.map DeferredPacket.pkt := by
    simp [Ledger.offer, hin, hq]
  unfold popFront at hp
  simp only [hq, List.tail_cons] at hp
  cases rest with
  | nil =>
    simp only [Except.ok.injEq] at hp
    subst hp
    refine ⟨hin', fun _ => ⟨hev, rfl⟩, ?_⟩
    rintro e t he
    cases he
  | cons e t =>
    obtain ⟨hle, -, rfl⟩ := schedule_eq_ok.1 hp
    refine ⟨hin', ?_, ?_⟩
    · intro hnil
      cases hnil
    · rintro e' t' he'
      injection he' with he' _
      subst he'
      exact .inl ⟨rfl, hle, rfl⟩

theorem Due.tracks_refused (h : q.Due now) (pkt : Packet)
    (hin : g.accepted = g.sent ++ q.transmitList.map DeferredPacket.pkt) : q.Tracks now (g.offer pkt false) := by
  obtain ⟨d, rest, hq, htick, hev⟩ := h
  refine ⟨hin, ?_, ?_⟩
  · intro hnil
    rw [hnil] at hq
    cases hq
  · intro e t he
    rw [hq] at he
    injection he with he _
    subst he
    exact .inr ⟨hev, htick, rfl⟩

end SendQueue
end Gem5
