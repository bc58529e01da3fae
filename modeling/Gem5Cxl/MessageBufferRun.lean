import Gem5Cxl.MessageBuffer
/-!
# MessageBufferRun — conservation and order over whole runs of a message buffer

A run is a list of calls, with a log of the messages that entered and that left, each under the counter the buffer gave
it.  Every call moves messages between the heap and the stall lists and the log; the heap stays a heap.  From that: no
message is lost or doubled, the least message leaves first, and, where nothing is recycled or stalled, messages leave an
ordered buffer in the order they entered it.
-/
namespace Gem5.Ruby

open Run (bind_eq_ok map_eq_ok)

variable {β : Type}

def Message.tag (m : Message β) : Nat × β := (m.msgCounter, m.payload)

theorem Message.before_iff {l r : Message β} : l.before r = true ↔
    l.lastEnqueueTime < r.lastEnqueueTime ∨ (l.lastEnqueueTime = r.lastEnqueueTime ∧ l.msgCounter < r.msgCounter) := by
  simp only [before, gt]
  split
  · rename_i h
    simp [h]
  · rename_i h
    simp only [decide_eq_true_eq]
    omega

namespace MessageBuffer

def stalled (map : List (Addr × List (Message β))) : List (Message β) := map.flatMap (·.2)

def held (b : MessageBuffer β) : List (Message β) := b.prioHeap.toList ++ stalled b.stallMsgMap

theorem stalled_stallAt (addr : Addr) (m : Message β) :
    ∀ map : List (Addr × List (Message β)), (stalled (stallAt addr m map)).Perm (m :: stalled map)
  | [] => .refl _
  | (a, l) :: map => by
    rw [stallAt]
    split
    · simp only [stalled, List.flatMap_cons, List.append_assoc, List.singleton_append]
      exact List.perm_middle
    · split
      · exact .refl _
      · simp only [stalled, List.flatMap_cons]
        exact ((stalled_stallAt addr m map).append_left l).trans List.perm_middle

theorem stalled_eraseP (addr : Addr) : ∀ map : List (Addr × List (Message β)),
    (stalled map).Perm (stalledAt map addr ++ stalled (map.eraseP (·.1 == addr)))
  | [] => .refl _
  | (a, l) :: map => by
    by_cases h : (a == addr) = true
    · simp [stalled, stalledAt, h]
    · have ih := stalled_eraseP addr map
      simp only [stalled, stalledAt] at ih ⊢
      rw [List.find?_cons_of_neg (by simpa using h), List.eraseP_cons_of_neg (by simpa using h), List.flatMap_cons,
        List.flatMap_cons]
      exact (ih.append_left l).trans (by
        rw [← List.append_assoc, ← List.append_assoc]
        exact List.perm_append_comm.append_right _)

variable [Inhabited β] {p : Params}

def HeapOk (heap : Array (Message β)) : Prop := BinaryHeap.IsHeap Message.before heap heap.size

variable {heap : Array (Message β)} {b : MessageBuffer β} {m : Message β}

theorem HeapOk.pushed (h : HeapOk heap) (m : Message β) :
    HeapOk (pushed heap m) ∧ (MessageBuffer.pushed heap m).toList.Perm (m :: heap.toList) :=
  BinaryHeap.isHeap_push Message.strictWeak_before h m

theorem HeapOk.popped (h : HeapOk heap) (hpos : 0 < heap.size) :
    HeapOk (popped heap) ∧ heap.toList.Perm (heap[0]! :: (MessageBuffer.popped heap).toList) :=
  BinaryHeap.isHeap_pop Message.strictWeak_before h hpos

theorem HeapOk.peek_le (h : HeapOk b.prioHeap) (hm : m ∈ b.prioHeap.toList) :
    m.before b.peek = false := BinaryHeap.IsHeap.root_le_of_mem Message.strictWeak_before h hm

/-! ## What each call does -/

section Calls

variable {b b' : MessageBuffer β}

variable {m : Message β} {t : Nat} {addr : Addr}

theorem enqueue_spec {warmup : Bool} {d : Nat} (h : b.enqueue p warmup m t d = .ok b') :
    ∃ m' : Message β, m'.tag = (b.msgCounter + 1, m.payload) ∧ b'.prioHeap = pushed b.prioHeap m' ∧
      b'.stallMsgMap = b.stallMsgMap ∧ b'.msgCounter = b.msgCounter + 1 ∧
      (p.strictFifo = true → b.lastArrivalTime ≤ m'.lastEnqueueTime) ∧
      (warmup = false → b'.lastArrivalTime = m'.lastEnqueueTime) := by
  simp only [enqueue] at h
  obtain ⟨-, -, h⟩ := bind_eq_ok.1 h
  obtain ⟨-, -, h⟩ := bind_eq_ok.1 h
  obtain ⟨_, hfifo, h⟩ := bind_eq_ok.1 h
  obtain ⟨-, -, h⟩ := bind_eq_ok.1 h
  obtain ⟨m₁, hm₁, h⟩ := bind_eq_ok.1 h
  obtain ⟨-, -, h⟩ := bind_eq_ok.1 h
  obtain ⟨-, -, hm₁⟩ := bind_eq_ok.1 hm₁
  cases hm₁
  cases h
  refine ⟨_, rfl, rfl, rfl, rfl, fun hs => ?_, fun hw => by simp [hw]⟩
  rw [panicIf_eq_ok, hs, Bool.true_and, decide_eq_false_iff_not, Nat.not_lt] at hfifo
  exact hfifo

theorem isReady_spec (h : b.isReady p t = .ok true) : 0 < b.prioHeap.size ∧ b.peek.lastEnqueueTime ≤ t := by
  obtain ⟨-, -, h⟩ := bind_eq_ok.1 h
  simp only [Run.pure_eq_ok, Except.ok.injEq, Bool.and_eq_true, decide_eq_true_eq] at h
  exact h.2

theorem ready_of_assert {r : Bool} {u : Unit} (hr : b.isReady p t = .ok r) (ha : assertThat r = .ok u) :
    0 < b.prioHeap.size ∧ b.peek.lastEnqueueTime ≤ t := by
  rw [assertThat_eq_ok] at ha
  subst ha
  exact isReady_spec hr

theorem dequeue_spec (h : b.dequeue p t = .ok (b', m)) :
    0 < b.prioHeap.size ∧ b.peek.lastEnqueueTime ≤ t ∧ m.tag = b.peek.tag ∧ b'.prioHeap = popped b.prioHeap ∧
      b'.stallMsgMap = b.stallMsgMap ∧ b'.msgCounter = b.msgCounter ∧ b'.lastArrivalTime = b.lastArrivalTime := by
  obtain ⟨r, hr, h⟩ := bind_eq_ok.1 h
  obtain ⟨_, ha, h⟩ := bind_eq_ok.1 h
  obtain ⟨hpos, hready⟩ := ready_of_assert hr ha
  obtain ⟨m', hm, h⟩ := bind_eq_ok.1 h
  obtain ⟨-, -, hm⟩ := bind_eq_ok.1 hm
  cases hm
  cases h
  exact ⟨hpos, hready, rfl, rfl, rfl, rfl, rfl⟩

theorem recycle_spec {l : Nat} (h : b.recycle p t l = .ok b') :
    0 < b.prioHeap.size ∧ ∃ node : Message β, node.tag = b.peek.tag ∧
      b' = { b with prioHeap := pushed (popped b.prioHeap) node } := by
  obtain ⟨r, hr, h⟩ := bind_eq_ok.1 h
  obtain ⟨_, ha, h⟩ := bind_eq_ok.1 h
  cases h
  exact ⟨(ready_of_assert hr ha).1, { b.peek with lastEnqueueTime := (t + l) % 2 ^ 64 }, rfl, rfl⟩

theorem stallMessage_spec (h : b.stallMessage p addr t = .ok b') :
    ∃ b₁ m, b.dequeue p t = .ok (b₁, m) ∧ b'.prioHeap = b₁.prioHeap ∧
      b'.stallMsgMap = stallAt addr m b₁.stallMsgMap ∧ b'.msgCounter = b₁.msgCounter := by
  obtain ⟨r, -, h⟩ := bind_eq_ok.1 h
  obtain ⟨-, -, h⟩ := bind_eq_ok.1 h
  obtain ⟨-, -, h⟩ := bind_eq_ok.1 h
  obtain ⟨⟨b₁, m⟩, hd, h⟩ := bind_eq_ok.1 h
  cases h
  exact ⟨b₁, m, hd, rfl, rfl, rfl⟩

theorem reanalyzeList_spec :
    ∀ {l : List (Message β)} {heap heap' : Array (Message β)}, reanalyzeList heap t l = .ok heap' → HeapOk heap →
      HeapOk heap' ∧ heap'.toList.Perm (l ++ heap.toList)
  | [], heap, heap', h, hh => by
    cases h
    exact ⟨hh, .refl _⟩
  | m :: l, heap, heap', h, hh => by
    obtain ⟨-, -, h⟩ := bind_eq_ok.1 h
    obtain ⟨hp, hperm⟩ := hh.pushed m
    obtain ⟨hh', hperm'⟩ := reanalyzeList_spec h hp
    refine ⟨hh', hperm'.trans ?_⟩
    exact (hperm.append_left l).trans List.perm_middle

theorem reanalyzeLists_spec : ∀ {map : List (Addr × List (Message β))} {heap heap' : Array (Message β)} {n n' : Int},
      reanalyzeLists heap n t map = .ok (heap', n') → HeapOk heap →
      HeapOk heap' ∧ heap'.toList.Perm (stalled map ++ heap.toList)
  | [], heap, heap', n, n', h, hh => by
    cases h
    exact ⟨hh, .refl _⟩
  | (a, l) :: map, heap, heap', n, n', h, hh => by
    obtain ⟨-, -, h⟩ := bind_eq_ok.1 h
    obtain ⟨heap₁, h₁, h⟩ := bind_eq_ok.1 h
    obtain ⟨hh₁, hperm₁⟩ := reanalyzeList_spec h₁ hh
    obtain ⟨hh', hperm'⟩ := reanalyzeLists_spec h hh₁
    refine ⟨hh', hperm'.trans ?_⟩
    rw [show stalled ((a, l) :: map) = l ++ stalled map from rfl]
    refine (hperm₁.append_left _).trans ?_
    rw [← List.append_assoc]
    exact List.perm_append_comm.append_right _

theorem reanalyzeMessages_spec (h : b.reanalyzeMessages addr t = .ok b') (hh : HeapOk b.prioHeap) :
    HeapOk b'.prioHeap ∧ b'.prioHeap.toList.Perm (stalledAt b.stallMsgMap addr ++ b.prioHeap.toList) ∧
      b'.stallMsgMap = b.stallMsgMap.eraseP (·.1 == addr) ∧ b'.msgCounter = b.msgCounter ∧
      b.stallMsgMap.any (·.1 == addr) = true := by
  obtain ⟨_, hany, h⟩ := bind_eq_ok.1 h
  obtain ⟨-, -, h⟩ := bind_eq_ok.1 h
  obtain ⟨heap, hl, h⟩ := bind_eq_ok.1 h
  cases h
  obtain ⟨hh', hperm⟩ := reanalyzeList_spec hl hh
  exact ⟨hh', hperm, rfl, rfl, assertThat_eq_ok.1 hany⟩

theorem reanalyzeAllMessages_spec (h : b.reanalyzeAllMessages t = .ok b') (hh : HeapOk b.prioHeap) :
    HeapOk b'.prioHeap ∧ b'.prioHeap.toList.Perm (stalled b.stallMsgMap ++ b.prioHeap.toList) ∧
      b'.stallMsgMap = [] ∧ b'.msgCounter = b.msgCounter ∧ b'.lastArrivalTime = b.lastArrivalTime := by
  obtain ⟨⟨heap, n⟩, hl, h⟩ := bind_eq_ok.1 h
  cases h
  obtain ⟨hh', hperm⟩ := reanalyzeLists_spec hl hh
  exact ⟨hh', hperm, rfl, rfl, rfl⟩

end Calls

/-! ## Runs -/

inductive Call (β : Type) where
  | enqueue (warmup : Bool) (message : Message β) (currentTime delta : Nat)
  | dequeue (currentTime : Nat)
  | recycle (currentTime recycleLatency : Nat)
  | stallMessage (addr : Addr) (currentTime : Nat)
  | reanalyzeMessages (addr : Addr) (currentTime : Nat)
  | reanalyzeAllMessages (currentTime : Nat)

structure Log (β : Type) where
  entered : List (Nat × β) := []
  left : List (Nat × β) := []

def exec (p : Params) (s : MessageBuffer β × Log β) : Call β → Except Failure (MessageBuffer β × Log β)
  | .enqueue warmup message t d => do
    let b ← s.1.enqueue p warmup message t d
    return (b, { s.2 with entered := s.2.entered ++ [(b.msgCounter, message.payload)] })
  | .dequeue t => do
    let (b, m) ← s.1.dequeue p t
    return (b, { s.2 with left := s.2.left ++ [m.tag] })
  | .recycle t l => (s.1.recycle p t l).map (·, s.2)
  | .stallMessage addr t => (s.1.stallMessage p addr t).map (·, s.2)
  | .reanalyzeMessages addr t => (s.1.reanalyzeMessages addr t).map (·, s.2)
  | .reanalyzeAllMessages t => (s.1.reanalyzeAllMessages t).map (·, s.2)

def run (p : Params) (s : MessageBuffer β × Log β) : List (Call β) → Except Failure (MessageBuffer β × Log β)
  | [] => .ok s
  | call :: calls => do
    let s ← exec p s call
    run p s calls

/-- **Invariants over runs**: what every call of a kind keeps, a run of such calls keeps. -/
theorem run_induction {P : MessageBuffer β × Log β → Prop} (ok : Call β → Prop)
    (hstep : ∀ s s' call, ok call → exec p s call = .ok s' → P s → P s') :
    ∀ {calls : List (Call β)} {s s' : MessageBuffer β × Log β}, (∀ call ∈ calls, ok call) →
      run p s calls = .ok s' → P s → P s'
  | [], s, s', _, h, hs => by
    cases h
    exact hs
  | call :: calls, s, s', hok, h, hs => by
    obtain ⟨s₁, hx, h⟩ := bind_eq_ok.1 h
    exact run_induction ok hstep (fun c hc => hok c (List.mem_cons_of_mem _ hc)) h
      (hstep s s₁ call (hok call List.mem_cons_self) hx hs)

/-! ## Conservation -/

/-- **What is held and what left is what entered.** -/
structure Conserved (s : MessageBuffer β × Log β) : Prop where
  heap : HeapOk s.1.prioHeap
  perm : (s.1.held.map Message.tag ++ s.2.left).Perm s.2.entered
  counters : s.2.entered.map (·.1) = List.range' 1 s.1.msgCounter

theorem Conserved.init : Conserved (({}, {}) : MessageBuffer β × Log β) :=
  ⟨fun i _ hi => absurd hi (Nat.not_lt_zero i), .refl _, rfl⟩

variable {s s' : MessageBuffer β × Log β}

theorem Conserved.moved (hc : Conserved s) (hh : HeapOk s'.1.prioHeap)
    (hperm : (s'.1.held.map Message.tag).Perm (s.1.held.map Message.tag)) (hlog : s'.2 = s.2)
    (hcount : s'.1.msgCounter = s.1.msgCounter) : Conserved s' := by
  refine ⟨hh, ?_, ?_⟩
  · rw [hlog]
    exact (hperm.append_right _).trans hc.perm
  · rw [hlog, hcount]
    exact hc.counters

theorem held_perm_popped (hh : HeapOk b.prioHeap) (hpos : 0 < b.prioHeap.size) :
    b.held.Perm (b.peek :: ((popped b.prioHeap).toList ++ stalled b.stallMsgMap)) :=
  (hh.popped hpos).2.append_right _

theorem Conserved.step {call : Call β} (h : exec p s call = .ok s') (hc : Conserved s) : Conserved s' := by
  cases call with
  | enqueue warmup message t d =>
    obtain ⟨b, hb, h⟩ := bind_eq_ok.1 h
    cases h
    obtain ⟨m', htag, hheap, hstall, hcount, -, -⟩ := enqueue_spec hb
    obtain ⟨hh, hperm⟩ := hc.heap.pushed m'
    refine ⟨by rw [hheap]; exact hh, ?_, ?_⟩
    · have hheld : b.held.Perm (m' :: s.1.held) := by
        rw [held, hheap, hstall]
        exact hperm.append_right _
      refine ((hheld.map _).append_right _).trans ?_
      rw [List.map_cons, List.cons_append, htag, hcount]
      exact (hc.perm.cons _).trans (List.perm_append_singleton _ _).symm
    · rw [List.map_append, hc.counters, hcount, List.range'_1_concat]
      simp [Nat.add_comm]
  | dequeue t =>
    obtain ⟨⟨b, m⟩, hb, h⟩ := bind_eq_ok.1 h
    cases h
    obtain ⟨hpos, -, htag, hheap, hstall, hcount, -⟩ := dequeue_spec hb
    have hheld := held_perm_popped hc.heap hpos
    refine ⟨by rw [hheap]; exact (hc.heap.popped hpos).1, ?_, by rw [hcount]; exact hc.counters⟩
    refine .trans ?_ hc.perm
    rw [htag]
    have hb' : b.held = (popped s.1.prioHeap).toList ++ stalled s.1.stallMsgMap := by rw [held, hheap, hstall]
    rw [hb', ← List.append_assoc]
    refine (List.perm_append_singleton _ _).trans ?_
    exact ((hheld.map Message.tag).append_right _).symm
  | recycle t l =>
    obtain ⟨b, hb, h⟩ := map_eq_ok.1 h
    subst h
    obtain ⟨hpos, node, htag, rfl⟩ := recycle_spec hb
    obtain ⟨hh₁, -⟩ := hc.heap.popped hpos
    obtain ⟨hh, hperm⟩ := hh₁.pushed node
    refine hc.moved hh ?_ rfl rfl
    refine ((hperm.append_right _).map _).trans ?_
    rw [List.cons_append, List.map_cons, htag, ← List.map_cons]
    exact ((held_perm_popped hc.heap hpos).map _).symm
  | stallMessage addr t =>
    obtain ⟨b, hb, h⟩ := map_eq_ok.1 h
    subst h
    obtain ⟨b₁, m, hd, hheap, hstall, hcount⟩ := stallMessage_spec hb
    obtain ⟨hpos, -, htag, hheap₁, hstall₁, hcount₁, -⟩ := dequeue_spec hd
    have hh₁ := (hc.heap.popped hpos).1
    refine hc.moved (by rw [hheap, hheap₁]; exact hh₁) ?_ rfl (hcount.trans hcount₁)
    have hheld : b.held.Perm (m :: ((popped s.1.prioHeap).toList ++ stalled s.1.stallMsgMap)) := by
      rw [held, hheap, hstall, hheap₁, hstall₁]
      exact ((stalled_stallAt addr m _).append_left _).trans List.perm_middle
    refine (hheld.map _).trans ?_
    rw [List.map_cons, htag, ← List.map_cons]
    exact ((held_perm_popped hc.heap hpos).map _).symm
  | reanalyzeMessages addr t =>
    obtain ⟨b, hb, h⟩ := map_eq_ok.1 h
    subst h
    obtain ⟨hh, hperm, hstall, hcount, -⟩ := reanalyzeMessages_spec hb hc.heap
    refine hc.moved hh (.map _ ?_) rfl hcount
    rw [held, held, hstall]
    refine (hperm.append_right _).trans ?_
    refine .trans ?_ ((stalled_eraseP addr s.1.stallMsgMap).symm.append_left _)
    rw [← List.append_assoc]
    exact List.perm_append_comm.append_right _
  | reanalyzeAllMessages t =>
    obtain ⟨b, hb, h⟩ := map_eq_ok.1 h
    subst h
    obtain ⟨hh, hperm, hstall, hcount, -⟩ := reanalyzeAllMessages_spec hb hc.heap
    refine hc.moved hh (.map _ ?_) rfl hcount
    rw [held, held, hstall, stalled, List.flatMap_nil, List.append_nil]
    exact hperm.trans List.perm_append_comm

theorem Conserved.of_run {calls : List (Call β)} (h : run p s calls = .ok s') (hc : Conserved s) : Conserved s' :=
  run_induction (fun _ => True) (fun _ _ _ _ hx hs => hs.step hx) (fun _ _ => trivial) h hc

/-! ## Order -/

/-- The calls that keep an ordered buffer in order: nothing is recycled or stalled, and no message enters during cache
warm-up. -/
def Call.keepsOrder : Call β → Prop
  | .enqueue warmup _ _ _ => warmup = false
  | .recycle .. | .stallMessage .. => False
  | _ => True

/-- **Messages leave in the order they entered**: the counters in the heap rise with the arrival times. -/
structure InOrder (s : MessageBuffer β × Log β) : Prop where
  conserved : Conserved s
  stalled : s.1.stallMsgMap = []
  rising : ∀ m ∈ s.1.prioHeap.toList, ∀ m' ∈ s.1.prioHeap.toList, m.msgCounter < m'.msgCounter →
    m.lastEnqueueTime ≤ m'.lastEnqueueTime
  last : ∀ m ∈ s.1.prioHeap.toList, m.lastEnqueueTime ≤ s.1.lastArrivalTime
  left : s.2.left = s.2.entered.take s.2.left.length

theorem InOrder.init : InOrder (({}, {}) : MessageBuffer β × Log β) :=
  ⟨.init, rfl, (fun _ hm => nomatch hm), (fun _ hm => nomatch hm), rfl⟩

theorem InOrder.waiting (h : InOrder s) :
    (s.1.prioHeap.toList.map Message.tag).Perm (s.2.entered.drop s.2.left.length) := by
  have hperm := h.conserved.perm
  rw [held, h.stalled, MessageBuffer.stalled, List.flatMap_nil, List.append_nil] at hperm
  have hsplit : s.2.entered = s.2.left ++ s.2.entered.drop s.2.left.length := by
    conv_lhs => rw [← List.take_append_drop s.2.left.length s.2.entered, ← h.left]
  rw [hsplit] at hperm
  exact (List.perm_append_left_iff _).1 (List.perm_append_comm.trans hperm)

theorem Conserved.sorted (h : Conserved s) : s.2.entered.Pairwise (fun x y => x.1 < y.1) := by
  have hmap : (s.2.entered.map (·.1)).Pairwise (· < ·) := by
    rw [h.counters]
    exact List.pairwise_lt_range'
  exact List.pairwise_map.1 hmap

theorem counter_le_of_mem (h : Conserved s) (hm : m ∈ s.1.held) : m.msgCounter ≤ s.1.msgCounter := by
  have hin : m.tag ∈ s.2.entered := h.perm.mem_iff.1 (List.mem_append_left _ (List.mem_map_of_mem hm))
  have hc : m.msgCounter ∈ s.2.entered.map (·.1) := List.mem_map.2 ⟨m.tag, hin, rfl⟩
  rw [h.counters, List.mem_range'_1] at hc
  omega

/-- **The first message of the heap is the one that entered first.** -/
theorem InOrder.next (h : InOrder s) (hpos : 0 < s.1.prioHeap.size) :
    s.2.entered[s.2.left.length]? = some s.1.peek.tag := by
  have hpeek : s.1.peek ∈ s.1.prioHeap.toList := (h.conserved.heap.popped hpos).2.mem_iff.2 List.mem_cons_self
  have hmin : ∀ m ∈ s.1.prioHeap.toList, s.1.peek.msgCounter ≤ m.msgCounter := by
    intro m hm
    by_contra hlt
    have hb := h.conserved.heap.peek_le hm
    rw [← Bool.not_eq_true, Message.before_iff] at hb
    have hr := h.rising m hm s.1.peek hpeek (by omega)
    omega
  have hw := h.waiting
  have hsort := h.conserved.sorted.sublist (List.drop_sublist s.2.left.length s.2.entered)
  have hget : s.2.entered[s.2.left.length]? = (s.2.entered.drop s.2.left.length)[0]? := by
    rw [List.getElem?_drop, Nat.add_zero]
  rw [hget]
  cases hd : s.2.entered.drop s.2.left.length with
  | nil =>
    rw [hd] at hw
    exact absurd (hw.mem_iff.1 (List.mem_map_of_mem hpeek)) List.not_mem_nil
  | cons x rest =>
    rw [hd] at hw hsort
    obtain ⟨m, hm, hx⟩ := List.mem_map.1 (hw.mem_iff.2 List.mem_cons_self)
    have hin := hw.mem_iff.1 (List.mem_map_of_mem hpeek)
    rcases List.mem_cons.1 hin with he | hrest
    · rw [he]
      rfl
    · have hlt : x.1 < s.1.peek.msgCounter := (List.pairwise_cons.1 hsort).1 _ hrest
      have hle := hmin m hm
      rw [← hx] at hlt
      exact absurd hlt (by simpa [Message.tag] using hle)

theorem InOrder.step (hfifo : p.strictFifo = true) (s s' : MessageBuffer β × Log β) (call : Call β)
    (hk : call.keepsOrder) (hx : exec p s call = .ok s') (h : InOrder s) : InOrder s' := by
  have hc' := h.conserved.step hx
  cases call with
  | enqueue warmup message t d =>
    obtain ⟨b, hb, hx⟩ := bind_eq_ok.1 hx
    cases hx
    obtain ⟨m', htag, hheap, hstall, hcount, hlast, harr⟩ := enqueue_spec hb
    have hmem : ∀ m, m ∈ b.prioHeap.toList ↔ m = m' ∨ m ∈ s.1.prioHeap.toList := by
      intro m
      rw [hheap, (h.conserved.heap.pushed m').2.mem_iff, List.mem_cons]
    have hle : ∀ m ∈ s.1.prioHeap.toList, m.lastEnqueueTime ≤ m'.lastEnqueueTime :=
      fun m hm => (h.last m hm).trans (hlast hfifo)
    have hm' : m'.msgCounter = s.1.msgCounter + 1 := congrArg Prod.fst htag
    refine ⟨hc', hstall.trans h.stalled, ?_, ?_, ?_⟩
    · intro m hm m₂ hm₂ hlt
      rcases (hmem m).1 hm with rfl | hm
      · rcases (hmem m₂).1 hm₂ with rfl | hm₂
        · exact Nat.le_refl _
        · -- a message that was there before has a smaller counter
          have hcm := counter_le_of_mem h.conserved (List.mem_append_left _ hm₂)
          omega
      · rcases (hmem m₂).1 hm₂ with rfl | hm₂
        · exact hle m hm
        · exact h.rising m hm m₂ hm₂ hlt
    · intro m hm
      dsimp only
      rw [harr hk]
      rcases (hmem m).1 hm with rfl | hm
      · exact Nat.le_refl _
      · exact hle m hm
    · dsimp only
      rw [List.take_append_of_le_length]
      · exact h.left
      · rw [h.left, List.length_take]
        exact Nat.min_le_right _ _
  | dequeue t =>
    obtain ⟨⟨b, m⟩, hb, hx⟩ := bind_eq_ok.1 hx
    cases hx
    obtain ⟨hpos, -, htag, hheap, hstall, -, harr⟩ := dequeue_spec hb
    have hsub : ∀ m, m ∈ b.prioHeap.toList → m ∈ s.1.prioHeap.toList := by
      intro m hm
      rw [hheap] at hm
      exact (h.conserved.heap.popped hpos).2.mem_iff.2 (List.mem_cons_of_mem _ hm)
    refine ⟨hc', hstall.trans h.stalled, fun m hm m₂ hm₂ => h.rising m (hsub m hm) m₂ (hsub m₂ hm₂), ?_, ?_⟩
    · intro m hm
      rw [harr]
      exact h.last m (hsub m hm)
    · dsimp only
      rw [List.length_append, List.length_singleton, List.take_add_one, h.next hpos, ← h.left, htag]
      rfl
  | recycle t l => exact hk.elim
  | stallMessage addr t => exact hk.elim
  | reanalyzeMessages addr t =>
    obtain ⟨b, hb, hx⟩ := map_eq_ok.1 hx
    obtain ⟨-, -, -, -, hany⟩ := reanalyzeMessages_spec hb h.conserved.heap
    rw [h.stalled] at hany
    cases hany
  | reanalyzeAllMessages t =>
    obtain ⟨b, hb, hx⟩ := map_eq_ok.1 hx
    subst hx
    obtain ⟨-, hperm, hstall, -, harr⟩ := reanalyzeAllMessages_spec hb h.conserved.heap
    rw [h.stalled] at hperm
    have hmem : ∀ m, m ∈ b.prioHeap.toList ↔ m ∈ s.1.prioHeap.toList := fun m => hperm.mem_iff
    refine ⟨hc', hstall, ?_, ?_, h.left⟩
    · intro m hm m₂ hm₂
      exact h.rising m ((hmem m).1 hm) m₂ ((hmem m₂).1 hm₂)
    · intro m hm
      rw [harr]
      exact h.last m ((hmem m).1 hm)

/-! ## The buffer's contract -/

/-- In a heap, a message that another one of the heap comes before is not at the front. -/
theorem Conserved.peek_ne (h : Conserved s) {m' : Message β} (hm : m ∈ s.1.prioHeap.toList) (hb : m.before m' = true) :
    s.1.peek ≠ m' := by
  intro he
  rw [← he, h.heap.peek_le hm] at hb
  cases hb

theorem Conserved.nodup_counters (h : Conserved s) : (s.1.held.map (·.msgCounter)).Nodup := by
  have hall : ((s.1.held.map Message.tag ++ s.2.left).map (·.1)).Nodup := by
    rw [(h.perm.map (·.1)).nodup_iff, h.counters]
    exact List.nodup_range'
  rw [List.map_append, List.map_map] at hall
  exact hall.of_append_left

/-- **A message buffer conserves and orders its messages.**  After every run of calls: what is in the heap, in the stall
lists and dequeued is, each once, what entered, each under its own counter; the message a dequeue takes has arrived and
comes before every other of the heap; in an ordered buffer without recycling, stalling or cache warm-up messages leave in
the order they entered; and messages that a reanalyze releases are in the heap again, none that they come before at its
front while they stay. -/
theorem run_conserves_and_orders (p : Params) (calls : List (Call β)) (b : MessageBuffer β) (log : Log β)
    (h : run p ({}, {}) calls = .ok (b, log)) :
    ((b.prioHeap.toList ++ stalled b.stallMsgMap).map Message.tag ++ log.left).Perm log.entered ∧
    log.entered.map (·.1) = List.range' 1 b.msgCounter ∧
    (∀ t b' m, b.dequeue p t = .ok (b', m) → m.tag = b.peek.tag ∧ b.peek.lastEnqueueTime ≤ t ∧
      b.prioHeap.toList.Perm (b.peek :: b'.prioHeap.toList) ∧
      ∀ m' ∈ b'.prioHeap.toList, b.peek.before m' = true) ∧
    (p.strictFifo = true → (∀ call ∈ calls, call.keepsOrder) → log.left = log.entered.take log.left.length) ∧
    (∀ addr t b', b.reanalyzeMessages addr t = .ok b' → ∀ m ∈ stalledAt b.stallMsgMap addr,
      m ∈ b'.prioHeap.toList ∧ ∀ later s, run p (b', log) later = .ok s → m ∈ s.1.prioHeap.toList →
        ∀ m', m.before m' = true → s.1.peek ≠ m') ∧
    (∀ t b', b.reanalyzeAllMessages t = .ok b' → ∀ m ∈ stalled b.stallMsgMap,
      m ∈ b'.prioHeap.toList ∧ ∀ later s, run p (b', log) later = .ok s → m ∈ s.1.prioHeap.toList →
        ∀ m', m.before m' = true → s.1.peek ≠ m') := by
  have hc : Conserved (b, log) := Conserved.init.of_run h
  refine ⟨hc.perm, hc.counters, ?_, ?_, ?_, ?_⟩
  · intro t b' m hd
    obtain ⟨hpos, hready, htag, hheap, -⟩ := dequeue_spec hd
    have hperm : b.prioHeap.toList.Perm (b.peek :: (popped b.prioHeap).toList) := (hc.heap.popped hpos).2
    rw [hheap]
    refine ⟨htag, hready, hperm, fun m' hm' => ?_⟩
    have hin : m' ∈ b.prioHeap.toList := hperm.mem_iff.2 (List.mem_cons_of_mem _ hm')
    have hle : m'.before b.peek = false := hc.heap.peek_le hin
    rw [← Bool.not_eq_true, Message.before_iff] at hle
    rw [Message.before_iff]
    -- the counters differ: the front left and `m'` stayed
    have hne : b.peek.msgCounter ≠ m'.msgCounter := by
      intro he
      have hnd : ((b.peek :: (popped b.prioHeap).toList).map (·.msgCounter)).Nodup := by
        rw [← (hperm.map (·.msgCounter)).nodup_iff]
        have hheld := hc.nodup_counters
        rw [held, List.map_append] at hheld
        exact hheld.of_append_left
      rw [List.map_cons, List.nodup_cons] at hnd
      exact hnd.1 (List.mem_map.2 ⟨m', hm', he.symm⟩)
    omega
  · intro hfifo hk
    exact (run_induction _ (InOrder.step hfifo) hk h InOrder.init).left
  · intro addr t b' hr m hm
    have hx : exec p (b, log) (.reanalyzeMessages addr t) = .ok (b', log) := by rw [exec, hr]; rfl
    refine ⟨(reanalyzeMessages_spec hr hc.heap).2.1.mem_iff.2 (List.mem_append_left _ hm), ?_⟩
    intro later s hs hin m' hb
    exact ((hc.step hx).of_run hs).peek_ne hin hb
  · intro t b' hr m hm
    have hx : exec p (b, log) (.reanalyzeAllMessages t) = .ok (b', log) := by rw [exec, hr]; rfl
    refine ⟨(reanalyzeAllMessages_spec hr hc.heap).2.1.mem_iff.2 (List.mem_append_left _ hm), ?_⟩
    intro later s hs hin m' hb
    exact ((hc.step hx).of_run hs).peek_ne hin hb

def sampleCalls : List (Call Nat) :=
  [.enqueue false { payload := 7 } 0 1, .enqueue false { payload := 8 } 0 2, .stallMessage 64 1,
    .reanalyzeMessages 64 2, .dequeue 3, .dequeue 3]

theorem run_conserves_and_orders_sample :
    ∃ b log, run {} ({}, {}) sampleCalls = .ok (b, log) ∧ log.left = [(1, 7), (2, 8)] ∧
      ((b.prioHeap.toList ++ stalled b.stallMsgMap).map Message.tag ++ log.left).Perm log.entered :=
  ⟨_, _, rfl, rfl, (run_conserves_and_orders {} sampleCalls _ _ rfl).1⟩

/-- **Cache warm-up takes the order away**: the last arrival time is not kept, so that a message that entered later and
arrives earlier is not refused, and leaves first. -/
theorem leaves_out_of_order_in_warmup :
    (run { strictFifo := true } ({}, {})
        [.enqueue true { payload := 7 } 10 10, .enqueue true { payload := 8 } 11 1, .dequeue 12]).map
      (fun s => (s.2.entered, s.2.left)) = .ok ([(1, 7), (2, 8)], [(2, 8)]) := rfl

end MessageBuffer
end Gem5.Ruby
