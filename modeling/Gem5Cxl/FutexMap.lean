import Gem5Cxl.AddrRange
import Mathlib.Data.Finset.Basic
import Mathlib.Data.Finset.Dedup
import Mathlib.Data.List.Perm.Basic
/-!
# FutexMap — the futexes of the emulated system calls (`sim/futex_map.cc`)

A hash map from futexes to lists of waiters, and beside it the set of the threads that wait.  `requeue` activates
waiters without taking them out of that set, and where it has nothing to move it writes through the iterator `find`
returned for the second futex, also when that is `end()`; such a write is a read through a null pointer here.  `wakeup`
reads the thread from a list node it has just popped; the node still holds it here.
-/
namespace Gem5

open Function (update update_of_ne)

structure FutexKey where
  addr : Addr
  tgid : BitVec 64
deriving DecidableEq, Repr

structure WaiterState (T : Type) where
  tc : T
  bitmask : BitVec 32
deriving DecidableEq, Repr

def WaiterState.checkMask {T : Type} (w : WaiterState T) (wakeupBitmask : BitVec 32) : Bool :=
  decide (w.bitmask &&& wakeupBitmask ≠ 0)

structure FutexMap (T : Type) where
  lists : FutexKey → Option (List (WaiterState T))
  waitingTcs : Finset T

/-- What a call returns, and the threads it activates and suspends, in order. -/
structure FutexEffect (T : Type) where
  ret : Nat := 0
  activated : List T := []
  suspended : List T := []
deriving DecidableEq, Repr

namespace FutexMap

variable {T : Type} [DecidableEq T]

def create : FutexMap T := { lists := fun _ => none, waitingTcs := ∅ }

def isWaiting (s : FutexMap T) (tc : T) : Bool := decide (tc ∈ s.waitingTcs)

def setList (s : FutexMap T) (key : FutexKey) (ws : Option (List (WaiterState T))) : FutexMap T :=
  { s with lists := Function.update s.lists key ws }

def eraseEmpty (s : FutexMap T) (key : FutexKey) : FutexMap T :=
  match s.lists key with
  | some [] => s.setList key none
  | _ => s

def suspendBitset (s : FutexMap T) (addr : Addr) (tgid : BitVec 64) (tc : T) (bitmask : BitVec 32) :
    FutexMap T × FutexEffect T :=
  let key : FutexKey := ⟨addr, tgid⟩
  let waiter : WaiterState T := ⟨tc, bitmask⟩
  let s := match s.lists key with
    | none => s.setList key (some [waiter])
    | some ws => s.setList key (some (ws ++ [waiter]))
  ({ s with waitingTcs := insert tc s.waitingTcs }, { suspended := [tc] })

def suspend (s : FutexMap T) (addr : Addr) (tgid : BitVec 64) (tc : T) : FutexMap T × FutexEffect T :=
  s.suspendBitset addr tgid tc 0xffffffff

/-- The state of the loops over a waiter list: the threads activated so far, how many, and who waits. -/
structure Woken (T : Type) where
  activated : List T
  wokenUp : Nat
  waitingTcs : Finset T

/-- The loop of `wakeup`; it leaves the rest of the list. -/
def wakeupLoop (count : Nat) : List (WaiterState T) → Woken T → List (WaiterState T) × Woken T
  | [], x => ([], x)
  | w :: ws, x =>
    if x.wokenUp < count then
      wakeupLoop count ws ⟨x.activated ++ [w.tc], x.wokenUp + 1, x.waitingTcs.erase w.tc⟩
    else (w :: ws, x)

def wakeup (s : FutexMap T) (addr : Addr) (tgid : BitVec 64) (count : Nat) : FutexMap T × FutexEffect T :=
  let key : FutexKey := ⟨addr, tgid⟩
  match s.lists key with
  | none => (s, {})
  | some ws =>
    let (rest, x) := wakeupLoop count ws ⟨[], 0, s.waitingTcs⟩
    ({ (s.setList key (some rest)).eraseEmpty key with waitingTcs := x.waitingTcs }, { ret := x.wokenUp, activated := x.activated })

/-- The loop of `wakeup_bitset`; it leaves the waiters passed over. -/
def wakeupBitsetLoop (bitmask : BitVec 32) : List (WaiterState T) → Woken T → List (WaiterState T) × Woken T
  | [], x => ([], x)
  | w :: ws, x =>
    if w.checkMask bitmask then
      wakeupBitsetLoop bitmask ws ⟨x.activated ++ [w.tc], x.wokenUp + 1, x.waitingTcs.erase w.tc⟩
    else
      let (rest, x) := wakeupBitsetLoop bitmask ws x
      (w :: rest, x)

def wakeupBitset (s : FutexMap T) (addr : Addr) (tgid : BitVec 64) (bitmask : BitVec 32) :
    FutexMap T × FutexEffect T :=
  let key : FutexKey := ⟨addr, tgid⟩
  match s.lists key with
  | none => (s, {})
  | some ws =>
    let (rest, x) := wakeupBitsetLoop bitmask ws ⟨[], 0, s.waitingTcs⟩
    ({ (s.setList key (some rest)).eraseEmpty key with waitingTcs := x.waitingTcs }, { ret := x.wokenUp, activated := x.activated })

/-- The first loop of `requeue`: it activates waiters, and leaves them in `waitingTcs`. -/
def requeueWake (count : Nat) : List (WaiterState T) → List T → Nat → List (WaiterState T) × List T × Nat
  | [], activated, wokenUp => ([], activated, wokenUp)
  | w :: ws, activated, wokenUp =>
    if wokenUp < count then requeueWake count ws (activated ++ [w.tc]) (wokenUp + 1) else (w :: ws, activated, wokenUp)

def requeueMove (count2 : Nat) :
    List (WaiterState T) → List (WaiterState T) → Nat → List (WaiterState T) × List (WaiterState T) × Nat
  | [], tmpList, requeued => ([], tmpList, requeued)
  | w :: ws, tmpList, requeued =>
    if requeued < count2 then requeueMove count2 ws (tmpList ++ [w]) (requeued + 1) else (w :: ws, tmpList, requeued)

/-- `requeue` at the second futex: it appends through the iterator of `find`, also where that is `end()`. -/
def requeueAt (s : FutexMap T) (key2 : FutexKey) (tmpList : List (WaiterState T)) (requeued : Nat) :
    Except Failure (FutexMap T) :=
  match s.lists key2 with
  | none => if 0 < requeued then .ok (s.setList key2 (some tmpList)) else .error .nullPointer
  | some ws2 => .ok (s.setList key2 (some (ws2 ++ tmpList)))

def requeue (s : FutexMap T) (addr1 : Addr) (tgid : BitVec 64) (count count2 : Nat) (addr2 : Addr) :
    Except Failure (FutexMap T × FutexEffect T) :=
  let key1 : FutexKey := ⟨addr1, tgid⟩
  let key2 : FutexKey := ⟨addr2, tgid⟩
  match s.lists key1 with
  | none => .ok (s, {})
  | some ws => do
    let (ws, activated, wokenUp) := requeueWake count ws [] 0
    let (ws, tmpList, requeued) := requeueMove count2 ws [] 0
    let s ← (s.setList key1 (some ws)).requeueAt key2 tmpList requeued
    -- `waiterList1` is the list stored at `key1`, which has grown again when the two keys are one
    .ok (s.eraseEmpty key1, { ret := wokenUp + requeued, activated })

inductive Call (T : Type) where
  | suspend (addr : Addr) (tgid : BitVec 64) (tc : T)
  | suspendBitset (addr : Addr) (tgid : BitVec 64) (tc : T) (bitmask : BitVec 32)
  | wakeup (addr : Addr) (tgid : BitVec 64) (count : Nat)
  | wakeupBitset (addr : Addr) (tgid : BitVec 64) (bitmask : BitVec 32)
  | requeue (addr1 : Addr) (tgid : BitVec 64) (count count2 : Nat) (addr2 : Addr)
deriving DecidableEq

def call (s : FutexMap T) : Call T → Except Failure (FutexMap T × FutexEffect T)
  | .suspend addr tgid tc => .ok (s.suspend addr tgid tc)
  | .suspendBitset addr tgid tc bitmask => .ok (s.suspendBitset addr tgid tc bitmask)
  | .wakeup addr tgid count => .ok (s.wakeup addr tgid count)
  | .wakeupBitset addr tgid bitmask => .ok (s.wakeupBitset addr tgid bitmask)
  | .requeue addr1 tgid count count2 addr2 => s.requeue addr1 tgid count count2 addr2

/-! ## The loops -/

theorem wakeupLoop_eq (ws : List (WaiterState T)) (k n : Nat) (a : List T) (waiting : Finset T) :
    wakeupLoop (n + k) ws ⟨a, n, waiting⟩ = (ws.drop k,
      ⟨a ++ (ws.take k).map (·.tc), n + min k ws.length, waiting \ ((ws.take k).map (·.tc)).toFinset⟩) := by
  induction ws generalizing k n a waiting with
  | nil => simp [wakeupLoop]
  | cons w ws ih =>
    cases k with
    | zero => simp [wakeupLoop]
    | succ k =>
      have hcount : n + (k + 1) = n + 1 + k := by omega
      have hmin : n + 1 + min k ws.length = n + min (k + 1) (ws.length + 1) := by omega
      rw [wakeupLoop, if_pos (Nat.lt_add_of_pos_right k.succ_pos), hcount, ih]
      simp [hmin, Finset.erase_sdiff_comm, Finset.sdiff_insert]

theorem wakeupBitsetLoop_eq (bitmask : BitVec 32) (ws : List (WaiterState T)) (n : Nat) (a : List T)
    (waiting : Finset T) :
    wakeupBitsetLoop bitmask ws ⟨a, n, waiting⟩ = (ws.filter fun w => !w.checkMask bitmask,
      ⟨a ++ (ws.filter fun w => w.checkMask bitmask).map (·.tc), n + (ws.filter fun w => w.checkMask bitmask).length,
        waiting \ ((ws.filter fun w => w.checkMask bitmask).map (·.tc)).toFinset⟩) := by
  induction ws generalizing n a waiting with
  | nil => simp [wakeupBitsetLoop]
  | cons w ws ih =>
    by_cases hw : w.checkMask bitmask = true
    · rw [wakeupBitsetLoop, if_pos hw, ih]
      simp [hw, Finset.erase_sdiff_comm, Finset.sdiff_insert, Nat.add_assoc, Nat.add_comm 1]
    · rw [wakeupBitsetLoop, if_neg hw, ih]
      simp [hw]

omit [DecidableEq T] in
theorem takeLoop_eq {β : Type} (loop : List (WaiterState T) → List β → Nat → List (WaiterState T) × List β × Nat)
    (f : WaiterState T → β) (k n : Nat) (hnil : ∀ a i, loop [] a i = ([], a, i))
    (hcons : ∀ w ws a i, loop (w :: ws) a i = if i < n + k then loop ws (a ++ [f w]) (i + 1) else (w :: ws, a, i))
    (ws : List (WaiterState T)) (a : List β) : loop ws a n = (ws.drop k, a ++ (ws.take k).map f, n + min k ws.length) := by
  induction ws generalizing k n a with
  | nil => simp [hnil]
  | cons w ws ih =>
    cases k with
    | zero => simp [hcons]
    | succ k =>
      have hcount : n + (k + 1) = n + 1 + k := by omega
      have hmin : n + 1 + min k ws.length = n + min (k + 1) (ws.length + 1) := by omega
      rw [hcons, if_pos (Nat.lt_add_of_pos_right k.succ_pos), ih k (n + 1) (by rwa [← hcount])]
      simp [hmin]

omit [DecidableEq T] in
theorem requeueWake_eq (ws : List (WaiterState T)) (k n : Nat) (a : List T) :
    requeueWake (n + k) ws a n = (ws.drop k, a ++ (ws.take k).map (·.tc), n + min k ws.length) :=
  takeLoop_eq _ _ k n (fun _ _ => rfl) (fun _ _ _ _ => rfl) ws a

omit [DecidableEq T] in
theorem requeueMove_eq (ws : List (WaiterState T)) (k n : Nat) (a : List (WaiterState T)) :
    requeueMove (n + k) ws a n = (ws.drop k, a ++ ws.take k, n + min k ws.length) := by
  have h := takeLoop_eq (requeueMove (n + k)) id k n (fun _ _ => rfl) (fun _ _ _ _ => rfl) ws a
  rwa [List.map_id] at h

/-! ## The wait queues -/

def queue (s : FutexMap T) (key : FutexKey) : List (WaiterState T) := (s.lists key).getD []

def On (q : FutexKey → List (WaiterState T)) (key : FutexKey) (t : T) : Prop := t ∈ (q key).map (·.tc)

/-- Each thread is once in one queue, and the threads in a queue are those that wait. -/
structure Queues (q : FutexKey → List (WaiterState T)) (waits : T → Prop) : Prop where
  nodup : ∀ key, ((q key).map (·.tc)).Nodup
  unique : ∀ key key' t, On q key t → On q key' t → key = key'
  waiting : ∀ t, waits t ↔ ∃ key, On q key t

structure Inv (s : FutexMap T) : Prop where
  nonempty : ∀ key, s.lists key ≠ some []
  queues : Queues s.queue fun t => s.isWaiting t = true

def Does (s : FutexMap T) (s' : FutexMap T) (e : FutexEffect T) : Call T → Prop
  | .suspend addr tgid tc =>
    s'.queue = Function.update s.queue ⟨addr, tgid⟩ (s.queue ⟨addr, tgid⟩ ++ [⟨tc, 0xffffffff⟩]) ∧
      e = { suspended := [tc] }
  | .suspendBitset addr tgid tc bitmask =>
    s'.queue = Function.update s.queue ⟨addr, tgid⟩ (s.queue ⟨addr, tgid⟩ ++ [⟨tc, bitmask⟩]) ∧ e = { suspended := [tc] }
  | .wakeup addr tgid count =>
    let q := s.queue ⟨addr, tgid⟩
    s'.queue = Function.update s.queue ⟨addr, tgid⟩ (q.drop count) ∧
      e = { ret := min count q.length, activated := (q.take count).map (·.tc) }
  | .wakeupBitset addr tgid bitmask =>
    let q := s.queue ⟨addr, tgid⟩
    s'.queue = Function.update s.queue ⟨addr, tgid⟩ (q.filter fun w => !w.checkMask bitmask) ∧
      e = { ret := (q.filter fun w => w.checkMask bitmask).length
            activated := (q.filter fun w => w.checkMask bitmask).map (·.tc) }
  | .requeue addr1 tgid count count2 addr2 =>
    let q := s.queue ⟨addr1, tgid⟩
    let moved := (q.drop count).take count2
    let left := Function.update s.queue ⟨addr1, tgid⟩ (q.drop (count + count2))
    s'.queue = Function.update left ⟨addr2, tgid⟩ (left ⟨addr2, tgid⟩ ++ moved) ∧
      e = { ret := min count q.length + moved.length, activated := (q.take count).map (·.tc) }

/-- A thread is suspended only while it is in no queue. -/
def Legal (s : FutexMap T) : Call T → Prop
  | .suspend _ _ tc | .suspendBitset _ _ tc _ => ∀ key, ¬ On s.queue key tc
  | _ => True

/-- The call is answered, the queues change as they should, and the map stays a set of wait queues. -/
def Good (s : FutexMap T) (c : Call T) : Prop :=
  ∃ s' e, s.call c = .ok (s', e) ∧ Inv s' ∧ Does s s' e c

/-- A requeue of a futex with waiters activates none of them, and has one to move or a queue to move it to. -/
def Safe (s : FutexMap T) : Call T → Prop
  | .requeue addr1 tgid count count2 addr2 =>
    s.queue ⟨addr1, tgid⟩ ≠ [] → count = 0 ∧ (0 < count2 ∨ s.queue ⟨addr2, tgid⟩ ≠ [])
  | _ => True

/-! ## One call -/

omit [DecidableEq T] in
theorem queue_setList (s : FutexMap T) (key : FutexKey) (ws : Option (List (WaiterState T))) :
    (s.setList key ws).queue = update s.queue key (ws.getD []) := by
  funext k
  by_cases hk : k = key
  · subst hk
    simp [queue, setList]
  · simp [queue, setList, hk]

omit [DecidableEq T] in
@[simp] theorem queue_eraseEmpty (s : FutexMap T) (key : FutexKey) : (s.eraseEmpty key).queue = s.queue := by
  unfold eraseEmpty
  split
  · rename_i h
    rw [queue_setList, Function.update_eq_self_iff, queue, h]
    rfl
  · rfl

omit [DecidableEq T] in
@[simp] theorem waitingTcs_eraseEmpty (s : FutexMap T) (key : FutexKey) :
    (s.eraseEmpty key).waitingTcs = s.waitingTcs := by
  unfold eraseEmpty
  split <;> rfl

variable {key key2 key1 : FutexKey} {s : FutexMap T} {q : FutexKey → List (WaiterState T)}
  {ws rest woken moved : List (WaiterState T)} {addr1 addr2 : Addr} {tgid : BitVec 64} {count count2 : Nat}

omit [DecidableEq T] in
theorem eraseEmpty_nonempty (h : ∀ k, k ≠ key → s.lists k ≠ some []) (k : FutexKey) :
    (s.eraseEmpty key).lists k ≠ some [] := by
  unfold eraseEmpty
  by_cases hk : k = key
  · subst hk
    split
    · simp [setList]
    · rename_i hne
      exact fun he => hne he
  · split
    · simpa [setList, hk] using h k hk
    · exact h k hk

theorem lists_eq_none (h : Inv s) (hq : s.queue key = []) : s.lists key = none := by
  cases hl : s.lists key with
  | none => rfl
  | some ws =>
    obtain rfl : ws = [] := by simpa [queue, hl] using hq
    exact absurd hl (h.nonempty key)

omit [DecidableEq T] in
theorem lists_eq_some (hq : s.queue key ≠ []) : s.lists key = some (s.queue key) := by
  cases hl : s.lists key with
  | none => exact absurd (by simp [queue, hl]) hq
  | some ws => simp [queue, hl]

omit [DecidableEq T] in
theorem on_update {k : FutexKey} {t : T} :
    On (update q key ws) k t ↔ if k = key then t ∈ ws.map (·.tc) else On q k t := by
  by_cases hk : k = key
  · subst hk
    simp [On]
  · simp [On, hk]

omit [DecidableEq T] in
theorem Queues.of_eq {q' : FutexKey → List (WaiterState T)} {waits waits' : T → Prop} (h : Queues q waits)
    (hq : q' = q) (hw : ∀ t, waits' t ↔ waits t) : Queues q' waits' := by
  subst hq
  exact ⟨h.nodup, h.unique, fun t => (hw t).trans (h.waiting t)⟩

omit [DecidableEq T] in
theorem Queues.remove {waits : T → Prop} (h : Queues q waits) (hp : (q key).Perm (woken ++ rest)) :
    Queues (update q key rest) fun t => waits t ∧ t ∉ woken.map (·.tc) := by
  have hperm : ((q key).map (·.tc)).Perm (woken.map (·.tc) ++ rest.map (·.tc)) := by
    simpa using hp.map (·.tc)
  obtain ⟨-, hrest, hdisj⟩ := List.nodup_append.1 (hperm.nodup_iff.1 (h.nodup key))
  have hon : ∀ t, On q key t ↔ t ∈ woken.map (·.tc) ∨ t ∈ rest.map (·.tc) := fun t =>
    hperm.mem_iff.trans List.mem_append
  -- a thread in a queue after was in it before
  have hsub : ∀ k t, On (update q key rest) k t → On q k t := by
    intro k t ht
    rw [on_update] at ht
    split at ht
    · rename_i hk
      exact hk ▸ (hon t).2 (.inr ht)
    · exact ht
  refine ⟨fun k => ?_, fun k k' t hk hk' => h.unique k k' t (hsub k t hk) (hsub k' t hk'), fun t => ?_⟩
  · by_cases hk : k = key
    · subst hk
      simpa using hrest
    · simpa [hk] using h.nodup k
  · constructor
    · rintro ⟨hw, hnot⟩
      obtain ⟨k, hk⟩ := (h.waiting t).1 hw
      refine ⟨k, on_update.2 ?_⟩
      split
      · rename_i heq
        exact ((hon t).1 (heq ▸ hk)).resolve_left hnot
      · exact hk
    · rintro ⟨k, hk⟩
      refine ⟨(h.waiting t).2 ⟨k, hsub k t hk⟩, fun hwoken => ?_⟩
      have hkey : k = key := h.unique k key t (hsub k t hk) ((hon t).2 (.inl hwoken))
      rw [on_update, if_pos hkey] at hk
      exact hdisj t hwoken t hk rfl

omit [DecidableEq T] in
theorem Queues.append {waits : T → Prop} (h : Queues q waits) (key : FutexKey) {new : List (WaiterState T)}
    (hnodup : (new.map (·.tc)).Nodup) (hnew : ∀ t ∈ new.map (·.tc), ∀ k, ¬ On q k t) :
    Queues (update q key (q key ++ new)) fun t => waits t ∨ t ∈ new.map (·.tc) := by
  have hon : ∀ k t, On (update q key (q key ++ new)) k t ↔ On q k t ∨ k = key ∧ t ∈ new.map (·.tc) := by
    intro k t
    rw [on_update, List.map_append, List.mem_append]
    by_cases hk : k = key
    · subst hk
      simp [On]
    · simp [hk]
  refine ⟨fun k => ?_, fun k k' t hold hold' => ?_, fun t => ?_⟩
  · by_cases hk : k = key
    · subst hk
      rw [Function.update_self, List.map_append, List.nodup_append]
      refine ⟨h.nodup k, hnodup, fun t ht u hu heq => ?_⟩
      exact hnew u hu k (heq ▸ ht)
    · simpa [hk] using h.nodup k
  · rcases (hon k t).1 hold with hk | ⟨rfl, ht⟩ <;> rcases (hon k' t).1 hold' with hk' | ⟨rfl, ht'⟩
    · exact h.unique k k' t hk hk'
    · exact absurd hk (hnew t ht' k)
    · exact absurd hk' (hnew t ht k')
    · rfl
  · simp only [hon, exists_or, ← h.waiting t, exists_and_right, exists_eq, true_and]

theorem inv_create : Inv (create : FutexMap T) where
  nonempty := fun _ => by simp [create]
  queues := ⟨fun _ => by simp [queue, create], fun _ _ _ h => by simp [On, queue, create] at h,
    fun _ => by simp [isWaiting, On, queue, create]⟩

theorem setList_nonempty (h : Inv s) (key : FutexKey) (hws : ws ≠ []) (k : FutexKey) :
    (s.setList key (some ws)).lists k ≠ some [] := by
  by_cases hk : k = key
  · subst hk
    simpa [setList] using hws
  · simpa [setList, hk] using h.nonempty k

theorem good_suspendBitset (h : Inv s) (addr : Addr) (tgid : BitVec 64) (tc : T) (bitmask : BitVec 32)
    (hl : ∀ key, ¬ On s.queue key tc) : Good s (.suspendBitset addr tgid tc bitmask) := by
  have hset : (match s.lists ⟨addr, tgid⟩ with
      | none => s.setList ⟨addr, tgid⟩ (some [⟨tc, bitmask⟩])
      | some ws => s.setList ⟨addr, tgid⟩ (some (ws ++ [⟨tc, bitmask⟩]))) =
      s.setList ⟨addr, tgid⟩ (some (s.queue ⟨addr, tgid⟩ ++ [⟨tc, bitmask⟩])) := by
    cases hq : s.lists ⟨addr, tgid⟩ <;> simp [queue, hq]
  have hqs := h.queues.append ⟨addr, tgid⟩ (by simp : ([⟨tc, bitmask⟩].map WaiterState.tc).Nodup) (by simpa using hl)
  refine ⟨_, _, rfl, ?_, ?_⟩
  all_goals simp only [hset]
  · refine ⟨setList_nonempty h _ (by simp), hqs.of_eq (queue_setList s _ _) fun t => ?_⟩
    simp [isWaiting, setList, or_comm]
  · exact ⟨queue_setList s _ _, rfl⟩

theorem Inv.wake (h : Inv s) (hp : (s.queue key).Perm (woken ++ rest)) :
    Inv { (s.setList key (some rest)).eraseEmpty key with
      waitingTcs := s.waitingTcs \ (woken.map (·.tc)).toFinset } where
  nonempty := eraseEmpty_nonempty fun k hk => by simpa [setList, hk] using h.nonempty k
  queues := (h.queues.remove hp).of_eq ((queue_eraseEmpty _ _).trans (queue_setList s _ _)) fun t => by simp [isWaiting]

theorem good_wakeup (h : Inv s) (addr : Addr) (tgid : BitVec 64) (count : Nat) : Good s (.wakeup addr tgid count) := by
  by_cases hq : s.queue ⟨addr, tgid⟩ = []
  · have hcall : s.wakeup addr tgid count = (s, {}) := by simp [wakeup, lists_eq_none h hq]
    refine ⟨_, _, congrArg Except.ok hcall, h, ?_, ?_⟩
    · simp [hq]
    · simp [hq]
  · have hloop := wakeupLoop_eq (s.queue ⟨addr, tgid⟩) count 0 [] s.waitingTcs
    rw [Nat.zero_add] at hloop
    refine ⟨_, _, rfl, ?_, ?_⟩
    all_goals simp only [lists_eq_some hq, hloop]
    · exact h.wake (by rw [List.take_append_drop])
    · exact ⟨(queue_eraseEmpty _ _).trans (queue_setList s _ _), by simp⟩

theorem good_wakeupBitset (h : Inv s) (addr : Addr) (tgid : BitVec 64) (bitmask : BitVec 32) :
    Good s (.wakeupBitset addr tgid bitmask) := by
  by_cases hq : s.queue ⟨addr, tgid⟩ = []
  · have hcall : s.wakeupBitset addr tgid bitmask = (s, {}) := by simp [wakeupBitset, lists_eq_none h hq]
    refine ⟨_, _, congrArg Except.ok hcall, h, ?_, ?_⟩
    · simp [hq]
    · simp [hq]
  · have hloop := wakeupBitsetLoop_eq bitmask (s.queue ⟨addr, tgid⟩) 0 [] s.waitingTcs
    refine ⟨_, _, rfl, ?_, ?_⟩
    all_goals simp only [lists_eq_some hq, hloop]
    · exact h.wake (List.filter_append_perm _ _).symm
    · exact ⟨(queue_eraseEmpty _ _).trans (queue_setList s _ _), by simp⟩

omit [DecidableEq T] in
theorem requeue_eq (hws : s.lists ⟨addr1, tgid⟩ = some ws) (count count2 : Nat) (addr2 : Addr) :
    s.requeue addr1 tgid count count2 addr2 =
      ((s.setList ⟨addr1, tgid⟩ (some (ws.drop (count + count2)))).requeueAt ⟨addr2, tgid⟩
        ((ws.drop count).take count2) ((ws.drop count).take count2).length >>= fun s' =>
        .ok (s'.eraseEmpty ⟨addr1, tgid⟩,
          { ret := min count ws.length + ((ws.drop count).take count2).length
            activated := (ws.take count).map (·.tc) })) := by
  have hwake := requeueWake_eq ws count 0 []
  have hmove := requeueMove_eq (ws.drop count) count2 0 []
  rw [Nat.zero_add] at hwake hmove
  simp only [requeue, hws, hwake, hmove, List.nil_append, List.drop_drop, List.length_take, Nat.zero_add]

omit [DecidableEq T] in
theorem requeueAt_eq {tmpList : List (WaiterState T)} (h : s.lists key2 = none → tmpList ≠ []) :
    s.requeueAt key2 tmpList tmpList.length = .ok (s.setList key2 (some (s.queue key2 ++ tmpList))) := by
  unfold requeueAt
  cases hl : s.lists key2 with
  | none => simp [queue, hl, List.length_pos_iff.2 (h hl)]
  | some ws2 => simp [queue, hl]

theorem Queues.move {waits : T → Prop} (h : Queues q waits) (key2 : FutexKey) (hp : q key1 = moved ++ rest) :
    Queues (update (update q key1 rest) key2 (update q key1 rest key2 ++ moved)) waits := by
  have hleft := h.remove (by rw [hp] : (q key1).Perm (moved ++ rest))
  have hmoved : ∀ t ∈ moved.map (·.tc), On q key1 t := fun t ht => by simp_all [On]
  have hnodup : (moved.map (·.tc)).Nodup := by
    have := h.nodup key1
    rw [hp, List.map_append] at this
    exact this.of_append_left
  have hnew : ∀ t ∈ moved.map (·.tc), ∀ k, ¬ On (update q key1 rest) k t := fun t ht k hk =>
    ((hleft.waiting t).2 ⟨k, hk⟩).2 ht
  refine (hleft.append key2 hnodup hnew).of_eq rfl fun t => ?_
  constructor
  · intro hw
    by_cases ht : t ∈ moved.map (·.tc)
    · exact .inr ht
    · exact .inl ⟨hw, ht⟩
  · rintro (⟨hw, -⟩ | ht)
    · exact hw
    · exact (h.waiting t).2 ⟨key1, hmoved t ht⟩

theorem Inv.requeued (h : Inv s) (hp : s.queue key1 = moved ++ rest)
    (hat : (s.setList key1 (some rest)).lists key2 = none → moved ≠ []) :
    Inv (((s.setList key1 (some rest)).setList key2
      (some ((s.setList key1 (some rest)).queue key2 ++ moved))).eraseEmpty key1) where
  nonempty := eraseEmpty_nonempty fun k hk => by
    by_cases hk2 : k = key2
    · subst hk2
      have hlist : (s.setList key1 (some rest)).lists k = s.lists k := by simp [setList, hk]
      rw [hlist] at hat
      cases hl : s.lists k with
      | none => simpa [setList] using fun _ => hat hl
      | some ws =>
        have hws : ws ≠ [] := fun hnil => h.nonempty k (hl.trans (congrArg some hnil))
        simp [setList, queue, hk, hl, hws]
    · simpa [setList, hk, hk2] using h.nonempty k
  queues := (h.queues.move key2 hp).of_eq (by rw [queue_eraseEmpty, queue_setList, queue_setList]; rfl)
    fun t => by simp [isWaiting, setList]

theorem good_requeue (h : Inv s) (addr1 : Addr) (tgid : BitVec 64) (count count2 : Nat) (addr2 : Addr)
    (hsafe : Safe s (.requeue addr1 tgid count count2 addr2)) : Good s (.requeue addr1 tgid count count2 addr2) := by
  by_cases hq : s.queue ⟨addr1, tgid⟩ = []
  · have hcall : s.requeue addr1 tgid count count2 addr2 = .ok (s, {}) := by simp [requeue, lists_eq_none h hq]
    refine ⟨_, _, hcall, h, ?_, ?_⟩
    · simp [hq]
    · simp [hq]
  · obtain ⟨rfl, hmove⟩ := hsafe hq
    have hat : (s.setList ⟨addr1, tgid⟩ (some ((s.queue ⟨addr1, tgid⟩).drop (0 + count2)))).lists ⟨addr2, tgid⟩ = none →
        ((s.queue ⟨addr1, tgid⟩).drop 0).take count2 ≠ [] := by
      intro hnone
      have hne : (⟨addr2, tgid⟩ : FutexKey) ≠ ⟨addr1, tgid⟩ := by
        intro heq
        simp [setList, heq] at hnone
      have hkey2 : s.queue ⟨addr2, tgid⟩ = [] := by
        simp only [setList, update_of_ne hne] at hnone
        simp [queue, hnone]
      have hcount2 : 0 < count2 := hmove.resolve_right fun hn => hn hkey2
      simp only [List.drop_zero, ne_eq, List.take_eq_nil_iff, hq, or_false]
      omega
    refine ⟨_, _, (requeue_eq (lists_eq_some hq) 0 count2 addr2).trans (by rw [requeueAt_eq hat]; rfl), ?_, ?_⟩
    · exact h.requeued (by simp) hat
    · refine ⟨?_, rfl⟩
      rw [queue_eraseEmpty, queue_setList, queue_setList]
      rfl

omit [DecidableEq T] in
theorem requeue_waitingTcs {s' : FutexMap T} {e : FutexEffect T}
    (hr : s.requeue addr1 tgid count count2 addr2 = .ok (s', e)) : s'.waitingTcs = s.waitingTcs := by
  cases hl : s.lists ⟨addr1, tgid⟩ with
  | none =>
    simp only [requeue, hl, Except.ok.injEq, Prod.mk.injEq] at hr
    rw [← hr.1]
  | some ws =>
    rw [requeue_eq hl, Run.bind_eq_ok] at hr
    obtain ⟨x, hx, hr⟩ := hr
    simp only [Except.ok.injEq, Prod.mk.injEq] at hr
    rw [← hr.1, waitingTcs_eraseEmpty]
    unfold requeueAt at hx
    split at hx
    · split at hx
      · cases hx
        rfl
      · cases hx
    · cases hx
      rfl

/-- **A requeue that goes well is safe**: a thread it activated would still wait, and with nothing to move and no queue
to move it to it would write through `end()`. -/
theorem safe_of_good_requeue (h : Inv s) (hgood : Good s (.requeue addr1 tgid count count2 addr2)) :
    Safe s (.requeue addr1 tgid count count2 addr2) := by
  intro hq
  obtain ⟨s', e, hcall, hinv, hqueue, -⟩ := hgood
  have hcall' : s.requeue addr1 tgid count count2 addr2 = .ok (s', e) := hcall
  constructor
  · by_contra hcount
    obtain ⟨w, ws, hws⟩ := List.exists_cons_of_ne_nil hq
    -- the first waiter is activated, and leaves the queues
    have hwoken : w.tc ∈ ((s.queue ⟨addr1, tgid⟩).take count).map (·.tc) := by
      obtain ⟨k, rfl⟩ := Nat.exists_eq_succ_of_ne_zero hcount
      simp [hws]
    have hleft := h.queues.remove (.of_eq (List.take_append_drop count (s.queue ⟨addr1, tgid⟩)).symm)
    have hsplit : update s.queue ⟨addr1, tgid⟩ ((s.queue ⟨addr1, tgid⟩).drop count) ⟨addr1, tgid⟩ =
        ((s.queue ⟨addr1, tgid⟩).drop count).take count2 ++ (s.queue ⟨addr1, tgid⟩).drop (count + count2) := by
      rw [Function.update_self, ← List.drop_drop, List.take_append_drop]
    have hmoved := hleft.move ⟨addr2, tgid⟩ hsplit
    rw [Function.update_idem, ← hqueue] at hmoved
    -- but not the set
    have hwaits : s'.isWaiting w.tc = true := by
      rw [isWaiting, requeue_waitingTcs hcall']
      exact (h.queues.waiting w.tc).2 ⟨⟨addr1, tgid⟩, by simp [On, hws]⟩
    exact ((hmoved.waiting w.tc).2 ((hinv.queues.waiting w.tc).1 hwaits)).2 hwoken
  · by_contra hnone
    obtain ⟨hcount2, hkey2⟩ : count2 = 0 ∧ s.queue ⟨addr2, tgid⟩ = [] := by
      constructor
      · by_contra hc
        exact hnone (.inl (by omega))
      · by_contra hk
        exact hnone (.inr hk)
    have hne : (⟨addr2, tgid⟩ : FutexKey) ≠ ⟨addr1, tgid⟩ := fun heq => hq (heq ▸ hkey2)
    rw [requeue_eq (lists_eq_some hq), requeueAt] at hcall'
    simp [setList, update_of_ne hne, lists_eq_none h hkey2, hcount2] at hcall'

/-! ## Every call, and runs of calls -/

/-- **A legal call goes well exactly when it is safe**. -/
theorem good_iff_safe (h : Inv s) {c : Call T} (hc : Legal s c) : Good s c ↔ Safe s c := by
  cases c with
  | suspend addr tgid tc => exact iff_of_true (good_suspendBitset h addr tgid tc _ hc) trivial
  | suspendBitset addr tgid tc bitmask => exact iff_of_true (good_suspendBitset h addr tgid tc bitmask hc) trivial
  | wakeup addr tgid count => exact iff_of_true (good_wakeup h addr tgid count) trivial
  | wakeupBitset addr tgid bitmask => exact iff_of_true (good_wakeupBitset h addr tgid bitmask) trivial
  | requeue addr1 tgid count count2 addr2 =>
    exact ⟨safe_of_good_requeue h, good_requeue h addr1 tgid count count2 addr2⟩

inductive Reach : FutexMap T → Prop where
  | create : Reach create
  | call {s s' : FutexMap T} {c : Call T} {e : FutexEffect T} :
    Reach s → Legal s c → Safe s c → s.call c = .ok (s', e) → Reach s'

theorem Reach.inv (h : Reach s) : Inv s := by
  induction h with
  | create => exact inv_create
  | call _ hl hs hcall ih =>
    obtain ⟨s', e, hcall', hinv, -⟩ := (good_iff_safe ih hl).2 hs
    obtain ⟨rfl, rfl⟩ := Prod.mk.inj (Except.ok.inj (hcall'.symm.trans hcall))
    exact hinv

/-- **The map is a set of first-in first-out wait queues**, over every run of legal and safe calls: each call goes well
exactly when it is safe. -/
theorem futexMap_wait_queues {s : FutexMap T} (h : Reach s) : Inv s ∧ ∀ c, Legal s c → (Good s c ↔ Safe s c) :=
  ⟨h.inv, fun _ => good_iff_safe h.inv⟩

def oneWaiter (tc : Nat) : FutexMap Nat := (create.suspend 0 0 tc).1

theorem oneWaiter_reach (tc : Nat) : Reach (oneWaiter tc) :=
  .call .create (c := .suspend 0 0 tc) (fun _ h => by simp [On, queue, create] at h) trivial rfl

theorem oneWaiter_requeue : Good (oneWaiter 1) (.requeue 0 0 0 1 4) :=
  ((futexMap_wait_queues (oneWaiter_reach 1)).2 (.requeue 0 0 0 1 4) trivial).2 fun _ => ⟨rfl, .inl Nat.one_pos⟩

/-- **A thread that `requeue` activated is in no queue, and still waits; a requeue with nothing to move writes through
`end()`**. -/
theorem requeue_keeps_woken_waiting :
    (∃ s e, (oneWaiter 1).requeue 0 0 1 0 0 = .ok (s, e) ∧ e.activated = [1] ∧ s.isWaiting 1 = true ∧
      ∀ key, ¬ On s.queue key 1) ∧
      (oneWaiter 1).requeue 0 0 0 0 4 = .error .nullPointer := by
  refine ⟨⟨_, _, rfl, rfl, by decide, fun key hon => ?_⟩, rfl⟩
  rw [queue_eraseEmpty, queue_setList, queue_setList, on_update] at hon
  split at hon
  · exact absurd hon (by decide)
  · rename_i hne
    have hlists : (oneWaiter 1).lists key = none := update_of_ne hne _ _
    rw [on_update, if_neg hne, On, queue, hlists] at hon
    cases hon

end FutexMap

end Gem5
