import Gem5Cxl.Basic
import Mathlib.Algebra.BigOperators.Group.Finset.Piecewise
import Mathlib.Data.Fintype.Basic
/-!
# Rob — entries of the reorder buffer of the O3 CPU (`cpu/o3/rob.cc`)

The threads share `numEntries` entries.  Each has a limit, `maxEntries`, set by the policy and set again when threads come and
go, and a thread may insert while its own count of free entries is not zero.  The counters are of 32 bits.  The head and
the tail over all threads and the squashing of instructions, which removes none, are left out; `n` is the number of threads.
-/
namespace Gem5

inductive SMTQueuePolicy where
  | dynamic
  | partitioned
  | threshold
deriving DecidableEq

structure ROB (n : Nat) where
  robPolicy : SMTQueuePolicy
  numEntries : Nat
  maxEntries : Fin n → Nat
  threadEntries : Fin n → Nat := fun _ => 0
  numInstsInROB : Nat := 0
  /-- the instructions, by their sequence number -/
  instList : Fin n → List Nat := fun _ => []

namespace ROB

variable {n : Nat}

/-- The constructor.  `smtROBThreshold` is an `int`, put in an `unsigned`. -/
def create (n : Nat) (robPolicy : SMTQueuePolicy) (numEntries : Nat) (smtROBThreshold : Int) : ROB n where
  robPolicy := robPolicy
  numEntries := numEntries
  maxEntries := fun _ =>
    match robPolicy with
    | .dynamic => numEntries
    | .partitioned => numEntries / n
    | .threshold => (smtROBThreshold % 2 ^ 32).toNat

def resetEntries (r : ROB n) (activeThreads : List (Fin n)) : ROB n :=
  if r.robPolicy != .dynamic || decide (1 < n) then
    activeThreads.foldl (fun r tid =>
      if r.robPolicy == .partitioned then
        { r with maxEntries := Function.update r.maxEntries tid (r.numEntries / activeThreads.length) }
      else if r.robPolicy == .threshold && activeThreads.length == 1 then
        { r with maxEntries := Function.update r.maxEntries tid r.numEntries }
      else r) r
  else r

def insertInst (r : ROB n) (tid : Fin n) (inst : Nat) : Except Failure (ROB n) := do
  assertThat (r.numInstsInROB != r.numEntries)
  return { r with
    instList := Function.update r.instList tid (r.instList tid ++ [inst])
    numInstsInROB := (r.numInstsInROB + 1) % 2 ^ 32
    threadEntries := Function.update r.threadEntries tid ((r.threadEntries tid + 1) % 2 ^ 32) }

/-- `retireHead`; the head is `readyToCommit`.  `numInstsInROB` is an `int`. -/
def retireHead (r : ROB n) (tid : Fin n) (readyToCommit : Bool) : Except Failure (ROB n) := do
  assertThat (decide (0 < r.numInstsInROB) && decide (r.numInstsInROB < 2 ^ 31))
  match r.instList tid with
  | [] => .error .outOfBounds
  | _ :: rest =>
    assertThat readyToCommit
    return { r with
      instList := Function.update r.instList tid rest
      numInstsInROB := (r.numInstsInROB + (2 ^ 32 - 1)) % 2 ^ 32
      threadEntries := Function.update r.threadEntries tid ((r.threadEntries tid + (2 ^ 32 - 1)) % 2 ^ 32) }

def numFreeEntries (r : ROB n) : Nat := (r.numEntries + 2 ^ 32 - r.numInstsInROB) % 2 ^ 32

def numFreeEntriesOf (r : ROB n) (tid : Fin n) : Nat := (r.maxEntries tid + 2 ^ 32 - r.threadEntries tid) % 2 ^ 32

/-! ## Counts -/

/-- The counters count the instructions, and these fit. -/
structure Counted (r : ROB n) : Prop where
  thread : ∀ tid, r.threadEntries tid = (r.instList tid).length
  total : r.numInstsInROB = ∑ tid, (r.instList tid).length
  le : r.numInstsInROB ≤ r.numEntries
  bound : r.numEntries < 2 ^ 32

variable {r r' : ROB n} {tid : Fin n} {inst : Nat}

theorem Counted.create (n : Nat) (robPolicy : SMTQueuePolicy) {numEntries : Nat} (h : numEntries < 2 ^ 32) (threshold : Int) :
    Counted (create n robPolicy numEntries threshold) :=
  ⟨fun _ => rfl, by simp [ROB.create], Nat.zero_le _, h⟩

theorem sum_length_update (l : Fin n → List Nat) (tid : Fin n) (x : List Nat) :
    ∑ t, (Function.update l tid x t).length + (l tid).length = ∑ t, (l t).length + x.length := by
  have hpull : ∀ t, (Function.update l tid x t).length = Function.update (fun t => (l t).length) tid x.length t :=
    fun t => Function.apply_update (fun _ => List.length) l tid x t
  simp only [hpull]
  rw [Finset.sum_update_of_mem (Finset.mem_univ tid), ← Finset.add_sum_erase _ _ (Finset.mem_univ tid),
    Finset.sdiff_singleton_eq_erase]
  omega

theorem Counted.length_le (h : Counted r) (tid : Fin n) : (r.instList tid).length ≤ r.numInstsInROB := by
  rw [h.total, ← Finset.add_sum_erase _ _ (Finset.mem_univ tid)]
  exact Nat.le_add_right _ _

/-! ## One call -/

theorem insertInst_eq_ok : r.insertInst tid inst = .ok r' ↔ r.numInstsInROB ≠ r.numEntries ∧
    r' = { r with
      instList := Function.update r.instList tid (r.instList tid ++ [inst])
      numInstsInROB := (r.numInstsInROB + 1) % 2 ^ 32
      threadEntries := Function.update r.threadEntries tid ((r.threadEntries tid + 1) % 2 ^ 32) } := by
  rw [insertInst, Run.bind_eq_ok]
  simp only [assertThat_eq_ok, bne_iff_ne, exists_and_left, Run.pure_eq_ok, Except.ok.injEq]
  exact and_congr_right fun _ => ⟨fun h => h.elim fun _ h => h.symm, fun h => ⟨(), h.symm⟩⟩

theorem Counted.insertInst (h : Counted r) (hins : r.insertInst tid inst = .ok r') :
    Counted r' ∧ r'.threadEntries tid = r.threadEntries tid + 1 ∧ r'.numInstsInROB = r.numInstsInROB + 1 := by
  obtain ⟨hne, rfl⟩ := insertInst_eq_ok.1 hins
  have hle := h.le
  have hbound := h.bound
  have hlen := h.length_le tid
  have hthread := h.thread tid
  have hn : (r.numInstsInROB + 1) % 2 ^ 32 = r.numInstsInROB + 1 := Nat.mod_eq_of_lt (by omega)
  have ht : (r.threadEntries tid + 1) % 2 ^ 32 = r.threadEntries tid + 1 := Nat.mod_eq_of_lt (by omega)
  have hsum := sum_length_update r.instList tid (r.instList tid ++ [inst])
  rw [List.length_append, List.length_singleton, ← h.total] at hsum
  refine ⟨⟨fun t => ?_, ?_, ?_, hbound⟩, (Function.update_self ..).trans ht, hn⟩
  · by_cases heq : t = tid
    · subst heq
      simp only [Function.update_self, ht, List.length_append, List.length_singleton]
      rw [hthread]
    · simp [heq, h.thread t]
  · simp only [hn]
    omega
  · simp only [hn]
    omega

theorem Counted.retireHead {ready : Bool} (h : Counted r) (hret : r.retireHead tid ready = .ok r') :
    Counted r' ∧ r'.maxEntries = r.maxEntries ∧ r'.numEntries = r.numEntries ∧ ∀ t, r'.threadEntries t ≤ r.threadEntries t := by
  obtain ⟨u, hpos, hret⟩ := Run.bind_eq_ok.1 hret
  rw [assertThat_eq_ok, Bool.and_eq_true, decide_eq_true_iff, decide_eq_true_iff] at hpos
  split at hret
  · cases hret
  · rename_i i rest hlist
    obtain ⟨-, -, hret⟩ := Run.bind_eq_ok.1 hret
    cases hret
    have hle := h.le
    have hthread := h.thread tid
    have hsum := sum_length_update r.instList tid rest
    rw [hlist, List.length_cons] at hthread
    rw [hlist, List.length_cons, ← h.total] at hsum
    have hlen := h.length_le tid
    rw [hlist, List.length_cons] at hlen
    have hn : (r.numInstsInROB + (2 ^ 32 - 1)) % 2 ^ 32 = r.numInstsInROB - 1 := by omega
    have ht : (r.threadEntries tid + (2 ^ 32 - 1)) % 2 ^ 32 = rest.length := by omega
    refine ⟨⟨fun t => ?_, ?_, ?_, h.bound⟩, rfl, rfl, fun t => ?_⟩
    · by_cases heq : t = tid
      · subst heq
        simp only [Function.update_self, ht]
      · simp [heq, h.thread t]
    · simp only [hn]
      omega
    · simp only [hn]
      omega
    · by_cases heq : t = tid
      · subst heq
        simp only [Function.update_self, ht]
        omega
      · simp [heq]

theorem resetEntries_same (r : ROB n) (activeThreads : List (Fin n)) : (r.resetEntries activeThreads).instList = r.instList ∧
    (r.resetEntries activeThreads).threadEntries = r.threadEntries ∧
    (r.resetEntries activeThreads).numInstsInROB = r.numInstsInROB ∧
    (r.resetEntries activeThreads).numEntries = r.numEntries := by
  rw [resetEntries]
  split
  case isFalse => exact ⟨rfl, rfl, rfl, rfl⟩
  case isTrue h =>
    clear h
    generalize activeThreads.length = active
    induction activeThreads generalizing r with
    | nil => exact ⟨rfl, rfl, rfl, rfl⟩
    | cons tid threads ih =>
      rw [List.foldl_cons]
      split
      · exact ih _
      split
      · exact ih _
      · exact ih r

theorem Counted.resetEntries (h : Counted r) (activeThreads : List (Fin n)) : Counted (r.resetEntries activeThreads) := by
  obtain ⟨hlist, hthread, htotal, hentries⟩ := resetEntries_same r activeThreads
  refine ⟨fun t => ?_, ?_, ?_, ?_⟩
  · rw [hthread, hlist]
    exact h.thread t
  · rw [htotal, hlist]
    exact h.total
  · rw [htotal, hentries]
    exact h.le
  · rw [hentries]
    exact h.bound

/-! ## Runs -/

/-- What calls lead to, when an instruction of `tid` is inserted only as `P` says.  `limits` has for each thread its limit
when it last inserted. -/
inductive Reach (P : ROB n → Fin n → Prop) (r₀ : ROB n) : ROB n → (Fin n → Nat) → Prop
  | start : Reach P r₀ r₀ fun _ => 0
  | insertInst {r r' : ROB n} {limits : Fin n → Nat} {tid : Fin n} {inst : Nat} (hr : Reach P r₀ r limits) (hP : P r tid)
    (h : r.insertInst tid inst = .ok r') : Reach P r₀ r' (Function.update limits tid (r.maxEntries tid))
  | retireHead {r r' : ROB n} {limits : Fin n → Nat} {tid : Fin n} {ready : Bool} (hr : Reach P r₀ r limits)
    (h : r.retireHead tid ready = .ok r') : Reach P r₀ r' limits
  | resetEntries {r : ROB n} {limits : Fin n → Nat} (hr : Reach P r₀ r limits) (activeThreads : List (Fin n)) :
    Reach P r₀ (r.resetEntries activeThreads) limits

variable {P : ROB n → Fin n → Prop} {r₀ : ROB n} {limits : Fin n → Nat}

theorem Reach.counted (h : Reach P r₀ r limits) (h₀ : Counted r₀) : Counted r := by
  induction h with
  | start => exact h₀
  | insertInst _ _ hins ih => exact (ih.insertInst hins).1
  | retireHead _ hret ih => exact (ih.retireHead hret).1
  | resetEntries _ activeThreads ih => exact ih.resetEntries activeThreads

theorem Reach.trans {r₁ r₂ : ROB n} {limits' : Fin n → Nat} (h : Reach P r₀ r₁ limits) (h' : Reach P r₁ r₂ limits') :
    ∃ limits, Reach P r₀ r₂ limits := by
  induction h' with
  | start => exact ⟨limits, h⟩
  | insertInst _ hP hins ih =>
    obtain ⟨_, ih⟩ := ih
    exact ⟨_, .insertInst ih hP hins⟩
  | retireHead _ hret ih =>
    obtain ⟨_, ih⟩ := ih
    exact ⟨_, .retireHead ih hret⟩
  | resetEntries _ activeThreads ih =>
    obtain ⟨_, ih⟩ := ih
    exact ⟨_, .resetEntries ih activeThreads⟩

abbrev Guarded (r : ROB n) (tid : Fin n) : Prop := 0 < r.numFreeEntriesOf tid

/-- The thread's own count promises no more than the whole buffer has. -/
abbrev Covered (r : ROB n) (tid : Fin n) : Prop := r.numFreeEntriesOf tid ≤ r.numFreeEntries

theorem Counted.room (h : Counted r) (hg : Guarded r tid) (hc : Covered r tid) :
    r.threadEntries tid < r.maxEntries tid ∧ r.numInstsInROB < r.numEntries := by
  have hle := h.le
  have hbound := h.bound
  have hlen := h.length_le tid
  rw [← h.thread tid] at hlen
  rw [Guarded, numFreeEntriesOf] at hg
  rw [Covered, numFreeEntriesOf, numFreeEntries] at hc
  omega

theorem Reach.within (h : Reach (fun r tid => Guarded r tid ∧ Covered r tid) r₀ r limits) (h₀ : Counted r₀)
    (hempty : ∀ tid, r₀.threadEntries tid = 0) (tid : Fin n) : r.threadEntries tid ≤ limits tid := by
  induction h with
  | start => exact (hempty tid).le
  | @insertInst r r' limits t inst hr hP hins ih =>
    have hcounted := hr.counted h₀
    have hroom := (hcounted.room hP.1 hP.2).1
    by_cases heq : tid = t
    · subst heq
      rw [Function.update_self, (hcounted.insertInst hins).2.1]
      exact hroom
    · obtain ⟨-, rfl⟩ := insertInst_eq_ok.1 hins
      simp only [Function.update_of_ne heq]
      exact ih
  | retireHead hr hret ih => exact (((hr.counted h₀).retireHead hret).2.2.2 tid).trans ih
  | resetEntries _ activeThreads ih =>
    rw [(resetEntries_same _ activeThreads).2.1]
    exact ih

/-- A count that promises more than there is: the thread fills the buffer, and its count is still positive. -/
theorem Counted.overrun (h : Counted r) (hover : ¬ Covered r tid) :
    ∃ r' limits, Reach Guarded r r' limits ∧ Guarded r' tid ∧ ∀ inst, r'.insertInst tid inst = .error .assertFailed := by
  have hle := h.le
  have hbound := h.bound
  -- by what the whole buffer has left
  induction hn : r.numEntries - r.numInstsInROB generalizing r with
  | zero =>
    have hfull : r.numInstsInROB = r.numEntries := by omega
    refine ⟨r, _, .start, Nat.lt_of_le_of_lt (Nat.zero_le _) (Nat.lt_of_not_le hover), fun inst => ?_⟩
    rw [ROB.insertInst, hfull, bne_self_eq_false]
    rfl
  | succ free ih =>
    have hne : r.numInstsInROB ≠ r.numEntries := by omega
    obtain ⟨r₁, hins⟩ : ∃ r₁, r.insertInst tid 0 = .ok r₁ := ⟨_, insertInst_eq_ok.2 ⟨hne, rfl⟩⟩
    obtain ⟨hcounted, hthread, htotal⟩ := h.insertInst hins
    obtain ⟨hmax, hentries⟩ : r₁.maxEntries = r.maxEntries ∧ r₁.numEntries = r.numEntries := by
      obtain ⟨-, rfl⟩ := insertInst_eq_ok.1 hins
      exact ⟨rfl, rfl⟩
    have hlen := h.length_le tid
    rw [← h.thread tid] at hlen
    have hguard : Guarded r tid := Nat.lt_of_le_of_lt (Nat.zero_le _) (Nat.lt_of_not_le hover)
    have hover₁ : ¬ Covered r₁ tid := by
      rw [Covered, numFreeEntriesOf, numFreeEntries] at hover ⊢
      rw [hmax, hentries, hthread, htotal]
      omega
    obtain ⟨r', limits, hreach, hlast⟩ := ih hcounted hover₁ (by omega) (by omega) (by omega)
    obtain ⟨limits, hreach⟩ := (Reach.insertInst .start hguard hins).trans hreach
    exact ⟨r', limits, hreach, hlast⟩

/-- **The counters count, and the buffer does not overflow while the threads' counts are covered.**  Whatever is called, the
counters agree with the lists.  When a thread inserts only while its count is positive and promises no more than the whole
buffer has, no limit is passed and no insertion fails; a count that promises more leads to one that does. -/
theorem rob_capacity (n : Nat) (robPolicy : SMTQueuePolicy) (numEntries : Nat) (smtROBThreshold : Int)
    (h : numEntries < 2 ^ 32) :
    let r₀ := create n robPolicy numEntries smtROBThreshold
    (∀ P r limits, Reach P r₀ r limits → r.numInstsInROB = ∑ tid, (r.instList tid).length ∧
      r.numInstsInROB = ∑ tid, r.threadEntries tid) ∧
    (∀ r limits, Reach (fun r tid => Guarded r tid ∧ Covered r tid) r₀ r limits → r.numInstsInROB ≤ r.numEntries ∧
      (∀ tid, r.threadEntries tid ≤ limits tid) ∧
      ∀ tid inst, Guarded r tid → Covered r tid → ∃ r', r.insertInst tid inst = .ok r') ∧
    ∀ P r limits tid, Reach P r₀ r limits → ¬ Covered r tid →
      ∃ r' limits, Reach Guarded r r' limits ∧ Guarded r' tid ∧ ∀ inst, r'.insertInst tid inst = .error .assertFailed := by
  intro r₀
  have h₀ : Counted r₀ := .create n robPolicy h smtROBThreshold
  refine ⟨fun P r limits hr => ?_, fun r limits hr => ?_, fun P r limits tid hr => (hr.counted h₀).overrun⟩
  · have hc := hr.counted h₀
    refine ⟨hc.total, ?_⟩
    rw [hc.total]
    exact Finset.sum_congr rfl fun tid _ => (hc.thread tid).symm
  · have hc := hr.counted h₀
    refine ⟨hc.le, hr.within h₀ fun _ => rfl, fun tid inst hg hcov => ?_⟩
    exact ⟨_, insertInst_eq_ok.2 ⟨(hc.room hg hcov).2.ne, rfl⟩⟩

theorem rob_capacity_one : ∃ r', (create 1 .dynamic 1 0).insertInst 0 7 = .ok r' :=
  ((rob_capacity 1 .dynamic 1 0 (by decide)).2.1 _ _ .start).2.2 0 7 (by decide) (by decide)

/-- Two threads that share one entry: the second has the whole buffer to itself by its own count. -/
theorem shared_entry_overflows : ∃ r : ROB 2, (create 2 .dynamic 1 0).insertInst 0 7 = .ok r ∧ Guarded (create 2 .dynamic 1 0) 0 ∧
    Guarded r 1 ∧ r.insertInst 1 8 = .error .assertFailed :=
  ⟨_, rfl, by decide, by decide, rfl⟩

end ROB
end Gem5
