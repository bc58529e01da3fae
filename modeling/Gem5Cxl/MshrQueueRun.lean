import Gem5Cxl.MshrQueue
import Gem5Cxl.MshrRun
/-!
# MshrQueueRun — the lists and counters of an MSHR queue agree, over every run

Between the calls of the queue the cache works on the MSHRs of allocated entries; none of that sends one downstream.
-/
namespace Gem5

open List (length_nil length_singleton mem_cons mem_cons_self)
open Option (some_ne_none toList_none toList_some)

/-- The call returns a value that satisfies `P`, or one of its assertions fails.  It does nothing undefined. -/
def Yields {α : Type} (P : α → Prop) : Except Failure α → Prop
  | .ok a => P a
  | .error e => e = .assertFailed

namespace Yields

variable {α β : Type} {P : α → Prop} {Q : β → Prop}

variable {x : Except Failure α} {a : α}

theorem bind {f : α → Except Failure β} (hx : Yields P x) (hf : ∀ a, P a → Yields Q (f a)) : Yields Q (x >>= f) := by
  cases x with
  | ok a => exact hf a hx
  | error e => exact hx

theorem ok (h : P a) : Yields P (.ok a : Except Failure α) := h

theorem assertThat (b : Bool) : Yields (fun _ => b = true) (assertThat b) := by
  cases b <;> rfl

theorem of_eq_ok (h : x = .ok a) : Yields (fun b => b = a) x := by
  rw [h]
  exact rfl

theorem imp {P' : α → Prop} (hx : Yields P x) (h : ∀ a, P a → P' a) : Yields P' x := by
  cases x with
  | ok a => exact h a hx
  | error e => exact hx

end Yields

/-! ## The calls on one MSHR -/
namespace Mshr

theorem allocate_sound (s : Mshr) (blkAddr blkSize : Nat) (pkt : MissPacket) (whenReady order : Nat)
    (allocOnFill : Bool) : Yields (fun s' => s'.inService = false) (s.allocate blkAddr blkSize pkt whenReady order allocOnFill) := by
  refine (Yields.assertThat _).bind fun _ _ => ?_
  -- the list has at least the new target
  obtain ⟨t, ht⟩ : ∃ t, (s.targets.init blkSize |>.add pkt whenReady order
      (if pkt.cmd = .hardPFReq then .fromPrefetcher else .fromCPU) true allocOnFill).front = .ok t := by
    unfold TargetList.front
    rw [TargetList.add_list]
    cases (s.targets.init blkSize).list with
    | nil => exact ⟨_, rfl⟩
    | cons u rest => exact ⟨u, rfl⟩
  exact (Yields.of_eq_ok ht).bind fun _ _ => (Yields.assertThat _).bind fun _ _ => .ok rfl

theorem markInService_sound (s : Mshr) (pendingModifiedResp : Bool) :
    Yields (fun s' => s.inService = false ∧ s'.inService = true) (s.markInService pendingModifiedResp) :=
  (Yields.assertThat _).bind fun _ h => .ok ⟨by simpa using h, rfl⟩

theorem deallocate_sound (s : Mshr) : Yields (fun s' => s'.inService = false) s.deallocate :=
  (Yields.assertThat _).bind fun _ _ => (Yields.assertThat _).bind fun _ _ => .ok rfl

theorem delay_sound (s : Mshr) (curTick delayTicks : Nat) :
    Yields (fun s' => s'.inService = s.inService) (s.delay curTick delayTicks) :=
  (Yields.assertThat _).bind fun _ _ => .ok rfl

theorem popTarget_sound (s : Mshr) (h : s.hasTargets = true) : Yields (fun s' => s'.inService = s.inService) s.popTarget := by
  unfold popTarget
  cases hl : s.targets.list with
  | nil => rw [hasTargets, hl] at h; cases h
  | cons t rest => exact rfl

theorem append_promotable_ne_nil (targets deferred : List Target)
    (h : ¬(targets.isEmpty && deferred.isEmpty) = true) : targets ++ (promotable targets deferred).1 ≠ [] := by
  cases targets with
  | cons t rest => exact List.cons_ne_nil _ _
  | nil =>
    cases deferred with
    | nil => exact absurd rfl h
    | cons d rest =>
      unfold promotable
      cases hd : d.isCacheMaintenance <;> simp [hd]

theorem promoteDeferredTargets_sound (s : Mshr) (curTick : Nat) :
    Yields (fun r => r.1.inService = s.inService) (s.promoteDeferredTargets curTick) := by
  unfold promoteDeferredTargets
  split
  · exact rfl
  · rename_i hne
    have hfront := append_promotable_ne_nil _ _ hne
    generalize promotable s.targets.list s.deferredTargets.list = split at hfront
    obtain ⟨moved, stay⟩ := split
    obtain ⟨t, rest, hcons⟩ := List.exists_cons_of_ne_nil hfront
    have ht : (({ s.targets with list := s.targets.list ++ moved } : TargetList).populateFlags).front = .ok t :=
      TargetList.front_eq_ok.2 ⟨rest, by rw [TargetList.populateFlags_list]; exact hcons⟩
    exact (Yields.of_eq_ok ht).bind fun _ _ => .ok rfl

end Mshr

/-! ## The invariant -/
namespace MshrQueue

/-- **The representation invariant of the queue.**  The entry in `limbo` is allocated, but on its way between the ready
ones and those in service. -/
structure Inv (n r : Nat) (limbo : Option Nat) (q : MshrQueue) : Prop where
  numEntries : q.numEntries = n + r
  numReserve : q.numReserve = r
  freeNodup : q.freeList.Nodup
  allocNodup : q.allocatedList.elems.Nodup
  readyNodup : q.readyList.elems.Nodup
  entry : ∀ j, j < n + r ↔ j ∈ q.freeList ∨ j ∈ q.allocatedList.elems
  apart : ∀ j ∈ q.freeList, j ∉ q.allocatedList.elems
  ready : ∀ j, j ∈ q.readyList.elems ↔
    j ∈ q.allocatedList.elems ∧ limbo ≠ some j ∧ (q.entries j).mshr.inService = false
  allocIter : ∀ j ∈ q.allocatedList.elems, q.allocatedList.Points (q.entries j).allocIter j
  readyIter : ∀ j ∈ q.readyList.elems, q.readyList.Points (q.entries j).readyIter j
  allocated : q.allocated = q.allocatedList.elems.length
  inService : q.numInService + q.readyList.elems.length + limbo.toList.length = q.allocatedList.elems.length

theorem inv_new (numEntries reserve : Nat) : (new numEntries reserve).Inv numEntries reserve none where
  numEntries := rfl
  numReserve := rfl
  freeNodup := List.nodup_range
  allocNodup := List.nodup_nil
  readyNodup := List.nodup_nil
  entry j := by
    rw [show (new numEntries reserve).freeList = List.range (numEntries + reserve) from rfl, List.mem_range]
    exact ⟨.inl, fun h => h.elim id fun h => (by cases h)⟩
  apart j _ h := by cases h
  ready j := ⟨fun h => (by cases h), fun h => (by cases h.1)⟩
  allocIter j h := by cases h
  readyIter j h := by cases h
  allocated := rfl
  inService := rfl

theorem setEntry_self (q : MshrQueue) (i : Nat) (e : Entry) : (q.setEntry i e).entries i = e := Function.update_self _ _ _

theorem setEntry_of_ne (q : MshrQueue) {i j : Nat} (e : Entry) (h : j ≠ i) : (q.setEntry i e).entries j = q.entries j :=
  Function.update_of_ne h _ _

variable {n r : Nat} {q : MshrQueue} {i : Nat} {limbo : Option Nat}

variable {s : Mshr}

theorem Inv.setMshr (h : q.Inv n r limbo)
    (hs : i ∈ q.allocatedList.elems → limbo ≠ some i → s.inService = (q.mshr i).inService) :
    (q.setMshr i s).Inv n r limbo := by
  have hiters : ∀ j, ((q.setMshr i s).entries j).allocIter = (q.entries j).allocIter ∧
      ((q.setMshr i s).entries j).readyIter = (q.entries j).readyIter := by
    intro j
    by_cases hj : j = i
    · rw [hj, MshrQueue.setMshr, setEntry_self]
      exact ⟨rfl, rfl⟩
    · rw [MshrQueue.setMshr, setEntry_of_ne _ _ hj]
      exact ⟨rfl, rfl⟩
  refine { h with
    ready := fun j => (h.ready j).trans ?_
    allocIter := fun j hj => by rw [(hiters j).1]; exact h.allocIter j hj
    readyIter := fun j hj => by rw [(hiters j).2]; exact h.readyIter j hj }
  refine and_congr_right fun hj => and_congr_right fun hlimbo => ?_
  by_cases hji : j = i
  · subst hji
    rw [MshrQueue.setMshr, setEntry_self]
    exact (hs hj hlimbo) ▸ Iff.rfl
  · rw [MshrQueue.setMshr, setEntry_of_ne _ _ hji]

theorem Inv.unready (h : q.Inv n r none) (hi : i ∈ q.readyList.elems) :
    ({ q with readyList := q.readyList.without (q.entries i).readyIter } : MshrQueue).Inv n r (some i) := by
  have hp := h.readyIter i hi
  have hmem : ∀ j, j ∈ (q.readyList.without (q.entries i).readyIter).elems ↔ j ∈ q.readyList.elems ∧ j ≠ i := fun j =>
    IterList.mem_elems_without h.readyNodup hp
  refine { h with
    readyNodup := IterList.nodup_elems_without h.readyNodup
    ready := fun j => ?_, readyIter := fun j hj => ?_, inService := ?_ }
  · rw [hmem, h.ready]
    constructor
    · rintro ⟨⟨hj, -, hs⟩, hne⟩
      exact ⟨hj, fun heq => hne (Option.some.inj heq).symm, hs⟩
    · rintro ⟨hj, hne, hs⟩
      exact ⟨⟨hj, (some_ne_none _).symm, hs⟩, fun heq => hne (congrArg some heq.symm)⟩
  · obtain ⟨hj, hne⟩ := (hmem j).1 hj
    exact (h.readyIter j hj).without hp hne
  · have hcount := h.inService
    have hlen := IterList.length_elems_without hp
    simp only [toList_none, toList_some, length_nil, length_singleton] at hcount ⊢
    omega

theorem Inv.unserve (h : q.Inv n r none) (hs : (q.mshr i).inService = true) :
    ({ q with numInService := q.numInService - 1 } : MshrQueue).Inv n r (some i) := by
  refine { h with ready := fun j => (h.ready j).trans ?_, inService := ?_ }
  · refine and_congr_right fun _ => ⟨fun hj => ⟨fun heq => ?_, hj.2⟩, fun hj => ⟨(some_ne_none _).symm, hj.2⟩⟩
    obtain rfl := Option.some.inj heq
    exact Bool.false_ne_true (hj.2.symm.trans hs)
  · have hcount := h.inService
    simp only [toList_none, toList_some, length_nil, length_singleton] at hcount ⊢
    omega

theorem Inv.makeReady (h : q.Inv n r (some i)) (hi : i ∈ q.allocatedList.elems) (hs : (q.mshr i).inService = false)
    (k : Nat) : ({ q.setEntry i { q.entries i with readyIter := q.readyList.next } with
      readyList := q.readyList.insertAt k i } : MshrQueue).Inv n r none := by
  have hnot : i ∉ q.readyList.elems := fun hmem => ((h.ready i).1 hmem).2.1 rfl
  have hentry : ∀ j, ((q.setEntry i { q.entries i with readyIter := q.readyList.next }).entries j).mshr =
      (q.entries j).mshr ∧
      ((q.setEntry i { q.entries i with readyIter := q.readyList.next }).entries j).allocIter = (q.entries j).allocIter := by
    intro j
    by_cases hj : j = i
    · rw [hj, setEntry_self]
      exact ⟨rfl, rfl⟩
    · rw [setEntry_of_ne _ _ hj]
      exact ⟨rfl, rfl⟩
  refine { h with
    readyNodup := IterList.nodup_elems_insertAt h.readyNodup hnot, ready := fun j => ?_
    allocIter := fun j hj => (hentry j).2 ▸ h.allocIter j hj, readyIter := fun j hj => ?_, inService := ?_ }
  · refine IterList.mem_elems_insertAt.trans ?_
    show j = i ∨ j ∈ q.readyList.elems ↔ j ∈ q.allocatedList.elems ∧ none ≠ some j ∧ _
    rw [(hentry j).1, h.ready]
    constructor
    · rintro (rfl | ⟨hj, -, hsj⟩)
      · exact ⟨hi, (some_ne_none _).symm, hs⟩
      · exact ⟨hj, (some_ne_none _).symm, hsj⟩
    · rintro ⟨hj, -, hsj⟩
      by_cases hji : j = i
      · exact .inl hji
      · exact .inr ⟨hj, fun heq => hji (Option.some.inj heq).symm, hsj⟩
  · refine IterList.points_insertAt.2 ?_
    by_cases hji : j = i
    · subst hji
      exact .inl ⟨congrArg Entry.readyIter (setEntry_self _ _ _), rfl⟩
    · refine .inr ?_
      have hmem : j ∈ q.readyList.elems := (IterList.mem_elems_insertAt.1 hj).resolve_left hji
      have := h.readyIter j hmem
      rw [← setEntry_of_ne q { q.entries i with readyIter := q.readyList.next } hji] at this
      exact this
  · have hcount := h.inService
    have hlen : (q.readyList.insertAt k i).elems.length = q.readyList.elems.length + 1 := IterList.length_elems_insertAt
    simp only [toList_none, toList_some, length_nil, length_singleton] at hcount ⊢
    show q.numInService + ((q.readyList.insertAt k i).elems.length : Int) + ((0 : Nat) : Int) = q.allocatedList.elems.length
    omega

theorem Inv.serve (h : q.Inv n r (some i)) (hs : (q.mshr i).inService = true) :
    ({ q with numInService := q.numInService + 1 } : MshrQueue).Inv n r none := by
  refine { h with ready := fun j => (h.ready j).trans ?_, inService := ?_ }
  · refine and_congr_right fun _ => ⟨fun hj => ⟨(some_ne_none _).symm, hj.2⟩, fun hj => ⟨fun heq => ?_, hj.2⟩⟩
    obtain rfl := Option.some.inj heq
    exact Bool.false_ne_true (hj.2.symm.trans hs)
  · have hcount := h.inService
    simp only [toList_none, toList_some, length_nil, length_singleton] at hcount ⊢
    omega

theorem Inv.free (h : q.Inv n r (some i)) (hi : i ∈ q.allocatedList.elems) :
    ({ q with
      allocatedList := q.allocatedList.without (q.entries i).allocIter, freeList := i :: q.freeList
      allocated := q.allocated - 1 } : MshrQueue).Inv n r none := by
  have hp := h.allocIter i hi
  have hmem : ∀ j, j ∈ (q.allocatedList.without (q.entries i).allocIter).elems ↔ j ∈ q.allocatedList.elems ∧ j ≠ i :=
    fun j => IterList.mem_elems_without h.allocNodup hp
  have hlen := IterList.length_elems_without hp
  refine ⟨h.numEntries, h.numReserve, List.nodup_cons.2 ⟨fun hf => h.apart i hf hi, h.freeNodup⟩,
    IterList.nodup_elems_without h.allocNodup, h.readyNodup, fun j => ?_, fun j hj => ?_, fun j => ?_, fun j hj => ?_, h.readyIter, ?_, ?_⟩
  · show j < n + r ↔ j ∈ i :: q.freeList ∨ _
    rw [h.entry, mem_cons, hmem]
    by_cases hji : j = i
    · subst hji
      exact ⟨fun _ => .inl (.inl rfl), fun _ => .inr hi⟩
    · exact ⟨fun hj => hj.imp .inr fun hj => ⟨hj, hji⟩, fun hj => hj.imp (fun hj => hj.resolve_left hji) And.left⟩
  · rw [hmem]
    rcases mem_cons.1 hj with rfl | hj
    · exact fun hj => hj.2 rfl
    · exact fun hj' => h.apart j hj hj'.1
  · show j ∈ q.readyList.elems ↔ _
    rw [h.ready, hmem]
    constructor
    · rintro ⟨hj, hne, hs⟩
      exact ⟨⟨hj, fun heq => hne (congrArg some heq.symm)⟩, (some_ne_none _).symm, hs⟩
    · rintro ⟨⟨hj, hne⟩, -, hs⟩
      exact ⟨hj, fun heq => hne (Option.some.inj heq).symm, hs⟩
  · obtain ⟨hj, hne⟩ := (hmem j).1 hj
    exact (h.allocIter j hj).without hp hne
  · have := h.allocated
    show q.allocated - 1 = ((q.allocatedList.without (q.entries i).allocIter).elems.length : Int)
    omega
  · have hcount := h.inService
    simp only [toList_none, toList_some, length_nil, length_singleton] at hcount ⊢
    omega

theorem Inv.take (h : q.Inv n r none) {rest : List Nat} (hfree : q.freeList = i :: rest) (s : Mshr) (k : Nat) :
    ({ q.setEntry i { q.entries i with mshr := s, allocIter := q.allocatedList.next } with
      freeList := rest, allocatedList := q.allocatedList.insertAt k i, allocated := q.allocated + 1 } : MshrQueue).Inv n r
        (some i) := by
  have hi : i ∉ q.allocatedList.elems := h.apart i (hfree ▸ mem_cons_self)
  have hnd := List.nodup_cons.1 (hfree ▸ h.freeNodup)
  have hlen : (q.allocatedList.insertAt k i).elems.length = q.allocatedList.elems.length + 1 := IterList.length_elems_insertAt
  have hother : ∀ j, j ≠ i →
      (q.setEntry i { q.entries i with mshr := s, allocIter := q.allocatedList.next }).entries j = q.entries j := fun j hj =>
    setEntry_of_ne _ _ hj
  refine ⟨h.numEntries, h.numReserve, hnd.2, IterList.nodup_elems_insertAt h.allocNodup hi, h.readyNodup,
    fun j => ?_, fun j hj => ?_, fun j => ?_, fun j hj => ?_, fun j hj => ?_, ?_, ?_⟩
  · show j < n + r ↔ j ∈ rest ∨ _
    rw [h.entry, hfree, mem_cons, IterList.mem_elems_insertAt]
    tauto
  · rw [IterList.mem_elems_insertAt]
    rintro (rfl | hmem)
    · exact hnd.1 hj
    · exact h.apart j (hfree ▸ List.mem_cons_of_mem _ hj) hmem
  · show j ∈ q.readyList.elems ↔ j ∈ (q.allocatedList.insertAt k i).elems ∧ _
    rw [h.ready, IterList.mem_elems_insertAt]
    by_cases hji : j = i
    · subst hji
      exact ⟨fun hj => absurd hj.1 hi, fun hj => absurd rfl hj.2.1⟩
    · rw [hother j hji]
      exact ⟨fun hj => ⟨.inr hj.1, fun heq => hji (Option.some.inj heq).symm, hj.2.2⟩,
        fun hj => ⟨hj.1.resolve_left hji, (some_ne_none _).symm, hj.2.2⟩⟩
  · refine IterList.points_insertAt.2 ?_
    by_cases hji : j = i
    · subst hji
      exact .inl ⟨congrArg Entry.allocIter (setEntry_self _ _ _), rfl⟩
    · refine .inr ?_
      have hmem : j ∈ q.allocatedList.elems := (IterList.mem_elems_insertAt.1 hj).resolve_left hji
      have := h.allocIter j hmem
      rw [← hother j hji] at this
      exact this
  · have hji : j ≠ i := fun heq => hi (heq ▸ ((h.ready j).1 hj).1)
    have := h.readyIter j hj
    rw [← hother j hji] at this
    exact this
  · have := h.allocated
    show q.allocated + 1 = ((q.allocatedList.insertAt k i).elems.length : Int)
    omega
  · have hcount := h.inService
    simp only [toList_none, toList_some, length_nil, length_singleton] at hcount ⊢
    show q.numInService + (q.readyList.elems.length : Int) + ((1 : Nat) : Int) =
      ((q.allocatedList.insertAt k i).elems.length : Int)
    omega

theorem readyPos_returns (q : MshrQueue) (i : Nat) : ∃ k, q.readyPos i = .ok k := by
  unfold readyPos
  cases hb : q.readyList.elems.getLast? with
  | none => exact ⟨_, rfl⟩
  | some back =>
    dsimp only
    by_cases hle : (q.mshr back).readyTime ≤ (q.mshr i).readyTime
    · exact ⟨_, if_pos hle⟩
    · rw [if_neg hle]
      cases hf : q.readyList.elems.findIdx? fun j => decide ((q.mshr i).readyTime < (q.mshr j).readyTime) with
      | some k => exact ⟨k, rfl⟩
      | none =>
        -- the last entry is ready after this one
        have hlast := List.findIdx?_eq_none_iff.1 hf back (List.mem_of_getLast? hb)
        exact absurd (Nat.lt_of_not_le hle) (of_decide_eq_false hlast)

theorem addToReadyList_returns (q : MshrQueue) (i : Nat) : ∃ k, q.addToReadyList i =
    .ok { q.setEntry i { q.entries i with readyIter := q.readyList.next } with readyList := q.readyList.insertAt k i } := by
  obtain ⟨k, hk⟩ := readyPos_returns q i
  refine ⟨k, ?_⟩
  rw [addToReadyList, hk]
  rfl

/-! ## The calls -/

theorem Inv.readyPoints (h : q.Inv n r none) (hi : i ∈ q.allocatedList.elems) (hs : (q.mshr i).inService = false) :
    i ∈ q.readyList.elems ∧ q.readyList.Points (q.entries i).readyIter i := by
  have hmem := (h.ready i).2 ⟨hi, (some_ne_none _).symm, hs⟩
  exact ⟨hmem, h.readyIter i hmem⟩

theorem deref_erase {l : IterList Nat} {it a : Nat} (h : l.Points it a) : deref (l.erase it) = .ok (l.without it) := by
  rw [IterList.erase_of_points h]
  rfl

theorem Inv.allocate (h : q.Inv n r none) (blkAddr blkSize : Nat) (pkt : MissPacket) (whenReady order : Nat)
    (allocOnFill : Bool) : Yields (Inv n r none) (q.allocate blkAddr blkSize pkt whenReady order allocOnFill) := by
  unfold MshrQueue.allocate
  split
  · exact rfl
  · rename_i i rest hfree
    refine (Yields.assertThat _).bind fun _ _ => (Mshr.allocate_sound _ _ _ _ _ _ _).bind fun s hs => ?_
    have htake := h.take hfree s q.allocatedList.elems.length
    have hi : i ∈ (q.allocatedList.insertAt q.allocatedList.elems.length i).elems := IterList.mem_elems_insertAt.2 (.inl rfl)
    have hs' : ((q.setEntry i { q.entries i with mshr := s, allocIter := q.allocatedList.next }).mshr i).inService =
        false := by
      rw [mshr, setEntry_self]
      exact hs
    obtain ⟨k, hk⟩ := addToReadyList_returns
      { q.setEntry i { q.entries i with mshr := s, allocIter := q.allocatedList.next } with
        freeList := rest, allocatedList := q.allocatedList.insertAt q.allocatedList.elems.length i } i
    refine (Yields.of_eq_ok hk).bind ?_
    rintro _ rfl
    exact htake.makeReady hi hs' k

theorem unlink_of_inService (hs : (q.mshr i).inService = true) :
    q.unlink i = .ok { q with numInService := q.numInService - 1 } :=
  if_pos hs

theorem unlink_of_ready (hs : (q.mshr i).inService = false) (hp : q.readyList.Points (q.entries i).readyIter i) :
    q.unlink i = .ok { q with readyList := q.readyList.without (q.entries i).readyIter } := by
  rw [unlink, hs, if_neg Bool.false_ne_true, deref_erase hp]
  rfl

section

variable (h : q.Inv n r none) (hi : i ∈ q.allocatedList.elems)
include h hi

theorem Inv.deallocate : Yields (Inv n r none) (q.deallocate i) := by
  have hgone : i ∉ (q.allocatedList.without (q.entries i).allocIter).elems := fun hmem =>
    ((IterList.mem_elems_without h.allocNodup (h.allocIter i hi)).1 hmem).2 rfl
  refine (Yields.of_eq_ok (deref_erase (h.allocIter i hi))).bind ?_
  rintro _ rfl
  cases hs : (q.mshr i).inService with
  | true =>
    refine (Yields.of_eq_ok (unlink_of_inService (by exact hs))).bind ?_
    rintro _ rfl
    exact (Mshr.deallocate_sound _).bind fun s _ => ((h.unserve hs).free hi).setMshr fun hmem => absurd hmem hgone
  | false =>
    obtain ⟨hmem, hp⟩ := h.readyPoints hi hs
    refine (Yields.of_eq_ok (unlink_of_ready (by exact hs) (by exact hp))).bind ?_
    rintro _ rfl
    exact (Mshr.deallocate_sound _).bind fun s _ => ((h.unready hmem).free hi).setMshr fun hmem => absurd hmem hgone

theorem Inv.moveToFront : Yields (Inv n r none) (q.moveToFront i) := by
  unfold MshrQueue.moveToFront
  cases hs : (q.mshr i).inService with
  | true => exact h
  | false =>
    obtain ⟨hmem, hp⟩ := h.readyPoints hi hs
    have hget : deref (q.readyList.get (q.entries i).readyIter) = .ok i := by rw [IterList.get_eq_some.2 hp]; rfl
    refine (Yields.of_eq_ok hget).bind fun _ _ => (Yields.assertThat _).bind fun _ _ => ?_
    refine (Yields.of_eq_ok (deref_erase hp)).bind ?_
    rintro _ rfl
    exact (h.unready hmem).makeReady hi hs 0

theorem Inv.markInService (pendingModifiedResp : Bool) :
    Yields (Inv n r none) (q.markInService i pendingModifiedResp) := by
  refine (Mshr.markInService_sound _ _).bind fun s hs => ?_
  obtain ⟨hmem, hp⟩ := h.readyPoints hi hs.1
  refine (Yields.of_eq_ok (deref_erase hp)).bind ?_
  rintro _ rfl
  have hset := (h.unready hmem).setMshr (i := i) (s := s) fun _ hne => absurd rfl hne
  exact hset.serve (by rw [mshr, MshrQueue.setMshr, setEntry_self]; exact hs.2)

theorem Inv.markPending : Yields (Inv n r none) (q.markPending i) := by
  refine (Yields.assertThat _).bind fun _ hs => ?_
  have hset := (h.unserve hs).setMshr (i := i) (s := { q.mshr i with inService := false }) fun _ hne => absurd rfl hne
  obtain ⟨k, hk⟩ := addToReadyList_returns { q.setMshr i { q.mshr i with inService := false } with
    numInService := q.numInService - 1 } i
  refine (Yields.of_eq_ok hk).imp ?_
  rintro _ rfl
  exact hset.makeReady hi (by rw [mshr, MshrQueue.setMshr, setEntry_self]) k

end

/-- **`delay` leaves the ready list as it is**: the search starts at the entry itself, and stops there. -/
theorem delayPos_eq (hp : q.readyList.Points (q.entries i).readyIter i) : q.delayPos i = some (q.entries i).readyIter := by
  obtain ⟨rest, hrest⟩ := IterList.dropWhile_points hp
  rw [delayPos, hrest, List.find?_cons, decide_eq_true (Nat.le_refl _)]
  rfl

theorem reposition_eq (hp : q.readyList.Points (q.entries i).readyIter i) : q.reposition i = .ok q := by
  unfold reposition
  split
  · rename_i hnone
    exact absurd (hnone.symm.trans (IterList.get_eq_some.2 hp)) (some_ne_none _).symm
  · rw [IterList.splice_self _ (delayPos_eq hp)]

section

variable (h : q.Inv n r none) (hi : i ∈ q.allocatedList.elems)
include h hi

theorem Inv.delay (hs : (q.mshr i).inService = false)
    (curTick delayTicks : Nat) : Yields (Inv n r none) (q.delay i curTick delayTicks) := by
  refine (Mshr.delay_sound _ _ _).bind fun s hs' => ?_
  have hset := h.setMshr (i := i) (s := s) fun _ _ => hs'
  have hp := (hset.readyPoints hi (by rw [mshr, MshrQueue.setMshr, setEntry_self]; exact hs'.trans hs)).2
  rw [reposition_eq hp]
  exact hset

theorem Inv.deallocateIfDone (curTick : Nat)
    (hs : s.inService = (q.mshr i).inService) : Yields (Inv n r none) (q.deallocateIfDone i curTick s) := by
  have hset : ∀ s' : Mshr, s'.inService = (q.mshr i).inService → (q.setMshr i s').Inv n r none := fun s' hs' =>
    h.setMshr fun _ _ => hs'
  unfold MshrQueue.deallocateIfDone
  split
  · refine (Mshr.promoteDeferredTargets_sound _ _).bind fun out hr => ?_
    obtain ⟨s', promoted⟩ := out
    cases promoted with
    | true => exact hset s' (hr.trans hs)
    | false => exact (hset s' (hr.trans hs)).deallocate hi
  · exact hset s hs

theorem Inv.forceDeallocateTarget (curTick : Nat) :
    Yields (fun out => out.1.Inv n r none) (q.forceDeallocateTarget i curTick) :=
  (Yields.assertThat _).bind fun _ hhas => (Mshr.popTarget_sound _ hhas).bind fun _ hs =>
    (h.deallocateIfDone hi curTick hs).bind fun _ hq' => hq'

end

/-! ## Runs -/

inductive Call where
  | allocate (blkAddr blkSize : Nat) (pkt : MissPacket) (whenReady order : Nat) (allocOnFill : Bool)
  | markInService (i : Nat) (pendingModifiedResp : Bool)
  | markPending (i : Nat)
  | moveToFront (i : Nat)
  | delay (i curTick delayTicks : Nat)
  | forceDeallocateTarget (i curTick : Nat)
  | deallocate (i : Nat)
  | update (i : Nat) (s : Mshr)

def step (q : MshrQueue) : Call → Except Failure MshrQueue
  | .allocate blkAddr blkSize pkt whenReady order allocOnFill =>
    q.allocate blkAddr blkSize pkt whenReady order allocOnFill
  | .markInService i pendingModifiedResp => q.markInService i pendingModifiedResp
  | .markPending i => q.markPending i
  | .moveToFront i => q.moveToFront i
  | .delay i curTick delayTicks => q.delay i curTick delayTicks
  | .forceDeallocateTarget i curTick => (q.forceDeallocateTarget i curTick).map Prod.fst
  | .deallocate i => q.deallocate i
  | .update i s => .ok (q.setMshr i s)

/-- The call is on an allocated entry, and `delay` on one that is not in service.  The cache does not send an MSHR
downstream itself. -/
def Legal (q : MshrQueue) : Call → Prop
  | .allocate .. => True
  | .markInService i _ | .markPending i | .moveToFront i | .forceDeallocateTarget i _ | .deallocate i =>
    i ∈ q.allocatedList.elems
  | .delay i _ _ => i ∈ q.allocatedList.elems ∧ (q.mshr i).inService = false
  | .update i s => s.inService = (q.mshr i).inService

inductive Reach (numEntries reserve : Nat) : MshrQueue → Prop
  | init : Reach numEntries reserve (new numEntries reserve)
  | step {q q' : MshrQueue} (c : Call) (h : Reach numEntries reserve q) (legal : q.Legal c) (hs : q.step c = .ok q') :
      Reach numEntries reserve q'

theorem Inv.step (h : q.Inv n r none) {c : Call} (hc : q.Legal c) : Yields (Inv n r none) (q.step c) := by
  cases c with
  | allocate blkAddr blkSize pkt whenReady order allocOnFill => exact h.allocate _ _ _ _ _ _
  | markInService i pendingModifiedResp => exact h.markInService hc _
  | markPending i => exact h.markPending hc
  | moveToFront i => exact h.moveToFront hc
  | delay i curTick delayTicks => exact h.delay hc.1 hc.2 _ _
  | forceDeallocateTarget i curTick =>
    have hforce := h.forceDeallocateTarget hc curTick
    change Yields _ ((q.forceDeallocateTarget i curTick).map Prod.fst)
    cases hf : q.forceDeallocateTarget i curTick with
    | ok out => rw [hf] at hforce; exact hforce
    | error e => rw [hf] at hforce; exact hforce
  | deallocate i => exact h.deallocate hc
  | update i s => exact h.setMshr fun _ _ => hc

theorem Reach.inv {numEntries reserve : Nat} (h : Reach numEntries reserve q) : q.Inv numEntries reserve none := by
  induction h with
  | init => exact inv_new _ _
  | step c _ legal hs ih =>
    have hsound := ih.step legal
    rw [hs] at hsound
    exact hsound

theorem Inv.numInService_eq (h : q.Inv n r none) :
    q.numInService = (q.allocatedList.elems.filter fun i => (q.mshr i).inService).length := by
  have hperm : q.readyList.elems.Perm (q.allocatedList.elems.filter fun i => !(q.mshr i).inService) := by
    refine (List.perm_ext_iff_of_nodup h.readyNodup (h.allocNodup.filter _)).2 fun i => ?_
    rw [h.ready, List.mem_filter, Bool.not_eq_true']
    exact ⟨fun hi => ⟨hi.1, hi.2.2⟩, fun hi => ⟨hi.1, (some_ne_none _).symm, hi.2⟩⟩
  have hsplit := (List.filter_append_perm (fun i => (q.mshr i).inService) q.allocatedList.elems).length_eq
  rw [List.length_append, ← hperm.length_eq] at hsplit
  have hcount := h.inService
  simp only [toList_none, length_nil] at hcount
  omega

/-- **The lists and counters of the queue agree in every run**, and a legal call returns or fails one of its assertions. -/
theorem lists_agree {numEntries reserve : Nat} (h : Reach numEntries reserve q) :
    (q.freeList.Nodup ∧ q.allocatedList.elems.Nodup ∧
        ∀ i, (i ∈ q.freeList ∨ i ∈ q.allocatedList.elems ↔ i < numEntries + reserve) ∧
          ¬(i ∈ q.freeList ∧ i ∈ q.allocatedList.elems)) ∧
      (q.readyList.elems.Nodup ∧
        ∀ i, i ∈ q.readyList.elems ↔ i ∈ q.allocatedList.elems ∧ (q.mshr i).inService = false) ∧
      q.allocated = q.allocatedList.elems.length ∧
      q.numInService = (q.allocatedList.elems.filter fun i => (q.mshr i).inService).length ∧
      (q.isFull = true ↔ ((numEntries + reserve : Nat) : Int) - reserve ≤ q.allocatedList.elems.length) ∧
      ∀ c, q.Legal c → (∃ q', q.step c = .ok q') ∨ q.step c = .error .assertFailed := by
  have hinv := h.inv
  refine ⟨⟨hinv.freeNodup, hinv.allocNodup, fun i => ⟨(hinv.entry i).symm, fun hi => hinv.apart i hi.1 hi.2⟩⟩,
    ⟨hinv.readyNodup, fun i => (hinv.ready i).trans ?_⟩, hinv.allocated, hinv.numInService_eq, ?_, fun c hc => ?_⟩
  · exact ⟨fun hi => ⟨hi.1, hi.2.2⟩, fun hi => ⟨hi.1, (some_ne_none _).symm, hi.2⟩⟩
  · rw [isFull, decide_eq_true_eq, hinv.numEntries, hinv.numReserve, hinv.allocated]
  · have hsound := hinv.step hc
    cases hstep : q.step c with
    | ok q' => exact .inl ⟨q', rfl⟩
    | error e =>
      rw [hstep] at hsound
      exact .inr (congrArg Except.error hsound)

def readMiss : Call := .allocate 0 64 { cmd := .readSharedReq, size := 64 } 0 0 true

theorem reach_inService : ∃ q, Reach 1 1 q ∧ q.allocatedList.elems = [0] ∧ q.readyList.elems = [] ∧
    (q.mshr 0).inService = true ∧ (q.mshr 0).readyTime = 0 :=
  ⟨_, .step (.markInService 0 false) (.step readMiss .init trivial rfl) mem_cons_self rfl, rfl, rfl, rfl, rfl⟩

theorem lists_agree_inService :
    ∃ q, Reach 1 1 q ∧ q.allocatedList.elems = [0] ∧ (∀ i, i ∈ q.freeList ∨ i ∈ q.allocatedList.elems ↔ i < 2) ∧
      q.numInService = 1 ∧ q.isFull = true := by
  obtain ⟨q, hq, halloc, hready, hservice, -⟩ := reach_inService
  obtain ⟨⟨-, -, hentry⟩, -, -, hnum, hfull, -⟩ := lists_agree hq
  refine ⟨q, hq, halloc, fun i => (hentry i).1, ?_, hfull.2 ?_⟩
  · rw [hnum, halloc, List.filter_cons, if_pos hservice]
    rfl
  · rw [halloc]
    decide

/-- **`delay` of an entry in service passes its assertion and goes through an iterator that was erased.** -/
theorem delay_inService : ∃ q, Reach 1 1 q ∧ 0 ∈ q.allocatedList.elems ∧ (∃ s, (q.mshr 0).delay 5 1 = .ok s) ∧
    q.delay 0 5 1 = .error .nullPointer := by
  refine ⟨_, .step (.markInService 0 false) (.step readMiss .init trivial rfl) mem_cons_self rfl, mem_cons_self,
    ⟨_, rfl⟩, rfl⟩

/-! ## The order of the ready list -/

def Ordered (q : MshrQueue) : Prop := q.readyList.elems.Pairwise fun i j => (q.mshr i).readyTime ≤ (q.mshr j).readyTime

instance (q : MshrQueue) : Decidable q.Ordered := inferInstanceAs (Decidable (List.Pairwise _ _))

/-- `getNext` finds an entry that is ready if there is one, and `nextReadyTime` is the least of all. -/
def NextSound (q : MshrQueue) : Prop :=
  (∀ curTick, (∃ j ∈ q.readyList.elems, (q.mshr j).readyTime ≤ curTick) →
    ∃ k ∈ q.readyList.elems, q.getNext curTick = some k ∧ (q.mshr k).readyTime ≤ curTick) ∧
  (∀ j ∈ q.readyList.elems, q.nextReadyTime ≤ (q.mshr j).readyTime) ∧
  (q.readyList.elems ≠ [] → ∃ j ∈ q.readyList.elems, q.nextReadyTime = (q.mshr j).readyTime)

theorem Ordered.nextSound (h : q.Ordered) : q.NextSound := by
  unfold NextSound getNext nextReadyTime
  unfold Ordered at h
  cases hl : q.readyList.elems with
  | nil => simp
  | cons i rest =>
    rw [hl] at h
    have hle : ∀ j ∈ i :: rest, (q.mshr i).readyTime ≤ (q.mshr j).readyTime := by
      intro j hj
      rcases mem_cons.1 hj with rfl | hj
      · exact Nat.le_refl _
      · exact (List.pairwise_cons.1 h).1 j hj
    refine ⟨fun curTick ⟨j, hj, hready⟩ => ?_, hle, fun _ => ⟨i, mem_cons_self, rfl⟩⟩
    have hi := (hle j hj).trans hready
    exact ⟨i, mem_cons_self, if_neg (Nat.not_lt.2 hi), hi⟩

/-- What `delay` does to an entry of the ready list: it sets its time, and leaves it where it is. -/
theorem delay_eq (hp : q.readyList.Points (q.entries i).readyIter i) {curTick : Nat}
    (ht : (q.mshr i).readyTime ≤ curTick) (delayTicks : Nat) :
    q.delay i curTick delayTicks = .ok (q.setMshr i { q.mshr i with readyTime := curTick + delayTicks }) := by
  have hdelay : (q.mshr i).delay curTick delayTicks = .ok { q.mshr i with readyTime := curTick + delayTicks } := by
    rw [Mshr.delay, decide_eq_true ht]
    rfl
  rw [delay, hdelay, Run.ok_bind]
  refine reposition_eq ?_
  rw [setMshr, setEntry_self]
  exact hp

theorem mshr_setMshr (q : MshrQueue) (i j : Nat) (s : Mshr) : (q.setMshr i s).mshr j = if j = i then s else q.mshr j := by
  unfold mshr setMshr
  split
  · rename_i h
    rw [h, setEntry_self]
  · rename_i h
    rw [setEntry_of_ne _ _ h]

/-- **`delay` keeps the ready list ordered exactly if no entry behind the delayed one becomes ready before it.** -/
theorem delay_ordered_iff {pre post : List Nat} (hord : q.Ordered) (hp : q.readyList.Points (q.entries i).readyIter i)
    (hl : q.readyList.elems = pre ++ i :: post) (hnd : q.readyList.elems.Nodup) {curTick : Nat}
    (ht : (q.mshr i).readyTime ≤ curTick) (d : Nat) :
    (∃ q', q.delay i curTick d = .ok q' ∧ q'.readyList.elems.Perm q.readyList.elems ∧ q'.Ordered ∧ q'.NextSound) ↔
      ∀ j ∈ post, curTick + d ≤ (q.mshr j).readyTime := by
  have hsplit := hnd
  rw [hl, List.nodup_append, List.nodup_cons] at hsplit
  obtain ⟨-, ⟨hpost, -⟩, hpre⟩ := hsplit
  have hpre : ∀ j ∈ pre, j ≠ i := fun j hj => hpre j hj i mem_cons_self
  have hpost : ∀ j ∈ post, j ≠ i := fun j hj hji => hpost (hji ▸ hj)
  unfold Ordered at hord
  rw [hl, List.pairwise_append, List.pairwise_cons] at hord
  obtain ⟨hpw, ⟨hi, hpw'⟩, hcross⟩ := hord
  -- the new times agree with the old ones off the delayed entry
  have hiff : (q.setMshr i { q.mshr i with readyTime := curTick + d }).Ordered ↔
      ∀ j ∈ post, curTick + d ≤ (q.mshr j).readyTime := by
    show List.Pairwise _ q.readyList.elems ↔ _
    rw [hl, List.pairwise_append, List.pairwise_cons]
    simp only [mshr_setMshr, if_true]
    constructor
    · rintro ⟨-, ⟨h, -⟩, -⟩ j hj
      have := h j hj
      rwa [if_neg (hpost j hj)] at this
    · intro h
      refine ⟨hpw.imp_of_mem fun ha hb hab => ?_, ⟨fun j hj => ?_, hpw'.imp_of_mem fun ha hb hab => ?_⟩,
        fun a ha b hb => ?_⟩
      · rwa [if_neg (hpre _ ha), if_neg (hpre _ hb)]
      · rw [if_neg (hpost j hj)]
        exact h j hj
      · rwa [if_neg (hpost _ ha), if_neg (hpost _ hb)]
      · rw [if_neg (hpre a ha)]
        rcases mem_cons.1 hb with rfl | hb
        · rw [if_pos rfl]
          exact (hcross a ha b mem_cons_self).trans (ht.trans (Nat.le_add_right _ _))
        · rw [if_neg (hpost b hb)]
          exact hcross a ha b (List.mem_cons_of_mem _ hb)
  rw [delay_eq hp ht]
  constructor
  · rintro ⟨q', heq, -, hq', -⟩
    cases heq
    exact hiff.1 hq'
  · intro h
    exact ⟨_, rfl, List.Perm.refl _, hiff.2 h, (hiff.2 h).nextSound⟩

theorem reach_twoReady : ∃ q, Reach 2 1 q ∧ q.readyList.elems = [0, 1] ∧ q.Ordered ∧
    q.readyList.Points (q.entries 0).readyIter 0 ∧ q.readyList.Points (q.entries 1).readyIter 1 ∧
    (q.mshr 0).readyTime = 0 ∧ (q.mshr 1).readyTime = 0 :=
  ⟨_, .step readMiss (.step readMiss .init trivial rfl) trivial rfl, rfl, by decide, mem_cons_self,
    List.mem_cons_of_mem _ mem_cons_self, rfl, rfl⟩

theorem delay_last : ∃ q q' : MshrQueue, q.readyList.elems = [0, 1] ∧ q.delay 1 0 5 = .ok q' ∧ q'.Ordered := by
  obtain ⟨q, -, hl, hord, -, hp, -, ht⟩ := reach_twoReady
  have hlast : q.readyList.elems = [0] ++ 1 :: [] := hl
  obtain ⟨q', hq', -, hord', -⟩ := (delay_ordered_iff hord hp hlast (by rw [hl]; decide) (Nat.le_of_eq ht) 5).2
    fun j hj => absurd hj List.not_mem_nil
  exact ⟨q, q', hl, hq', hord'⟩

/-- **The first of two ready entries is delayed**: it stays in front, and `getNext` finds nothing while the other is ready. -/
theorem delay_first : ∃ q q', Reach 2 1 q ∧ q.Ordered ∧ (q.mshr 0).readyTime ≤ 0 ∧ q.delay 0 0 5 = .ok q' ∧ ¬ q'.Ordered ∧
    1 ∈ q'.readyList.elems ∧ (q'.mshr 1).readyTime = 0 ∧ q'.getNext 0 = none ∧ q'.nextReadyTime = 5 := by
  refine ⟨_, _, .step readMiss (.step readMiss .init trivial rfl) trivial rfl, by decide, Nat.le_refl _, rfl, by decide,
    by decide, rfl, rfl, rfl⟩

end MshrQueue
end Gem5
