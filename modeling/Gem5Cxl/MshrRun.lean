import Gem5Cxl.Mshr
import Gem5Cxl.Staged
/-!
# MshrRun — the targets of one MSHR, over every run

An MSHR with the targets that were added to it and the lists `extractServiceableTargets` returned.  What never changes in
a target makes the two lists of the MSHR a `Staged` state, and every call a move of it.
-/
namespace Gem5
namespace Mshr

open List (append_nil filter_map map_append map_nil mem_cons_of_mem mem_cons_self)
open Run (bind_eq_ok)

/-! ## The two lists -/

/-- What never changes in a target: all but its mark and its command, which `replaceUpgrade` rewrites. -/
def Target.fixed (t : Target) : Target :=
  { t with
    markedPending := false
    pkt := { t.pkt with cmd := if t.pkt.cmd = .lockedRMWReadReq then .lockedRMWReadReq else .invalidCmd } }

@[simp] theorem Target.fixed_isFromCPU (t : Target) : t.fixed.isFromCPU = t.isFromCPU := rfl

@[simp] theorem Target.fixed_isCacheMaintenance (t : Target) : t.fixed.isCacheMaintenance = t.isCacheMaintenance := rfl

theorem Target.fixed_cmd {t : Target} : t.fixed.pkt.cmd = .lockedRMWReadReq ↔ t.pkt.cmd = .lockedRMWReadReq := by
  unfold Target.fixed
  by_cases h : t.pkt.cmd = .lockedRMWReadReq
  · simp [h]
  · simp [h]

theorem MissPacket.replaceUpgrade_fixed (pkt : MissPacket) (readyTime order : Nat) (source : Source)
    (marked allocOnFill : Bool) :
    Target.fixed ⟨pkt.replaceUpgrade, readyTime, order, source, marked, allocOnFill⟩ =
      Target.fixed ⟨pkt, readyTime, order, source, marked, allocOnFill⟩ := by
  obtain ⟨ptr, cmd, req, addr, size, es, fm⟩ := pkt
  cases cmd <;> rfl

def Target.new (pkt : MissPacket) (readyTime order : Nat) (source : Source) (allocOnFill : Bool) : Target :=
  ⟨pkt, readyTime, order, source, false, allocOnFill⟩

def current (s : Mshr) : List Target := s.targets.list.map Target.fixed

def waiting (s : Mshr) : List Target := s.deferredTargets.list.map Target.fixed

theorem TargetList.add_fixed (l : TargetList) (pkt : MissPacket) (readyTime order : Nat) (source : Source)
    (markPending allocOnFill : Bool) :
    (l.add pkt readyTime order source markPending allocOnFill).list.map Target.fixed =
      l.list.map Target.fixed ++ [(Target.new pkt readyTime order source allocOnFill).fixed] := by
  rw [TargetList.add_list, map_append]
  rfl

theorem TargetList.replaceUpgrades_fixed (l : TargetList) :
    l.replaceUpgrades.list.map Target.fixed = l.list.map Target.fixed := by
  unfold TargetList.replaceUpgrades
  split
  · rfl
  · rw [List.map_map]
    exact List.map_congr_left fun t _ => MissPacket.replaceUpgrade_fixed t.pkt _ _ _ _ _

theorem TargetList.unmark_fixed (ts : List Target) : (TargetList.unmark ts).map Target.fixed = ts.map Target.fixed := by
  rw [TargetList.unmark, List.map_map]
  rfl

/-! ## What each call does to them -/

section Calls

variable {s s' : Mshr}

variable {allocOnFill : Bool} {order whenReady copy curTick : Nat} {pkt : MissPacket} {out : Snooped} {cmd : MemCmd}
  {pred : Target → Bool}

theorem allocate_lists {blkAddr blkSize : Nat}
    (h : s.allocate blkAddr blkSize pkt whenReady order allocOnFill = .ok s') :
    s'.current = s.current ++ [(Target.new pkt whenReady order
      (if pkt.cmd = .hardPFReq then .fromPrefetcher else .fromCPU) allocOnFill).fixed] ∧ s'.waiting = s.waiting := by
  obtain ⟨_, -, h⟩ := bind_eq_ok.1 h
  obtain ⟨front, -, h⟩ := bind_eq_ok.1 h
  obtain ⟨_, -, h⟩ := bind_eq_ok.1 h
  cases h
  exact ⟨TargetList.add_fixed _ _ _ _ _ _ _, rfl⟩

theorem clearDownstreamPending_lists (h : s.clearDownstreamPending = .ok s') :
    s'.current = s.current ∧ s'.waiting = s.waiting := by
  obtain ⟨_, -, h⟩ := bind_eq_ok.1 h
  cases h
  exact ⟨TargetList.unmark_fixed _, rfl⟩

theorem markInService_lists {pendingModifiedResp : Bool} (h : s.markInService pendingModifiedResp = .ok s') :
    s'.current = s.current ∧ s'.waiting = s.waiting := by
  obtain ⟨_, -, h⟩ := bind_eq_ok.1 h
  cases h
  refine ⟨?_, rfl⟩
  unfold current
  cases hd : s.downstreamPending with
  | false => exact TargetList.unmark_fixed _
  | true => rfl

theorem deallocate_lists (h : s.deallocate = .ok s') : s'.current = s.current ∧ s'.waiting = s.waiting := by
  obtain ⟨_, -, h⟩ := bind_eq_ok.1 h
  obtain ⟨_, -, h⟩ := bind_eq_ok.1 h
  cases h
  exact ⟨rfl, rfl⟩

/-- **A new target is deferred, or it joins a list behind which nothing waits.**  A maintenance packet is deferred. -/
theorem allocateTarget_lists (h : s.allocateTarget pkt whenReady order allocOnFill = .ok s') : (s'.current = s.current ∧
        s'.waiting = s.waiting ++ [(Target.new pkt whenReady order .fromCPU allocOnFill).fixed]) ∨
      (s'.current = s.current ++ [(Target.new pkt whenReady order .fromCPU allocOnFill).fixed] ∧
        s'.waiting = s.waiting ∧ s.waiting = [] ∧ pkt.req.isCacheMaintenance = false) := by
  obtain ⟨_, -, h⟩ := bind_eq_ok.1 h
  obtain ⟨_, -, h⟩ := bind_eq_ok.1 h
  obtain ⟨front, -, h⟩ := bind_eq_ok.1 h
  cases hd : s.defers front pkt with
  | true =>
    rw [hd, if_pos rfl] at h
    cases h
    refine .inl ⟨rfl, (TargetList.add_fixed _ _ _ _ _ _ _).trans ?_⟩
    split
    · exact congrArg (_ ++ [·]) (MissPacket.replaceUpgrade_fixed _ _ _ _ _ _)
    · rfl
  | false =>
    rw [hd, if_neg Bool.false_ne_true] at h
    cases h
    simp only [defers, Bool.or_eq_false_iff, Bool.not_eq_false'] at hd
    obtain ⟨⟨⟨hmaint, -⟩, hempty⟩, -⟩ := hd
    refine .inr ⟨TargetList.add_fixed _ _ _ _ _ _ _, rfl, ?_, hmaint⟩
    rw [waiting, List.isEmpty_iff.1 hempty, map_nil]

theorem snoopInService_spec (h : s.snoopInService pkt order curTick copy = .ok (s', out)) :
    s'.current = s.current ++ out.saved.toList.map (fun p => (Target.new p curTick order .fromSnoop false).fixed) ∧
      s'.waiting = s.waiting ∧ ∀ p, out.saved = some p → p.ptr = copy ∧ p.cmd = pkt.cmd := by
  obtain ⟨front, -, h⟩ := bind_eq_ok.1 h
  split at h
  · cases h
    exact ⟨(append_nil _).symm, rfl, fun p hp => (by cases hp)⟩
  · split at h
    · cases h
      refine ⟨TargetList.add_fixed _ _ _ _ _ _ _, rfl, fun p hp => ?_⟩
      obtain rfl := Option.some.inj hp
      split <;> exact ⟨rfl, rfl⟩
    · cases h
      exact ⟨(append_nil _).symm, rfl, fun p hp => (by cases hp)⟩

/-- **A snoop adds the copy it saves, and nothing else.** -/
theorem handleSnoop_spec (h : s.handleSnoop pkt order curTick copy = .ok (s', out)) :
    s'.current = s.current ++ out.saved.toList.map (fun p => (Target.new p curTick order .fromSnoop false).fixed) ∧
      s'.waiting = s.waiting ∧ ∀ p, out.saved = some p → p.ptr = copy ∧ p.cmd = pkt.cmd := by
  obtain ⟨_, -, h⟩ := bind_eq_ok.1 h
  obtain ⟨_, -, h⟩ := bind_eq_ok.1 h
  split at h
  · -- the snoop comes first
    cases h
    refine ⟨(append_nil _).symm ▸ ?_, ?_, fun p hp => (by cases hp)⟩
    · split
      · exact TargetList.replaceUpgrades_fixed _
      · rfl
    · split
      · exact TargetList.replaceUpgrades_fixed _
      · rfl
  · split at h
    · obtain ⟨hcur, hwait, hsaved⟩ := snoopInService_spec h
      exact ⟨hcur, hwait.trans (TargetList.replaceUpgrades_fixed _), hsaved⟩
    · exact snoopInService_spec h

theorem siftSnoops_eq : ∀ {ts ready stay : List Target}, siftSnoops ts = .ok (ready, stay) →
    ready = ts.filter (fun t => !t.isFromCPU) ∧ stay = ts.filter Target.isFromCPU
  | [], _, _, h => by cases h; exact ⟨rfl, rfl⟩
  | t :: rest, ready, stay, h => by
    unfold siftSnoops at h
    by_cases hcpu : t.source = .fromCPU
    · rw [if_pos hcpu] at h
      obtain ⟨⟨r, l⟩, hrest, h⟩ := bind_eq_ok.1 h
      obtain ⟨rfl, rfl⟩ := siftSnoops_eq hrest
      cases h
      simp [Target.isFromCPU, hcpu]
    · rw [if_neg hcpu] at h
      obtain ⟨_, -, h⟩ := bind_eq_ok.1 h
      obtain ⟨⟨r, l⟩, hrest, h⟩ := bind_eq_ok.1 h
      obtain ⟨rfl, rfl⟩ := siftSnoops_eq hrest
      cases h
      simp [Target.isFromCPU, hcpu]

theorem takeUnlocked_eq : ∀ {ts : List Target}, (∀ t ∈ ts, t.pkt.cmd ≠ .lockedRMWReadReq) → takeUnlocked ts = (ts, [])
  | [], _ => rfl
  | t :: rest, h => by
    rw [takeUnlocked, if_neg (h t mem_cons_self), takeUnlocked_eq fun u hu => h u (mem_cons_of_mem t hu)]

/-- **A response serves every target, or the first one and the snoops.** -/
theorem serviceable_serve {ts ready stay : List Target} (hno : ∀ t ∈ ts, t.pkt.cmd ≠ .lockedRMWReadReq)
    (h : serviceable cmd ts = .ok (ready, stay)) :
    Staged.Serve Target.isFromCPU (ts.map Target.fixed) (ready.map Target.fixed) (stay.map Target.fixed) := by
  unfold serviceable at h
  split at h
  · cases ts with
    | nil => cases h
    | cons t rest =>
      obtain ⟨_, -, h⟩ := bind_eq_ok.1 h
      rw [if_pos (hno t mem_cons_self)] at h
      obtain ⟨⟨r, l⟩, hsift, h⟩ := bind_eq_ok.1 h
      obtain ⟨rfl, rfl⟩ := siftSnoops_eq hsift
      cases h
      have hserve : Staged.Serve Target.isFromCPU (t.fixed :: rest.map Target.fixed) _ _ := .first _ _
      rw [filter_map, filter_map] at hserve
      exact hserve
  · rw [takeUnlocked_eq hno] at h
    cases h
    exact .all _

theorem extractServiceableTargets_lists {ready : TargetList}
    (hno : ∀ t ∈ s.targets.list, t.pkt.cmd ≠ .lockedRMWReadReq)
    (h : s.extractServiceableTargets cmd = .ok (s', ready)) :
    Staged.Serve Target.isFromCPU s.current (ready.list.map Target.fixed) s'.current ∧ s'.waiting = s.waiting := by
  obtain ⟨⟨r, l⟩, hserve, h⟩ := bind_eq_ok.1 h
  cases h
  rw [TargetList.populateFlags_list]
  refine ⟨?_, rfl⟩
  unfold current
  rw [TargetList.populateFlags_list]
  exact serviceable_serve hno hserve

/-- What may be promoted goes in front of what stays; a maintenance target goes alone, and only to an empty list. -/
theorem promotable_spec (targets deferred : List Target) :
    deferred = (promotable targets deferred).1 ++ (promotable targets deferred).2 ∧
      ((∀ t ∈ (promotable targets deferred).1, t.isCacheMaintenance = false) ∨
        targets = [] ∧ (promotable targets deferred).1.length ≤ 1) := by
  unfold promotable
  by_cases hahead : (deferred.takeWhile fun t => !t.isCacheMaintenance).isEmpty = true
  · by_cases htargets : targets.isEmpty = true
    · simp only [hahead, htargets, if_true]
      refine ⟨(List.take_append_drop 1 deferred).symm, .inr ⟨List.isEmpty_iff.1 htargets, ?_⟩⟩
      rw [List.length_take]
      exact Nat.min_le_left _ _
    · simp only [hahead, htargets, if_true, Bool.false_eq_true, if_false]
      exact ⟨(List.nil_append _).symm, .inl fun t ht => (by cases ht)⟩
  · simp only [hahead, Bool.false_eq_true, if_false]
    refine ⟨List.takeWhile_append_dropWhile.symm, .inl fun t ht => ?_⟩
    simpa using List.mem_takeWhile_imp ht

theorem promoteDeferredTargets_lists {b : Bool} (h : s.promoteDeferredTargets curTick = .ok (s', b)) :
    ∃ moved : List Target, s'.current = s.current ++ moved.map Target.fixed ∧ s.waiting = moved.map Target.fixed ++ s'.waiting ∧
      ((∀ t ∈ moved, t.isCacheMaintenance = false) ∨ s.current = [] ∧ moved.length ≤ 1) := by
  unfold promoteDeferredTargets at h
  split at h
  · cases h
    exact ⟨[], (append_nil _).symm, rfl, .inl fun t ht => (by cases ht)⟩
  · obtain ⟨hsplit, hapart⟩ := promotable_spec s.targets.list s.deferredTargets.list
    generalize promotable s.targets.list s.deferredTargets.list = split at h hsplit hapart
    obtain ⟨moved, stay⟩ := split
    obtain ⟨front, -, h⟩ := bind_eq_ok.1 h
    cases h
    refine ⟨moved, ?_, ?_, ?_⟩
    · unfold current
      rw [TargetList.populateFlags_list, map_append]
    · unfold waiting
      rw [TargetList.populateFlags_list, ← map_append, ← hsplit]
    · refine hapart.imp id fun ⟨hnil, hlen⟩ => ⟨?_, hlen⟩
      rw [current, hnil, map_nil]

theorem splitIf_eq : ∀ {ts moved stay : List Target}, splitIf pred ts = .ok (moved, stay) →
    moved = ts.takeWhile pred ∧ ts = moved ++ stay
  | [], _, _, h => by cases h; exact ⟨rfl, rfl⟩
  | t :: rest, moved, stay, h => by
    obtain ⟨_, -, h⟩ := bind_eq_ok.1 h
    cases hp : pred t with
    | true =>
      rw [hp, if_pos rfl] at h
      obtain ⟨⟨m, l⟩, hrest, h⟩ := bind_eq_ok.1 h
      obtain ⟨hm, hl⟩ := splitIf_eq hrest
      cases h
      exact ⟨by rw [List.takeWhile_cons, if_pos hp, ← hm], by rw [List.cons_append, ← hl]⟩
    | false =>
      rw [hp, if_neg Bool.false_ne_true] at h
      cases h
      exact ⟨by rw [List.takeWhile_cons, if_neg (by rw [hp]; exact Bool.false_ne_true)], rfl⟩

theorem promoteIf_lists (h : s.promoteIf pred = .ok s') :
    s'.current = s.current ++ (s.deferredTargets.list.takeWhile pred).map Target.fixed ∧
      s.waiting = (s.deferredTargets.list.takeWhile pred).map Target.fixed ++ s'.waiting := by
  obtain ⟨_, -, h⟩ := bind_eq_ok.1 h
  obtain ⟨⟨moved, stay⟩, hsplit, h⟩ := bind_eq_ok.1 h
  obtain ⟨rfl, hlist⟩ := splitIf_eq hsplit
  cases h
  refine ⟨?_, ?_⟩
  · unfold current
    rw [map_append, TargetList.unmark_fixed]
  · unfold waiting
    rw [TargetList.populateFlags_list, ← map_append, ← hlist]

def movedReadable (s : Mshr) : List Target :=
  if s.postInvalidate then [] else s.deferredTargets.list.takeWhile Target.readable

theorem promoteReadable_lists (h : s.promoteReadable = .ok s') :
    s'.current = s.current ++ s.movedReadable.map Target.fixed ∧
      s.waiting = s.movedReadable.map Target.fixed ++ s'.waiting := by
  unfold promoteReadable at h
  split at h
  · rename_i hempty
    cases h
    have hnone : s.movedReadable = [] := by
      rw [movedReadable, List.isEmpty_iff.1 hempty]
      split <;> rfl
    rw [hnone]
    exact ⟨(append_nil _).symm, rfl⟩
  · obtain ⟨_, -, h⟩ := bind_eq_ok.1 h
    cases hpi : s.postInvalidate with
    | true =>
      rw [hpi] at h
      cases h
      rw [movedReadable, hpi, if_pos rfl]
      exact ⟨(append_nil _).symm, rfl⟩
    | false =>
      rw [hpi] at h
      rw [movedReadable, hpi, if_neg Bool.false_ne_true]
      exact promoteIf_lists h

def movedWritable (s : Mshr) : List Target :=
  if s.deferredTargets.needsWritable && !(s.postInvalidate || s.postDowngrade) then
    s.deferredTargets.list.takeWhile Target.writable
  else []

theorem promoteWritable_lists (h : s.promoteWritable = .ok s') :
    s'.current = s.current ++ s.movedWritable.map Target.fixed ∧
      s.waiting = s.movedWritable.map Target.fixed ++ s'.waiting := by
  have hstay : s.movedWritable = [] → s = s' → s'.current = s.current ++ s.movedWritable.map Target.fixed ∧
      s.waiting = s.movedWritable.map Target.fixed ++ s'.waiting := by
    rintro hnone rfl
    rw [hnone]
    exact ⟨(append_nil _).symm, rfl⟩
  unfold promoteWritable at h
  split at h
  · rename_i hlist
    refine hstay ?_ (Except.ok.inj h)
    rw [movedWritable, hlist]
    split <;> rfl
  · rename_i front rest hlist
    cases hw : s.deferredTargets.needsWritable with
    | false =>
      rw [hw, if_neg Bool.false_ne_true] at h
      exact hstay (by rw [movedWritable, hw]; rfl) (Except.ok.inj h)
    | true =>
      rw [hw, if_pos rfl] at h
      obtain ⟨_, -, h⟩ := bind_eq_ok.1 h
      cases hpost : s.postInvalidate || s.postDowngrade with
      | true =>
        rw [hpost] at h
        exact hstay (by rw [movedWritable, hw, hpost]; rfl) (Except.ok.inj h)
      | false =>
        rw [hpost] at h
        cases hinv : front.pkt.req.isCacheInvalidate with
        | true =>
          rw [hinv] at h
          refine hstay ?_ (Except.ok.inj h)
          rw [movedWritable, hw, hpost, hlist, List.takeWhile_cons, Target.writable, hinv]
          rfl
        | false =>
          rw [hinv] at h
          obtain ⟨_, -, h⟩ := bind_eq_ok.1 h
          have hmoved := promoteIf_lists h
          rw [movedWritable, hw, hpost]
          exact hmoved

/-! Only the queue sends an MSHR downstream and takes it back. -/

end Calls

/-! ## Runs -/

/-- An MSHR, the targets that were added to it, and the lists that were returned.  The packets of targets are numbered in
the order they are added. -/
structure World where
  mshr : Mshr := {}
  added : List Target := []
  returned : List (List Target) := []
deriving DecidableEq, Repr

/-- The calls on one MSHR.  The last five are what else its queue, its cache and a downstream cache do to it. -/
inductive Call where
  | allocate (blkAddr blkSize : Nat) (pkt : MissPacket) (whenReady order : Nat) (allocOnFill : Bool)
  | allocateTarget (pkt : MissPacket) (whenReady order : Nat) (allocOnFill : Bool)
  | handleSnoop (pkt : MissPacket) (order curTick : Nat)
  | markInService (pendingModifiedResp : Bool)
  | extractServiceableTargets (cmd : MemCmd)
  | promoteDeferredTargets (curTick : Nat)
  | promoteReadable
  | promoteWritable
  | markPending
  | deallocate
  | setForward (isForward : Bool)
  | setDownstreamPending
  | clearDownstreamPending
deriving DecidableEq, Repr

def Call.cmd : Call → Option MemCmd
  | .allocate _ _ pkt _ _ _ | .allocateTarget pkt _ _ _ | .handleSnoop pkt _ _ => some pkt.cmd
  | _ => none

def Call.Unlocked (c : Call) : Prop := c.cmd ≠ some .lockedRMWReadReq

instance (c : Call) : Decidable c.Unlocked := inferInstanceAs (Decidable (c.cmd ≠ _))

namespace World

def fresh (w : World) (pkt : MissPacket) : MissPacket := { pkt with ptr := w.added.length }

def step (w : World) : Call → Except Failure World
  | .allocate blkAddr blkSize pkt whenReady order allocOnFill => do
    -- the assertion of MSHRQueue::allocate, its caller
    assertThat (decide (w.mshr.getNumTargets = 0))
    let s ← w.mshr.allocate blkAddr blkSize (w.fresh pkt) whenReady order allocOnFill
    let source : Source := if pkt.cmd = .hardPFReq then .fromPrefetcher else .fromCPU
    .ok { w with mshr := s, added := w.added ++ [Target.new (w.fresh pkt) whenReady order source allocOnFill] }
  | .allocateTarget pkt whenReady order allocOnFill => do
    let s ← w.mshr.allocateTarget (w.fresh pkt) whenReady order allocOnFill
    .ok { w with mshr := s, added := w.added ++ [Target.new (w.fresh pkt) whenReady order .fromCPU allocOnFill] }
  | .handleSnoop pkt order curTick => do
    let (s, out) ← w.mshr.handleSnoop pkt order curTick w.added.length
    .ok { w with
      mshr := s
      added := w.added ++ out.saved.toList.map fun p => Target.new p curTick order .fromSnoop false }
  | .markInService pendingModifiedResp => do
    let s ← w.mshr.markInService pendingModifiedResp
    .ok { w with mshr := s }
  | .extractServiceableTargets cmd => do
    let (s, ready) ← w.mshr.extractServiceableTargets cmd
    .ok { w with mshr := s, returned := w.returned ++ [ready.list] }
  | .promoteDeferredTargets curTick => do
    let (s, _) ← w.mshr.promoteDeferredTargets curTick
    .ok { w with mshr := s }
  | .promoteReadable => do
    let s ← w.mshr.promoteReadable
    .ok { w with mshr := s }
  | .promoteWritable => do
    let s ← w.mshr.promoteWritable
    .ok { w with mshr := s }
  | .markPending => do
    assertThat w.mshr.inService
    .ok { w with mshr := { w.mshr with inService := false } }
  | .deallocate => do
    let s ← w.mshr.deallocate
    .ok { w with mshr := s }
  | .setForward isForward => .ok { w with mshr := { w.mshr with isForward := isForward } }
  | .setDownstreamPending => do
    assertThat !w.mshr.downstreamPending
    .ok { w with mshr := { w.mshr with downstreamPending := true } }
  | .clearDownstreamPending => do
    let s ← w.mshr.clearDownstreamPending
    .ok { w with mshr := s }

def run (w : World) : List Call → Except Failure World
  | [] => .ok w
  | c :: calls => do (← w.step c).run calls

def items (w : World) : List Target := w.returned.flatten ++ w.mshr.targets.list ++ w.mshr.deferredTargets.list

/-- The targets the call moves although they were deferred behind the outstanding request. -/
def promoted (w : World) : Call → List Target
  | .promoteReadable => w.mshr.movedReadable
  | .promoteWritable => w.mshr.movedWritable
  | _ => []

/-- The call moves no cache maintenance target out of turn. -/
def KeepsApart (w : World) (c : Call) : Prop := ∀ t ∈ w.promoted c, t.isCacheMaintenance = false

instance (w : World) (c : Call) : Decidable (w.KeepsApart c) :=
  inferInstanceAs (Decidable (∀ t ∈ w.promoted c, t.isCacheMaintenance = false))

def AllKeepApart (w : World) : List Call → Prop
  | [] => True
  | c :: calls => w.KeepsApart c ∧ match w.step c with
    | .ok w' => w'.AllKeepApart calls
    | .error _ => True

instance decidableAllKeepApart : (w : World) → (calls : List Call) → Decidable (w.AllKeepApart calls)
  | _, [] => isTrue trivial
  | w, c :: calls =>
    let _rest : Decidable (match w.step c with
        | .ok w' => w'.AllKeepApart calls
        | .error _ => True) :=
      match w.step c with
      | .ok w' => decidableAllKeepApart w' calls
      | .error _ => isTrue trivial
    instDecidableAnd

def view (w : World) : Staged.State Target where
  batches := w.returned.map (List.map Target.fixed)
  current := w.mshr.current
  waiting := w.mshr.waiting
  added := w.added.map Target.fixed

end World

/-- To be served with no other `FromCPU` target before it. -/
def Target.alone (t : Target) : Bool := t.isFromCPU && t.isCacheMaintenance

section Runs

variable {w w' : World}

variable {s : Mshr} {c : Call}

theorem World.view_setMshr (hcur : s.current = w.mshr.current) (hwait : s.waiting = w.mshr.waiting) :
    World.view { w with mshr := s } = w.view := by
  rw [World.view, hcur, hwait]
  rfl

theorem World.join_move {strict : Prop} {t : Target} (hcur : s.current = w.mshr.current ++ [t.fixed])
    (hwait : s.waiting = w.mshr.waiting)
    (h : t.isFromCPU = true → w.mshr.waiting = [] ∧ (t.isCacheMaintenance = true → w.mshr.current = [])) :
    Staged.Move Target.isFromCPU Target.alone strict w.view (World.view { w with mshr := s, added := w.added ++ [t] }) := by
  have hview : World.view { w with mshr := s, added := w.added ++ [t] } =
      { w.view with current := w.view.current ++ [t.fixed], added := w.view.added ++ [t.fixed] } := by
    simp only [World.view, hcur, hwait, map_append, List.map_cons, map_nil]
  rw [hview]
  refine .join t.fixed fun hcpu => ⟨(h hcpu).1, fun halone => (h hcpu).2 ?_⟩
  exact (Bool.and_eq_true _ _ ▸ halone).2

theorem World.promote_move {strict : Prop} {moved : List Target}
    (hcur : s.current = w.mshr.current ++ moved.map Target.fixed)
    (hwait : w.mshr.waiting = moved.map Target.fixed ++ s.waiting)
    (hapart : strict → (∀ t ∈ moved, t.isCacheMaintenance = false) ∨ w.mshr.current = [] ∧ moved.length ≤ 1) :
    Staged.Move Target.isFromCPU Target.alone strict w.view (World.view { w with mshr := s }) := by
  have hview : World.view { w with mshr := s } =
      { w.view with current := w.view.current ++ moved.map Target.fixed, waiting := s.waiting } := by
    simp only [World.view, hcur]
  rw [hview]
  refine .promote _ _ hwait fun hs => (hapart hs).imp (fun hno a ha => ?_) (fun h => ⟨h.1, ?_⟩)
  · obtain ⟨t, ht, rfl⟩ := List.mem_map.1 ha
    rw [Target.alone, Target.fixed_isCacheMaintenance, hno t ht, Bool.and_false]
  · rw [List.length_map]
    exact h.2

/-- **Every call is a move of the two lists.** -/
theorem World.step_move (hno : ∀ t ∈ w.mshr.targets.list, t.pkt.cmd ≠ .lockedRMWReadReq) (h : w.step c = .ok w') :
    Staged.Move Target.isFromCPU Target.alone (w.KeepsApart c) w.view w'.view := by
  have hkeep : ∀ s : Mshr, s.current = w.mshr.current ∧ s.waiting = w.mshr.waiting →
      Staged.Move Target.isFromCPU Target.alone (w.KeepsApart c) w.view (World.view { w with mshr := s }) :=
    fun s hs => (World.view_setMshr hs.1 hs.2) ▸ .stay
  cases c with
  | allocate blkAddr blkSize pkt whenReady order allocOnFill =>
    obtain ⟨_, hnum, h⟩ := bind_eq_ok.1 h
    obtain ⟨s, hs, h⟩ := bind_eq_ok.1 h
    cases h
    obtain ⟨hcur, hwait⟩ := allocate_lists hs
    have hempty : w.mshr.targets.list = [] ∧ w.mshr.deferredTargets.list = [] := by
      rw [assertThat_eq_ok, decide_eq_true_eq, getNumTargets, Nat.add_eq_zero_iff] at hnum
      exact hnum.imp List.length_eq_zero_iff.1 List.length_eq_zero_iff.1
    exact join_move hcur hwait fun _ => ⟨by rw [waiting, hempty.2]; rfl, fun _ => by rw [current, hempty.1]; rfl⟩
  | allocateTarget pkt whenReady order allocOnFill =>
    obtain ⟨s, hs, h⟩ := bind_eq_ok.1 h
    cases h
    rcases allocateTarget_lists hs with ⟨hcur, hwait⟩ | ⟨hcur, hwait, hnil, hmaint⟩
    · have hview : World.view { w with
            mshr := s, added := w.added ++ [Target.new (w.fresh pkt) whenReady order .fromCPU allocOnFill] } =
          { w.view with
            waiting := w.view.waiting ++ [(Target.new (w.fresh pkt) whenReady order .fromCPU allocOnFill).fixed]
            added := w.view.added ++ [(Target.new (w.fresh pkt) whenReady order .fromCPU allocOnFill).fixed] } := by
        simp only [view, hcur, hwait, map_append, List.map_cons, map_nil]
      rw [hview]
      exact .defer _
    · refine join_move hcur hwait fun _ => ⟨hnil, fun hm => ?_⟩
      exact absurd (hmaint.symm.trans hm) Bool.false_ne_true
  | handleSnoop pkt order curTick =>
    obtain ⟨⟨s, out⟩, hs, h⟩ := bind_eq_ok.1 h
    cases h
    obtain ⟨hcur, hwait, -⟩ := handleSnoop_spec hs
    cases hsaved : out.saved with
    | none =>
      rw [hsaved, Option.toList_none, map_nil, append_nil] at hcur
      rw [Option.toList_none, map_nil, append_nil]
      exact hkeep s ⟨hcur, hwait⟩
    | some p =>
      rw [hsaved] at hcur
      exact join_move hcur hwait fun hcpu => (by cases hcpu)
  | markInService pendingModifiedResp =>
    obtain ⟨s, hs, h⟩ := bind_eq_ok.1 h
    cases h
    exact hkeep s (markInService_lists hs)
  | extractServiceableTargets cmd =>
    obtain ⟨⟨s, ready⟩, hs, h⟩ := bind_eq_ok.1 h
    cases h
    obtain ⟨hserve, hwait⟩ := extractServiceableTargets_lists hno hs
    have hview : World.view { w with mshr := s, returned := w.returned ++ [ready.list] } =
        { w.view with batches := w.view.batches ++ [ready.list.map Target.fixed], current := s.current } := by
      simp only [view, hwait, map_append, List.map_cons, map_nil]
    rw [hview]
    exact .serve _ _ hserve
  | promoteDeferredTargets curTick =>
    obtain ⟨⟨s, b⟩, hs, h⟩ := bind_eq_ok.1 h
    cases h
    obtain ⟨moved, hcur, hwait, hapart⟩ := promoteDeferredTargets_lists hs
    exact promote_move hcur hwait fun _ => hapart
  | promoteReadable =>
    obtain ⟨s, hs, h⟩ := bind_eq_ok.1 h
    cases h
    obtain ⟨hcur, hwait⟩ := promoteReadable_lists hs
    exact promote_move hcur hwait .inl
  | promoteWritable =>
    obtain ⟨s, hs, h⟩ := bind_eq_ok.1 h
    cases h
    obtain ⟨hcur, hwait⟩ := promoteWritable_lists hs
    exact promote_move hcur hwait .inl
  | markPending =>
    obtain ⟨_, -, h⟩ := bind_eq_ok.1 h
    cases h
    exact hkeep _ ⟨rfl, rfl⟩
  | deallocate =>
    obtain ⟨s, hs, h⟩ := bind_eq_ok.1 h
    cases h
    exact hkeep s (deallocate_lists hs)
  | setForward isForward =>
    cases h
    exact hkeep _ ⟨rfl, rfl⟩
  | setDownstreamPending =>
    obtain ⟨_, -, h⟩ := bind_eq_ok.1 h
    cases h
    exact hkeep _ ⟨rfl, rfl⟩
  | clearDownstreamPending =>
    obtain ⟨s, hs, h⟩ := bind_eq_ok.1 h
    cases h
    exact hkeep s (clearDownstreamPending_lists hs)

theorem World.step_added (hc : c.Unlocked) (h : w.step c = .ok w') :
    w'.added = w.added ∨ ∃ t : Target, w'.added = w.added ++ [t] ∧ t.pkt.ptr = w.added.length ∧
      t.pkt.cmd ≠ .lockedRMWReadReq := by
  cases c with
  | allocate blkAddr blkSize pkt whenReady order allocOnFill =>
    obtain ⟨_, -, h⟩ := bind_eq_ok.1 h
    obtain ⟨s, -, h⟩ := bind_eq_ok.1 h
    cases h
    exact .inr ⟨_, rfl, rfl, fun heq => hc (congrArg some heq)⟩
  | allocateTarget pkt whenReady order allocOnFill =>
    obtain ⟨s, -, h⟩ := bind_eq_ok.1 h
    cases h
    exact .inr ⟨_, rfl, rfl, fun heq => hc (congrArg some heq)⟩
  | handleSnoop pkt order curTick =>
    obtain ⟨⟨s, out⟩, hs, h⟩ := bind_eq_ok.1 h
    cases h
    cases hsaved : out.saved with
    | none => exact .inl (append_nil _)
    | some p =>
      obtain ⟨hptr, hcmd⟩ := (handleSnoop_spec hs).2.2 p hsaved
      exact .inr ⟨_, rfl, hptr, fun heq => hc (congrArg some (hcmd.symm.trans heq))⟩
  | setForward isForward =>
    cases h
    exact .inl rfl
  | _ =>
    obtain ⟨_, -, h⟩ := bind_eq_ok.1 h
    cases h
    exact .inl rfl

structure World.Inv (w : World) : Prop where
  conserved : Staged.Conserved Target.isFromCPU w.view
  unlocked : ∀ t ∈ w.added, t.pkt.cmd ≠ .lockedRMWReadReq
  numbered : w.added.map (fun t => t.pkt.ptr) = List.range w.added.length

theorem World.inv_init : World.Inv {} where
  conserved := ⟨.nil, rfl⟩
  unlocked t ht := by cases ht
  numbered := rfl

theorem World.Inv.targets_unlocked (h : w.Inv) : ∀ t ∈ w.mshr.targets.list, t.pkt.cmd ≠ .lockedRMWReadReq := by
  intro t ht
  have hitem : t.fixed ∈ w.view.items :=
    List.mem_append_left _ (List.mem_append_right _ (List.mem_map_of_mem ht))
  obtain ⟨u, hu, heq⟩ := List.mem_map.1 (h.conserved.perm.subset hitem)
  intro hcmd
  rw [← Target.fixed_cmd, ← heq, Target.fixed_cmd] at hcmd
  exact h.unlocked u hu hcmd

theorem World.Inv.step (h : w.Inv) (hc : c.Unlocked) (hs : w.step c = .ok w') : w'.Inv := by
  have hcons := (step_move h.targets_unlocked hs).conserved h.conserved
  rcases step_added hc hs with heq | ⟨t, heq, hptr, hcmd⟩
  · exact ⟨hcons, heq ▸ h.unlocked, heq ▸ h.numbered⟩
  · refine ⟨hcons, fun u hu => ?_, ?_⟩
    · rw [heq] at hu
      rcases List.mem_append.1 hu with hu | hu
      · exact h.unlocked u hu
      · obtain rfl := List.mem_singleton.1 hu
        exact hcmd
    · rw [heq, map_append, h.numbered, List.length_append, List.length_singleton, List.range_succ, List.map_singleton,
        hptr]

theorem World.Inv.run : ∀ {calls : List Call} {w w' : World}, w.Inv → (∀ c ∈ calls, c.Unlocked) → w.run calls = .ok w' →
    w'.Inv
  | [], _, _, h, _, hrun => by cases hrun; exact h
  | c :: calls, w, w', h, hno, hrun => by
    obtain ⟨w₁, hstep, hrun⟩ := bind_eq_ok.1 hrun
    exact (h.step (hno c mem_cons_self) hstep).run (fun d hd => hno d (mem_cons_of_mem c hd)) hrun

theorem Target.isFromCPU_of_alone (t : Target) (h : t.alone = true) : t.isFromCPU = true := (Bool.and_eq_true _ _ ▸ h).1

/-- **Calls that move no maintenance target out of turn keep it at the head.** -/
theorem World.apart_run : ∀ {calls : List Call} {w w' : World}, w.Inv → (∀ c ∈ calls, c.Unlocked) → w.AllKeepApart calls →
    Staged.Apart Target.alone w.view → w.run calls = .ok w' → Staged.Apart Target.alone w'.view
  | [], _, _, _, _, _, h, hrun => by cases hrun; exact h
  | c :: calls, w, w', hinv, hno, hapart, h, hrun => by
    obtain ⟨w₁, hstep, hrun⟩ := bind_eq_ok.1 hrun
    obtain ⟨hfirst, hrest⟩ := hapart
    rw [hstep] at hrest
    have h₁ := (step_move hinv.targets_unlocked hstep).apart hfirst Target.isFromCPU_of_alone h
    exact apart_run (hinv.step (hno c mem_cons_self) hstep) (fun d hd => hno d (mem_cons_of_mem c hd)) hrest h₁ hrun

theorem World.view_items (w : World) : w.view.items = w.items.map Target.fixed := by
  simp only [Staged.State.items, World.view, World.items, current, waiting, map_append, List.map_flatten]

/-- **The targets of an MSHR are conserved, and those of the CPU are served in the order they came.**  If no promotion
moves a maintenance target out of turn, such a target is returned with no `FromCPU` target that was added before it. -/
theorem targets_conserved {calls : List Call} (h : World.run {} calls = .ok w) (hno : ∀ c ∈ calls, c.Unlocked) :
    w.added.map (fun t => t.pkt.ptr) = List.range w.added.length ∧
      (w.items.map Target.fixed).Perm (w.added.map Target.fixed) ∧
      (w.items.filter Target.isFromCPU).map Target.fixed = (w.added.filter Target.isFromCPU).map Target.fixed ∧
      (World.AllKeepApart {} calls → ∀ batch ∈ w.returned, ∀ m ∈ batch, m.isFromCPU = true → m.isCacheMaintenance = true →
        ∀ t ∈ batch, t.isFromCPU = true → m.pkt.ptr ≤ t.pkt.ptr) := by
  have hinv := World.inv_init.run hno h
  have horder := hinv.conserved.order
  rw [World.view_items] at horder
  refine ⟨hinv.numbered, World.view_items w ▸ hinv.conserved.perm, ?_, fun hkeep batch hb m hm hcpu hmaint t ht htcpu => ?_⟩
  · rw [filter_map] at horder
    exact horder.trans filter_map
  · have hapart := World.apart_run World.inv_init hno hkeep ⟨fun a ha => (by cases ha), fun b hb => (by cases hb)⟩ h
    have hkey : w.view.added.Pairwise fun a b => a.pkt.ptr < b.pkt.ptr := by
      have hrange : (List.range w.added.length).Pairwise (· < ·) := List.pairwise_lt_range
      rw [← hinv.numbered, List.pairwise_map] at hrange
      exact List.pairwise_map.2 hrange
    have halone : m.fixed.alone = true := by
      rw [Target.alone, Target.fixed_isFromCPU, hcpu]
      exact hmaint
    have hm' : m.fixed ∈ batch.map Target.fixed := List.mem_map_of_mem hm
    have ht' : t.fixed ∈ batch.map Target.fixed := List.mem_map_of_mem ht
    have hle := Staged.first_of_batch hinv.conserved hapart Target.isFromCPU_of_alone hkey (List.mem_map_of_mem hb) hm'
      halone ht' htcpu
    exact hle

/-- A read miss, behind which a write and a clean operation are deferred. -/
def missCalls : List Call :=
  [.allocate 0 64 { cmd := .readSharedReq, size := 64 } 0 0 true, .markInService false,
    .allocateTarget { cmd := .writeReq, size := 8 } 1 1 true,
    .allocateTarget { cmd := .cleanSharedReq, req := { isCacheClean := true }, size := 64 } 2 2 false]

def servedApart : List Call :=
  missCalls ++ [.extractServiceableTargets .readResp, .promoteDeferredTargets 3, .markPending, .markInService true,
    .extractServiceableTargets .writeResp, .promoteDeferredTargets 4, .extractServiceableTargets .cleanSharedResp]

theorem targets_conserved_apart :
    (World.run {} servedApart).map (fun w => w.returned.map (List.map fun t => t.pkt.ptr)) = .ok [[0], [1], [2]] ∧
      ∀ w, World.run {} servedApart = .ok w → (w.items.map Target.fixed).Perm (w.added.map Target.fixed) ∧
        ∀ batch ∈ w.returned, ∀ m ∈ batch, m.isFromCPU = true → m.isCacheMaintenance = true →
          ∀ t ∈ batch, t.isFromCPU = true → m.pkt.ptr ≤ t.pkt.ptr := by
  refine ⟨by decide +kernel, fun w h => ?_⟩
  obtain ⟨-, hperm, -, hapart⟩ := targets_conserved h (by decide)
  exact ⟨hperm, hapart (by decide +kernel)⟩

/-- **A writable response promotes a clean operation behind the write it is to clean.** -/
theorem clean_behind_write :
    ∃ calls, (∀ c ∈ calls, c.Unlocked) ∧ ∃ w, World.run {} calls = .ok w ∧ ∃ batch ∈ w.returned, ∃ m ∈ batch,
      m.isFromCPU = true ∧ m.isCacheMaintenance = true ∧
        ∃ t ∈ batch, t.isFromCPU = true ∧ t.pkt.cmd = .writeReq ∧ t.pkt.ptr < m.pkt.ptr := by
  refine ⟨missCalls ++ [.promoteWritable, .extractServiceableTargets .readResp], by decide, ?_⟩
  obtain ⟨w, hw, hret⟩ := Run.map_eq_ok.1 (show
    (World.run {} (missCalls ++ [.promoteWritable, .extractServiceableTargets .readResp])).map World.returned =
      .ok [[⟨{ ptr := 0, cmd := .readSharedReq, size := 64 }, 0, 0, .fromCPU, false, true⟩,
        ⟨{ ptr := 1, cmd := .writeReq, size := 8 }, 1, 1, .fromCPU, false, true⟩,
        ⟨{ ptr := 2, cmd := .cleanSharedReq, req := { isCacheClean := true }, size := 64 }, 2, 2, .fromCPU, false, false⟩]] by
      decide +kernel)
  refine ⟨w, hw, _, hret ▸ List.mem_singleton_self _, _, mem_cons_of_mem _ (mem_cons_of_mem _ mem_cons_self), rfl,
    rfl, _, mem_cons_of_mem _ mem_cons_self, rfl, rfl, by decide⟩

end Runs
end Mshr
end Gem5
