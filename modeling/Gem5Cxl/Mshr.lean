import Gem5Cxl.MemCmd
import Mathlib.Data.List.TakeWhile
/-!
# Mshr — a miss status holding register and its targets (`mem/cache/mshr.cc`, `mem/cache/mshr.hh`)

An MSHR holds the packets that wait for one block: those the outstanding request serves in `targets`, those that need
another request after it in `deferredTargets`.  Each list keeps flags about its targets.  A packet that comes from a miss
of an upstream cache leaves a mark there while it waits here; the mark is set and cleared by the environment in this model.
-/
namespace Gem5

structure MissRequest where
  isUncacheable : Bool := false
  isStrictlyOrdered : Bool := false
  isPriv : Bool := false
  isLLSC : Bool := false
  isSwap : Bool := false
  isCondSwap : Bool := false
  isSecure : Bool := false
  isLockedRMW : Bool := false
  isCacheClean : Bool := false
  isCacheInvalidate : Bool := false
  isMasked : Bool := false
deriving DecidableEq, Repr

def MissRequest.isCacheMaintenance (r : MissRequest) : Bool := r.isCacheClean || r.isCacheInvalidate

def MissRequest.noMerge (r : MissRequest) : Bool :=
  r.isUncacheable || r.isStrictlyOrdered || r.isPriv || r.isLLSC || r.isSwap || r.isCondSwap || r.isSecure || r.isLockedRMW

/-- A packet of a miss.  `ptr` tells packets apart, as their addresses do. -/
structure MissPacket where
  ptr : Nat := 0
  cmd : MemCmd
  req : MissRequest := {}
  addr : Nat := 0
  size : Nat := 0
  isExpressSnoop : Bool := false
  /-- `findNextSenderState<MSHR>()` finds one -/
  fromMshr : Bool := false
deriving DecidableEq, Repr

namespace MissPacket

def needsWritable (p : MissPacket) : Bool := p.cmd.needsWritable

/-- After the packet the other caches have no copy of the block. -/
def invalidates (p : MissPacket) : Bool := p.needsWritable || p.req.isCacheInvalidate

def isUpgrade (p : MissPacket) : Bool := p.cmd.testCmdAttrib .isUpgrade

def hasData (p : MissPacket) : Bool := p.cmd.testCmdAttrib .hasData

def hasRespData (p : MissPacket) : Bool := p.cmd.responseCommand.testCmdAttrib .hasData

def isMaskedWrite (p : MissPacket) : Bool := decide (p.cmd = .writeReq) && p.req.isMasked

def getOffset (p : MissPacket) (blkSize : Nat) : Nat := p.addr % blkSize

def getBlockAddr (p : MissPacket) (blkSize : Nat) : Nat := p.addr - p.addr % blkSize

def matchBlockAddr (p pkt : MissPacket) (blkSize : Nat) : Bool :=
  decide (p.getBlockAddr blkSize = pkt.getBlockAddr blkSize) && decide (p.req.isSecure = pkt.req.isSecure)

/-- `replaceUpgrade`: the copy that was to be upgraded is gone. -/
def replaceUpgrade (p : MissPacket) : MissPacket :=
  match p.cmd with
  | .upgradeReq => { p with cmd := .readExReq }
  | .scUpgradeReq => { p with cmd := .scUpgradeFailReq }
  | .storeCondReq => { p with cmd := .storeCondFailReq }
  | _ => p

/-- The assertion of `replaceUpgrade`: no packet without data gets a command that carries some. -/
theorem replaceUpgrade_hasData (p : MissPacket) (h : (p.hasData || p.hasRespData) = false) :
    p.replaceUpgrade.hasData = false := by
  obtain ⟨ptr, cmd, req, addr, size, es, fm⟩ := p
  cases cmd <;> first | rfl | cases h

/-- The first copy of `handleSnoop`, for a snoop that is answered later: `new Packet(pkt, true, true)`. -/
def copyToRespond (p : MissPacket) (ptr : Nat) : MissPacket := { p with ptr := ptr, isExpressSnoop := false }

/-- The other copy: a block-sized packet of a copied request. -/
def copyToForward (p : MissPacket) (ptr blkSize : Nat) : MissPacket :=
  { ptr := ptr, cmd := p.cmd, req := p.req, addr := p.getBlockAddr blkSize, size := blkSize }

end MissPacket

namespace Mshr

inductive Source where
  | fromCPU
  | fromSnoop
  | fromPrefetcher
deriving DecidableEq, Repr

structure Target where
  pkt : MissPacket
  readyTime : Nat
  order : Nat
  source : Source
  markedPending : Bool
  allocOnFill : Bool
deriving DecidableEq, Repr

namespace Target

def isFromCPU (t : Target) : Bool := decide (t.source = .fromCPU)

def isCacheMaintenance (t : Target) : Bool := t.pkt.req.isCacheMaintenance

end Target

structure TargetList where
  list : List Target := []
  needsWritable : Bool := false
  hasUpgrade : Bool := false
  allocOnFill : Bool := false
  hasFromCache : Bool := false
  blkSize : Nat := 0
  canMergeWrites : Bool := true
  writesBitmap : List Bool := []
deriving DecidableEq, Repr

namespace TargetList

def resetFlags (l : TargetList) : TargetList :=
  { l with
    canMergeWrites := true, writesBitmap := l.writesBitmap.map fun _ => false, needsWritable := false
    hasUpgrade := false, allocOnFill := false, hasFromCache := false }

def init (l : TargetList) (blkSize : Nat) : TargetList :=
  ({ l with blkSize := blkSize, writesBitmap := List.replicate blkSize false } : TargetList).resetFlags

def isReset (l : TargetList) : Bool :=
  !l.needsWritable && !l.hasUpgrade && !l.allocOnFill && !l.hasFromCache && l.canMergeWrites

def isWholeLineWrite (l : TargetList) : Bool := l.writesBitmap.all id

def fillWrites (bitmap : List Bool) (offset size : Nat) : List Bool :=
  bitmap.mapIdx fun i b => b || decide (offset ≤ i) && decide (i < offset + size)

def updateWriteFlags (l : TargetList) (pkt : MissPacket) : TargetList :=
  if l.isWholeLineWrite then l
  else if l.canMergeWrites then
    if !pkt.cmd.isWrite then { l with canMergeWrites := false }
    else
      let compatWrite := !pkt.req.noMerge
      let firstWrite := l.list.isEmpty
      let writesBitmap :=
        if !pkt.isMaskedWrite && (firstWrite || compatWrite) then
          fillWrites l.writesBitmap (pkt.getOffset l.blkSize) pkt.size
        else l.writesBitmap
      { l with writesBitmap := writesBitmap, canMergeWrites := compatWrite }
  else l

def updateFlags (l : TargetList) (pkt : MissPacket) (source : Source) (allocOnFill : Bool) : TargetList :=
  if source ≠ .fromSnoop then
    let l : TargetList :=
      { l with
        needsWritable := l.needsWritable || pkt.needsWritable
        hasUpgrade := l.hasUpgrade || (pkt.isUpgrade || decide (pkt.cmd = .storeCondReq))
        allocOnFill := l.allocOnFill || allocOnFill }
    if source ≠ .fromPrefetcher then
      ({ l with hasFromCache := l.hasFromCache || pkt.cmd.fromCache } : TargetList).updateWriteFlags pkt
    else l
  else l

def populateFlags (l : TargetList) : TargetList :=
  l.list.foldl (fun l t => l.updateFlags t.pkt t.source t.allocOnFill) l.resetFlags

/-- `TargetList::add`.  The target is marked only if an upstream miss waits for it. -/
def add (l : TargetList) (pkt : MissPacket) (readyTime order : Nat) (source : Source) (markPending allocOnFill : Bool) :
    TargetList :=
  let l := l.updateFlags pkt source allocOnFill
  { l with list := l.list ++ [⟨pkt, readyTime, order, source, markPending && pkt.fromMshr, allocOnFill⟩] }

def replaceUpgrades (l : TargetList) : TargetList :=
  if !l.hasUpgrade then l
  else { l with list := l.list.map fun t => { t with pkt := t.pkt.replaceUpgrade }, hasUpgrade := false }

def unmark (ts : List Target) : List Target := ts.map fun t => { t with markedPending := false }

def clearDownstreamPending (l : TargetList) : TargetList := { l with list := unmark l.list }

def front (l : TargetList) : Except Failure Target :=
  match l.list with
  | [] => .error .nullPointer
  | t :: _ => .ok t

theorem front_eq_ok {l : TargetList} {t : Target} : l.front = .ok t ↔ ∃ rest, l.list = t :: rest := by
  unfold front
  cases l.list with
  | nil => simp
  | cons u rest => simp

@[simp] theorem resetFlags_list (l : TargetList) : l.resetFlags.list = l.list := rfl

@[simp] theorem init_list (l : TargetList) (blkSize : Nat) : (l.init blkSize).list = l.list := rfl

@[simp] theorem updateWriteFlags_list (l : TargetList) (pkt : MissPacket) : (l.updateWriteFlags pkt).list = l.list := by
  unfold updateWriteFlags
  split
  · rfl
  · split
    · split <;> rfl
    · rfl

@[simp] theorem updateFlags_list (l : TargetList) (pkt : MissPacket) (source : Source) (allocOnFill : Bool) :
    (l.updateFlags pkt source allocOnFill).list = l.list := by
  unfold updateFlags
  split
  · split
    · rw [updateWriteFlags_list]
    · rfl
  · rfl

@[simp] theorem populateFlags_list (l : TargetList) : l.populateFlags.list = l.list := by
  have hfold : ∀ (ts : List Target) (l : TargetList),
      (ts.foldl (fun l t => l.updateFlags t.pkt t.source t.allocOnFill) l).list = l.list := by
    intro ts
    induction ts with
    | nil => exact fun _ => rfl
    | cons t ts ih => exact fun l => by rw [List.foldl_cons, ih, updateFlags_list]
  rw [populateFlags, hfold, resetFlags_list]

@[simp] theorem add_list (l : TargetList) (pkt : MissPacket) (readyTime order : Nat) (source : Source)
    (markPending allocOnFill : Bool) : (l.add pkt readyTime order source markPending allocOnFill).list =
      l.list ++ [⟨pkt, readyTime, order, source, markPending && pkt.fromMshr, allocOnFill⟩] := by
  rw [add, updateFlags_list]

end TargetList
end Mshr

open Mshr in
structure Mshr where
  readyTime : Nat := 0
  isUncacheable : Bool := false
  inService : Bool := false
  order : Nat := 0
  blkAddr : Nat := 0
  blkSize : Nat := 0
  isSecure : Bool := false
  downstreamPending : Bool := false
  pendingModified : Bool := false
  postInvalidate : Bool := false
  postDowngrade : Bool := false
  wasWholeLineWrite : Bool := false
  isForward : Bool := false
  targets : TargetList := {}
  deferredTargets : TargetList := {}
deriving DecidableEq, Repr

namespace Mshr

def getNumTargets (s : Mshr) : Nat := s.targets.list.length + s.deferredTargets.list.length

def hasTargets (s : Mshr) : Bool := !s.targets.list.isEmpty

def allocate (s : Mshr) (blkAddr blkSize : Nat) (target : MissPacket) (whenReady order : Nat) (allocOnFill : Bool) :
    Except Failure Mshr := do
  -- needsWritable() of a response is an assertion that fails
  assertThat target.cmd.isRequest
  let source : Source := if target.cmd = .hardPFReq then .fromPrefetcher else .fromCPU
  let s : Mshr :=
    { s with
      blkAddr := blkAddr, blkSize := blkSize, isSecure := target.req.isSecure, readyTime := whenReady, order := order
      isForward := false, wasWholeLineWrite := false, isUncacheable := target.req.isUncacheable, inService := false
      downstreamPending := false, deferredTargets := s.deferredTargets.init blkSize
      targets := (s.targets.init blkSize).add target whenReady order source true allocOnFill }
  let front ← s.targets.front
  assertThat (target.matchBlockAddr front.pkt blkSize)
  .ok s

def clearDownstreamPending (s : Mshr) : Except Failure Mshr := do
  assertThat s.downstreamPending
  .ok { s with downstreamPending := false, targets := s.targets.clearDownstreamPending }

def markInService (s : Mshr) (pendingModifiedResp : Bool) : Except Failure Mshr := do
  assertThat !s.inService
  .ok { s with
    inService := true, pendingModified := s.targets.needsWritable || pendingModifiedResp
    postInvalidate := false, postDowngrade := false
    targets := if !s.downstreamPending then s.targets.clearDownstreamPending else s.targets
    wasWholeLineWrite := s.targets.isWholeLineWrite }

def deallocate (s : Mshr) : Except Failure Mshr := do
  assertThat s.targets.list.isEmpty
  assertThat s.deferredTargets.isReset
  .ok { s with targets := s.targets.resetFlags, inService := false }

def defers (s : Mshr) (front : Target) (pkt : MissPacket) : Bool :=
  pkt.req.isCacheMaintenance || front.pkt.req.isCacheMaintenance || !s.deferredTargets.list.isEmpty ||
    (s.inService &&
      (s.postInvalidate || (pkt.needsWritable && (!s.pendingModified || s.postDowngrade || s.isForward))))

def allocateTarget (s : Mshr) (pkt : MissPacket) (whenReady order : Nat) (allocOnFill : Bool) : Except Failure Mshr := do
  assertThat (decide (pkt.cmd ≠ .hardPFReq))
  assertThat pkt.cmd.isRequest
  let front ← s.targets.front
  if s.defers front pkt then
    let pkt := if s.inService && s.postInvalidate then pkt.replaceUpgrade else pkt
    .ok { s with deferredTargets := s.deferredTargets.add pkt whenReady order .fromCPU true allocOnFill }
  else
    .ok { s with targets := s.targets.add pkt whenReady order .fromCPU (!s.inService) allocOnFill }

/-- What `handleSnoop` answers, the flags it sets in the snooped packet, and the copy it kept. -/
structure Snooped where
  willRespond : Bool := false
  cacheResponding : Bool := false
  responderHadWritable : Bool := false
  satisfied : Bool := false
  hasSharers : Bool := false
  saved : Option MissPacket := none
deriving DecidableEq, Repr

/-- The part of `handleSnoop` in which the request of the MSHR precedes the snooped packet.  `copy` is the address of the
packet it may create. -/
def snoopInService (s : Mshr) (pkt : MissPacket) (order curTick copy : Nat) : Except Failure (Mshr × Snooped) := do
  let front ← s.targets.front
  if s.postInvalidate || front.pkt.req.isCacheInvalidate then .ok (s, { willRespond := true })
  else
    let willRespond := s.pendingModified && pkt.cmd.needsResponse && !pkt.cmd.isClean
    let downgrades := !pkt.needsWritable && !pkt.req.isUncacheable
    let out : Snooped := { willRespond := willRespond, hasSharers := downgrades }
    if s.pendingModified || pkt.cmd.isInvalidate then
      let saved := if willRespond then pkt.copyToRespond copy else pkt.copyToForward copy s.blkSize
      .ok ({ s with
          targets := s.targets.add saved curTick order .fromSnoop (s.downstreamPending && s.targets.needsWritable) false
          postInvalidate := s.postInvalidate || pkt.needsWritable || pkt.cmd.isInvalidate
          postDowngrade := s.postDowngrade || downgrades },
        { out with
          cacheResponding := willRespond, responderHadWritable := willRespond
          satisfied := !willRespond && s.pendingModified && pkt.cmd.isClean, saved := some saved })
    else .ok ({ s with postDowngrade := s.postDowngrade || downgrades }, out)

def handleSnoop (s : Mshr) (pkt : MissPacket) (order curTick copy : Nat) : Except Failure (Mshr × Snooped) := do
  assertThat pkt.cmd.isRequest
  panicIf (decide (pkt.needsWritable ≠ pkt.cmd.isInvalidate) && !pkt.req.isCacheMaintenance)
    "got snoop where needsWritable, does not match isInvalidate"
  if !s.inService || (pkt.isExpressSnoop && s.downstreamPending) then
    -- the snooped packet precedes the request of this MSHR
    .ok (if pkt.invalidates then
        { s with targets := s.targets.replaceUpgrades, deferredTargets := s.deferredTargets.replaceUpgrades }
      else s, {})
  else
    (if pkt.invalidates then { s with deferredTargets := s.deferredTargets.replaceUpgrades } else s).snoopInService
      pkt order curTick copy

/-- The loop of `extractServiceableTargets` after an invalidating response: the targets that are served, and the
`FromCPU` ones that stay. -/
def siftSnoops : List Target → Except Failure (List Target × List Target)
  | [] => .ok ([], [])
  | t :: rest =>
    if t.source = .fromCPU then do
      let (ready, stay) ← siftSnoops rest
      .ok (ready, t :: stay)
    else do
      assertThat (decide (t.source = .fromSnoop))
      let (ready, stay) ← siftSnoops rest
      .ok (t :: ready, stay)

/-- The other loop: it stops at a locked read, which is served and stays. -/
def takeUnlocked : List Target → List Target × List Target
  | [] => ([], [])
  | t :: rest =>
    if t.pkt.cmd = .lockedRMWReadReq then ([t], t :: rest)
    else (t :: (takeUnlocked rest).1, (takeUnlocked rest).2)

def serviceable (cmd : MemCmd) (ts : List Target) : Except Failure (List Target × List Target) :=
  if cmd = .readRespWithInvalidate then
    match ts with
    | [] => .error .nullPointer
    | t :: rest => do
      assertThat (decide (t.source = .fromCPU) || decide (t.source = .fromPrefetcher))
      if t.pkt.cmd ≠ .lockedRMWReadReq then do
        let (ready, stay) ← siftSnoops rest
        .ok (t :: ready, stay)
      else .ok ([t], t :: rest)
  else .ok (takeUnlocked ts)

def extractServiceableTargets (s : Mshr) (cmd : MemCmd) : Except Failure (Mshr × TargetList) := do
  let (ready, stay) ← serviceable cmd s.targets.list
  let readyTargets : TargetList := { ({} : TargetList).init s.blkSize with list := ready }
  .ok ({ s with targets := ({ s.targets with list := stay } : TargetList).populateFlags }, readyTargets.populateFlags)

def promotable (targets deferred : List Target) : List Target × List Target :=
  -- find_if of the first cache maintenance request
  let ahead := deferred.takeWhile fun t => !t.isCacheMaintenance
  if ahead.isEmpty then
    if targets.isEmpty then (deferred.take 1, deferred.drop 1) else ([], deferred)
  else (ahead, deferred.dropWhile fun t => !t.isCacheMaintenance)

def promoteDeferredTargets (s : Mshr) (curTick : Nat) : Except Failure (Mshr × Bool) :=
  if s.targets.list.isEmpty && s.deferredTargets.list.isEmpty then .ok (s, false)
  else do
    let (moved, stay) := promotable s.targets.list s.deferredTargets.list
    let deferredTargets := ({ s.deferredTargets with list := stay } : TargetList).populateFlags
    let targets := ({ s.targets with list := s.targets.list ++ moved } : TargetList).populateFlags
    let front ← targets.front
    .ok ({ s with
        deferredTargets := deferredTargets, targets := targets, order := front.order
        readyTime := max curTick front.readyTime }, true)

/-- `std::find_if_not` over the deferred targets; the predicate asserts that what it looks at came from the CPU. -/
def splitIf (pred : Target → Bool) : List Target → Except Failure (List Target × List Target)
  | [] => .ok ([], [])
  | t :: rest => do
    assertThat (decide (t.source = .fromCPU))
    if pred t then do
      let (moved, stay) ← splitIf pred rest
      .ok (t :: moved, stay)
    else .ok ([], t :: rest)

def promoteIf (s : Mshr) (pred : Target → Bool) : Except Failure Mshr := do
  assertThat !s.downstreamPending
  let (moved, stay) ← splitIf pred s.deferredTargets.list
  .ok { s with
    targets := { s.targets with list := s.targets.list ++ TargetList.unmark moved }
    deferredTargets := ({ s.deferredTargets with list := stay } : TargetList).populateFlags }

def Target.readable (t : Target) : Bool := !t.pkt.req.isCacheInvalidate && !t.pkt.needsWritable

def promoteReadable (s : Mshr) : Except Failure Mshr :=
  if s.deferredTargets.list.isEmpty then .ok s
  else do
    assertThat s.inService
    if !s.postInvalidate then s.promoteIf Target.readable else .ok s

def Target.writable (t : Target) : Bool := !t.pkt.req.isCacheInvalidate

def promoteWritable (s : Mshr) : Except Failure Mshr :=
  match s.deferredTargets.list with
  | [] => .ok s
  | front :: _ =>
    if s.deferredTargets.needsWritable then do
      assertThat s.inService
      if !(s.postInvalidate || s.postDowngrade) && !front.pkt.req.isCacheInvalidate then do
        assertThat !s.targets.needsWritable
        ({ s with targets := { s.targets with needsWritable := true } } : Mshr).promoteIf Target.writable
      else .ok s
    else .ok s

def popTarget (s : Mshr) : Except Failure Mshr :=
  match s.targets.list with
  | [] => .error .nullPointer
  | _ :: rest => .ok { s with targets := { s.targets with list := rest } }

def delay (s : Mshr) (curTick delayTicks : Nat) : Except Failure Mshr := do
  assertThat (decide (s.readyTime ≤ curTick))
  .ok { s with readyTime := curTick + delayTicks }

end Mshr
end Gem5
