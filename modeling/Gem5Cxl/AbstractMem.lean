import Gem5Cxl.Packet
/-!
# AbstractMem — memory with load-locked reservations (`mem/abstract_mem.hh`, `mem/abstract_mem.cc`)

`pmem` is `none` for a memory without storage (`null`).  Each context holds at most one reservation, on a granule of 16
bytes.  `clearedExclusive` lists, latest first, the contexts whose exclusive monitor a store cleared
(`globalClearExclusive`).
-/
namespace Gem5

open ByteStore

structure LockedAddr where
  addr : Addr
  contextId : Nat
deriving DecidableEq, Repr

def LockedAddr.mask (paddr : Addr) : Addr := paddr &&& ~~~0xf

structure AbstractMemory where
  range : AddrRange
  pmem : Option Pmem
  writeable : Bool := true
  lockedAddrList : List LockedAddr := []
  clearedExclusive : List Nat := []

namespace AbstractMemory

def toHostAddr (m : AbstractMemory) (addr : Addr) : Nat := (addr - m.range.start).toNat

/-! ## Reservations -/

/-- The loop of `trackLoadLocked`: move the context's own record, if there is one. -/
def moveRecord (cid : Nat) (paddr : Addr) : List LockedAddr → Option (List LockedAddr)
  | [] => none
  | r :: rs =>
    if r.contextId = cid then some ({ r with addr := paddr } :: rs) else (moveRecord cid paddr rs).map (r :: ·)

/-- `AbstractMemory::trackLoadLocked`.  A request with no context fails an assertion: in `matchesContext` at the first
record, or in the constructor of the new one. -/
def trackLoadLocked (m : AbstractMemory) (req : Request) : Except Failure AbstractMemory :=
  let paddr := LockedAddr.mask req.paddr
  match req.contextId with
  | none => .error .assertFailed
  | some cid =>
    .ok { m with
      lockedAddrList := (moveRecord cid paddr m.lockedAddrList).getD ({ addr := paddr, contextId := cid } ::
        m.lockedAddrList) }

/-- The search of `checkLockedAddrList` for the requestor's record of the granule. -/
def findRecord (req : Request) (paddr : Addr) : List LockedAddr → Except Failure Bool
  | [] => .ok false
  | r :: rs =>
    if r.addr = paddr then
      match req.contextId with
      | none => .error .assertFailed
      | some cid => if r.contextId = cid then .ok true else findRecord req paddr rs
    else findRecord req paddr rs

/-- The records of a granule go, and the other contexts that held one are told. -/
def eraseRecords (m : AbstractMemory) (req : Request) (paddr : Addr) : AbstractMemory :=
  { m with
    lockedAddrList := m.lockedAddrList.filter (fun r => !decide (r.addr = paddr))
    clearedExclusive :=
      ((m.lockedAddrList.filter (fun r => decide (r.addr = paddr) && !decide (req.contextId = some r.contextId))).map
        LockedAddr.contextId).reverse ++ m.clearedExclusive }

/-- `AbstractMemory::checkLockedAddrList`: whether the store goes through, with the store conditional's result in the
request. -/
def checkLockedAddrList (m : AbstractMemory) (pkt : Packet) : Except Failure (AbstractMemory × Request × Bool) := do
  let paddr := LockedAddr.mask pkt.req.paddr
  let allowStore ← if pkt.isLLSC then findRecord pkt.req paddr m.lockedAddrList else .ok true
  let req := if pkt.isLLSC then { pkt.req with extraData := some (if allowStore then 1 else 0) } else pkt.req
  return (if allowStore then m.eraseRecords pkt.req paddr else m, req, allowStore)

def writeOK (m : AbstractMemory) (pkt : Packet) : Except Failure (AbstractMemory × Request × Bool) :=
  if !m.writeable then .ok (m, pkt.req, false)
  else if m.lockedAddrList = [] then
    -- no locked addrs: nothing to check, store_conditional fails
    .ok (m, if pkt.isLLSC then { pkt.req with extraData := some 0 } else pkt.req, !pkt.isLLSC)
  else m.checkLockedAddrList pkt

/-! ## Accesses -/

def accessSwap (m : AbstractMemory) (pkt : Packet) : Except Failure (AbstractMemory × Packet) :=
  match m.pmem with
  | some pmem => do
    let (pmem', pkt') ← pkt.accessSwap pmem (m.toHostAddr pkt.addr)
    return ({ m with pmem := some pmem' }, pkt')
  | none =>
    if pkt.atomicOp.isSome then .ok (m, pkt)
    else .error (.panic "Swap only works if there is real memory (i.e. null=False)")

def trackRead (m : AbstractMemory) (pkt : Packet) : Except Failure AbstractMemory :=
  if pkt.isLLSC then do
    assertThat (!pkt.fromCache)
    m.trackLoadLocked pkt.req
  else .ok m

/-- `if (pmemAddr) pkt->setData(host_addr)`. -/
def readPmem (m : AbstractMemory) (pkt : Packet) : Except Failure Packet :=
  match m.pmem with
  | some pmem => pkt.setData pmem (m.toHostAddr pkt.addr)
  | none => .ok pkt

/-- `if (pmemAddr) pkt->writeData(host_addr)`. -/
def writePmem (m : AbstractMemory) (pkt : Packet) : Except Failure AbstractMemory :=
  match m.pmem with
  | some pmem => (pkt.writeData pmem (m.toHostAddr pkt.addr)).map (fun p => { m with pmem := some p })
  | none => .ok m

def accessRead (m : AbstractMemory) (pkt : Packet) : Except Failure (AbstractMemory × Packet) := do
  assertThat (!pkt.isWrite)
  let m' ← m.trackRead pkt
  let pkt' ← m'.readPmem pkt
  return (m', pkt')

def accessWrite (m : AbstractMemory) (pkt : Packet) : Except Failure (AbstractMemory × Packet) := do
  let (m', req, ok) ← m.writeOK pkt
  if ok then
    let m'' ← m'.writePmem pkt
    assertThat (!pkt.req.isInstFetch)
    return (m'', { pkt with req := req })
  else return (m', { pkt with req := req })

/-- The body of `access` past the early returns and before the response. -/
def accessData (m : AbstractMemory) (pkt : Packet) : Except Failure (AbstractMemory × Packet) :=
  if pkt.cmd = .swapReq then m.accessSwap pkt
  else if pkt.isRead then m.accessRead pkt
  else if pkt.isInvalidate || pkt.isClean then do
    assertThat (!pkt.isWrite)
    return (m, pkt)
  else if pkt.isWrite then m.accessWrite pkt
  else .error (.panic "Unexpected packet")

def access (m : AbstractMemory) (pkt : Packet) : Except Failure (AbstractMemory × Packet) :=
  if pkt.cacheResponding then .ok (m, pkt)
  else if pkt.cmd = .cleanEvict ∨ pkt.cmd = .writebackClean then .ok (m, pkt)
  else do
    let inRange ← pkt.getAddrRange.isSubset m.range
    assertThat inRange
    let (m', pkt') ← m.accessData pkt
    let pkt'' ← pkt'.respond
    return (m', pkt'')

def run : AbstractMemory → List Packet → Except Failure (AbstractMemory × List Packet)
  | m, [] => .ok (m, [])
  | m, pkt :: pkts => do
    let (m', r) ← m.access pkt
    let (m'', rs) ← run m' pkts
    return (m'', r :: rs)

theorem trackRead_frame {m m' : AbstractMemory} {pkt : Packet} (h : m.trackRead pkt = .ok m') :
    m'.pmem = m.pmem ∧ m'.range = m.range := by
  unfold trackRead at h
  split_ifs at h
  · rw [Run.bind_eq_ok] at h
    obtain ⟨_, -, h⟩ := h
    unfold trackLoadLocked at h
    split at h
    · cases h
    · cases h
      exact ⟨rfl, rfl⟩
  · cases h
    exact ⟨rfl, rfl⟩

end AbstractMemory
end Gem5
