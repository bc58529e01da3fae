import Gem5Cxl.Packet
import Gem5Cxl.PciDevice
/-!
# CxlMemory — the CXL memory device (`dev/cxl_memory.hh`, `dev/cxl_memory.cc`)

The storage is allocated once, of BAR0's size, and every access indexes it relative to the BAR0 range of that moment.
-/
namespace Gem5

open ByteStore

structure CxlMemory where
  dev : PciDevice
  range : AddrRange
  pmem : Pmem
  allocated : Nat
  latency : Nat
  cxlMemLatency : Nat

namespace CxlMemory

/-- The constructor; `pmem` is what the fresh allocation happens to hold. -/
def create (dev : PciDevice) (pmem : Pmem) (latency cxlMemLatency : Nat) : CxlMemory :=
  let range := rangeSize dev.bar0.addr dev.bar0.size
  { dev := dev, range := range, pmem := pmem, allocated := range.size.toNat, latency := latency,
    cxlMemLatency := cxlMemLatency }

def bar0Range (dev : PciDevice) : AddrRange := rangeSize dev.bar0.addr dev.bar0.size

def toHostAddr (range : AddrRange) (addr : Addr) : Nat := (addr - range.start).toNat

/-- The body of `Memory::access` past the early returns and before the response. -/
def accessData (range : AddrRange) (pmem : Pmem) (pkt : Packet) : Except Failure (Pmem × Packet) :=
  if pkt.cmd = .swapReq then pkt.accessSwap pmem (toHostAddr range pkt.addr)
  else if pkt.isRead then do
    assertThat (!pkt.isWrite)
    let pkt' ← pkt.setData pmem (toHostAddr range pkt.addr)
    return (pmem, pkt')
  else if pkt.isInvalidate || pkt.isClean then do
    assertThat (!pkt.isWrite)
    return (pmem, pkt)
  else if pkt.isWrite then do
    let pmem' ← pkt.writeData pmem (toHostAddr range pkt.addr)
    assertThat (!pkt.req.isInstFetch)
    return (pmem', pkt)
  else .error (.panic "Unexpected packet")

def access (c : CxlMemory) (pkt : Packet) : Except Failure (CxlMemory × Packet) :=
  let c := { c with range := bar0Range c.dev }
  if pkt.cacheResponding then .ok (c, pkt)
  else if pkt.cmd = .cleanEvict ∨ pkt.cmd = .writebackClean then .ok (c, pkt)
  else do
    let inRange ← pkt.getAddrRange.isSubset c.range
    assertThat inRange
    let (pmem, pkt') ← accessData c.range c.pmem pkt
    let pkt'' ← pkt'.respond
    return ({ c with pmem := pmem }, pkt'')

def resolveCxlMem (c : CxlMemory) (pkt : Packet) : Except Failure Nat := do
  if pkt.cmd = .readReq then
    assertThat pkt.isRead
    assertThat pkt.needsResponse
  else if pkt.cmd = .writeReq then
    assertThat pkt.isWrite
    assertThat pkt.needsResponse
  return c.cxlMemLatency

/-- `CxlMemory::read` and `CxlMemory::write`, which differ in their trace lines only. -/
def readOrWrite (c : CxlMemory) (pkt : Packet) : Except Failure (CxlMemory × Packet × Nat) := do
  let cxlLatency ← c.resolveCxlMem pkt
  let (c', pkt') ← c.access pkt
  return (c', pkt', c.latency + cxlLatency)

def read (c : CxlMemory) (pkt : Packet) : Except Failure (CxlMemory × Packet × Nat) := c.readOrWrite pkt

def write (c : CxlMemory) (pkt : Packet) : Except Failure (CxlMemory × Packet × Nat) := c.readOrWrite pkt

def serve (c : CxlMemory) (pkt : Packet) : Except Failure (CxlMemory × Packet × Nat) :=
  if pkt.isRead then c.read pkt else c.write pkt

inductive Op where
  | writeConfig (addr : Addr) (size : Nat) (val : BitVec 32)
  | access (pkt : Packet)

def run : CxlMemory → List Op → Except Failure (CxlMemory × List Packet)
  | c, [] => .ok (c, [])
  | c, .writeConfig addr size val :: ops => do
    let dev ← c.dev.writeConfig addr size val
    run { c with dev := dev } ops
  | c, .access pkt :: ops => do
    let (c', r, _) ← c.serve pkt
    let (c'', rs) ← run c' ops
    return (c'', r :: rs)

/-! ## Packets that pass the assertions -/

theorem resolveCxlMem_eq (c : CxlMemory) (pkt : Packet) : c.resolveCxlMem pkt = .ok c.cxlMemLatency := by
  unfold resolveCxlMem
  by_cases hr : pkt.cmd = .readReq
  · simp only [Packet.isRead, Packet.needsResponse, hr]
    rfl
  · rw [if_neg hr]
    by_cases hw : pkt.cmd = .writeReq
    · simp only [Packet.isWrite, Packet.needsResponse, hw]
      rfl
    · rw [if_neg hw]
      rfl

theorem serve_eq (c : CxlMemory) (pkt : Packet) :
    c.serve pkt = (c.access pkt).map (fun r => (r.1, r.2, c.latency + c.cxlMemLatency)) := by
  rw [serve, read, write, ite_self, readOrWrite, resolveCxlMem_eq]
  cases c.access pkt with
  | error f => rfl
  | ok r => rfl

theorem create_allocated (dev : PciDevice) (pmem : Pmem) (l k : Nat) :
    (create dev pmem l k).allocated = dev.bar0.size.toNat := by
  have hsize : (rangeSize dev.bar0.addr dev.bar0.size).size = dev.bar0.size := by
    show (dev.bar0.addr + dev.bar0.size - dev.bar0.addr) >>> 0 = dev.bar0.size
    rw [BitVec.ushiftRight_zero]
    bv_omega
  rw [create, hsize]

end CxlMemory
end Gem5
