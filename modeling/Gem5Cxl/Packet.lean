import Gem5Cxl.AddrRange
import Gem5Cxl.ByteStore
import Gem5Cxl.MemCmd
import Mathlib.Algebra.Order.Ring.Nat
/-!
# Packet — requests and packets (`mem/request.hh`, `mem/packet.hh`)

A packet's payload is a function on its `size` bytes, and so is what its atomic operation does to them: neither can have
another length.  `data` is `none` while no data pointer is set.  A memory's backing store is a function on host indices.
-/
namespace Gem5

open ByteStore

abbrev Pmem := Nat → Byte

/-- The fields of `class Request` that memories and bridges read.  `contextId` and `extraData` are `none` while not
valid. -/
structure Request where
  paddr : Addr
  contextId : Option Nat := none
  extraData : Option (BitVec 64) := none
  byteEnable : List Bool := []
  isInstFetch : Bool := false
  isCondSwap : Bool := false
deriving DecidableEq, Repr

def Request.isMasked (r : Request) : Bool := r.byteEnable.any (· == false)

def Request.getExtraData (r : Request) : Except Failure (BitVec 64) :=
  match r.extraData with
  | some x => .ok x
  | none => .error .assertFailed

structure Packet where
  cmd : MemCmd
  req : Request
  addr : Addr
  size : Nat
  data : Option (Fin size → Byte) := none
  atomicOp : Option ((Fin size → Byte) → Fin size → Byte) := none
  cacheResponding : Bool := false
  isExpressSnoop : Bool := false
  headerDelay : BitVec 32 := 0
  payloadDelay : BitVec 32 := 0
  reqBus : Fin 2 → Int := fun _ => -1
  /-- `unsigned size` -/
  size_lt : size < 2 ^ 32 := by decide

namespace Packet

theorem lineSize_lt : 64 < 2 ^ 32 := by decide

def isRead (pkt : Packet) : Bool := pkt.cmd.isRead
def isWrite (pkt : Packet) : Bool := pkt.cmd.isWrite
def isInvalidate (pkt : Packet) : Bool := pkt.cmd.isInvalidate
def isClean (pkt : Packet) : Bool := pkt.cmd.isClean
def isRequest (pkt : Packet) : Bool := pkt.cmd.isRequest
def isResponse (pkt : Packet) : Bool := pkt.cmd.isResponse
def needsResponse (pkt : Packet) : Bool := pkt.cmd.needsResponse
def isLLSC (pkt : Packet) : Bool := pkt.cmd.isLLSC
def isError (pkt : Packet) : Bool := pkt.cmd.isError
def fromCache (pkt : Packet) : Bool := pkt.cmd.fromCache

def getAddrRange (pkt : Packet) : AddrRange := rangeSize pkt.addr (BitVec.ofNat 64 pkt.size)

def isMaskedWrite (pkt : Packet) : Bool := decide (pkt.cmd = .writeReq) && pkt.req.isMasked

def getConstPtr (pkt : Packet) : Except Failure (Fin pkt.size → Byte) :=
  match pkt.data with
  | some d => .ok d
  | none => .error .assertFailed

def getPtr (pkt : Packet) : Except Failure (Fin pkt.size → Byte) := do
  let d ← pkt.getConstPtr
  assertThat (!pkt.isMaskedWrite)
  return d

def withData (pkt : Packet) (d : Fin pkt.size → Byte) : Packet := { pkt with data := some d }

/-- `Packet::setData`, from index `o` of the store `p`. -/
def setData (pkt : Packet) (p : Pmem) (o : Nat) : Except Failure Packet := do
  let _ ← pkt.getPtr
  return pkt.withData (slice p o pkt.size)

def enabledData (pkt : Packet) (d : Fin pkt.size → Byte) (i : Fin pkt.size) : Option Byte :=
  if pkt.isMaskedWrite then
    if pkt.req.byteEnable.getD i false then some (d i) else none
  else some (d i)

def writeData (pkt : Packet) (p : Pmem) (o : Nat) : Except Failure Pmem := do
  if pkt.isMaskedWrite then assertThat (decide (pkt.req.byteEnable.length = pkt.size)) else pure ()
  let d ← pkt.getConstPtr
  return patch p o (pkt.enabledData d)

def response (pkt : Packet) : Packet := { pkt with cmd := pkt.cmd.responseCommand, isExpressSnoop := false }

def makeResponse (pkt : Packet) : Except Failure Packet := do
  assertThat pkt.needsResponse
  assertThat pkt.isRequest
  return pkt.response

def respond (pkt : Packet) : Except Failure Packet :=
  if pkt.needsResponse then pkt.makeResponse else .ok pkt

/-! ## Swaps -/

def hostByte {w : Nat} (v : BitVec w) (i : Nat) : Byte := v.extractLsb' (8 * i) 8

/-- Whether a swap that read `old` goes on to overwrite memory; a conditional swap compares the request's extra data
with the bytes in memory. -/
def overwriteMem (pkt : Packet) (old : Fin pkt.size → Byte) : Except Failure Bool :=
  if pkt.req.isCondSwap then
    if pkt.size = 8 then do
      let conditionVal64 ← pkt.req.getExtraData
      return decide (∀ i : Fin pkt.size, hostByte conditionVal64 i = old i)
    else if pkt.size = 4 then do
      let extra ← pkt.req.getExtraData
      let conditionVal32 : BitVec 32 := extra.setWidth 32
      return decide (∀ i : Fin pkt.size, hostByte conditionVal32 i = old i)
    else .error (.panic "Invalid size for conditional read/write\n")
  else .ok true

/-- The `SwapReq` branch of `access`, the same text in every memory, with real storage at `pmem`. -/
def accessSwap (pkt : Packet) (pmem : Pmem) (o : Nat) : Except Failure (Pmem × Packet) :=
  match pkt.atomicOp with
  | some op => do
    let pkt' ← pkt.setData pmem o
    return (patch pmem o (fun i => some (op (slice pmem o pkt.size) i)), pkt')
  | none => do
    let overwriteVal ← pkt.writeData (fun _ => 0) 0
    let pkt' ← pkt.setData pmem o
    let overwrite ← pkt.overwriteMem (slice pmem o pkt.size)
    let pmem := if overwrite then patch pmem o (n := pkt.size) (fun i => some (overwriteVal i)) else pmem
    assertThat (!pkt.req.isInstFetch)
    return (pmem, pkt')

/-! ## What the data methods return -/

theorem respond_eq (pkt : Packet) : pkt.respond = .ok (if pkt.needsResponse then pkt.response else pkt) := by
  rw [respond]
  by_cases h : pkt.needsResponse = true
  · have hreq : pkt.isRequest = true := (MemCmd.responseCommand_spec pkt.cmd h).1
    rw [if_pos h, if_pos h, makeResponse, h, hreq]
    rfl
  · rw [if_neg h, if_neg h]

theorem setData_eq {pkt : Packet} (hd : pkt.data.isSome = true) (hm : pkt.isMaskedWrite = false) (p : Pmem) (o : Nat) :
    pkt.setData p o = .ok (pkt.withData (slice p o pkt.size)) := by
  obtain ⟨d, hd⟩ := Option.isSome_iff_exists.1 hd
  have hptr : pkt.getPtr = .ok d := by
    simp only [getPtr, getConstPtr, hd, Run.ok_bind, hm]
    rfl
  rw [setData, hptr]
  rfl

theorem writeData_eq {pkt : Packet} {d : Fin pkt.size → Byte} (hd : pkt.data = some d)
    (hm : pkt.isMaskedWrite = true → pkt.req.byteEnable.length = pkt.size) (p : Pmem) (o : Nat) :
    pkt.writeData p o = .ok (patch p o (pkt.enabledData d)) := by
  have hptr : pkt.getConstPtr = .ok d := by rw [getConstPtr, hd]
  rw [writeData, hptr]
  by_cases hmask : pkt.isMaskedWrite = true
  · simp only [hmask, if_true, hm hmask, decide_true, assertThat_true, Run.ok_bind, Run.pure_eq_ok]
  · simp only [hmask, Bool.false_eq_true, if_false, Run.ok_bind, Run.pure_eq_ok]

theorem isMaskedWrite_eq_false {pkt : Packet} (h : pkt.cmd ≠ .writeReq) : pkt.isMaskedWrite = false := by
  rw [isMaskedWrite, decide_eq_false h, Bool.false_and]

theorem hostByte_setWidth (v : BitVec 64) {i : Nat} (h : i < 4) : hostByte (v.setWidth 32) i = hostByte v i := by
  apply BitVec.eq_of_getLsbD_eq
  intro j hj
  simp only [hostByte, BitVec.getLsbD_extractLsb', BitVec.getLsbD_setWidth]
  have hlt : 8 * i + j < 32 := by omega
  simp [hlt]

theorem overwriteMem_eq {pkt : Packet} {x : BitVec 64} (hc : pkt.req.isCondSwap = true)
    (hs : pkt.size = 4 ∨ pkt.size = 8) (hx : pkt.req.extraData = some x) (old : Fin pkt.size → Byte) :
    pkt.overwriteMem old = .ok (decide (∀ i : Fin pkt.size, hostByte x i = old i)) := by
  have hget : pkt.req.getExtraData = .ok x := by rw [Request.getExtraData, hx]
  rw [overwriteMem, if_pos hc]
  rcases hs with hs | hs
  · have hne : pkt.size ≠ 8 := by omega
    rw [if_neg hne, if_pos hs, hget]
    simp only [Run.ok_bind, Run.pure_eq_ok, Except.ok.injEq, decide_eq_decide]
    apply forall_congr'
    intro i
    rw [hostByte_setWidth x (by omega)]
  · rw [if_pos hs, hget]
    rfl

end Packet
end Gem5
