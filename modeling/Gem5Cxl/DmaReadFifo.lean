import Gem5Cxl.AddrRange
import Gem5Cxl.CircleBuf
import Mathlib.Algebra.Order.Ring.Nat
/-!
# DmaReadFifo — a FIFO filled by DMA reads (`dev/dma_device.cc`)

The timing path.  A `DmaDoneEvent` is the buffer of one read and the event the port schedules when the read is done; the
FIFO owns a fixed set of them, here a heap with the two queues holding their numbers.  `reads` is what the port has been
asked and has not completed.  A block that ends is reported to the derived class, which may start the next one from
there: a call takes the blocks its callbacks start, in their order, and answers those it used.
-/
namespace Gem5

structure DmaDoneEvent where
  done : Bool
  canceled : Bool
  requestSize : Nat
  data : List Byte
deriving DecidableEq, Repr

namespace DmaDoneEvent

def cancel (e : DmaDoneEvent) : DmaDoneEvent := { e with canceled := true }

def reset (e : DmaDoneEvent) (size : Nat) : Except Failure DmaDoneEvent := do
  assertThat (decide (size ≤ e.data.length))
  .ok { e with done := false, canceled := false, requestSize := size }

end DmaDoneEvent

structure DmaRead where
  addr : Addr
  size : Nat
  event : Nat
deriving DecidableEq, Repr

structure DmaReadFifo where
  maxReqSize : Addr
  fifoSize : Nat
  buffer : Fifo Byte
  nextAddr : Addr
  endAddr : Addr
  pendingRequests : List Nat
  freeRequests : List Nat
  events : Nat → DmaDoneEvent
  reads : List DmaRead
  /-- `drainState() == DrainState::Draining`. -/
  draining : Bool

namespace DmaReadFifo

abbrev Block := Addr × Addr

def create (size : Nat) (maxReqSize : BitVec 32) (maxPending : Nat) : DmaReadFifo :=
  { maxReqSize := maxReqSize.setWidth 64
    fifoSize := size
    buffer := .create size 0
    nextAddr := 0
    endAddr := 0
    pendingRequests := []
    freeRequests := List.range maxPending
    events := fun _ => { done := false, canceled := false, requestSize := 0, data := List.replicate maxReqSize.toNat 0 }
    reads := []
    draining := false }

def atEndOfBlock (f : DmaReadFifo) : Bool := decide (f.nextAddr = f.endAddr)

def isActive (f : DmaReadFifo) : Bool := !(f.pendingRequests.isEmpty && f.atEndOfBlock)

def reqSize (f : DmaReadFifo) : Nat := min f.maxReqSize.toNat (f.endAddr - f.nextAddr).toNat

def issue (f : DmaReadFifo) (e : Nat) (event : DmaDoneEvent) : DmaReadFifo :=
  { f with
    freeRequests := f.freeRequests.tail
    events := Function.update f.events e event
    reads := f.reads ++ [{ addr := f.nextAddr, size := f.reqSize, event := e }]
    nextAddr := f.nextAddr + BitVec.ofNat 64 f.reqSize
    pendingRequests := f.pendingRequests ++ [e] }

def fillLoop (f : DmaReadFifo) (sizePending : Nat) : List Nat → Except Failure DmaReadFifo
  | [] => .ok f
  | e :: free =>
    if f.atEndOfBlock then .ok f
    else if f.buffer.used + sizePending + f.reqSize > f.fifoSize then .ok f
    else do
      let event ← (f.events e).reset f.reqSize
      (f.issue e event).fillLoop (sizePending + f.reqSize) free

def sizePending (f : DmaReadFifo) : Nat := (f.pendingRequests.map fun e => (f.events e).requestSize).sum

def resumeFillTiming (f : DmaReadFifo) : Except Failure DmaReadFifo := f.fillLoop f.sizePending f.freeRequests

def setBlock (f : DmaReadFifo) (b : Block) : DmaReadFifo := { f with nextAddr := b.1, endAddr := b.1 + b.2 }

def resumeFill (f : DmaReadFifo) : List Block → Except Failure (DmaReadFifo × List Block)
  | [] => if f.draining then .ok (f, []) else f.resumeFillTiming.map fun f' => (f', [])
  | b :: bs =>
    if f.draining then .ok (f, [])
    else do
      let f' ← f.resumeFillTiming
      if !f.atEndOfBlock && f'.atEndOfBlock then do
        -- `onEndOfBlock` calls `startFill`
        let (f'', started) ← (f'.setBlock b).resumeFill bs
        .ok (f'', b :: started)
      else .ok (f', [])

def startFill (f : DmaReadFifo) (b : Block) (next : List Block) : Except Failure (DmaReadFifo × List Block) := do
  assertThat f.atEndOfBlock
  (f.setBlock b).resumeFill next

def tryGet (f : DmaReadFifo) (len : Nat) (next : List Block) :
    Except Failure (DmaReadFifo × List Block × Option (List Byte)) :=
  if f.buffer.used ≥ len then do
    let (buffer, out) ← f.buffer.read len
    let (f, started) ← { f with buffer }.resumeFill next
    .ok (f, started, some out)
  else .ok (f, [], none)

def stopFill (f : DmaReadFifo) : DmaReadFifo :=
  { f with
    nextAddr := f.endAddr
    events := fun e => if e ∈ f.pendingRequests then (f.events e).cancel else f.events e }

/-- The buffer once the data of a finished read has been put into it, unless the read was canceled. -/
def collect (f : DmaReadFifo) (e : Nat) : Except Failure (Fifo Byte) :=
  if (f.events e).canceled then .ok f.buffer
  else Fifo.write f.buffer ((f.events e).data.take (f.events e).requestSize)

def pendingLoop (f : DmaReadFifo) : List Nat → Except Failure DmaReadFifo
  | [] => .ok f
  | e :: pending =>
    if (f.events e).done then do
      let buffer ← f.collect e
      pendingLoop { f with buffer, pendingRequests := pending, freeRequests := f.freeRequests ++ [e] } pending
    else .ok f

def handlePending (f : DmaReadFifo) : Except Failure DmaReadFifo := f.pendingLoop f.pendingRequests

/-- `dmaDone`; it answers whether it called `onIdle`. -/
def dmaDone (f : DmaReadFifo) (next : List Block) : Except Failure (DmaReadFifo × List Block × Bool) := do
  let f' ← f.handlePending
  let (f'', started) ← f'.resumeFill next
  .ok (f'', started, f.isActive && !f''.isActive)

def process (f : DmaReadFifo) (e : Nat) (next : List Block) : Except Failure (DmaReadFifo × List Block × Bool) := do
  assertThat !(f.events e).done
  { f with events := Function.update f.events e { f.events e with done := true } }.dmaDone next

/-! ## The FIFO among its callers -/

def memBytes (mem : Addr → Byte) (a : Addr) (n : Nat) : List Byte := (List.range n).map fun i => mem (a + BitVec.ofNat 64 i)

/-- The FIFO and the record of its run: the blocks started, of each the part that is wanted, the bytes handed out, and the
calls of `onIdle`. -/
structure System where
  fifo : DmaReadFifo
  blocks : List (Addr × Nat)
  delivered : List Byte
  idles : Nat

inductive Event where
  | startFill (b : Block) (next : List Block)
  | stopFill
  | tryGet (len : Nat) (next : List Block)
  /-- The port has the data of the `n`-th of its reads, and processes the event. -/
  | complete (n : Nat) (next : List Block)

def cutTo : Nat → List (Addr × Nat) → List (Addr × Nat)
  | _, [] => []
  | n, (a, m) :: bs => (a, min n m) :: cutTo (n - m) bs

namespace System

def create (size : Nat) (maxReqSize : BitVec 32) (maxPending : Nat) : System :=
  { fifo := .create size maxReqSize maxPending, blocks := [], delivered := [], idles := 0 }

def starts (s : System) (started : List Block) : List (Addr × Nat) := s.blocks ++ started.map fun b => (b.1, b.2.toNat)

/-- The bytes the FIFO has received, handed out or not. -/
def received (s : System) : List Byte := s.delivered ++ s.fifo.buffer.contents

/-- One event; `mem` is the memory.  After `stopFill` only the bytes received before are wanted. -/
def step (mem : Addr → Byte) (s : System) : Event → Except Failure System
  | .startFill b next => do
    let (fifo, started) ← s.fifo.startFill b next
    .ok { s with fifo, blocks := s.starts (b :: started) }
  | .stopFill => .ok { s with fifo := s.fifo.stopFill, blocks := cutTo s.received.length s.blocks }
  | .tryGet len next => do
    let (fifo, started, out) ← s.fifo.tryGet len next
    .ok { s with fifo, blocks := s.starts started, delivered := s.delivered ++ out.getD [] }
  | .complete n next =>
    match s.fifo.reads[n]? with
    | none => .ok s
    | some r => do
      let event := s.fifo.events r.event
      let (fifo, started, idle) ← { s.fifo with
        reads := s.fifo.reads.eraseIdx n
        events := Function.update s.fifo.events r.event
          { event with data := copyAt event.data 0 (memBytes mem r.addr r.size) } }.process r.event next
      .ok { s with fifo, blocks := s.starts started, idles := s.idles + idle.toNat }

end System

end DmaReadFifo

end Gem5
