import Gem5Cxl.ChunkGenerator
import Mathlib.Data.List.Range
/-!
# DmaPort — DMA requests in timing mode (`dev/dma_device.cc`)

Each call of `dmaAction` allocates a request state, which the packets of the request point to; the states are a heap,
and the pointer of a request is its place among the calls.  A state is deleted by the response that finishes it or by
`abortPending`; a use of a deleted state is a read through a null pointer here.  `System` is the port with what is
outside it: the packets in flight, and the record of what the port sent and scheduled.
-/
namespace Gem5

/-- The arguments of a call of `dmaAction`.  `req` is what the packets of the request take over: the command, the flags
and the stream ids.  The source never passes an abort event. -/
structure DmaAction (R : Type) where
  req : R
  addr : Addr
  size : Addr
  event : Bool
  abortEvent : Bool
  data : Option Addr
  delay : Nat
deriving DecidableEq, Repr

structure DmaReqState (R : Type) where
  completionEvent : Bool
  abortEvent : Bool
  aborted : Bool
  totBytes : Addr
  numBytes : Addr
  delay : Nat
  gen : ChunkGenerator
  data : Option Addr
  req : R
deriving DecidableEq, Repr

structure DmaPacket (R : Type) where
  senderState : Nat
  addr : Addr
  size : BitVec 32
  data : Option Addr
  req : R
deriving DecidableEq, Repr

structure DmaPort (R : Type) where
  states : Nat → Option (DmaReqState R)
  transmitList : List Nat
  sendEvent : Bool
  pendingCount : Nat
  inRetry : Option (DmaPacket R)
  retryPending : Bool

namespace DmaPort

variable {R : Type}

def create : DmaPort R :=
  { states := fun _ => none, transmitList := [], sendEvent := false, pendingCount := 0, inRetry := none,
    retryPending := false }

def deref (p : DmaPort R) (i : Nat) : Except Failure (DmaReqState R) :=
  match p.states i with
  | none => .error .nullPointer
  | some st => .ok st

def createPacket (i : Nat) (st : DmaReqState R) : DmaPacket R :=
  { senderState := i, addr := st.gen.addr, size := st.gen.size.setWidth 32, data := st.data.map (· + st.gen.complete),
    req := st.req }

def nextPacket (p : DmaPort R) (i : Nat) (st : DmaReqState R) : DmaPacket R := p.inRetry.getD (createPacket i st)

/-- `trySendTimingReq`; `accept` is what `sendTimingReq` returns.  It answers the packet, if it was sent. -/
def trySendTimingReq (p : DmaPort R) (accept : Bool) : Except Failure (DmaPort R × List (DmaPacket R)) :=
  match p.transmitList with
  | [] => .error .nullPointer
  | i :: waiting => do
    let st ← p.deref i
    let pkt := p.nextPacket i st
    let p := if accept then { p with inRetry := none, pendingCount := p.pendingCount + 1 }
      else { p with inRetry := some pkt, retryPending := true }
    let sent := if accept then [pkt] else []
    if p.retryPending then .ok (p, sent)
    else do
      let transmitList := if st.gen.last then waiting else i :: waiting
      let p := { p with
        states := Function.update p.states i (some { st with gen := st.gen.next.1 })
        transmitList }
      if transmitList.isEmpty then .ok (p, sent)
      else do
        assertThat (!p.sendEvent)
        .ok ({ p with sendEvent := true }, sent)

def sendDma (p : DmaPort R) (accept : Bool) : Except Failure (DmaPort R × List (DmaPacket R)) := do
  assertThat (!p.transmitList.isEmpty)
  if p.retryPending || p.sendEvent then .ok (p, []) else p.trySendTimingReq accept

def recvReqRetry (p : DmaPort R) (accept : Bool) : Except Failure (DmaPort R × List (DmaPacket R)) :=
  let p := { p with retryPending := false }
  if p.transmitList.isEmpty then .ok (p, []) else p.trySendTimingReq accept

def newState (line : Addr) (a : DmaAction R) : Except Failure (DmaReqState R) := do
  let gen ← ChunkGenerator.create a.addr a.size line
  .ok { completionEvent := a.event, abortEvent := a.abortEvent, aborted := false, totBytes := a.size, numBytes := 0,
        delay := a.delay, gen, data := a.data, req := a.req }

/-- `dmaAction`; `i` is the address of the new state. -/
def dmaAction (p : DmaPort R) (line : Addr) (i : Nat) (a : DmaAction R) (accept : Bool) :
    Except Failure (DmaPort R × List (DmaPacket R)) := do
  let st ← newState line a
  { p with states := Function.update p.states i (some st), transmitList := p.transmitList ++ [i] }.sendDma accept

/-- What `handleResp` does besides: the completion event it schedules, with its tick, and the abort event. -/
structure Signal where
  completed : Option Nat := none
  aborted : Bool := false
deriving DecidableEq, Repr

def delete (p : DmaPort R) (i : Nat) : DmaPort R := { p with states := Function.update p.states i none }

def handleResp (p : DmaPort R) (i : Nat) (size : Addr) (now : Nat) : Except Failure (DmaPort R × Signal) := do
  assertThat (decide (p.pendingCount ≠ 0))
  let p := { p with pendingCount := p.pendingCount - 1 }
  let st ← p.deref i
  let st := { st with numBytes := st.numBytes + size }
  assertThat (decide (st.numBytes ≤ st.totBytes))
  let allBytes := decide (st.totBytes = st.numBytes)
  let p := { p with states := Function.update p.states i (some st) }
  if st.aborted then
    if allBytes || decide (p.pendingCount = 0) then .ok (p.delete i, { aborted := st.abortEvent }) else .ok (p, {})
  else if allBytes then
    .ok (p.delete i, { completed := if st.completionEvent then some (now + st.delay) else none })
  else .ok (p, {})

/-- The loop of `abortPending`: it deletes the requests that have not started, and answers those with an abort event. -/
def abortAll (p : DmaPort R) : List Nat → Except Failure (DmaPort R × List Nat)
  | [] => .ok (p, [])
  | i :: is => do
    let st ← p.deref i
    let (p, signalled) ← (p.delete i).abortAll is
    .ok (p, if st.abortEvent then i :: signalled else signalled)

/-- The front request has packets in flight: it leaves the list, and its state stays for their sake. -/
def abortFront (p : DmaPort R) : Except Failure (DmaPort R) :=
  match p.transmitList with
  | [] => .ok p
  | i :: waiting =>
    if p.pendingCount ≠ 0 then do
      let st ← p.deref i
      if st.numBytes ≠ st.gen.complete then
        .ok { p with
          transmitList := waiting
          states := Function.update p.states i (some { st with aborted := true }) }
      else .ok p
    else .ok p

/-- `abortPending`; it answers the requests whose abort event it schedules. -/
def abortPending (p : DmaPort R) : Except Failure (DmaPort R × List Nat) := do
  let p ← { p with inRetry := none }.abortFront
  let (p, signalled) ← p.abortAll p.transmitList
  .ok ({ p with transmitList := [], sendEvent := false }, signalled)

/-! ## The port among its peers -/

/-- The port, the packets in flight and the ghost record of the calls: what was sent, which completion events were
scheduled with their ticks, which abort events, and which requests an abort found on the list.  `owed` says that the peer
refused a packet and has not sent the retry. -/
structure System (R : Type) where
  port : DmaPort R
  inFlight : List (DmaPacket R)
  owed : Bool
  actions : List (DmaAction R)
  sent : List (DmaPacket R)
  completed : List (Nat × Nat)
  signalled : List Nat
  dropped : List Nat

inductive Event (R : Type) where
  | dmaAction (a : DmaAction R) (accept : Bool)
  | sendEvent (accept : Bool)
  | recvReqRetry (accept : Bool)
  /-- The response to the `k`-th packet in flight. -/
  | response (k : Nat) (now : Nat)
  | abortPending

namespace System

def create : System R :=
  { port := .create, inFlight := [], owed := false, actions := [], sent := [], completed := [], signalled := [],
    dropped := [] }

/-- The packets a call sent are in flight; a packet that waits in the port was refused. -/
def sends (s : System R) (r : DmaPort R × List (DmaPacket R)) : System R :=
  { s with
    port := r.1
    inFlight := s.inFlight ++ r.2
    sent := s.sent ++ r.2
    owed := s.owed || r.1.inRetry.isSome }

def step (line : Addr) (s : System R) : Event R → Except Failure (System R)
  | .dmaAction a accept => do
    let r ← s.port.dmaAction line s.actions.length a accept
    .ok { s.sends r with actions := s.actions ++ [a] }
  | .sendEvent accept => do
    let r ← { s.port with sendEvent := false }.sendDma accept
    .ok (s.sends r)
  | .recvReqRetry accept => do
    let r ← s.port.recvReqRetry accept
    .ok ({ s with owed := false }.sends r)
  | .response k now =>
    match s.inFlight[k]? with
    | none => .ok s
    | some pkt => do
      let (p, signal) ← s.port.handleResp pkt.senderState (pkt.size.setWidth 64) now
      .ok { s with
        port := p
        inFlight := s.inFlight.eraseIdx k
        completed := s.completed ++ signal.completed.toList.map fun t => (pkt.senderState, t)
        signalled := if signal.aborted then s.signalled ++ [pkt.senderState] else s.signalled }
  | .abortPending => do
    let (p, signalled) ← s.port.abortPending
    .ok { s with
      port := p
      signalled := s.signalled ++ signalled
      dropped := s.dropped ++ s.port.transmitList }

end System

end DmaPort

end Gem5
