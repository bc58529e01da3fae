import Gem5Cxl.AddrRange
import Gem5Cxl.BinaryHeap
import Mathlib.Algebra.Order.Ring.Nat
/-!
# MessageBuffer — Ruby's message queues (`mem/ruby/network/MessageBuffer.cc`, `mem/ruby/slicc_interface/Message.hh`)

Messages wait in a heap ordered by arrival time and counter, or, once stalled, in a list under the address they wait for.
A message is its payload with the fields the buffer reads and writes; it is in one buffer at a time, so that the pointers
of the source become values.  `std::map` is a list in key order.  Ticks are 64-bit and their sums wrap.  Randomised delays,
the consumer's wakeups, the dequeue callback and the statistics are left out.
-/
namespace Gem5.Ruby

structure Message (β : Type) where
  payload : β
  lastEnqueueTime : Nat := 0
  delayedTicks : Nat := 0
  msgCounter : Nat := 0
deriving Inhabited, DecidableEq, Repr

namespace Message

variable {β : Type}

def updateDelayedTicks (m : Message β) (curTime : Nat) : Except Failure (Message β) := do
  assertThat (decide (m.lastEnqueueTime ≤ curTime))
  return { m with delayedTicks := (m.delayedTicks + (curTime - m.lastEnqueueTime)) % 2 ^ 64 }

def gt (l r : Message β) : Bool :=
  if l.lastEnqueueTime = r.lastEnqueueTime then decide (r.msgCounter < l.msgCounter)
  else decide (r.lastEnqueueTime < l.lastEnqueueTime)

/-- The heap's order: `std::greater` puts the least message first. -/
def before (l r : Message β) : Bool := r.gt l

theorem strictWeak_before : BinaryHeap.StrictWeak (before : Message β → Message β → Bool) where
  asymm := by
    intro x y h
    simp only [before, gt] at *
    split at h <;> split <;> simp_all
    · omega
    · omega
  le_trans := by
    intro x y z hxy hyz
    simp only [before, gt] at *
    split at hxy <;> split at hyz <;> split <;> simp_all <;> omega

end Message

structure MessageBuffer.Params where
  maxSize : Nat := 0
  maxDequeueRate : Nat := 0
  strictFifo : Bool := false
  allowZeroLatency : Bool := false
  blockSizeBits : Nat := 6

structure MessageBuffer (β : Type) where
  prioHeap : Array (Message β) := #[]
  stallMsgMap : List (Addr × List (Message β)) := []
  stallMapSize : Int := 0
  msgCounter : Nat := 0
  timeLastTimeEnqueue : Nat := 0
  timeLastTimePop : Nat := 0
  lastArrivalTime : Nat := 0
  sizeAtCycleStart : Nat := 0
  stalledAtCycleStart : Int := 0
  msgsThisCycle : Nat := 0
  dequeuesThisCy : Nat := 0

namespace MessageBuffer

variable {β : Type} [Inhabited β] (p : Params)

def peek (b : MessageBuffer β) : Message β := b.prioHeap[0]!

def pushed (heap : Array (Message β)) (m : Message β) : Array (Message β) :=
  BinaryHeap.pushHeap Message.before (heap.push m)

def popped (heap : Array (Message β)) : Array (Message β) := (BinaryHeap.popHeap Message.before heap).pop

/-- The first statements of `enqueue`: the counters of a message that enters at `currentTime`. -/
def countEnqueue (b : MessageBuffer β) (currentTime : Nat) : MessageBuffer β :=
  let first := decide (b.timeLastTimeEnqueue < currentTime)
  { b with
    timeLastTimeEnqueue := if first then currentTime else b.timeLastTimeEnqueue
    msgCounter := b.msgCounter + 1
    msgsThisCycle := (if first then 0 else b.msgsThisCycle) + 1 }

/-- `enqueue`; `warmup` is `RubySystem::getWarmupEnabled()`. -/
def enqueue (b : MessageBuffer β) (warmup : Bool) (message : Message β) (currentTime delta : Nat) :
    Except Failure (MessageBuffer β) := do
  let b := b.countEnqueue currentTime
  panicIf (delta == 0 && !p.allowZeroLatency) "Delta equals zero and allow_zero_latency is false during enqueue"
  let arrivalTime := (currentTime + delta) % 2 ^ 64
  assertThat (decide (currentTime ≤ arrivalTime))
  panicIf (p.strictFifo && decide (arrivalTime < b.lastArrivalTime))
    "FIFO ordering violated: %s name: %s current time: %d delta: %d arrival_time: %d last arrival_time: %d\n"
  let b := { b with lastArrivalTime := if !warmup then arrivalTime else b.lastArrivalTime }
  assertThat (decide (message.lastEnqueueTime ≤ currentTime))
  let message ← message.updateDelayedTicks currentTime
  let message := { message with lastEnqueueTime := arrivalTime, msgCounter := b.msgCounter }
  let b := { b with prioHeap := pushed b.prioHeap message }
  assertThat (p.maxSize == 0 || decide ((b.prioHeap.size : Int) + b.stallMapSize ≤ p.maxSize))
  return b

def isReady (b : MessageBuffer β) (currentTime : Nat) : Except Failure Bool := do
  assertThat (decide (b.timeLastTimePop ≤ currentTime))
  let canDequeue := p.maxDequeueRate == 0 || decide (b.timeLastTimePop < currentTime) ||
    decide (b.dequeuesThisCy < p.maxDequeueRate)
  let isReady := decide (0 < b.prioHeap.size) && decide (b.peek.lastEnqueueTime ≤ currentTime)
  return canDequeue && isReady

/-- The counters of a message that leaves at `currentTime`; the sizes are those at the start of the cycle. -/
def countDequeue (b : MessageBuffer β) (currentTime : Nat) : MessageBuffer β :=
  let first := decide (b.timeLastTimePop < currentTime)
  { b with
    sizeAtCycleStart := if first then b.prioHeap.size else b.sizeAtCycleStart
    stalledAtCycleStart := if first then b.stallMapSize else b.stalledAtCycleStart
    timeLastTimePop := if first then currentTime else b.timeLastTimePop
    dequeuesThisCy := (if first then 0 else b.dequeuesThisCy) + 1 }

/-- `dequeue`, with the message that leaves; the delay it returns is that message's. -/
def dequeue (b : MessageBuffer β) (currentTime : Nat) : Except Failure (MessageBuffer β × Message β) := do
  assertThat (← b.isReady p currentTime)
  let message ← b.peek.updateDelayedTicks currentTime
  let b := b.countDequeue currentTime
  return ({ b with prioHeap := popped b.prioHeap }, message)

def recycle (b : MessageBuffer β) (currentTime recycleLatency : Nat) : Except Failure (MessageBuffer β) := do
  assertThat (← b.isReady p currentTime)
  let node := { b.peek with lastEnqueueTime := (currentTime + recycleLatency) % 2 ^ 64 }
  return { b with prioHeap := pushed (popped b.prioHeap) node }

/-! ## Stalled messages -/

def stallAt (addr : Addr) (message : Message β) : List (Addr × List (Message β)) → List (Addr × List (Message β))
  | [] => [(addr, [message])]
  | (a, l) :: map =>
    if a = addr then (a, l ++ [message]) :: map
    else if addr < a then (addr, [message]) :: (a, l) :: map
    else (a, l) :: stallAt addr message map

def stalledAt (map : List (Addr × List (Message β))) (addr : Addr) : List (Message β) :=
  ((map.find? (·.1 == addr)).map (·.2)).getD []

def stallMessage (b : MessageBuffer β) (addr : Addr) (currentTime : Nat) : Except Failure (MessageBuffer β) := do
  assertThat (← b.isReady p currentTime)
  assertThat (decide (addr.toNat % 2 ^ p.blockSizeBits = 0))
  let (b, message) ← b.dequeue p currentTime
  return { b with stallMsgMap := stallAt addr message b.stallMsgMap, stallMapSize := b.stallMapSize + 1 }

def reanalyzeList (heap : Array (Message β)) (schdTick : Nat) : List (Message β) → Except Failure (Array (Message β))
  | [] => .ok heap
  | m :: lt => do
    assertThat (decide (m.lastEnqueueTime ≤ schdTick))
    reanalyzeList (pushed heap m) schdTick lt

def reanalyzeMessages (b : MessageBuffer β) (addr : Addr) (currentTime : Nat) : Except Failure (MessageBuffer β) := do
  assertThat (b.stallMsgMap.any (·.1 == addr))
  let stallMapSize := b.stallMapSize - (stalledAt b.stallMsgMap addr).length
  assertThat (decide (0 ≤ stallMapSize))
  let heap ← reanalyzeList b.prioHeap currentTime (stalledAt b.stallMsgMap addr)
  return { b with prioHeap := heap, stallMapSize, stallMsgMap := b.stallMsgMap.eraseP (·.1 == addr) }

def reanalyzeLists (heap : Array (Message β)) (stallMapSize : Int) (currentTime : Nat) :
    List (Addr × List (Message β)) → Except Failure (Array (Message β) × Int)
  | [] => .ok (heap, stallMapSize)
  | (_, l) :: map => do
    let stallMapSize := stallMapSize - l.length
    assertThat (decide (0 ≤ stallMapSize))
    let heap ← reanalyzeList heap currentTime l
    reanalyzeLists heap stallMapSize currentTime map

def reanalyzeAllMessages (b : MessageBuffer β) (currentTime : Nat) : Except Failure (MessageBuffer β) := do
  let (heap, stallMapSize) ← reanalyzeLists b.prioHeap b.stallMapSize currentTime b.stallMsgMap
  return { b with prioHeap := heap, stallMapSize, stallMsgMap := [] }

end MessageBuffer
end Gem5.Ruby
