import Gem5Cxl.Packet
import Mathlib.Algebra.Order.Ring.Nat
import Mathlib.Data.Finset.Card
import Mathlib.Tactic.Ring
/-!
# MemCtrl — the memory controller's queues (`mem/mem_ctrl.cc`, `mem/qos/mem_ctrl.cc`)

A controller with one memory interface.  A packet is split at burst boundaries; the pieces of a read that the write queue
does not cover wait in the read queue, then in the response queue.  The pieces of one read share a heap-allocated
`BurstHelper` that counts those serviced: here a cell of `helpers`, `none` once deleted, and reading a deleted cell is
`nullPointer`.  A packet is named by a pointer, a queued piece by its place; a piece's priority is the index of the queue
it is in.  Which piece is issued next is the scheduler's choice and an argument here, as is the rearrangement of the
queues by priority escalation.  `accessAndRespond` is the list of its calls.  Events, ranks, banks, timing, bus turnaround
and statistics are left out.
-/
namespace Gem5

open BitVec (lt_def toNat_add toNat_ofNat toNat_setWidth)

namespace MemCtrl

/-- What the controller reads of its interface and of its parameters.  A burst is a power of two. -/
structure Params where
  burstSize : BitVec 32 := 64
  readBufferSize : Nat
  writeBufferSize : Nat
  numPriorities : Nat := 1
  range : AddrRange
  burst_pow : ∃ k, k < 32 ∧ burstSize = 1#32 <<< k := by exact ⟨6, by decide, rfl⟩

structure BurstHelper where
  burstCount : Nat
  burstsServiced : Nat := 0
deriving DecidableEq, Repr

structure Piece where
  addr : Addr
  size : BitVec 32
deriving DecidableEq, Repr

structure MemPacket extends Piece where
  pkt : Nat
  burstHelper : Option Nat := none
deriving DecidableEq, Repr

end MemCtrl

open MemCtrl in
structure MemCtrl where
  readQueue : List (List MemPacket)
  writeQueue : List (List MemPacket)
  isInWriteQueue : Finset Addr := ∅
  respQueue : List MemPacket := []
  totalReadQueueSize : Nat := 0
  totalWriteQueueSize : Nat := 0
  helpers : Nat → Option BurstHelper := fun _ => none
  nextHelper : Nat := 0
  responses : List Nat := []
  retryRdReq : Bool := false
  retryWrReq : Bool := false

namespace MemCtrl

variable (p : Params)

def create : MemCtrl :=
  { readQueue := List.replicate p.numPriorities [], writeQueue := List.replicate p.numPriorities [] }

def readQueueFull (s : MemCtrl) (neededEntries : Nat) : Bool :=
  decide (p.readBufferSize < s.totalReadQueueSize + s.respQueue.length + neededEntries)

def writeQueueFull (s : MemCtrl) (neededEntries : Nat) : Bool :=
  decide (p.writeBufferSize < s.totalWriteQueueSize + neededEntries)

/-! ## Splitting -/

def burstMask : Addr := (p.burstSize - 1).setWidth 64

def burstAlign (addr : Addr) : Addr := addr &&& ~~~burstMask p

/-- `(addr | (burst_size - 1)) + 1` -/
def nextBurst (addr : Addr) : Addr := (addr ||| burstMask p) + 1

def pieceAt (base : Addr) (size : BitVec 32) (addr : Addr) : Piece :=
  let last := base + size.setWidth 64
  { addr, size := ((if last < nextBurst p addr then last else nextBurst p addr) - addr).setWidth 32 }

/-- The pieces of the turns of the loop from `addr` on. -/
def pieces (base : Addr) (size : BitVec 32) : Nat → Addr → List Piece
  | 0, _ => []
  | n + 1, addr => pieceAt p base size addr :: pieces base size n (nextBurst p addr)

def pktCount (addr : Addr) (size : BitVec 32) : BitVec 32 :=
  let offset : BitVec 32 := (addr &&& burstMask p).setWidth 32
  (offset + size + p.burstSize - 1) / p.burstSize

def split (addr : Addr) (size : BitVec 32) : List Piece := pieces p addr size (pktCount p addr size).toNat addr

/-! ## Reads -/

def covers (pc : Piece) (w : MemPacket) : Bool :=
  decide (w.addr ≤ pc.addr) && decide (pc.addr + pc.size.setWidth 64 ≤ w.addr + w.size.setWidth 64)

/-- How often the search of the write queue finds a piece: it leaves a priority's queue at the first find, but goes on
with the next priority's. -/
def foundInWrQ (s : MemCtrl) (pc : Piece) : Nat :=
  if burstAlign p pc.addr ∈ s.isInWriteQueue then s.writeQueue.countP (fun vec => vec.any (covers pc)) else 0

structure ReadLoop where
  ctrl : MemCtrl
  pktsServicedByWrQ : Nat := 0
  burstHelper : Option Nat := none

/-- `burst_helper`, allocated for the first piece of a split packet that is queued. -/
def ReadLoop.allocate (l : ReadLoop) (count : Nat) : ReadLoop :=
  if 1 < count ∧ l.burstHelper = none then
    { l with
      ctrl := { l.ctrl with
        helpers := fun h => if h = l.ctrl.nextHelper then some { burstCount := count } else l.ctrl.helpers h
        nextHelper := l.ctrl.nextHelper + 1 }
      burstHelper := some l.ctrl.nextHelper }
  else l

def readPiece (pkt prio count : Nat) (l : ReadLoop) (pc : Piece) : Except Failure ReadLoop :=
  let found := foundInWrQ p l.ctrl pc
  if found ≠ 0 then .ok { l with pktsServicedByWrQ := l.pktsServicedByWrQ + found }
  else do
    let l := l.allocate count
    assertThat (!readQueueFull p l.ctrl 1)
    let memPkt : MemPacket := { addr := pc.addr, size := pc.size, pkt, burstHelper := l.burstHelper }
    return { l with ctrl := { l.ctrl with
      readQueue := l.ctrl.readQueue.modify prio (· ++ [memPkt])
      totalReadQueueSize := l.ctrl.totalReadQueueSize + 1 } }

def accessAndRespond (s : MemCtrl) (pkt : Nat) : MemCtrl := { s with responses := s.responses ++ [pkt] }

def readPieces (pkt prio count : Nat) : List Piece → ReadLoop → Except Failure ReadLoop
  | [], l => .ok l
  | pc :: pcs, l => do
    let l ← readPiece p pkt prio count l pc
    readPieces pkt prio count pcs l

def addToReadQueue (s : MemCtrl) (packet : Packet) (pkt prio : Nat) (count : BitVec 32) :
    Except Failure (MemCtrl × Bool) := do
  assertThat (!packet.isWrite)
  assertThat (count != 0)
  let size := BitVec.ofNat 32 packet.size
  let l ← readPieces p pkt prio count.toNat (pieces p packet.addr size count.toNat packet.addr) { ctrl := s }
  if l.pktsServicedByWrQ = count.toNat then return (accessAndRespond l.ctrl pkt, true)
  match l.burstHelper with
  | none => return (l.ctrl, false)
  | some h =>
    return ({ l.ctrl with helpers := fun h' => if h' = h then
      (l.ctrl.helpers h).map fun b => { b with burstsServiced := l.pktsServicedByWrQ } else l.ctrl.helpers h' }, false)

/-! ## Writes -/

def writePiece (pkt prio : Nat) (s : MemCtrl) (pc : Piece) : Except Failure MemCtrl :=
  let burst := burstAlign p pc.addr
  if burst ∈ s.isInWriteQueue then .ok s
  else do
    assertThat (decide (s.totalWriteQueueSize < p.writeBufferSize))
    let memPkt : MemPacket := { addr := pc.addr, size := pc.size, pkt }
    let s := { s with
      writeQueue := s.writeQueue.modify prio (· ++ [memPkt])
      isInWriteQueue := insert burst s.isInWriteQueue
      totalWriteQueueSize := s.totalWriteQueueSize + 1 }
    assertThat (decide (s.totalWriteQueueSize = s.isInWriteQueue.card))
    return s

def writePieces (pkt prio : Nat) : List Piece → MemCtrl → Except Failure MemCtrl
  | [], s => .ok s
  | pc :: pcs, s => do
    let s ← writePiece p pkt prio s pc
    writePieces pkt prio pcs s

def addToWriteQueue (s : MemCtrl) (packet : Packet) (pkt prio : Nat) (count : BitVec 32) : Except Failure MemCtrl := do
  assertThat packet.isWrite
  let size := BitVec.ofNat 32 packet.size
  let s ← writePieces p pkt prio (pieces p packet.addr size count.toNat packet.addr) s
  return accessAndRespond s pkt

/-! ## The controller's steps -/

/-- `recvTimingReq` for the packet that `pkt` points to, with the priority `qosSchedule` gave it. -/
def recvTimingReq (s : MemCtrl) (packet : Packet) (pkt prio : Nat) : Except Failure (MemCtrl × Bool) := do
  panicIf packet.cacheResponding "Should not see packets where cache is responding"
  panicIf (!(packet.isRead || packet.isWrite)) "Should only see read and writes at memory controller\n"
  panicIf (!p.range.contains packet.addr) "Can't handle address range for packet %s\n"
  let size := BitVec.ofNat 32 packet.size
  let count := pktCount p packet.addr size
  assertThat (decide (prio < p.numPriorities))
  if packet.isWrite then
    assertThat (size != 0)
    if writeQueueFull p s count.toNat then return ({ s with retryWrReq := true }, false)
    else
      let s ← addToWriteQueue p s packet pkt prio count
      return (s, true)
  else
    assertThat packet.isRead
    assertThat (size != 0)
    if readQueueFull p s count.toNat then return ({ s with retryRdReq := true }, false)
    else
      let (s, _) ← addToReadQueue p s packet pkt prio count
      return (s, true)

def retryWrite (s : MemCtrl) : MemCtrl :=
  { s with retryWrReq := s.retryWrReq && !decide (s.totalWriteQueueSize < p.writeBufferSize) }

/-- `processNextReqEvent` when it issues read `i` of the queue of priority `prio`. -/
def issueRead (s : MemCtrl) (prio i : Nat) : Except Failure MemCtrl :=
  match s.readQueue[prio]?.bind (·[i]?) with
  | none => .ok s
  | some memPkt => do
    assertThat (decide (memPkt.size ≤ p.burstSize))
    return retryWrite p { s with
      readQueue := s.readQueue.modify prio (·.eraseIdx i)
      totalReadQueueSize := s.totalReadQueueSize - 1
      respQueue := s.respQueue ++ [memPkt] }

def issueWrite (s : MemCtrl) (prio i : Nat) : Except Failure MemCtrl :=
  match s.writeQueue[prio]?.bind (·[i]?) with
  | none => .ok s
  | some memPkt => do
    assertThat (decide (memPkt.size ≤ p.burstSize))
    return retryWrite p { s with
      writeQueue := s.writeQueue.modify prio (·.eraseIdx i)
      isInWriteQueue := s.isInWriteQueue.erase (burstAlign p memPkt.addr)
      totalWriteQueueSize := s.totalWriteQueueSize - 1 }

def freeHelper (s : MemCtrl) (h : Nat) : MemCtrl := { s with helpers := fun h' => if h' = h then none else s.helpers h' }

def processRespondEvent (s : MemCtrl) : Except Failure MemCtrl :=
  match s.respQueue with
  | [] => .error .nullPointer
  | memPkt :: queue => do
    let s := { s with respQueue := queue, retryRdReq := false }
    match memPkt.burstHelper with
    | none => return accessAndRespond s memPkt.pkt
    | some h =>
      match s.helpers h with
      | none => .error .nullPointer
      | some b =>
        let b := { b with burstsServiced := b.burstsServiced + 1 }
        let s := { s with helpers := fun h' => if h' = h then some b else s.helpers h' }
        if b.burstsServiced = b.burstCount then return freeHelper (accessAndRespond s memPkt.pkt) h
        else return s

/-! ## Bursts, as numbers -/

section Arithmetic

def bytes : Nat := p.burstSize.toNat

theorem bytes_spec : ∃ k, k < 32 ∧ bytes p = 2 ^ k := by
  obtain ⟨k, hk, hp⟩ := p.burst_pow
  refine ⟨k, hk, ?_⟩
  rw [bytes, hp, ← BitVec.twoPow_eq, BitVec.toNat_twoPow]
  exact Nat.mod_eq_of_lt (Nat.pow_lt_pow_right (by decide) hk)

theorem bytes_pos : 0 < bytes p := by
  obtain ⟨k, -, hk⟩ := bytes_spec p
  rw [hk]
  exact Nat.two_pow_pos k

theorem bytes_lt : bytes p < 2 ^ 32 := p.burstSize.isLt

theorem toNat_burstMask : (burstMask p).toNat = bytes p - 1 := by
  have hpos := bytes_pos p
  have hlt := bytes_lt p
  have h1 : (1#32).toNat ≤ p.burstSize.toNat := by
    have : bytes p = p.burstSize.toNat := rfl
    simp only [toNat_ofNat]
    omega
  rw [burstMask, toNat_setWidth, show (1 : BitVec 32) = 1#32 from rfl, BitVec.toNat_sub_of_le h1]
  have : bytes p = p.burstSize.toNat := rfl
  simp only [toNat_ofNat]
  omega

def burstOf (a : Addr) : Nat := a.toNat / bytes p

theorem burstOf_add_mod (a : Addr) : burstOf p a * bytes p + a.toNat % bytes p = a.toNat := by
  rw [burstOf, Nat.mul_comm, Nat.div_add_mod]

theorem or_mask (n k : Nat) : n ||| (2 ^ k - 1) = n / 2 ^ k * 2 ^ k + (2 ^ k - 1) := by
  have hpos : 0 < 2 ^ k := Nat.two_pow_pos k
  have hr : n % 2 ^ k < 2 ^ k := Nat.mod_lt _ hpos
  have hn : n = 2 ^ k * (n / 2 ^ k) ||| n % 2 ^ k := by
    rw [← Nat.two_pow_add_eq_or_of_lt hr, Nat.div_add_mod]
  have hlow : n % 2 ^ k ||| (2 ^ k - 1) = 2 ^ k - 1 := by
    apply Nat.eq_of_testBit_eq
    intro i
    rw [Nat.testBit_or, Nat.testBit_two_pow_sub_one]
    by_cases hi : i < k
    · simp [hi]
    · have hbit : (n % 2 ^ k).testBit i = false :=
        Nat.testBit_lt_two_pow (lt_of_lt_of_le hr (Nat.pow_le_pow_right (by decide) (by omega)))
      simp [hi, hbit]
  conv_lhs => rw [hn]
  rw [Nat.or_assoc, hlow, ← Nat.two_pow_add_eq_or_of_lt (by omega), Nat.mul_comm]

theorem toNat_nextBurst {a : Addr} (h : (burstOf p a + 1) * bytes p < 2 ^ 64) :
    (nextBurst p a).toNat = (burstOf p a + 1) * bytes p := by
  obtain ⟨k, -, hk⟩ := bytes_spec p
  have hpos := bytes_pos p
  have hor : (a ||| burstMask p).toNat + 1 = (burstOf p a + 1) * bytes p := by
    rw [BitVec.toNat_or, toNat_burstMask, burstOf, hk, or_mask, Nat.add_mul, Nat.one_mul]
    have : 0 < 2 ^ k := hk ▸ hpos
    omega
  rw [nextBurst, toNat_add]
  simp only [BitVec.ofNat_eq_ofNat, toNat_ofNat]
  rw [← hor] at h ⊢
  omega

theorem burstAlign_eq_iff (a b : Addr) : burstAlign p a = burstAlign p b ↔ burstOf p a = burstOf p b := by
  obtain ⟨k, hk32, hk⟩ := bytes_spec p
  have hmask : ∀ i, (burstMask p).getLsbD i = decide (i < k) := by
    intro i
    rw [BitVec.getLsbD, toNat_burstMask, hk, Nat.testBit_two_pow_sub_one]
  have hdiv : ∀ (x : Addr) i, (burstOf p x).testBit i = x.getLsbD (k + i) := by
    intro x i
    rw [burstOf, hk, Nat.testBit_div_two_pow, BitVec.getLsbD, Nat.add_comm]
  constructor
  · intro h
    apply Nat.eq_of_testBit_eq
    intro i
    rw [hdiv, hdiv]
    have hi := congrArg (fun x : Addr => x.getLsbD (k + i)) h
    simp only [burstAlign, BitVec.getLsbD_and, BitVec.getLsbD_not, hmask] at hi
    by_cases hlt : k + i < 64
    · simpa [hlt] using hi
    · rw [BitVec.getLsbD_of_ge a _ (by omega), BitVec.getLsbD_of_ge b _ (by omega)]
  · intro h
    apply BitVec.eq_of_getLsbD_eq
    intro i hi
    simp only [burstAlign, BitVec.getLsbD_and, BitVec.getLsbD_not, hmask]
    by_cases hik : i < k
    · simp [hik]
    · have hbit := congrArg (fun n : Nat => n.testBit (i - k)) h
      simp only [hdiv] at hbit
      rw [show k + (i - k) = i by omega] at hbit
      rw [hbit]

/-- **A packet the controller can split**: the count of its bursts fits 32 bits, and it ends below the last burst of the
address space. -/
def Fits (addr : Addr) (size : Nat) : Prop :=
  addr.toNat % bytes p + size + bytes p - 1 < 2 ^ 32 ∧ addr.toNat + size + bytes p ≤ 2 ^ 64

instance (addr : Addr) (size : Nat) : Decidable (Fits p addr size) := inferInstanceAs (Decidable (_ ∧ _))

variable {addr base : Addr} {size : Nat}

theorem toNat_pktCount (h : Fits p addr size) :
    (pktCount p addr (BitVec.ofNat 32 size)).toNat = (addr.toNat % bytes p + size + bytes p - 1) / bytes p := by
  obtain ⟨k, hk32, hk⟩ := bytes_spec p
  have hpos := bytes_pos p
  have hoff : ((addr &&& burstMask p).setWidth 32).toNat = addr.toNat % bytes p := by
    have hlt : addr.toNat % 2 ^ k < 2 ^ 32 :=
      lt_of_lt_of_le (Nat.mod_lt _ (Nat.two_pow_pos k)) (Nat.pow_le_pow_right (by decide) (by omega))
    rw [toNat_setWidth, BitVec.toNat_and, toNat_burstMask, hk, Nat.and_two_pow_sub_one_eq_mod]
    exact Nat.mod_eq_of_lt hlt
  obtain ⟨hf, -⟩ := h
  have hsize : size < 2 ^ 32 := by omega
  have hbytes : p.burstSize.toNat = bytes p := rfl
  have h1 : ((addr &&& burstMask p).setWidth 32 + BitVec.ofNat 32 size + p.burstSize).toNat =
      (addr.toNat % bytes p + size + bytes p) % 2 ^ 32 := by
    rw [toNat_add, toNat_add, hoff, toNat_ofNat, hbytes]
    omega
  rw [pktCount, BitVec.toNat_udiv, hbytes, BitVec.toNat_sub, h1]
  congr 1
  simp only [BitVec.ofNat_eq_ofNat, toNat_ofNat]
  omega

/-- **A list of pieces tiles an interval**: they are not empty and follow each other from its start to its end. -/
def Tiles : Nat → Nat → List Piece → Prop
  | lo, hi, [] => lo = hi
  | lo, hi, pc :: pcs => pc.addr.toNat = lo ∧ 0 < pc.size.toNat ∧ Tiles (lo + pc.size.toNat) hi pcs

def InBurst (pc : Piece) : Prop := pc.addr.toNat % bytes p + pc.size.toNat ≤ bytes p

theorem pieceAt_size (hsize : size < 2 ^ 32) (hend : base.toNat + size + bytes p ≤ 2 ^ 64)
    (hlt : addr.toNat < base.toNat + size) : (pieceAt p base (BitVec.ofNat 32 size) addr).size.toNat =
      min (base.toNat + size) ((burstOf p addr + 1) * bytes p) - addr.toNat := by
  have hpos := bytes_pos p
  have hb32 := bytes_lt p
  have hdiv := burstOf_add_mod p addr
  have hmod : addr.toNat % bytes p < bytes p := Nat.mod_lt _ hpos
  have hmul : (burstOf p addr + 1) * bytes p = burstOf p addr * bytes p + bytes p := by rw [Nat.add_mul, Nat.one_mul]
  have hnext := toNat_nextBurst p (a := addr) (by omega)
  have hlast : (base + (BitVec.ofNat 32 size).setWidth 64).toNat = base.toNat + size := by
    rw [toNat_add, toNat_setWidth, toNat_ofNat]
    omega
  have hsub : ∀ x : Addr, addr.toNat ≤ x.toNat → x.toNat - addr.toNat < 2 ^ 32 →
      ((x - addr).setWidth 32).toNat = x.toNat - addr.toNat := by
    intro x hx hb
    rw [toNat_setWidth, BitVec.toNat_sub_of_le hx]
    exact Nat.mod_eq_of_lt hb
  rw [pieceAt]
  dsimp only
  by_cases hlt' : base + (BitVec.ofNat 32 size).setWidth 64 < nextBurst p addr
  · rw [if_pos hlt', hsub _ (by omega) (by rw [lt_def] at hlt'; omega), hlast]
    rw [lt_def] at hlt'
    omega
  · rw [if_neg hlt', hsub _ (by omega) (by omega), hnext]
    rw [lt_def] at hlt'
    omega

theorem pieces_tile (hsize : size < 2 ^ 32) (hend : base.toNat + size + bytes p ≤ 2 ^ 64) :
    ∀ (n : Nat) (addr : Addr), addr.toNat < base.toNat + size →
      (burstOf p addr + n) * bytes p < base.toNat + size + bytes p →
      base.toNat + size ≤ (burstOf p addr + n) * bytes p →
      Tiles addr.toNat (base.toNat + size) (pieces p base (BitVec.ofNat 32 size) n addr) ∧
        ∀ pc ∈ pieces p base (BitVec.ofNat 32 size) n addr, InBurst p pc
  | 0, addr, hlt, _, hge => by
    have hdiv := burstOf_add_mod p addr
    rw [Nat.add_zero] at hge
    omega
  | n + 1, addr, hlt, hle, hge => by
    have hpos := bytes_pos p
    have hdiv := burstOf_add_mod p addr
    have hmod : addr.toNat % bytes p < bytes p := Nat.mod_lt _ hpos
    have hmul : (burstOf p addr + 1) * bytes p = burstOf p addr * bytes p + bytes p := by rw [Nat.add_mul, Nat.one_mul]
    have hmuln : (burstOf p addr + (n + 1)) * bytes p = burstOf p addr * bytes p + bytes p + n * bytes p := by ring
    have hnext := toNat_nextBurst p (a := addr) (by omega)
    have hps := pieceAt_size p hsize hend hlt
    have hpaddr : (pieceAt p base (BitVec.ofNat 32 size) addr).addr = addr := rfl
    have hin : InBurst p (pieceAt p base (BitVec.ofNat 32 size) addr) := by
      rw [InBurst, hpaddr, hps]
      omega
    have hsz : 0 < (pieceAt p base (BitVec.ofNat 32 size) addr).size.toNat := by
      rw [hps]
      omega
    rw [pieces]
    cases n with
    | zero =>
      -- the last piece ends with the packet
      refine ⟨⟨rfl, hsz, ?_⟩, ?_⟩
      · simp only [pieces, Tiles]
        rw [hps]
        omega
      · simpa [pieces] using hin
    | succ n =>
      -- another piece follows, at the next burst
      have hmore : (n + 1) * bytes p = n * bytes p + bytes p := by rw [Nat.add_mul, Nat.one_mul]
      have hburst : burstOf p (nextBurst p addr) = burstOf p addr + 1 := by
        rw [burstOf, hnext, Nat.mul_div_cancel _ hpos]
      have hmul' : (burstOf p addr + 1 + (n + 1)) * bytes p =
          burstOf p addr * bytes p + bytes p + (n + 1) * bytes p := by ring
      have hlt' : (nextBurst p addr).toNat < base.toNat + size := by
        rw [hnext]
        omega
      obtain ⟨htile, hall⟩ := pieces_tile hsize hend (n + 1) (nextBurst p addr) hlt' (by rw [hburst]; omega)
        (by rw [hburst]; omega)
      refine ⟨⟨rfl, hsz, ?_⟩, ?_⟩
      · have hnx : addr.toNat + (pieceAt p base (BitVec.ofNat 32 size) addr).size.toNat = (nextBurst p addr).toNat := by
          rw [hps, hnext]
          omega
        rw [hnx]
        exact htile
      · intro pc hpc
        rcases List.mem_cons.1 hpc with rfl | hpc
        · exact hin
        · exact hall pc hpc

/-- **The pieces of a packet tile it, each inside one burst.** -/
theorem split_tiles (h : Fits p addr size) (hpos : 0 < size) :
    Tiles addr.toNat (addr.toNat + size) (split p addr (BitVec.ofNat 32 size)) ∧
      ∀ pc ∈ split p addr (BitVec.ofNat 32 size), InBurst p pc := by
  have hb := bytes_pos p
  have hsize : size < 2 ^ 32 := by
    have := h.1
    omega
  rw [split, toNat_pktCount p h]
  have hdiv := burstOf_add_mod p addr
  generalize hn : (addr.toNat % bytes p + size + bytes p - 1) / bytes p = n
  have hmul : (burstOf p addr + n) * bytes p = burstOf p addr * bytes p + n * bytes p := by rw [Nat.add_mul]
  have hdm := Nat.div_add_mod (addr.toNat % bytes p + size + bytes p - 1) (bytes p)
  have hml := Nat.mod_lt (addr.toNat % bytes p + size + bytes p - 1) hb
  rw [hn, Nat.mul_comm] at hdm
  exact pieces_tile p hsize h.2 n addr (by omega) (by omega) (by omega)

end Arithmetic
end MemCtrl
end Gem5
