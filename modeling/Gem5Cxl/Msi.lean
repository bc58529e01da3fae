import Gem5Cxl.Slicc
import Mathlib.Data.Finset.Card
import Mathlib.Data.Finset.SDiff
/-!
# Msi — the MSI cache and directory machines (`learning_gem5/part3/MSI-cache.sm`, `MSI-dir.sm`)

Caches are named by `C`, a block's value is a `V`.  Both machines are their transition tables and actions, for one line.
An action works on a context: what the controller holds for the line, the message that was peeked, and what the
transition has sent so far.  `NetDest` is a finite set of caches.  A store callback hands the block to the sequencer,
which changes it: the change, `store`, is an argument.  Evictions sent to the CPU, message sizes and the use order of the
cache are left out, and so is the data an `InvAck` carries, which nothing reads.
-/
namespace Gem5.Msi

/-! ## Messages -/

inductive RequestMsg (V : Type) where
  | getS
  | getM
  | putS
  | putM (dataBlk : V)
deriving DecidableEq, Repr

inductive ForwardMsg (C : Type) where
  | getS (requestor : C)
  | getM (requestor : C)
  | inv (requestor : C)
  | putAck
deriving DecidableEq, Repr

inductive ResponseMsg (V : Type) where
  | data (dataBlk : V) (acks : Int)
  | invAck
deriving DecidableEq, Repr

inductive MemoryReq (C V : Type) where
  | read (sender : C)
  | write (dataBlk : V)
deriving DecidableEq, Repr

inductive MemoryResp (C V : Type) where
  | data (originalRequestor : C) (dataBlk : V)
  | ack
deriving DecidableEq, Repr

inductive Sender (C : Type) where
  | directory
  | cache (c : C)
deriving DecidableEq, Repr

inductive Callback (V : Type) where
  | load (dataBlk : V)
  | store (dataBlk : V)
deriving DecidableEq, Repr

/-! ## The cache -/

inductive CacheState where
  | I | IS_D | IM_AD | IM_A | S | SM_AD | SM_A | M | MI_A | SI_A | II_A
deriving DecidableEq, Repr

inductive CacheEvent where
  | load | store | replacement | fwdGetS | fwdGetM | inv | putAck | dataDirNoAcks | dataDirAcks | dataOwner | invAck
  | lastInvAck
deriving DecidableEq, Repr

inductive CacheAction where
  | sendGetS | sendGetM | sendPutS | sendPutM | sendCacheDataToReq | sendCacheDataToDir | sendInvAcktoReq | decrAcks
  | storeAcks | loadHit | externalLoadHit | storeHit | externalStoreHit | forwardEviction | allocateCacheBlock
  | deallocateCacheBlock | writeDataToCache | allocateTBE | deallocateTBE | popMandatoryQueue | popResponseQueue
  | popForwardQueue | stall
deriving DecidableEq, Repr

structure CacheEntry (V : Type) where
  cacheState : CacheState
  dataBlk : V
deriving DecidableEq, Repr

structure TBE where
  tbeState : CacheState
  acksOutstanding : Int := 0
deriving DecidableEq, Repr

structure CacheLine (V : Type) where
  cacheEntry : Option (CacheEntry V) := none
  tbe : Option TBE := none
deriving DecidableEq, Repr

inductive CacheOut (C V : Type) where
  | request (m : RequestMsg V)
  | response (destination : C) (m : ResponseMsg V)
  | toDirectory (dataBlk : V)

inductive CacheIn (C V : Type) where
  | mandatory
  | forward (m : ForwardMsg C)
  | response (m : ResponseMsg V)

structure CacheContext (C V : Type) extends CacheLine V where
  inMsg : CacheIn C V
  store : V → V
  out : List (CacheOut C V) := []
  log : List (Callback V) := []
  popped : Bool := false

section Cache

variable {C V : Type}

def CacheLine.getState (l : CacheLine V) : CacheState :=
  match l.tbe with
  | some t => t.tbeState
  | none =>
    match l.cacheEntry with
    | some e => e.cacheState
    | none => .I

def CacheLine.setState (l : CacheLine V) (s : CacheState) : CacheLine V :=
  { cacheEntry := l.cacheEntry.map fun e => { e with cacheState := s }
    tbe := l.tbe.map fun t => { t with tbeState := s } }

namespace CacheContext

def send (x : CacheContext C V) (o : CacheOut C V) : CacheContext C V := { x with out := x.out ++ [o] }

def entry (x : CacheContext C V) : Except Failure (CacheEntry V) :=
  match x.cacheEntry with
  | some e => .ok e
  | none => .error .assertFailed

def requestor (x : CacheContext C V) : Except Failure C :=
  match x.inMsg with
  | .forward (.getS r) => .ok r
  | .forward (.getM r) => .ok r
  | .forward (.inv r) => .ok r
  | _ => .error .assertFailed

def response (x : CacheContext C V) : Except Failure (V × Int) :=
  match x.inMsg with
  | .response (.data v acks) => .ok (v, acks)
  | _ => .error .assertFailed

def theTbe (x : CacheContext C V) : Except Failure TBE :=
  match x.tbe with
  | some t => .ok t
  | none => .error .assertFailed

def readCallback (x : CacheContext C V) : Except Failure (CacheContext C V) := do
  let e ← x.entry
  return { x with log := x.log ++ [.load e.dataBlk] }

/-- `sequencer.writeCallback`: the sequencer stores into the block. -/
def writeCallback (x : CacheContext C V) : Except Failure (CacheContext C V) := do
  let e ← x.entry
  let v := x.store e.dataBlk
  return { x with cacheEntry := some { e with dataBlk := v }, log := x.log ++ [.store v] }

end CacheContext

open CacheContext in
def cacheAct [Inhabited V] : CacheAction → CacheContext C V → Except Failure (CacheContext C V)
  | .sendGetS, x => .ok (x.send (.request .getS))
  | .sendGetM, x => .ok (x.send (.request .getM))
  | .sendPutS, x => .ok (x.send (.request .putS))
  | .sendPutM, x => do
    let e ← x.entry
    return x.send (.request (.putM e.dataBlk))
  | .sendCacheDataToReq, x => do
    let e ← x.entry
    let r ← x.requestor
    return x.send (.response r (.data e.dataBlk 0))
  | .sendCacheDataToDir, x => do
    let e ← x.entry
    return x.send (.toDirectory e.dataBlk)
  | .sendInvAcktoReq, x => do
    let r ← x.requestor
    let _ ← x.entry
    return x.send (.response r .invAck)
  | .decrAcks, x => do
    let t ← x.theTbe
    return { x with tbe := some { t with acksOutstanding := t.acksOutstanding - 1 } }
  | .storeAcks, x => do
    let t ← x.theTbe
    let r ← x.response
    let acks := r.2 + t.acksOutstanding
    assertThat (decide (0 < acks))
    return { x with tbe := some { t with acksOutstanding := acks } }
  | .loadHit, x => x.readCallback
  | .externalLoadHit, x => x.readCallback
  | .storeHit, x => x.writeCallback
  | .externalStoreHit, x => x.writeCallback
  | .forwardEviction, x => .ok x
  | .allocateCacheBlock, x => do
    assertThat x.cacheEntry.isNone
    return { x with cacheEntry := some { cacheState := .I, dataBlk := default } }
  | .deallocateCacheBlock, x => do
    let _ ← x.entry
    return { x with cacheEntry := none }
  | .writeDataToCache, x => do
    let r ← x.response
    let e ← x.entry
    return { x with cacheEntry := some { e with dataBlk := r.1 } }
  | .allocateTBE, x => do
    assertThat x.tbe.isNone
    return { x with tbe := some { tbeState := .I } }
  | .deallocateTBE, x => do
    let _ ← x.theTbe
    return { x with tbe := none }
  | .popMandatoryQueue, x => .ok { x with popped := true }
  | .popResponseQueue, x => .ok { x with popped := true }
  | .popForwardQueue, x => .ok { x with popped := true }
  | .stall, x => .ok x

def cacheTransition : CacheState → CacheEvent → Option (List CacheAction × CacheState)
  | .I, .load => some ([.allocateCacheBlock, .allocateTBE, .sendGetS, .popMandatoryQueue], .IS_D)
  | .I, .store => some ([.allocateCacheBlock, .allocateTBE, .sendGetM, .popMandatoryQueue], .IM_AD)
  | .IS_D, .load | .IS_D, .store | .IS_D, .replacement | .IS_D, .inv => some ([.stall], .IS_D)
  | .IS_D, .dataDirNoAcks | .IS_D, .dataOwner =>
    some ([.writeDataToCache, .deallocateTBE, .externalLoadHit, .popResponseQueue], .S)
  | .IM_AD, .load | .IM_AD, .store | .IM_AD, .replacement | .IM_AD, .fwdGetS | .IM_AD, .fwdGetM =>
    some ([.stall], .IM_AD)
  | .IM_A, .load | .IM_A, .store | .IM_A, .replacement | .IM_A, .fwdGetS | .IM_A, .fwdGetM => some ([.stall], .IM_A)
  | .IM_AD, .dataDirNoAcks | .IM_AD, .dataOwner | .SM_AD, .dataDirNoAcks | .SM_AD, .dataOwner =>
    some ([.writeDataToCache, .deallocateTBE, .externalStoreHit, .popResponseQueue], .M)
  | .IM_AD, .dataDirAcks => some ([.writeDataToCache, .storeAcks, .popResponseQueue], .IM_A)
  | .IM_AD, .invAck => some ([.decrAcks, .popResponseQueue], .IM_AD)
  | .IM_A, .invAck => some ([.decrAcks, .popResponseQueue], .IM_A)
  | .SM_AD, .invAck => some ([.decrAcks, .popResponseQueue], .SM_AD)
  | .SM_A, .invAck => some ([.decrAcks, .popResponseQueue], .SM_A)
  | .IM_A, .lastInvAck | .SM_A, .lastInvAck =>
    some ([.deallocateTBE, .externalStoreHit, .popResponseQueue], .M)
  | .S, .load => some ([.loadHit, .popMandatoryQueue], .S)
  | .SM_AD, .load => some ([.loadHit, .popMandatoryQueue], .SM_AD)
  | .SM_A, .load => some ([.loadHit, .popMandatoryQueue], .SM_A)
  | .M, .load => some ([.loadHit, .popMandatoryQueue], .M)
  | .S, .store => some ([.allocateTBE, .sendGetM, .popMandatoryQueue], .SM_AD)
  | .S, .replacement => some ([.sendPutS], .SI_A)
  | .S, .inv => some ([.sendInvAcktoReq, .forwardEviction, .deallocateCacheBlock, .popForwardQueue], .I)
  | .SM_AD, .store | .SM_AD, .replacement | .SM_AD, .fwdGetS | .SM_AD, .fwdGetM => some ([.stall], .SM_AD)
  | .SM_A, .store | .SM_A, .replacement | .SM_A, .fwdGetS | .SM_A, .fwdGetM => some ([.stall], .SM_A)
  | .SM_AD, .inv => some ([.sendInvAcktoReq, .popForwardQueue], .IM_AD)
  | .SM_AD, .dataDirAcks => some ([.writeDataToCache, .storeAcks, .popResponseQueue], .SM_A)
  | .M, .store => some ([.storeHit, .forwardEviction, .popMandatoryQueue], .M)
  | .M, .replacement => some ([.sendPutM], .MI_A)
  | .M, .fwdGetS => some ([.sendCacheDataToReq, .sendCacheDataToDir, .popForwardQueue], .S)
  | .M, .fwdGetM => some ([.sendCacheDataToReq, .deallocateCacheBlock, .popForwardQueue], .I)
  | .MI_A, .load | .MI_A, .store | .MI_A, .replacement => some ([.stall], .MI_A)
  | .SI_A, .load | .SI_A, .store | .SI_A, .replacement => some ([.stall], .SI_A)
  | .II_A, .load | .II_A, .store | .II_A, .replacement => some ([.stall], .II_A)
  | .MI_A, .fwdGetS => some ([.sendCacheDataToReq, .sendCacheDataToDir, .popForwardQueue], .SI_A)
  | .MI_A, .fwdGetM => some ([.sendCacheDataToReq, .popForwardQueue], .II_A)
  | .MI_A, .putAck | .SI_A, .putAck | .II_A, .putAck => some ([.deallocateCacheBlock, .popForwardQueue], .I)
  | .SI_A, .inv => some ([.sendInvAcktoReq, .popForwardQueue], .II_A)
  | _, _ => none

variable [Inhabited V]

def cacheTrigger (l : CacheLine V) (inMsg : CacheIn C V) (store : V → V) (event : CacheEvent) :
    Except Failure (CacheContext C V) :=
  Slicc.doTransition cacheTransition cacheAct (fun s x => .ok { x with toCacheLine := x.toCacheLine.setState s })
    l.getState event { l with inMsg, store }

def forwardEvent : ForwardMsg C → CacheEvent
  | .getS _ => .fwdGetS
  | .getM _ => .fwdGetM
  | .inv _ => .inv
  | .putAck => .putAck

def forwardIn (l : CacheLine V) (m : ForwardMsg C) : Except Failure (CacheContext C V) :=
  cacheTrigger l (.forward m) id (forwardEvent m)

def responseEvent (t : TBE) (sender : Sender C) (m : ResponseMsg V) : Except Failure CacheEvent :=
  match sender, m with
  | .directory, .invAck => .error (.panic "Directory should only reply with data")
  | .directory, .data _ acks => do
    assertThat (decide (0 ≤ acks + t.acksOutstanding))
    return if acks + t.acksOutstanding = 0 then .dataDirNoAcks else .dataDirAcks
  | .cache _, .data _ _ => .ok .dataOwner
  | .cache _, .invAck => .ok (if t.acksOutstanding = 1 then .lastInvAck else .invAck)

def responseIn (l : CacheLine V) (sender : Sender C) (m : ResponseMsg V) (store : V → V) :
    Except Failure (CacheContext C V) :=
  match l.tbe with
  | none => .error .assertFailed
  | some t => do
    let event ← responseEvent t sender m
    cacheTrigger l (.response m) store event

/-- `mandatory_in`, for a request that finds its block or room for it. -/
def mandatoryIn (C : Type) (l : CacheLine V) (event : CacheEvent) (store : V → V) :
    Except Failure (CacheContext C V) :=
  cacheTrigger l .mandatory store event

end Cache

/-! ## The directory -/

inductive DirState where
  | I | S | M | S_D | S_m | M_m | MI_m | SS_m
deriving DecidableEq, Repr

inductive DirEvent where
  | getS | getM | putSNotLast | putSLast | putMOwner | putMNonOwner | data | memData | memAck
deriving DecidableEq, Repr

inductive DirAction where
  | sendMemRead | sendDataToMem | sendRespDataToMem | addReqToSharers | setOwner | addOwnerToSharers
  | removeReqFromSharers | clearSharers | clearOwner | sendInvToSharers | sendFwdGetS | sendFwdGetM | sendDataToReq
  | sendPutAck | popResponseQueue | popRequestQueue | popMemQueue | stall
deriving DecidableEq, Repr

structure DirEntry (C : Type) where
  dirState : DirState := .I
  sharers : Finset C := ∅
  owner : Finset C := ∅

inductive DirOut (C V : Type) where
  | forward (destination : Finset C) (m : ForwardMsg C)
  | response (destination : C) (m : ResponseMsg V)
  | memory (m : MemoryReq C V)

inductive DirIn (C V : Type) where
  | request (requestor : C) (m : RequestMsg V)
  | response (dataBlk : V)
  | memory (m : MemoryResp C V)

structure DirContext (C V : Type) extends DirEntry C where
  inMsg : DirIn C V
  out : List (DirOut C V) := []
  popped : Bool := false

section Directory

variable {C V : Type}

namespace DirContext

def send (x : DirContext C V) (o : DirOut C V) : DirContext C V := { x with out := x.out ++ [o] }

def requestor (x : DirContext C V) : Except Failure C :=
  match x.inMsg with
  | .request r _ => .ok r
  | _ => .error .assertFailed

end DirContext

variable [DecidableEq C]

def dirAct : DirAction → DirContext C V → Except Failure (DirContext C V)
  | .sendMemRead, x => do
    let r ← x.requestor
    return x.send (.memory (.read r))
  | .sendDataToMem, x =>
    match x.inMsg with
    | .request _ (.putM v) => .ok (x.send (.memory (.write v)))
    | _ => .error .assertFailed
  | .sendRespDataToMem, x =>
    match x.inMsg with
    | .response v => .ok (x.send (.memory (.write v)))
    | _ => .error .assertFailed
  | .addReqToSharers, x => do
    let r ← x.requestor
    return { x with sharers := insert r x.sharers }
  | .setOwner, x => do
    let r ← x.requestor
    return { x with owner := insert r x.owner }
  | .addOwnerToSharers, x => do
    assertThat (decide (x.owner.card = 1))
    return { x with sharers := x.sharers ∪ x.owner }
  | .removeReqFromSharers, x => do
    let r ← x.requestor
    return { x with sharers := x.sharers.erase r }
  | .clearSharers, x => .ok { x with sharers := ∅ }
  | .clearOwner, x => .ok { x with owner := ∅ }
  | .sendInvToSharers, x => do
    let r ← x.requestor
    return x.send (.forward x.sharers (.inv r))
  | .sendFwdGetS, x => do
    assertThat (decide (x.owner.card = 1))
    let r ← x.requestor
    return x.send (.forward x.owner (.getS r))
  | .sendFwdGetM, x => do
    assertThat (decide (x.owner.card = 1))
    let r ← x.requestor
    return x.send (.forward x.owner (.getM r))
  | .sendDataToReq, x =>
    match x.inMsg with
    | .memory (.data r v) => .ok (x.send (.response r (.data v (if r ∈ x.owner then (x.sharers.card : Int) else 0))))
    | _ => .error .assertFailed
  | .sendPutAck, x => do
    let r ← x.requestor
    return x.send (.forward {r} .putAck)
  | .popResponseQueue, x => .ok { x with popped := true }
  | .popRequestQueue, x => .ok { x with popped := true }
  | .popMemQueue, x => .ok { x with popped := true }
  | .stall, x => .ok x

def dirTransition : DirState → DirEvent → Option (List DirAction × DirState)
  | .I, .getS | .S, .getS => some ([.sendMemRead, .addReqToSharers, .popRequestQueue], .S_m)
  | .I, .putSNotLast | .I, .putSLast | .I, .putMNonOwner => some ([.sendPutAck, .popRequestQueue], .I)
  | .S_m, .memData => some ([.sendDataToReq, .popMemQueue], .S)
  | .I, .getM => some ([.sendMemRead, .setOwner, .popRequestQueue], .M_m)
  | .M_m, .memData => some ([.sendDataToReq, .clearSharers, .popMemQueue], .M)
  | .S, .getM =>
    some ([.sendMemRead, .removeReqFromSharers, .sendInvToSharers, .setOwner, .popRequestQueue], .M_m)
  | .S, .putSNotLast | .S, .putMNonOwner => some ([.removeReqFromSharers, .sendPutAck, .popRequestQueue], .S)
  | .S_D, .putSNotLast | .S_D, .putMNonOwner => some ([.removeReqFromSharers, .sendPutAck, .popRequestQueue], .S_D)
  | .SS_m, .putSNotLast | .SS_m, .putMNonOwner => some ([.removeReqFromSharers, .sendPutAck, .popRequestQueue], .SS_m)
  | .S_m, .putSNotLast | .S_m, .putMNonOwner => some ([.removeReqFromSharers, .sendPutAck, .popRequestQueue], .S_m)
  | .S, .putSLast => some ([.removeReqFromSharers, .sendPutAck, .popRequestQueue], .I)
  | .M, .getS => some ([.sendFwdGetS, .addReqToSharers, .addOwnerToSharers, .clearOwner, .popRequestQueue], .S_D)
  | .M, .getM => some ([.sendFwdGetM, .clearOwner, .setOwner, .popRequestQueue], .M)
  | .M, .putSNotLast | .M, .putSLast | .M, .putMNonOwner => some ([.sendPutAck, .popRequestQueue], .M)
  | .M_m, .putSNotLast | .M_m, .putSLast | .M_m, .putMNonOwner => some ([.sendPutAck, .popRequestQueue], .M_m)
  | .MI_m, .putSNotLast | .MI_m, .putSLast | .MI_m, .putMNonOwner => some ([.sendPutAck, .popRequestQueue], .MI_m)
  | .M, .putMOwner => some ([.sendDataToMem, .clearOwner, .sendPutAck, .popRequestQueue], .MI_m)
  | .MI_m, .memAck => some ([.popMemQueue], .I)
  | .S_D, .getS | .S_D, .getM => some ([.stall], .S_D)
  | .S_D, .putSLast => some ([.removeReqFromSharers, .sendPutAck, .popRequestQueue], .S_D)
  | .S_D, .data => some ([.sendRespDataToMem, .popResponseQueue], .SS_m)
  | .SS_m, .memAck => some ([.popMemQueue], .S)
  | .MI_m, .getS | .MI_m, .getM => some ([.stall], .MI_m)
  | .SS_m, .getS | .SS_m, .getM => some ([.stall], .SS_m)
  | .S_m, .getS | .S_m, .getM => some ([.stall], .S_m)
  | .M_m, .getS | .M_m, .getM => some ([.stall], .M_m)
  | _, _ => none

def dirSetState (s : DirState) (x : DirContext C V) : Except Failure (DirContext C V) := do
  assertThat (decide (s = .M → x.owner.card = 1))
  assertThat (decide (s = .M → x.sharers.card = 0))
  assertThat (decide (s = .I → x.owner.card = 0))
  assertThat (decide (s = .I → x.sharers.card = 0))
  return { x with dirState := s }

def dirTrigger (e : DirEntry C) (inMsg : DirIn C V) (event : DirEvent) : Except Failure (DirContext C V) :=
  Slicc.doTransition dirTransition dirAct dirSetState e.dirState event { e with inMsg }

def memQueueIn (e : DirEntry C) (m : MemoryResp C V) : Except Failure (DirContext C V) :=
  dirTrigger e (.memory m) (match m with | .data _ _ => .memData | .ack => .memAck)

def dirResponseIn (e : DirEntry C) (v : V) : Except Failure (DirContext C V) := dirTrigger e (.response v) .data

def requestEvent (e : DirEntry C) (r : C) : RequestMsg V → Except Failure DirEvent
  | .getS => .ok .getS
  | .getM => .ok .getM
  | .putS =>
    if e.sharers.card = 1 then do
      assertThat (decide (r ∈ e.sharers))
      return .putSLast
    else .ok .putSNotLast
  | .putM _ => .ok (if r ∈ e.owner then .putMOwner else .putMNonOwner)

def requestIn (e : DirEntry C) (r : C) (m : RequestMsg V) : Except Failure (DirContext C V) := do
  let event ← requestEvent e r m
  dirTrigger e (.request r m) event

end Directory

end Gem5.Msi
