import Gem5Cxl.Basic
import Gem5Cxl.UndoLog
import Mathlib.Data.Fintype.Basic
import Mathlib.Data.Finset.Union
/-!
# Rename — register renaming of the O3 CPU (`cpu/o3/rename.cc`, `rename_map.hh`, `rename_map.cc`, `free_list.hh`)

The rename maps of the threads, the free lists they share, and for each thread the history of its renames, newest first.
A register is its class and its index; the pointer of the source to a physical register is the register.  `n` is the
number of threads.  A destination operand is its flattened register with its count of pinned writes.
-/
namespace Gem5

inductive RegClass where
  | int | float | vec | vecElem | vecPred | mat | cc | misc | invalid
deriving DecidableEq, Repr

/-- The classes with a rename map, up to `CCRegClass`. -/
def RegClass.renamed : List RegClass := [.int, .float, .vec, .vecElem, .vecPred, .mat, .cc]

structure RegId where
  cls : RegClass
  index : Nat
deriving DecidableEq, Repr

structure PhysRegId where
  cls : RegClass
  index : Nat
deriving DecidableEq, Repr

def RegId.isRenameable (a : RegId) : Bool := decide (a.cls ≠ .misc) && decide (a.cls ≠ .invalid)

structure DestReg where
  reg : RegId
  numPinnedWrites : Int := 0
deriving DecidableEq, Repr

/-- `DynInst`: its sequence number, its destinations, and how many it has of each class.  The count is kept apart from
the operands, and a destination without effect is an operand of the invalid class that is counted all the same. -/
structure RenameInst where
  seqNum : Nat
  dests : List DestReg
  numDestRegs : RegClass → Nat
  counted : ∀ c ∈ RegClass.renamed, dests.countP (fun d => decide (d.reg.cls = c)) ≤ numDestRegs c

structure RenameHistory where
  instSeqNum : Nat
  archReg : RegId
  newPhysReg : PhysRegId
  prevPhysReg : PhysRegId
deriving DecidableEq, Repr

/-- `class Rename`, with the rename maps and the free lists of the CPU. -/
structure Rename (n : Nat) where
  /-- the size of the map of each class -/
  numArchRegs : RegClass → Nat
  renameMap : Fin n → RegId → PhysRegId
  freeLists : RegClass → List PhysRegId
  historyBuffer : Fin n → List RenameHistory := fun _ => []
  /-- `numPinnedWrites` of each physical register -/
  numPinnedWrites : PhysRegId → Int := fun _ => 0

namespace Rename

variable {n : Nat}

/-! ## Free lists and rename maps -/

def addReg (s : Rename n) (r : PhysRegId) : Rename n :=
  { s with freeLists := Function.update s.freeLists r.cls (s.freeLists r.cls ++ [r]) }

def getReg (s : Rename n) (c : RegClass) : Except Failure (Rename n × PhysRegId) :=
  match s.freeLists c with
  | [] => .error .assertFailed
  | r :: rest => .ok ({ s with freeLists := Function.update s.freeLists c rest }, r)

/-- `UnifiedRenameMap::lookup`: registers that are not renamed keep one mapping. -/
def lookup (s : Rename n) (t : Fin n) (a : RegId) : PhysRegId :=
  if a.cls = .invalid then ⟨.invalid, 0⟩
  else if a.cls = .misc then ⟨.misc, a.index⟩
  else s.renameMap t a

def setMap (s : Rename n) (t : Fin n) (a : RegId) (r : PhysRegId) : Rename n :=
  { s with renameMap := Function.update s.renameMap t (Function.update (s.renameMap t) a r) }

/-- `UnifiedRenameMap::setEntry`.  The assertion on the index lets one past the end through. -/
def setEntry (s : Rename n) (t : Fin n) (a : RegId) (r : PhysRegId) : Except Failure (Rename n) :=
  assertThat (decide (r.cls = a.cls)) >>= fun _ =>
  if a.isRenameable = false then assertThat (decide (r = s.lookup t a)) >>= fun _ => .ok s
  else assertThat (decide (a.index ≤ s.numArchRegs a.cls)) >>= fun _ =>
    if a.index = s.numArchRegs a.cls then .error .outOfBounds else .ok (s.setMap t a r)

/-- The last case of `SimpleRenameMap::rename`: a register from the free list. -/
def allocate (s : Rename n) (t : Fin n) (d : DestReg) : Except Failure (Rename n × PhysRegId) :=
  (s.getReg d.reg.cls).map (fun (s, r) =>
    ({ s.setMap t d.reg r with numPinnedWrites := Function.update s.numPinnedWrites r d.numPinnedWrites }, r))

/-- `SimpleRenameMap::rename`: the new and the previous register. -/
def simpleRename (s : Rename n) (t : Fin n) (d : DestReg) : Except Failure (Rename n × PhysRegId × PhysRegId) :=
  let prev := s.renameMap t d.reg
  if s.numArchRegs d.reg.cls ≤ d.reg.index then .error .outOfBounds
  else if d.reg.cls = .invalid then assertThat (decide (prev.cls = .invalid)) >>= fun _ => .ok (s, prev, prev)
  else if 0 < s.numPinnedWrites prev then
    -- a pinned register is not renamed
    assertThat (decide (d.numPinnedWrites = 0)) >>= fun _ =>
      .ok ({ s with numPinnedWrites := Function.update s.numPinnedWrites prev (s.numPinnedWrites prev - 1) }, prev, prev)
  else (s.allocate t d).map (fun (s, r) => (s, r, prev))

def rename (s : Rename n) (t : Fin n) (d : DestReg) : Except Failure (Rename n × PhysRegId × PhysRegId) :=
  if d.reg.isRenameable = false then .ok (s, s.lookup t d.reg, s.lookup t d.reg) else s.simpleRename t d

def canRename (s : Rename n) (i : RenameInst) : Bool :=
  RegClass.renamed.all (fun c => decide (i.numDestRegs c ≤ (s.freeLists c).length))

/-! ## The history -/

def setHistory (s : Rename n) (t : Fin n) (h : List RenameHistory) : Rename n :=
  { s with historyBuffer := Function.update s.historyBuffer t h }

def renameDest (s : Rename n) (t : Fin n) (seqNum : Nat) (d : DestReg) : Except Failure (Rename n) :=
  (s.rename t d).map (fun (s, new, prev) => s.setHistory t (⟨seqNum, d.reg, new, prev⟩ :: s.historyBuffer t))

def renameDests (t : Fin n) (seqNum : Nat) : Rename n → List DestReg → Except Failure (Rename n)
  | s, [] => .ok s
  | s, d :: ds => s.renameDest t seqNum d >>= fun s => renameDests t seqNum s ds

def renameDestRegs (s : Rename n) (t : Fin n) (i : RenameInst) : Except Failure (Rename n) :=
  renameDests t i.seqNum s i.dests

def undo (s : Rename n) (t : Fin n) (e : RenameHistory) : Except Failure (Rename n) :=
  if e.newPhysReg ≠ e.prevPhysReg then (s.setEntry t e.archReg e.prevPhysReg).map (fun s => s.addReg e.newPhysReg)
  else .ok s

/-- The loop of `doSquash` over the history, from its newest entry. -/
def squashLoop (squashedSeqNum : Nat) (t : Fin n) : Rename n → List RenameHistory → Except Failure (Rename n)
  | s, [] => .ok (s.setHistory t [])
  | s, e :: h =>
    if squashedSeqNum < e.instSeqNum then s.undo t e >>= fun s => squashLoop squashedSeqNum t s h
    else .ok (s.setHistory t (e :: h))

def doSquash (s : Rename n) (squashedSeqNum : Nat) (t : Fin n) : Except Failure (Rename n) :=
  squashLoop squashedSeqNum t s (s.historyBuffer t)

def release (s : Rename n) (e : RenameHistory) : Rename n :=
  if e.newPhysReg ≠ e.prevPhysReg then s.addReg e.prevPhysReg else s

/-- The loop of `removeFromHistory` over the history, from its oldest entry. -/
def retireLoop (instSeqNum : Nat) (t : Fin n) : Rename n → List RenameHistory → Rename n
  | s, [] => s.setHistory t []
  | s, e :: h =>
    if e.instSeqNum ≤ instSeqNum then retireLoop instSeqNum t (s.release e) h else s.setHistory t (e :: h).reverse

def removeFromHistory (s : Rename n) (instSeqNum : Nat) (t : Fin n) : Rename n :=
  retireLoop instSeqNum t s (s.historyBuffer t).reverse

/-! ## The state the CPU starts from (`cpu/o3/cpu.cc`, `regfile.cc`) -/

/-- `PhysRegFile::initFreeList`: the physical registers of each class, in order. -/
def initFreeList (numPhysRegs : RegClass → Nat) (c : RegClass) : List PhysRegId :=
  if c ∈ RegClass.renamed then (List.range (numPhysRegs c)).map (PhysRegId.mk c) else []

def archRegs (numArchRegs : RegClass → Nat) : List RegId :=
  RegClass.renamed.flatMap (fun c => (List.range (numArchRegs c)).map (RegId.mk c))

def assignRegs : Rename n → List (Fin n × RegId) → Except Failure (Rename n)
  | s, [] => .ok s
  | s, (t, a) :: rest => s.getReg a.cls >>= fun (s, r) => s.setEntry t a r >>= fun s => assignRegs s rest

/-- `CPU::CPU`, with every thread active.  A register of a class the asserts leave out can still run short in the loop. -/
def create (n : Nat) (numArchRegs numPhysRegs : RegClass → Nat) : Except Failure (Rename n) :=
  assertThat (decide (n ≠ 0)) >>= fun _ =>
  assertThat ([RegClass.int, .float, .vec, .vecPred, .mat, .cc].all
    (fun c => decide (n * numArchRegs c ≤ numPhysRegs c))) >>= fun _ =>
  assignRegs { numArchRegs, renameMap := fun _ _ => ⟨.invalid, 0⟩, freeLists := initFreeList numPhysRegs }
    ((List.finRange n).flatMap (fun t => (archRegs numArchRegs).map (fun a => (t, a))))

/-! ## Runs -/

inductive Call (n : Nat) where
  | renameDestRegs (t : Fin n) (i : RenameInst)
  | doSquash (squashedSeqNum : Nat) (t : Fin n)
  | removeFromHistory (instSeqNum : Nat) (t : Fin n)

def exec (s : Rename n) : Call n → Except Failure (Rename n)
  | .renameDestRegs t i => s.renameDestRegs t i
  | .doSquash q t => s.doSquash q t
  | .removeFromHistory q t => .ok (s.removeFromHistory q t)

end Rename
end Gem5
