import Gem5Cxl.AddrRange
import Gem5Cxl.LruStack
import Mathlib.Algebra.Order.Ring.Nat
import Mathlib.Data.List.AList
/-!
# FaLru — a fully associative LRU cache that counts for smaller ones (`mem/cache/tags/fa_lru.cc`)

The blocks are linked from the most to the least recently used; the list of their numbers in that order is `order`, and
`prev` and `next` of a block are its neighbours in it.  A block carries a mask of the smaller caches it would be in, and
`boundaries` points to the last block of each.
-/
namespace Gem5

structure FalruBlk where
  valid : Bool := false
  tag : Addr := -1
  secure : Bool := false
  inCachesMask : BitVec 32 := 0
deriving DecidableEq, Repr

structure FaLru where
  blkSize : Nat
  minTrackedSize : Nat
  numTrackedCaches : Nat
  inAllCachesMask : BitVec 32
  blks : List FalruBlk
  order : List Nat
  tagHash : AList (fun _ : Addr × Bool => Nat)
  boundaries : List (Option Nat)
  hits : List Nat
  misses : List Nat
  accesses : Nat

namespace FaLru

def blk (blks : List FalruBlk) (b : Nat) : Except Failure FalruBlk :=
  match blks[b]? with
  | some x => .ok x
  | none => .error .outOfBounds

def prev (order : List Nat) (b : Nat) : Option Nat :=
  match order.idxOf b with
  | 0 => none
  | p + 1 => order[p]?

def next (order : List Nat) (b : Nat) : Option Nat := order[order.idxOf b + 1]?

def boundary (boundaries : List (Option Nat)) (i : Nat) : Except Failure Nat :=
  match boundaries[i]? with
  | some (some b) => .ok b
  | some none => .error .nullPointer
  | none => .error .outOfBounds

def bit (i : Nat) : BitVec 32 := 1#32 <<< i

/-- The loop of `CacheTracking::init`, over the blocks that are left; `tail` is the last block. -/
def initLoop (blkSize tail : Nat) : List Nat → Nat → Nat → Nat → BitVec 32 → List FalruBlk → List (Option Nat) →
    List FalruBlk × List (Option Nat)
  | [], _, _, _, _, blks, boundaries => (blks, boundaries)
  | b :: rest, j, currSize, trackedCacheSize, inCachesMask, blks, boundaries =>
    let blks := blks.modify b (fun x => { x with inCachesMask := inCachesMask })
    let currSize := currSize + blkSize
    if currSize = trackedCacheSize ∧ b ≠ tail then
      initLoop blkSize tail rest (j + 1) currSize (2 * trackedCacheSize) (inCachesMask &&& ~~~ bit j) blks
        (boundaries.set j (some b))
    else initLoop blkSize tail rest j currSize trackedCacheSize inCachesMask blks boundaries

def create (blkSize size minTrackedSize : Nat) : FaLru :=
  let numBlocks := size / blkSize
  let numTrackedCaches := if minTrackedSize < size then Nat.log2 size - Nat.log2 minTrackedSize else 0
  let inAllCachesMask : BitVec 32 := BitVec.ofNat 32 (2 ^ numTrackedCaches - 1)
  let order := List.range numBlocks
  let (blks, boundaries) := initLoop blkSize (numBlocks - 1) (if numTrackedCaches = 0 then [] else order) 0 0
    minTrackedSize inAllCachesMask (List.replicate numBlocks {}) (List.replicate numTrackedCaches none)
  { blkSize := blkSize, minTrackedSize := minTrackedSize, numTrackedCaches := numTrackedCaches
    inAllCachesMask := inAllCachesMask, blks := blks, order := order, tagHash := ∅, boundaries := boundaries
    hits := List.replicate (numTrackedCaches + 1) 0, misses := List.replicate (numTrackedCaches + 1) 0, accesses := 0 }

def moveBoundaryUp (order : List Nat) (b : Nat) (updateCachesMask : BitVec 32)
    (s : List FalruBlk × List (Option Nat)) (i : Nat) : Except Failure (List FalruBlk × List (Option Nat)) := do
  if bit i &&& updateCachesMask ≠ 0 then
    let c ← boundary s.2 i
    let _ ← blk s.1 c
    .ok (s.1.modify c (fun x => { x with inCachesMask := x.inCachesMask &&& ~~~ bit i }), s.2.set i (prev order c))
  else if s.2[i]? = some (some b) then .ok (s.1, s.2.set i (prev order b))
  else .ok s

def moveBlockToHead (f : FaLru) (b : Nat) : Except Failure FaLru := do
  let x ← blk f.blks b
  let updateCachesMask := f.inAllCachesMask ^^^ x.inCachesMask
  let (blks, boundaries) ← (List.range f.numTrackedCaches).foldlM (moveBoundaryUp f.order b updateCachesMask)
    (f.blks, f.boundaries)
  .ok { f with
    blks := blks.modify b (fun x => { x with inCachesMask := f.inAllCachesMask }), boundaries := boundaries }

def moveBoundaryDown (order : List Nat) (b : Nat) (updateCachesMask : BitVec 32)
    (s : List FalruBlk × List (Option Nat)) (i : Nat) : Except Failure (List FalruBlk × List (Option Nat)) := do
  if bit i &&& updateCachesMask ≠ 0 then
    let c ← boundary s.2 i
    let c := next order c
    let c := if c = some b then next order b else c
    match c with
    | none => .error .nullPointer
    | some c => .ok (s.1.modify c (fun x => { x with inCachesMask := x.inCachesMask ||| bit i }), s.2.set i (some c))
  else .ok s

def moveBlockToTail (f : FaLru) (b : Nat) : Except Failure FaLru := do
  let x ← blk f.blks b
  let (blks, boundaries) ← (List.range f.numTrackedCaches).foldlM (moveBoundaryDown f.order b x.inCachesMask)
    (f.blks, f.boundaries)
  .ok { f with blks := blks.modify b (fun x => { x with inCachesMask := 0 }), boundaries := boundaries }

def moveToHead (f : FaLru) (b : Nat) : Except Failure FaLru :=
  if f.order.head? ≠ some b then do
    let f ← f.moveBlockToHead b
    .ok { f with order := b :: f.order.erase b }
  else .ok f

def moveToTail (f : FaLru) (b : Nat) : Except Failure FaLru :=
  if f.order.getLast? ≠ some b then do
    let f ← f.moveBlockToTail b
    .ok { f with order := f.order.erase b ++ [b] }
  else .ok f

def extractTag (f : FaLru) (addr : Addr) : Addr := addr &&& ~~~ BitVec.ofNat 64 (f.blkSize - 1)

def findBlock (f : FaLru) (addr : Addr) (isSecure : Bool) : Except Failure (Option Nat) := do
  let tag := f.extractTag addr
  match f.tagHash.lookup (tag, isSecure) with
  | none => .ok none
  | some b =>
    let x ← blk f.blks b
    if x.valid then do
      assertThat (x.tag = tag)
      assertThat (x.secure = isSecure)
    .ok (some b)

def recordAccess (f : FaLru) (b : Option FalruBlk) : FaLru :=
  let hit := fun i =>
    if i < f.numTrackedCaches then b.any (fun x => decide (bit i &&& x.inCachesMask ≠ 0)) else b.any (fun x => x.valid)
  { f with
    hits := f.hits.mapIdx (fun i n => if hit i then n + 1 else n)
    misses := f.misses.mapIdx (fun i n => if hit i then n else n + 1)
    accesses := f.accesses + 1 }

/-- `accessBlock`; also returns what it stores through `in_caches_mask`. -/
def accessBlock (f : FaLru) (addr : Addr) (isSecure : Bool) : Except Failure (FaLru × Option Nat × BitVec 32) := do
  let b ← f.findBlock addr isSecure
  match b with
  | none => .ok (f.recordAccess none, none, 0)
  | some b =>
    let x ← blk f.blks b
    let f ← if x.valid then f.moveToHead b else .ok f
    let x' ← blk f.blks b
    .ok (f.recordAccess (some x'), some b, if x.valid then x.inCachesMask else 0)

def findVictim (f : FaLru) : Except Failure Nat :=
  match f.order.getLast? with
  | some b => .ok b
  | none => .error .nullPointer

def invalidate (f : FaLru) (b : Nat) : Except Failure FaLru := do
  let x ← blk f.blks b
  assertThat (f.tagHash.lookup (x.tag, x.secure)).isSome
  assertThat x.valid
  let f := { f with
    tagHash := f.tagHash.erase (x.tag, x.secure)
    blks := f.blks.set b { x with valid := false, tag := -1, secure := false } }
  f.moveToTail b

def insertBlock (f : FaLru) (addr : Addr) (isSecure : Bool) (b : Nat) : Except Failure FaLru := do
  let x ← blk f.blks b
  assertThat (x.inCachesMask = 0)
  assertThat (!x.valid)
  let tag := f.extractTag addr
  let f := { f with blks := f.blks.set b { x with valid := true, tag := tag, secure := isSecure } }
  let f ← f.moveToHead b
  .ok { f with tagHash := f.tagHash.insert (tag, isSecure) b }

/-- An access, and on a miss the eviction of the victim and the insertion of the block. -/
def step (f : FaLru) (addr : Addr) (isSecure : Bool) : Except Failure (FaLru × BitVec 32) := do
  let (f, b, mask) ← f.accessBlock addr isSecure
  match b with
  | some _ => .ok (f, mask)
  | none =>
    let victim ← f.findVictim
    let x ← blk f.blks victim
    let f ← if x.valid then f.invalidate victim else .ok f
    let f ← f.insertBlock addr isSecure victim
    .ok (f, mask)

end FaLru

end Gem5
