import Gem5Cxl.Basic
import Gem5Cxl.Bitfield
import Gem5Cxl.Limbs
/-!
# DictionaryCompressor — cache lines compressed against a dictionary (`mem/cache/compressors/dictionary_compressor.hh`)

A line is cut into chunks of `n` bytes.  Each is replaced by the smallest pattern that matches it, alone or together with
a dictionary entry.  Compression and decompression both start with the same dictionary and add to it the chunks whose
pattern says so.  `getMatchLocation` returns eight bits of the location, so a location of -1 reads the dictionary past its
end unless it has 256 entries; `junk` is what is found there.
-/
namespace Gem5
namespace Compression

abbrev DictionaryEntry := List (BitVec 8)

abbrev Value (n : Nat) := BitVec (8 * n)

/-- The loop of `toDictionaryEntry` over the bytes that are left. -/
def toBytes {w : Nat} : Nat → BitVec w → DictionaryEntry
  | 0, _ => []
  | k + 1, v => (v &&& 0xFF).setWidth 8 :: toBytes k (v >>> 8)

def toDictionaryEntry {n : Nat} (v : Value n) : DictionaryEntry := toBytes n v

def fromBytes {w : Nat} : DictionaryEntry → BitVec w
  | [] => 0
  | b :: bs => fromBytes bs <<< 8 ||| b.setWidth w

def fromDictionaryEntry {n : Nat} (e : DictionaryEntry) : Value n := fromBytes e

/-! ## Patterns -/

inductive Payload (n : Nat) where
  | uncompressed (data : DictionaryEntry)
  | masked (mask bits : Value n)
  | maskedValue (value mask bits : Value n)
  | repeatedValue (rep : Nat) (value : Value rep)
  | delta (bytes : DictionaryEntry)
  | signExtended (N : Nat) (bits : Value n)
  | twoHalfwords (low high : BitVec 8)
deriving DecidableEq, Repr

def repeatValue {w rep : Nat} (value : Value rep) : Nat → BitVec w
  | 0 => 0
  | k + 1 => repeatValue value k <<< (8 * rep) ||| value.setWidth w

def decompressMasked {n : Nat} (mask bits : Value n) (dict : DictionaryEntry) : DictionaryEntry :=
  toDictionaryEntry (bits ||| fromDictionaryEntry dict &&& mask)

/-- One half of `FPC::SignExtendedTwoHalfwords::decompress`; the byte is an `int8_t`. -/
def extendByte (b : BitVec 8) : BitVec 16 := (szext 8 (b.signExtend 64)).setWidth 16

def Payload.decompress {n : Nat} (dict : DictionaryEntry) : Payload n → DictionaryEntry
  | .uncompressed data => data
  | .masked mask bits => decompressMasked mask bits dict
  | .maskedValue value mask bits => decompressMasked mask bits (toDictionaryEntry value)
  | .repeatedValue rep value => toDictionaryEntry (repeatValue value (n / rep) : Value n)
  | .delta bytes => bytes
  | .signExtended N bits => toDictionaryEntry ((sext N (bits.setWidth 64)).setWidth (8 * n))
  | .twoHalfwords low high =>
    toDictionaryEntry ((extendByte high).setWidth (8 * n) <<< 16 ||| (extendByte low).setWidth (8 * n))

structure ZeroRun where
  runLength : Nat := 0
  realSize : Nat := 0
deriving DecidableEq, Repr

structure Pattern (n : Nat) where
  patternNumber : Nat
  code : Nat
  /-- of the code and the match location, in bits -/
  length : Nat
  numUnmatchedBits : Nat
  matchLocation : Int
  allocate : Bool
  payload : Payload n
  zeroRun : Option ZeroRun := none
deriving DecidableEq, Repr

namespace Pattern

variable {n : Nat}

def getSizeBits (p : Pattern n) : Nat :=
  match p.zeroRun with
  | some run => run.realSize
  | none => p.numUnmatchedBits + p.length

def getMatchLocation (p : Pattern n) : Nat := (p.matchLocation % 256).toNat

def decompress (p : Pattern n) (dict : DictionaryEntry) : DictionaryEntry := p.payload.decompress dict

end Pattern

/-- A class of patterns: which values it matches, and the pattern it makes of one. -/
structure PatternClass (n : Nat) where
  isPattern : DictionaryEntry → DictionaryEntry → Int → Bool
  make : DictionaryEntry → Int → Pattern n

namespace PatternClass

variable {n : Nat}

/-- `UncompressedPattern`.  Here and below, `loc` is the location a class passes on. -/
def uncompressed (number code length : Nat) (loc : Int → Int) : PatternClass n where
  isPattern _ _ _ := true
  make bytes location := ⟨number, code, length, n * 8, loc location, true, .uncompressed bytes, none⟩

def unmatched (mask : Value n) (bytes : DictionaryEntry) : Value n := fromDictionaryEntry bytes &&& ~~~ mask

def unmatchedBits (mask : Value n) : Nat := popCount ((~~~ mask).setWidth 64)

def matchesMasked (mask : Value n) (bytes dict : DictionaryEntry) (location : Int) : Bool :=
  decide (0 ≤ location) &&
    decide ((fromDictionaryEntry bytes &&& mask : Value n) = fromDictionaryEntry dict &&& mask)

def masked (mask : Value n) (number code length : Nat) (allocate : Bool) : PatternClass n where
  isPattern := matchesMasked mask
  make bytes location :=
    ⟨number, code, length, unmatchedBits mask, location, allocate, .masked mask (unmatched mask bytes), none⟩

def locatedMasked (mask : Value n) (index : Int) (number code length : Nat) : PatternClass n where
  isPattern bytes dict location := decide (location = index) && matchesMasked mask bytes dict location
  make := (masked mask number code length true).make

def maskedValue (value mask : Value n) (number code length : Nat) (loc : Int → Int) (allocate : Bool) :
    PatternClass n where
  isPattern bytes _ _ := decide (value &&& mask = fromDictionaryEntry bytes &&& mask)
  make bytes location :=
    ⟨number, code, length, unmatchedBits mask, loc location, allocate, .maskedValue value mask (unmatched mask bytes), none⟩

def isRepeated {w rep : Nat} (repValue : Value rep) : Nat → BitVec w → Bool
  | 0, _ => true
  | k + 1, v => decide (v.setWidth (8 * rep) = repValue) && isRepeated repValue k (v >>> (8 * rep))

/-- `RepeatedValuePattern<RepT>`, for a `RepT` of `rep` bytes. -/
def repeatedValue (rep number code length : Nat) (loc : Int → Int) (allocate : Bool) : PatternClass n where
  isPattern bytes _ _ :=
    let value : Value n := fromDictionaryEntry bytes
    isRepeated (value.setWidth (8 * rep)) (n / rep) value
  make bytes location :=
    ⟨number, code, length, 8 * rep, loc location, allocate,
      .repeatedValue rep ((fromDictionaryEntry bytes : Value n).setWidth (8 * rep)), none⟩

def isValidDelta (deltaSizeBits : Nat) (bytes base : DictionaryEntry) : Bool :=
  let limit : Int := if deltaSizeBits ≠ 0 then (mask (deltaSizeBits - 1)).toNat else 0
  let delta := (fromDictionaryEntry bytes - fromDictionaryEntry base : Value n).toInt
  decide (-limit ≤ delta) && decide (delta ≤ limit)

def delta (deltaSizeBits number code length : Nat) : PatternClass n where
  isPattern bytes dict location := decide (0 ≤ location) && isValidDelta (n := n) deltaSizeBits bytes dict
  make bytes location := ⟨number, code, length, deltaSizeBits, location, false, .delta bytes, none⟩

def signExtended (N number code length : Nat) : PatternClass n where
  isPattern bytes _ _ :=
    let data : Value n := fromDictionaryEntry bytes
    decide (data = (szext N (data.setWidth 64)).setWidth (8 * n))
  make bytes _ :=
    let data : Value n := fromDictionaryEntry bytes
    ⟨number, code, length, N, -1, false, .signExtended N ((data.setWidth 64 &&& mask N).setWidth (8 * n)), none⟩

end PatternClass

/-! ## The dictionary -/

structure Dictionary where
  entries : List DictionaryEntry
  numEntries : Nat
  le : numEntries ≤ entries.length

/-- The first `k` entries are counted, and one is written. -/
def Dictionary.set (d : Dictionary) (i k : Nat) (data : DictionaryEntry) (h : k ≤ d.entries.length) : Dictionary :=
  ⟨d.entries.set i data, k, by rw [List.length_set]; exact h⟩

structure CompData (n : Nat) where
  entries : List (Pattern n) := []
  sizeBits : Nat := 0

def CompData.addEntry {n : Nat} (cd : CompData n) (p : Pattern n) : CompData n :=
  ⟨cd.entries ++ [p], cd.sizeBits + p.getSizeBits⟩

/-- What the compressors of this kind differ in, for a line of `blkSize` bytes. -/
structure Compressor (n : Nat) where
  dictionarySize : Nat
  /-- the pattern classes in the order they are tried -/
  factory : List (PatternClass n)
  /-- the uncompressed pattern, which is tried last -/
  last : PatternClass n
  addToDictionary : Dictionary → DictionaryEntry → Except Failure Dictionary
  /-- `resetDictionary` adds an entry of zero -/
  zeroBase : Bool := false
  addEntry : CompData n → Pattern n → CompData n := CompData.addEntry
  /-- what `compress` does to the size at the end -/
  finish : Dictionary → CompData n → CompData n := fun _ cd => cd

namespace Compressor

variable {n : Nat} (c : Compressor n)

def getPattern (bytes dict : DictionaryEntry) (location : Int) : Pattern n :=
  match c.factory.find? fun cls => cls.isPattern bytes dict location with
  | some cls => cls.make bytes location
  | none => c.last.make bytes location

def resetDictionary : Except Failure Dictionary :=
  let zero := toDictionaryEntry (0 : Value n)
  let d : Dictionary := ⟨List.replicate c.dictionarySize zero, 0, Nat.zero_le _⟩
  if c.zeroBase then c.addToDictionary d zero else .ok d

def better (d : Dictionary) (bytes : DictionaryEntry) (p : Pattern n) (i : Nat) : Pattern n :=
  let temp := c.getPattern bytes (d.entries.getD i []) i
  if temp.getSizeBits < p.getSizeBits then temp else p

def choose (d : Dictionary) (bytes : DictionaryEntry) : Pattern n :=
  (List.range d.numEntries).foldl (c.better d bytes) (c.getPattern bytes (toDictionaryEntry (0 : Value n)) (-1))

def update (d : Dictionary) (p : Pattern n) (data : DictionaryEntry) : Except Failure Dictionary :=
  if p.allocate then c.addToDictionary d data else .ok d

def compressValue (d : Dictionary) (data : Value n) : Except Failure (Pattern n × Dictionary) := do
  let bytes := toDictionaryEntry data
  let d' ← c.update d (c.choose d bytes) bytes
  .ok (c.choose d bytes, d')

def compressValues : Dictionary → CompData n → List (Value n) → Except Failure (CompData n × Dictionary)
  | d, cd, [] => .ok (cd, d)
  | d, cd, v :: values => do
    let (p, d') ← c.compressValue d v
    compressValues d' (c.addEntry cd p) values

def decompressValue (junk : DictionaryEntry) (d : Dictionary) (p : Pattern n) : Except Failure (Value n × Dictionary) := do
  let data := p.decompress (d.entries.getD p.getMatchLocation junk)
  let d' ← c.update d p data
  .ok (fromDictionaryEntry data, d')

/-- The first loop of `decompress`. -/
def decompressValues (junk : DictionaryEntry) :
    Dictionary → List (Pattern n) → Except Failure (List (Value n) × Dictionary)
  | d, [] => .ok ([], d)
  | d, p :: ps => do
    let (v, d') ← c.decompressValue junk d p
    let (values, d'') ← decompressValues junk d' ps
    .ok (v :: values, d'')

end Compressor

/-! ## Lines -/

def toChunks (chunkSizeBits blkSize : Nat) (data : List (BitVec 64)) : List (BitVec 64) :=
  (List.range (blkSize * 8 / chunkSizeBits)).map fun i =>
    let start := i % (64 / chunkSizeBits)
    bits (data.getD (i / (64 / chunkSizeBits)) 0) ((start + 1) * chunkSizeBits - 1) (start * chunkSizeBits)

/-- The second loop of `decompress`. -/
def concatenate {n : Nat} (blkSize : Nat) (values : List (Value n)) : List (BitVec 64) :=
  (List.range (blkSize / 8)).map fun i => Limbs.join (fun j => values.getD (8 / n * i + j) 0) (8 / n) 0

namespace Compressor

variable {n : Nat} (c : Compressor n)

/-- `Base::compress`, for a compressed size of at most `sizeThreshold` bytes. -/
def compress (blkSize sizeThreshold : Nat) (data : List (BitVec 64)) : Except Failure (CompData n) := do
  let d ← c.resetDictionary
  let (cd, d') ← c.compressValues d {} ((toChunks (8 * n) blkSize data).map fun chunk => chunk.setWidth (8 * n))
  let cd := c.finish d' cd
  .ok (if sizeThreshold * 8 < cd.sizeBits then { cd with sizeBits := blkSize * 8 } else cd)

def decompress (junk : DictionaryEntry) (blkSize : Nat) (cd : CompData n) : Except Failure (List (BitVec 64)) := do
  let d ← c.resetDictionary
  let (values, _) ← c.decompressValues junk d cd.entries
  .ok (concatenate blkSize values)

end Compressor
end Compression
end Gem5
