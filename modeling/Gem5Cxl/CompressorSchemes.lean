import Gem5Cxl.DictionaryCompressor
/-!
# CompressorSchemes — CPack, FPC, FPCD and base-delta (`mem/cache/compressors/cpack.hh`, `fpc.hh`, `fpcd.hh`, `base_delta.hh`)

The pattern classes of each compressor with their codes and sizes, how each adds to its dictionary, and the parameters
`Compressors.py` gives them.
-/
namespace Gem5
namespace Compression

open PatternClass

/-- `CPack::addToDictionary` and `BaseDelta::addToDictionary`. -/
def appendToDictionary (d : Dictionary) (data : DictionaryEntry) : Except Failure Dictionary :=
  if h : d.numEntries < d.entries.length then .ok (d.set d.numEntries (d.numEntries + 1) data h)
  else .error .assertFailed

namespace CPack

inductive PatternNumber where
  | ZZZZ | XXXX | MMMM | MMXX | ZZZX | MMMX
deriving DecidableEq, Repr

open PatternNumber

def patternZZZZ : PatternClass 4 := maskedValue 0 0xFFFFFFFF ZZZZ.ctorIdx 0x0 2 id false
def patternXXXX : PatternClass 4 := uncompressed XXXX.ctorIdx 0x1 2 id
def patternMMMM : PatternClass 4 := masked 0xFFFFFFFF MMMM.ctorIdx 0x2 6 true
def patternMMXX : PatternClass 4 := masked 0xFFFF0000 MMXX.ctorIdx 0xC 8 true
def patternZZZX : PatternClass 4 := maskedValue 0 0xFFFFFF00 ZZZX.ctorIdx 0xD 4 id false
def patternMMMX : PatternClass 4 := masked 0xFFFFFF00 MMMX.ctorIdx 0xE 8 true

end CPack

open CPack in
def cpack (blkSize : Nat) : Compressor 4 where
  dictionarySize := blkSize
  factory := [patternZZZZ, patternMMMM, patternZZZX, patternMMMX, patternMMXX]
  last := patternXXXX
  addToDictionary := appendToDictionary

namespace FPC

inductive PatternNumber where
  | ZERO_RUN | SIGN_EXTENDED_4_BITS | SIGN_EXTENDED_1_BYTE | SIGN_EXTENDED_HALFWORD | ZERO_PADDED_HALFWORD
  | SIGN_EXTENDED_TWO_HALFWORDS | REP_BYTES | UNCOMPRESSED
deriving DecidableEq, Repr

open PatternNumber

def nowhere (_ : Int) : Int := -1

def zeroRun : PatternClass 4 :=
  let cls : PatternClass 4 := maskedValue 0 0xFFFFFFFF ZERO_RUN.ctorIdx ZERO_RUN.ctorIdx 3 nowhere false
  { cls with make := fun bytes location => { cls.make bytes location with zeroRun := some {} } }

def signExtended4Bits : PatternClass 4 := signExtended 4 SIGN_EXTENDED_4_BITS.ctorIdx SIGN_EXTENDED_4_BITS.ctorIdx 3
def signExtended1Byte : PatternClass 4 := signExtended 8 SIGN_EXTENDED_1_BYTE.ctorIdx SIGN_EXTENDED_1_BYTE.ctorIdx 3
def signExtendedHalfword : PatternClass 4 := signExtended 16 SIGN_EXTENDED_HALFWORD.ctorIdx SIGN_EXTENDED_HALFWORD.ctorIdx 3

def zeroPaddedHalfword : PatternClass 4 :=
  maskedValue 0 0x0000FFFF ZERO_PADDED_HALFWORD.ctorIdx ZERO_PADDED_HALFWORD.ctorIdx 3 nowhere false

/-- An `int16_t` is compared with a `uint16_t`, both as `int`. -/
def isExtendedByte (half : BitVec 16) : Bool := decide (half.toInt = ((szext 8 (half.signExtend 64)).setWidth 16).toNat)

def signExtendedTwoHalfwords : PatternClass 4 where
  isPattern bytes _ _ :=
    let data : Value 4 := fromDictionaryEntry bytes
    isExtendedByte (data.setWidth 16) && isExtendedByte ((data >>> 16).setWidth 16)
  make bytes _ :=
    let data : Value 4 := fromDictionaryEntry bytes
    { patternNumber := SIGN_EXTENDED_TWO_HALFWORDS.ctorIdx, code := SIGN_EXTENDED_TWO_HALFWORDS.ctorIdx, length := 3
      numUnmatchedBits := 16, matchLocation := -1, allocate := false
      payload := .twoHalfwords (data.setWidth 8) ((data >>> 16).setWidth 8) }

def repBytes : PatternClass 4 := repeatedValue 1 REP_BYTES.ctorIdx REP_BYTES.ctorIdx 3 nowhere false
def uncompressedFPC : PatternClass 4 := uncompressed UNCOMPRESSED.ctorIdx UNCOMPRESSED.ctorIdx 3 nowhere

/-- `FPCCompData::addEntry`: a zero after a zero lengthens the run, up to its limit, and takes no space. -/
def addEntry (zeroRunSizeBits : Nat) (cd : CompData 4) (p : Pattern 4) : CompData 4 :=
  if p.patternNumber = ZERO_RUN.ctorIdx then
    let sized : ZeroRun := { (p.zeroRun.getD {}) with realSize := p.length + zeroRunSizeBits }
    match cd.entries.getLast? with
    | none => cd.addEntry { p with zeroRun := some sized }
    | some back =>
      let runLength := (back.zeroRun.getD {}).runLength
      if back.patternNumber ≠ ZERO_RUN.ctorIdx then cd.addEntry { p with zeroRun := some sized }
      else if runLength = (mask zeroRunSizeBits).toNat then cd.addEntry { p with zeroRun := some sized }
      else cd.addEntry { p with zeroRun := some { (p.zeroRun.getD {}) with runLength := runLength + 1 } }
  else cd.addEntry p

end FPC

open FPC in
/-- `FPC`, which adds nothing to its dictionary. -/
def fpc (zeroRunBits : Nat) : Compressor 4 where
  dictionarySize := 1
  factory := [zeroRun, signExtended4Bits, signExtended1Byte, signExtendedHalfword, zeroPaddedHalfword,
    signExtendedTwoHalfwords, repBytes]
  last := uncompressedFPC
  addToDictionary d _ := .ok d
  addEntry := addEntry zeroRunBits

namespace FPCD

inductive PatternNumber where
  | ZZZZ | FFFF | MMMMPenultimate | MMMMPrevious | ZZZX | XZZZ | RRRR | MMMXPenultimate | MMMXPrevious | ZZXX | ZXZX | FFXX
  | XXZZ | MMXXPenultimate | MMXXPrevious | XXXX
deriving DecidableEq, Repr

open PatternNumber

def prefixSize : Nat := 4
def previousIndex : Nat := 1
def penultimateIndex : Nat := 0

def patternZZZZ : PatternClass 4 := maskedValue 0 0xFFFFFFFF ZZZZ.ctorIdx 0x0 prefixSize id true
def patternFFFF : PatternClass 4 := maskedValue 0xFFFFFFFF 0xFFFFFFFF FFFF.ctorIdx 0x1 prefixSize id true
def patternMMMMPrevious : PatternClass 4 := locatedMasked 0xFFFFFFFF previousIndex MMMMPrevious.ctorIdx 0x2 prefixSize
def patternMMMMPenultimate : PatternClass 4 :=
  locatedMasked 0xFFFFFFFF penultimateIndex MMMMPenultimate.ctorIdx 0x3 prefixSize
def patternZZZX : PatternClass 4 := maskedValue 0 0xFFFFFF00 ZZZX.ctorIdx 0x4 prefixSize id true
def patternXZZZ : PatternClass 4 := maskedValue 0 0x00FFFFFF XZZZ.ctorIdx 0x5 prefixSize id true
def patternRRRR : PatternClass 4 := repeatedValue 1 RRRR.ctorIdx 0x6 prefixSize id true
def patternMMMXPrevious : PatternClass 4 := locatedMasked 0xFFFFFF00 previousIndex MMMXPrevious.ctorIdx 0x7 prefixSize
def patternMMMXPenultimate : PatternClass 4 :=
  locatedMasked 0xFFFFFF00 penultimateIndex MMMXPenultimate.ctorIdx 0x8 prefixSize
def patternZZXX : PatternClass 4 := maskedValue 0 0xFFFF0000 ZZXX.ctorIdx 0x9 prefixSize id true
def patternZXZX : PatternClass 4 := maskedValue 0 0xFF00FF00 ZXZX.ctorIdx 0xA prefixSize id true
def patternFFXX : PatternClass 4 := maskedValue 0xFFFFFFFF 0xFFFF0000 FFXX.ctorIdx 0xB prefixSize id true
def patternXXZZ : PatternClass 4 := maskedValue 0 0x0000FFFF XXZZ.ctorIdx 0xC prefixSize id true
def patternMMXXPrevious : PatternClass 4 := locatedMasked 0xFFFF0000 previousIndex MMXXPrevious.ctorIdx 0xD prefixSize
def patternMMXXPenultimate : PatternClass 4 :=
  locatedMasked 0xFFFF0000 penultimateIndex MMXXPenultimate.ctorIdx 0xE prefixSize
def patternXXXX : PatternClass 4 := uncompressed XXXX.ctorIdx 0xF prefixSize id

def addToDictionary (d : Dictionary) (data : DictionaryEntry) : Except Failure Dictionary :=
  if d.numEntries = 2 then
    .ok ((d.set penultimateIndex d.numEntries (d.entries.getD previousIndex []) d.le).set previousIndex d.numEntries data
      (by rw [Dictionary.set, List.length_set]; exact d.le))
  else if h : d.numEntries < d.entries.length then .ok (d.set d.numEntries (d.numEntries + 1) data h)
  else .error .outOfBounds

end FPCD

open FPCD in
def fpcd : Compressor 4 where
  dictionarySize := 2
  factory := [patternZZZZ, patternFFFF, patternMMMMPrevious, patternMMMMPenultimate, patternZZZX, patternXZZZ, patternRRRR,
    patternMMMXPrevious, patternMMMXPenultimate, patternZZXX, patternZXZX, patternFFXX, patternXXZZ, patternMMXXPrevious,
    patternMMXXPenultimate]
  last := patternXXXX
  addToDictionary := FPCD.addToDictionary

namespace BaseDelta

def defaultMaxNumBases : Nat := 2

/-- `ceil(log2(DEFAULT_MAX_NUM_BASES))`. -/
def baseBits : Nat := 1

inductive PatternNumber where
  | X | M
deriving DecidableEq, Repr

open PatternNumber

def patternX (n deltaSizeBits : Nat) : PatternClass n := uncompressed X.ctorIdx 0 (baseBits + deltaSizeBits) id
def patternM (n deltaSizeBits : Nat) : PatternClass n := delta deltaSizeBits M.ctorIdx 1 baseBits

/-- What `BaseDelta::compress` does to the size: all of the line if there are too many bases, and the space of those
that are not used. -/
def finish {n : Nat} (blkSize : Nat) (d : Dictionary) (cd : CompData n) : CompData n :=
  if defaultMaxNumBases < d.numEntries then { cd with sizeBits := blkSize * 8 }
  else { cd with sizeBits := cd.sizeBits + 8 * n * (defaultMaxNumBases - d.numEntries) }

end BaseDelta

open BaseDelta in
/-- `BaseDelta<BaseType, DeltaSizeBits>`, for a base of `n` bytes. -/
def baseDelta (n deltaSizeBits blkSize : Nat) : Compressor n where
  dictionarySize := blkSize
  factory := [patternM n deltaSizeBits]
  last := patternX n deltaSizeBits
  addToDictionary := appendToDictionary
  zeroBase := true
  finish := finish blkSize

inductive Scheme where
  | cpack
  | fpc (zeroRunBits : Nat)
  | fpcd
  | base64Delta8
  | base64Delta16
  | base64Delta32
  | base32Delta8
  | base32Delta16
  | base16Delta8
deriving DecidableEq, Repr

namespace Scheme

def bytes : Scheme → Nat
  | .cpack | .fpc _ | .fpcd | .base32Delta8 | .base32Delta16 => 4
  | .base64Delta8 | .base64Delta16 | .base64Delta32 => 8
  | .base16Delta8 => 2

def compressor (blkSize : Nat) : (s : Scheme) → Compressor s.bytes
  | .cpack => Compression.cpack blkSize
  | .fpc zeroRunBits => Compression.fpc zeroRunBits
  | .fpcd => Compression.fpcd
  | .base64Delta8 => baseDelta 8 8 blkSize
  | .base64Delta16 => baseDelta 8 16 blkSize
  | .base64Delta32 => baseDelta 8 32 blkSize
  | .base32Delta8 => baseDelta 4 8 blkSize
  | .base32Delta16 => baseDelta 4 16 blkSize
  | .base16Delta8 => baseDelta 2 8 blkSize

end Scheme
end Compression
end Gem5
