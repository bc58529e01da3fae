import Gem5Cxl.AddrRange
import Gem5Cxl.Bytes
import Mathlib.Data.Nat.ModEq
/-!
# VirtQueue — the rings a VirtIO device shares with its driver (`dev/virtio/base.cc`)

The device keeps a copy of each ring.  `produceDescriptor` reads the header of the used ring from guest memory, but
writes the whole ring back from the copy.
-/
namespace Gem5

inductive ByteOrder where
  | little
  | big
deriving DecidableEq, Repr

/-- The bytes in guest memory of an `n`-byte number (`htog`). -/
def ByteOrder.bytes : ByteOrder → Nat → Nat → List Byte
  | .little, n, v => Bytes.encode n v
  | .big, n, v => (Bytes.encode n v).reverse

/-- The number some bytes of guest memory stand for (`gtoh`). -/
def ByteOrder.value : ByteOrder → List Byte → Nat
  | .little, l => Bytes.decode l
  | .big, l => Bytes.decode l.reverse

/-- What the two rings hold: values of one size in guest memory. -/
class GuestType (T : Type) where
  size : Nat
  htog : ByteOrder → T → List Byte
  gtoh : ByteOrder → List Byte → T

instance : GuestType (BitVec 16) where
  size := 2
  htog bo v := bo.bytes 2 v.toNat
  gtoh bo l := BitVec.ofNat 16 (bo.value l)

structure UsedElem where
  id : BitVec 32
  len : BitVec 32
deriving DecidableEq, Repr

instance : GuestType UsedElem where
  size := 8
  htog bo e := bo.bytes 4 e.id.toNat ++ bo.bytes 4 e.len.toNat
  gtoh bo l := ⟨BitVec.ofNat 32 (bo.value (l.take 4)), BitVec.ofNat 32 (bo.value (l.drop 4))⟩

abbrev GuestMem := Addr → Byte

structure VirtRing (T : Type) where
  flags : BitVec 16
  index : BitVec 16
  ring : List T
  base : Addr
deriving DecidableEq, Repr

namespace VirtRing

variable {T : Type} [GuestType T]

def create (zero : T) (size : Nat) : VirtRing T := { flags := 0, index := 0, ring := List.replicate size zero, base := 0 }

def reset (r : VirtRing T) : VirtRing T := { r with flags := 0, index := 0, base := 0 }

def setAddress (r : VirtRing T) (addr : Addr) : VirtRing T := { r with base := addr }

def readHeader (r : VirtRing T) (bo : ByteOrder) (mem : GuestMem) : Except Failure (VirtRing T) := do
  assertThat (r.base ≠ 0)
  let blob := Bytes.read mem r.base 4
  .ok { r with flags := GuestType.gtoh bo (blob.take 2), index := GuestType.gtoh bo (blob.drop 2) }

def writeHeader (r : VirtRing T) (bo : ByteOrder) (mem : GuestMem) : Except Failure GuestMem := do
  assertThat (r.base ≠ 0)
  .ok (Bytes.write mem r.base (GuestType.htog bo r.flags ++ GuestType.htog bo r.index))

def read (r : VirtRing T) (bo : ByteOrder) (mem : GuestMem) : Except Failure (VirtRing T) := do
  let r ← r.readHeader bo mem
  let elem := fun i =>
    GuestType.gtoh bo (Bytes.read mem (r.base + BitVec.ofNat 64 (4 + GuestType.size T * i)) (GuestType.size T))
  .ok { r with ring := (List.range r.ring.length).map elem }

def write (r : VirtRing T) (bo : ByteOrder) (mem : GuestMem) : Except Failure GuestMem := do
  assertThat (r.base ≠ 0)
  r.writeHeader bo (Bytes.write mem (r.base + 4) (r.ring.flatMap (GuestType.htog bo)))

end VirtRing

structure VirtQueue where
  byteOrder : ByteOrder
  size : Nat
  address : Addr
  avail : VirtRing (BitVec 16)
  used : VirtRing UsedElem
  lastAvail : BitVec 16
deriving DecidableEq, Repr

namespace VirtQueue

def create (bo : ByteOrder) (size : Nat) : VirtQueue :=
  { byteOrder := bo, size := size, address := 0, avail := .create 0 size, used := .create ⟨0, 0⟩ size, lastAvail := 0 }

structure Checkpoint where
  address : Addr
  lastAvail : BitVec 16

def serialize (q : VirtQueue) : Checkpoint := { address := q.address, lastAvail := q.lastAvail }

/-- Where `setAddress` puts the used ring: behind the descriptors and the available ring, aligned. -/
def addrUsed (size : Nat) (address : Addr) : Addr :=
  let addrAvail := address + BitVec.ofNat 64 (size * 16)
  let addrAvailEnd := addrAvail + 4 + BitVec.ofNat 64 (size * 2)
  (addrAvailEnd + 2 + (4096 - 1)) &&& ~~~ (4096 - 1)

def setAddress (q : VirtQueue) (address : Addr) : VirtQueue :=
  { q with
    address := address
    avail := q.avail.setAddress (address + BitVec.ofNat 64 (q.size * 16))
    used := q.used.setAddress (addrUsed q.size address) }

def unserialize (q : VirtQueue) (cp : Checkpoint) : VirtQueue :=
  { q with lastAvail := cp.lastAvail }.setAddress cp.address

def reset (q : VirtQueue) : VirtQueue :=
  { q with address := 0, lastAvail := 0, avail := q.avail.reset, used := q.used.reset }

/-- `consumeDescriptor`, up to the lookup of the descriptor. -/
def consumeDescriptor (q : VirtQueue) (mem : GuestMem) : Except Failure (VirtQueue × Option (BitVec 16)) := do
  let avail ← q.avail.read q.byteOrder mem
  let q := { q with avail := avail }
  if q.lastAvail = avail.index then .ok (q, none)
  else
    match avail.ring[q.lastAvail.toNat % q.used.ring.length]? with
    | none => .error .outOfBounds
    | some index => .ok ({ q with lastAvail := q.lastAvail + 1 }, some index)

def produceDescriptor (q : VirtQueue) (mem : GuestMem) (index : BitVec 16) (len : BitVec 32) :
    Except Failure (VirtQueue × GuestMem) := do
  let used ← q.used.readHeader q.byteOrder mem
  if used.ring.length = 0 then .error .outOfBounds
  else do
    let slot := used.index.toNat % used.ring.length
    let used := { used with ring := used.ring.set slot ⟨index.setWidth 32, len⟩, index := used.index + 1 }
    let mem ← used.write q.byteOrder mem
    .ok ({ q with used := used }, mem)

end VirtQueue

/-! ## Values in guest memory -/

namespace ByteOrder

@[simp] theorem length_bytes (bo : ByteOrder) (n v : Nat) : (bo.bytes n v).length = n := by
  cases bo <;> simp [bytes]

variable {n w : Nat}

theorem value_bytes (bo : ByteOrder) {v : Nat} (h : v < 256 ^ n) : bo.value (bo.bytes n v) = v := by
  cases bo with
  | little => exact Bytes.decode_encode_of_lt h
  | big => rw [value, bytes, List.reverse_reverse, Bytes.decode_encode_of_lt h]

theorem bytes_value (bo : ByteOrder) (l : List Byte) : bo.bytes l.length (bo.value l) = l := by
  cases bo with
  | little => exact Bytes.encode_decode l
  | big =>
    have h := Bytes.encode_decode l.reverse
    rw [List.length_reverse] at h
    rw [value, bytes, h, List.reverse_reverse]

theorem value_lt (bo : ByteOrder) (l : List Byte) : bo.value l < 256 ^ l.length := by
  cases bo with
  | little => exact Bytes.decode_lt l
  | big => exact List.length_reverse ▸ Bytes.decode_lt l.reverse

theorem ofNat_value_bytes (bo : ByteOrder) (hw : 2 ^ w = 256 ^ n) (v : BitVec w) :
    BitVec.ofNat w (bo.value (bo.bytes n v.toNat)) = v := by
  rw [value_bytes bo (hw ▸ v.isLt), BitVec.ofNat_toNat, BitVec.setWidth_eq]

theorem bytes_ofNat_value (bo : ByteOrder) {l : List Byte} (hw : 2 ^ w = 256 ^ l.length) :
    bo.bytes l.length (BitVec.ofNat w (bo.value l)).toNat = l := by
  rw [BitVec.toNat_ofNat, Nat.mod_eq_of_lt (hw ▸ value_lt bo l), bytes_value]

end ByteOrder

/-- A value of one size whose bytes determine it and are determined by it. -/
class LawfulGuestType (T : Type) [GuestType T] : Prop where
  length_htog (bo : ByteOrder) (v : T) : (GuestType.htog bo v).length = GuestType.size T
  gtoh_htog (bo : ByteOrder) (v : T) : GuestType.gtoh bo (GuestType.htog bo v) = v
  htog_gtoh (bo : ByteOrder) (l : List Byte) (h : l.length = GuestType.size T) :
    GuestType.htog bo (GuestType.gtoh bo l : T) = l

instance : LawfulGuestType (BitVec 16) where
  length_htog bo v := bo.length_bytes 2 v.toNat
  gtoh_htog bo v := bo.ofNat_value_bytes (by norm_num) v
  htog_gtoh bo l h := by
    have hl : l.length = 2 := h
    have hb := bo.bytes_ofNat_value (w := 16) (l := l) (by rw [hl]; norm_num)
    rwa [hl] at hb

instance : LawfulGuestType UsedElem where
  length_htog bo v := by simp [GuestType.htog, GuestType.size]
  gtoh_htog bo v := by
    have hid := bo.ofNat_value_bytes (n := 4) (by norm_num) v.id
    have hlen := bo.ofNat_value_bytes (n := 4) (by norm_num) v.len
    simp only [GuestType.htog, GuestType.gtoh]
    rw [List.take_left' (bo.length_bytes 4 _), List.drop_left' (bo.length_bytes 4 _), hid, hlen]
  htog_gtoh bo l h := by
    have hl : l.length = 8 := h
    have htake : (l.take 4).length = 4 := by rw [List.length_take]; omega
    have hdrop : (l.drop 4).length = 4 := by rw [List.length_drop]; omega
    have hid := bo.bytes_ofNat_value (w := 32) (l := l.take 4) (by rw [htake]; norm_num)
    have hlen := bo.bytes_ofNat_value (w := 32) (l := l.drop 4) (by rw [hdrop]; norm_num)
    rw [htake] at hid
    rw [hdrop] at hlen
    simp only [GuestType.htog, GuestType.gtoh]
    rw [hid, hlen, List.take_append_drop]

namespace VirtQueue

/-! ## The used ring as the driver reads it -/

def usedAt (bo : ByteOrder) (mem : GuestMem) (base : Addr) (i : Nat) : UsedElem :=
  GuestType.gtoh bo (Bytes.read mem (base + BitVec.ofNat 64 (4 + 8 * i)) 8)

def indexAt (bo : ByteOrder) (mem : GuestMem) (base : Addr) : BitVec 16 :=
  GuestType.gtoh bo (Bytes.read mem (base + BitVec.ofNat 64 2) 2)

/-- The queue's own copy of the used ring has the size of the queue, which is a power of two. -/
structure Formed (q : VirtQueue) : Prop where
  length : q.used.ring.length = q.size
  pow : ∃ k < 16, q.size = 2 ^ k

theorem Formed.pos {q : VirtQueue} (h : q.Formed) : 0 < q.size := by
  obtain ⟨k, -, hk⟩ := h.pow
  exact hk ▸ Nat.two_pow_pos k

theorem Formed.dvd {q : VirtQueue} (h : q.Formed) : q.size ∣ 2 ^ 16 := by
  obtain ⟨k, hlt, hk⟩ := h.pow
  exact hk ▸ Nat.pow_dvd_pow 2 (Nat.le_of_lt hlt)

theorem Formed.lt {q : VirtQueue} (h : q.Formed) : q.size < 2 ^ 16 := by
  obtain ⟨k, hlt, hk⟩ := h.pow
  exact hk ▸ Nat.pow_lt_pow_right (by omega) hlt

def slot (q : VirtQueue) (mem : GuestMem) : Nat := (indexAt q.byteOrder mem q.used.base).toNat % q.size

def nextRing (q : VirtQueue) (mem : GuestMem) (index : BitVec 16) (len : BitVec 32) : List UsedElem :=
  q.used.ring.set (q.slot mem) ⟨index.setWidth 32, len⟩

def nextUsed (q : VirtQueue) (mem : GuestMem) (index : BitVec 16) (len : BitVec 32) : VirtRing UsedElem :=
  { q.used with
    flags := GuestType.gtoh q.byteOrder (Bytes.read mem q.used.base 2)
    index := indexAt q.byteOrder mem q.used.base + 1
    ring := q.nextRing mem index len }

def nextHeader (q : VirtQueue) (mem : GuestMem) : List Byte :=
  Bytes.read mem q.used.base 2 ++ GuestType.htog q.byteOrder (indexAt q.byteOrder mem q.used.base + 1)

/-- Guest memory after an element was returned: header and ring in one block. -/
def nextMem (q : VirtQueue) (mem : GuestMem) (index : BitVec 16) (len : BitVec 32) : GuestMem :=
  Bytes.write mem q.used.base (q.nextHeader mem ++ (q.nextRing mem index len).flatMap (GuestType.htog q.byteOrder))

variable {q : VirtQueue} {mem : GuestMem} {index : BitVec 16} {len : BitVec 32}

theorem length_nextHeader : (q.nextHeader mem).length = 4 := by
  rw [nextHeader, List.length_append, Bytes.length_read, LawfulGuestType.length_htog]
  rfl

theorem produceDescriptor_eq (hq : q.Formed) (hbase : q.used.base ≠ 0) :
    q.produceDescriptor mem index len =
      .ok ({ q with used := q.nextUsed mem index len }, q.nextMem mem index len) := by
  have hblob : Bytes.read mem q.used.base 4 = Bytes.read mem q.used.base 2 ++
      Bytes.read mem (q.used.base + BitVec.ofNat 64 2) 2 := Bytes.read_add mem q.used.base 2 2
  have htake : (Bytes.read mem q.used.base 4).take 2 = Bytes.read mem q.used.base 2 := by
    rw [hblob, List.take_left' (Bytes.length_read _ _ _)]
  have hdrop : (Bytes.read mem q.used.base 4).drop 2 = Bytes.read mem (q.used.base + BitVec.ofNat 64 2) 2 := by
    rw [hblob, List.drop_left' (Bytes.length_read _ _ _)]
  have hflags : GuestType.htog q.byteOrder (GuestType.gtoh q.byteOrder (Bytes.read mem q.used.base 2) : BitVec 16) =
      Bytes.read mem q.used.base 2 := LawfulGuestType.htog_gtoh _ _ (Bytes.length_read _ _ _)
  have hne : ¬ q.used.ring.length = 0 := by
    rw [hq.length]
    exact Nat.ne_of_gt hq.pos
  have hassert : assertThat (decide (q.used.base ≠ 0)) = .ok () := by rw [decide_eq_true hbase]; rfl
  have hjoin := Bytes.write_append mem q.used.base (q.nextHeader mem)
    ((q.nextRing mem index len).flatMap (GuestType.htog q.byteOrder))
  rw [length_nextHeader] at hjoin
  unfold produceDescriptor VirtRing.readHeader
  rw [hassert, Run.ok_bind, Run.ok_bind]
  dsimp only
  rw [if_neg hne]
  unfold VirtRing.write VirtRing.writeHeader
  dsimp only
  rw [hassert, Run.ok_bind, Run.ok_bind, Run.ok_bind, htake, hdrop, hflags, nextMem, ← hjoin, nextUsed]
  unfold nextRing slot
  rw [hq.length]
  rfl

theorem length_nextRing (hq : q.Formed) : (q.nextRing mem index len).length = q.size := by
  rw [nextRing, List.length_set, hq.length]

theorem length_htogs (bo : ByteOrder) (l : List UsedElem) : (l.flatMap (GuestType.htog bo)).length = 8 * l.length :=
  Bytes.length_flatMap_const (fun e => LawfulGuestType.length_htog bo e) l

variable {i n size d : Nat} {e : UsedElem} {base : Addr} {bo : ByteOrder} {mem' : GuestMem}

theorem read_nextMem (hq : q.Formed) (he : (q.nextRing mem index len)[i]? = some e) :
    Bytes.read (q.nextMem mem index len) (q.used.base + BitVec.ofNat 64 (4 + 8 * i)) 8 =
      GuestType.htog q.byteOrder e := by
  have hlen : (q.nextRing mem index len).length = q.size := length_nextRing hq
  have hlt := hq.lt
  rw [nextMem]
  generalize q.nextRing mem index len = ring at *
  obtain ⟨hi, rfl⟩ := List.getElem?_eq_some_iff.1 he
  have hsplit : ring.flatMap (GuestType.htog q.byteOrder) = (ring.take i).flatMap (GuestType.htog q.byteOrder) ++
      GuestType.htog q.byteOrder ring[i] ++ (ring.drop (i + 1)).flatMap (GuestType.htog q.byteOrder) := by
    conv_lhs => rw [← List.take_append_drop i ring, List.drop_eq_getElem_cons hi, List.flatMap_append, List.flatMap_cons]
    rw [List.append_assoc]
  have hfront : (q.nextHeader mem ++ (ring.take i).flatMap (GuestType.htog q.byteOrder)).length = 4 + 8 * i := by
    rw [List.length_append, length_nextHeader, length_htogs, List.length_take, Nat.min_eq_left (Nat.le_of_lt hi)]
  have htotal : (q.nextHeader mem ++ ring.flatMap (GuestType.htog q.byteOrder)).length ≤ 2 ^ 64 := by
    rw [List.length_append, length_nextHeader, length_htogs]
    omega
  have hmid := Bytes.read_write_mid mem q.used.base
    (q.nextHeader mem ++ (ring.take i).flatMap (GuestType.htog q.byteOrder)) (GuestType.htog q.byteOrder ring[i])
    ((ring.drop (i + 1)).flatMap (GuestType.htog q.byteOrder))
  rw [hfront, List.append_assoc, List.append_assoc, ← List.append_assoc _ (GuestType.htog q.byteOrder ring[i]), ← hsplit]
    at hmid
  have hread := hmid htotal
  rwa [LawfulGuestType.length_htog] at hread

theorem usedAt_nextMem (hq : q.Formed) (he : (q.nextRing mem index len)[i]? = some e) :
    usedAt q.byteOrder (q.nextMem mem index len) q.used.base i = e := by
  rw [usedAt, read_nextMem hq he, LawfulGuestType.gtoh_htog]

variable (mem index len) in
theorem length_block (hq : q.Formed) :
    (q.nextHeader mem ++ (q.nextRing mem index len).flatMap (GuestType.htog q.byteOrder)).length = 4 + 8 * q.size := by
  rw [List.length_append, length_nextHeader, length_htogs, length_nextRing hq]

theorem read_nextMem_index (hq : q.Formed) :
    Bytes.read (q.nextMem mem index len) (q.used.base + BitVec.ofNat 64 2) 2 =
      GuestType.htog q.byteOrder (indexAt q.byteOrder mem q.used.base + 1) := by
  have hlt := hq.lt
  have htotal := length_block mem index len hq
  have hmid := Bytes.read_write_mid mem q.used.base (Bytes.read mem q.used.base 2)
    (GuestType.htog q.byteOrder (indexAt q.byteOrder mem q.used.base + 1))
    ((q.nextRing mem index len).flatMap (GuestType.htog q.byteOrder))
  rw [Bytes.length_read, LawfulGuestType.length_htog] at hmid
  rw [nextHeader] at htotal
  exact hmid (by rw [htotal]; omega)

variable (mem index len) in
theorem indexAt_nextMem (hq : q.Formed) :
    indexAt q.byteOrder (q.nextMem mem index len) q.used.base = indexAt q.byteOrder mem q.used.base + 1 := by
  conv_lhs => rw [indexAt, read_nextMem_index hq, LawfulGuestType.gtoh_htog]

theorem read_nextMem_flags (hq : q.Formed) :
    Bytes.read (q.nextMem mem index len) q.used.base 2 = Bytes.read mem q.used.base 2 := by
  have hlt := hq.lt
  have htotal := length_block mem index len hq
  have hmid := Bytes.read_write_mid mem q.used.base [] (Bytes.read mem q.used.base 2)
    (GuestType.htog q.byteOrder (indexAt q.byteOrder mem q.used.base + 1) ++
      (q.nextRing mem index len).flatMap (GuestType.htog q.byteOrder))
  rw [List.nil_append, Bytes.length_read, List.length_nil, BitVec.add_zero, ← List.append_assoc] at hmid
  rw [nextHeader] at htotal
  exact hmid (by rw [htotal]; omega)

/-! ## What a returned descriptor changes -/

/-- **A returned descriptor changes its own slot and the index**, and no other byte of guest memory. -/
structure OnlyPublishes (q : VirtQueue) (mem mem' : GuestMem) (index : BitVec 16) (len : BitVec 32) : Prop where
  element : usedAt q.byteOrder mem' q.used.base (q.slot mem) = ⟨index.setWidth 32, len⟩
  counted : indexAt q.byteOrder mem' q.used.base = indexAt q.byteOrder mem q.used.base + 1
  frame : ∀ x, ¬ (4 + 8 * q.slot mem ≤ (x - q.used.base).toNat ∧ (x - q.used.base).toNat < 4 + 8 * q.slot mem + 8) →
    ¬ (2 ≤ (x - q.used.base).toNat ∧ (x - q.used.base).toNat < 4) → mem' x = mem x

def AgreesExcept (q : VirtQueue) (mem : GuestMem) (k : Nat) : Prop :=
  ∀ i < q.size, i ≠ k → q.used.ring[i]? = some (usedAt q.byteOrder mem q.used.base i)

theorem slot_lt (hq : q.Formed) : q.slot mem < q.size := Nat.mod_lt _ hq.pos

theorem nextRing_slot (hq : q.Formed) : (q.nextRing mem index len)[q.slot mem]? = some ⟨index.setWidth 32, len⟩ := by
  rw [nextRing, List.getElem?_set_self (by rw [hq.length]; exact slot_lt hq)]

theorem nextRing_other (hi : i ≠ q.slot mem) : (q.nextRing mem index len)[i]? = q.used.ring[i]? := by
  rw [nextRing, List.getElem?_set_ne (Ne.symm hi)]

theorem read_used (bo : ByteOrder) (mem : GuestMem) (base : Addr) (i : Nat) :
    Bytes.read mem (base + BitVec.ofNat 64 (4 + 8 * i)) 8 = GuestType.htog bo (usedAt bo mem base i) := by
  rw [usedAt, LawfulGuestType.htog_gtoh bo _ (by rw [Bytes.length_read]; rfl)]

theorem ring_address (base x : Addr) (h : 4 ≤ (x - base).toNat) :
    base + BitVec.ofNat 64 (4 + 8 * (((x - base).toNat - 4) / 8)) + BitVec.ofNat 64 (((x - base).toNat - 4) % 8) = x := by
  have hsum : 4 + 8 * (((x - base).toNat - 4) / 8) + ((x - base).toNat - 4) % 8 = (x - base).toNat := by omega
  rw [BitVec.add_assoc, ← BitVec.ofNat_add, hsum, Bytes.start_add_sub]

/-- **The frame holds exactly if the copy agrees with guest memory** outside the slot written. -/
theorem onlyPublishes_iff (hq : q.Formed) :
    q.OnlyPublishes mem (q.nextMem mem index len) index len ↔ q.AgreesExcept mem (q.slot mem) := by
  have hlt := hq.lt
  constructor
  · intro h i hi hne
    have hi' : i < q.used.ring.length := hq.length ▸ hi
    have hget := List.getElem?_eq_getElem hi'
    -- the bytes of the other elements did not change, and they are now those of the copy
    have hsame : Bytes.read (q.nextMem mem index len) (q.used.base + BitVec.ofNat 64 (4 + 8 * i)) 8 =
        Bytes.read mem (q.used.base + BitVec.ofNat 64 (4 + 8 * i)) 8 := by
      refine Bytes.read_eq_iff.2 fun j hj => ?_
      have hdist : (q.used.base + BitVec.ofNat 64 (4 + 8 * i) + BitVec.ofNat 64 j - q.used.base).toNat = 4 + 8 * i + j := by
        rw [BitVec.add_assoc, ← BitVec.ofNat_add, Bytes.sub_start _ (by omega)]
      refine h.frame _ ?_ ?_
      · rw [hdist]
        omega
      · rw [hdist]
        omega
    rw [hget, usedAt, ← hsame, read_nextMem hq ((nextRing_other hne).trans hget), LawfulGuestType.gtoh_htog]
  · intro h
    refine ⟨usedAt_nextMem hq (nextRing_slot hq), indexAt_nextMem mem index len hq, fun x hslot hindex => ?_⟩
    by_cases hflags : (x - q.used.base).toNat < 2
    · rw [← Bytes.start_add_sub q.used.base x]
      exact Bytes.read_eq_iff.1 (read_nextMem_flags hq) _ hflags
    by_cases hring : (x - q.used.base).toNat < 4 + 8 * q.size
    · have hle : 4 ≤ (x - q.used.base).toNat := by omega
      rw [← ring_address q.used.base x hle]
      generalize hi : ((x - q.used.base).toNat - 4) / 8 = i
      have hne : i ≠ q.slot mem := by omega
      refine Bytes.read_eq_iff.1 ?_ _ (Nat.mod_lt _ (by omega))
      rw [read_nextMem hq ((nextRing_other hne).trans (h i (by omega) hne)), read_used q.byteOrder]
    · exact Bytes.write_of_le _ (by rw [length_block mem index len hq]; omega)

/-! ## Runs -/

def Agrees (q : VirtQueue) (mem : GuestMem) : Prop :=
  ∀ i < q.size, q.used.ring[i]? = some (usedAt q.byteOrder mem q.used.base i)

instance (q : VirtQueue) (mem : GuestMem) : Decidable (q.Agrees mem) :=
  inferInstanceAs (Decidable (∀ i < q.size, q.used.ring[i]? = some (usedAt q.byteOrder mem q.used.base i)))

structure Sys where
  queue : VirtQueue
  mem : GuestMem
  saved : Option (Checkpoint × GuestMem) := none

inductive Event where
  | produce (index : BitVec 16) (len : BitVec 32)
  | consume
  /-- The guest reads and writes its memory. -/
  | guest (mem : GuestMem)
  | save
  /-- A new device is made and takes over the checkpoint. -/
  | restore
  /-- The guest resets the device, prepares its memory and sets the address of the queue. -/
  | initialise (address : Addr) (mem : GuestMem)

def Sys.step (s : Sys) : Event → Except Failure Sys
  | .produce index len => do
    let (q, mem) ← s.queue.produceDescriptor s.mem index len
    .ok { s with queue := q, mem := mem }
  | .consume => do
    let (q, _) ← s.queue.consumeDescriptor s.mem
    .ok { s with queue := q }
  | .guest mem => .ok { s with mem := mem }
  | .save => .ok { s with saved := some (s.queue.serialize, s.mem) }
  | .restore =>
    match s.saved with
    | none => .ok s
    | some (cp, mem) => .ok { s with queue := (create s.queue.byteOrder s.queue.size).unserialize cp, mem := mem }
  | .initialise address mem => .ok { s with queue := s.queue.reset.setAddress address, mem := mem }

/-- The guest leaves the used ring alone, and a ring taken over by a restored or initialised queue reads as the copy the
    queue has of it: all zero in a new queue, what was there before in one that was reset. -/
def Event.Fits (s : Sys) : Event → Prop
  | .guest mem => ∀ o < 4 + 8 * s.queue.size, mem (s.queue.used.base + BitVec.ofNat 64 o) =
      s.mem (s.queue.used.base + BitVec.ofNat 64 o)
  | .restore => ∀ cp mem, s.saved = some (cp, mem) →
      ((create s.queue.byteOrder s.queue.size).unserialize cp).Agrees mem
  | .initialise address mem => (s.queue.reset.setAddress address).Agrees mem
  | _ => True

def Event.isNew : Event → Bool
  | .restore => true
  | .initialise _ _ => true
  | _ => false

def Event.isProduce : Event → Bool
  | .produce _ _ => true
  | _ => false

/-- The copy has the size of the queue, and once the ring is in use agrees with it. -/
structure Sys.Good (bo : ByteOrder) (size : Nat) (s : Sys) : Prop where
  formed : s.queue.Formed
  order : s.queue.byteOrder = bo
  size : s.queue.size = size
  agrees : s.queue.used.base ≠ 0 → s.queue.Agrees s.mem

theorem formed_create (bo : ByteOrder) {k : Nat} (hk : k < 16) : (create bo (2 ^ k)).Formed :=
  ⟨List.length_replicate, k, hk, rfl⟩

theorem usedAt_congr {mem : GuestMem} (hi : i < n)
    (h : ∀ o < 4 + 8 * n, mem' (base + BitVec.ofNat 64 o) = mem (base + BitVec.ofNat 64 o)) :
    usedAt bo mem' base i = usedAt bo mem base i := by
  unfold usedAt
  rw [Bytes.read_eq_iff.2 fun j hj => ?_]
  rw [BitVec.add_assoc, ← BitVec.ofNat_add]
  exact h _ (by omega)

theorem indexAt_congr {mem : GuestMem}
    (h : ∀ o < 4 + 8 * n, mem' (base + BitVec.ofNat 64 o) = mem (base + BitVec.ofNat 64 o)) :
    indexAt bo mem' base = indexAt bo mem base := by
  unfold indexAt
  rw [Bytes.read_eq_iff.2 fun j hj => ?_]
  rw [BitVec.add_assoc, ← BitVec.ofNat_add]
  exact h _ (by omega)

theorem Agrees.next (hq : q.Formed) : ({ q with used := q.nextUsed mem index len }).Agrees (q.nextMem mem index len) := by
  intro i hi
  have hi' : i < (q.nextRing mem index len).length := by rw [length_nextRing hq]; exact hi
  have hget := List.getElem?_eq_getElem hi'
  exact hget.trans (congrArg some (usedAt_nextMem hq hget).symm)

theorem consumeDescriptor_used {q q' : VirtQueue} {r : Option (BitVec 16)} (h : q.consumeDescriptor mem = .ok (q', r)) :
    q'.used = q.used ∧ q'.size = q.size ∧ q'.byteOrder = q.byteOrder := by
  unfold consumeDescriptor at h
  rw [Run.bind_eq_ok] at h
  obtain ⟨avail, _, h⟩ := h
  dsimp only at h
  split at h
  · cases h
    exact ⟨rfl, rfl, rfl⟩
  · split at h
    · cases h
    · cases h
      exact ⟨rfl, rfl, rfl⟩

variable {s s' : Sys} {es : List Event}

theorem Sys.step_produce (hg : s.Good bo size) (hs : s.step (.produce index len) = .ok s') :
    s.queue.used.base ≠ 0 ∧ s' = { s with
      queue := { s.queue with used := s.queue.nextUsed s.mem index len }, mem := s.queue.nextMem s.mem index len } := by
  unfold Sys.step at hs
  rw [Run.bind_eq_ok] at hs
  obtain ⟨⟨q, mem⟩, hp, hs⟩ := hs
  cases hs
  have hbase : s.queue.used.base ≠ 0 := by
    intro h0
    unfold produceDescriptor VirtRing.readHeader at hp
    rw [h0] at hp
    cases hp
  rw [produceDescriptor_eq hg.formed hbase] at hp
  cases hp
  exact ⟨hbase, rfl⟩

theorem Sys.step_good {e : Event} (hg : s.Good bo size) (hf : e.Fits s) (hs : s.step e = .ok s') : s'.Good bo size := by
  cases e with
  | produce index len =>
    obtain ⟨-, rfl⟩ := Sys.step_produce hg hs
    exact ⟨⟨length_nextRing hg.formed, hg.formed.pow⟩, hg.order, hg.size, fun _ => Agrees.next hg.formed⟩
  | consume =>
    unfold Sys.step at hs
    rw [Run.bind_eq_ok] at hs
    obtain ⟨⟨q, r⟩, hc, hs⟩ := hs
    cases hs
    obtain ⟨hu, hz, hb⟩ := consumeDescriptor_used hc
    refine ⟨⟨?_, ?_⟩, hb.trans hg.order, hz.trans hg.size, ?_⟩
    · rw [hu, hz]
      exact hg.formed.length
    · rw [hz]
      exact hg.formed.pow
    · unfold Agrees
      rw [hu, hz, hb]
      exact hg.agrees
  | guest mem =>
    cases hs
    refine ⟨hg.formed, hg.order, hg.size, fun hbase i hi => ?_⟩
    rw [hg.agrees hbase i hi, usedAt_congr hi hf]
  | save =>
    cases hs
    exact ⟨hg.formed, hg.order, hg.size, hg.agrees⟩
  | restore =>
    simp only [Sys.step] at hs
    split at hs
    · cases hs
      exact hg
    · rename_i cp mem hsaved
      cases hs
      exact ⟨⟨List.length_replicate, hg.formed.pow⟩, hg.order, hg.size, fun _ => hf cp mem hsaved⟩
  | initialise address mem =>
    cases hs
    exact ⟨⟨hg.formed.length, hg.formed.pow⟩, hg.order, hg.size, fun _ => hf⟩

inductive Runs : Sys → List Event → Sys → Prop
  | nil (s : Sys) : Runs s [] s
  | cons {s s₁ s₂ : Sys} {e : Event} {es : List Event} (fits : e.Fits s) (hs : s.step e = .ok s₁)
      (rest : Runs s₁ es s₂) : Runs s (e :: es) s₂

theorem Runs.good (h : Runs s es s') (hg : s.Good bo size) : s'.Good bo size := by
  induction h with
  | nil => exact hg
  | cons fits hs _ ih => exact ih (Sys.step_good hg fits hs)

theorem slot_ne (hn : n ∣ 2 ^ 16) (i : BitVec 16) (hd : 0 < d) (hlt : d < n) :
    (i + BitVec.ofNat 16 d).toNat % n ≠ i.toNat % n := by
  intro h
  rw [BitVec.toNat_add, BitVec.toNat_ofNat, Nat.add_mod_mod, Nat.mod_mod_of_dvd _ hn] at h
  have hmod : i.toNat + d ≡ i.toNat + 0 [MOD n] := h
  have hzero : d % n = 0 % n := Nat.ModEq.add_left_cancel' _ hmod
  rw [Nat.mod_eq_of_lt hlt, Nat.zero_mod] at hzero
  omega

/-- **A published element stays until the ring wraps.**  `d` elements were returned after it. -/
theorem Runs.element_stays (h : Runs s es s') (hg : s.Good bo size) (hnew : ∀ e ∈ es, e.isNew = false) {i : BitVec 16}
    {elem : UsedElem} (hd : 0 < d) (hcount : d + es.countP Event.isProduce ≤ size)
    (hindex : indexAt bo s.mem s.queue.used.base = i + BitVec.ofNat 16 d)
    (helem : usedAt bo s.mem s.queue.used.base (i.toNat % size) = elem) :
    s'.queue.used.base = s.queue.used.base ∧ usedAt bo s'.mem s'.queue.used.base (i.toNat % size) = elem := by
  have hmod : i.toNat % size < size := Nat.mod_lt _ (by omega)
  induction h generalizing d with
  | nil => exact ⟨rfl, helem⟩
  | @cons s s₁ s₂ e es fits hs rest ih =>
    rw [List.forall_mem_cons] at hnew
    have hg₁ := Sys.step_good hg fits hs
    -- events other than a returned descriptor leave the ring as it is
    have quiet : e.isProduce = false → s₁.queue.used.base = s.queue.used.base →
        (∀ o < 4 + 8 * size, s₁.mem (s.queue.used.base + BitVec.ofNat 64 o) =
          s.mem (s.queue.used.base + BitVec.ofNat 64 o)) →
        s₂.queue.used.base = s.queue.used.base ∧ usedAt bo s₂.mem s₂.queue.used.base (i.toNat % size) = elem := by
      intro hprod hbase hmem
      rw [List.countP_cons_of_neg (by rw [hprod]; exact Bool.false_ne_true)] at hcount
      rw [← hbase]
      refine ih hg₁ hnew.2 hd hcount ?_ ?_
      · rw [hbase, indexAt_congr hmem, hindex]
      · rw [hbase, usedAt_congr hmod hmem, helem]
    cases e with
    | produce index len =>
      obtain ⟨hbase, rfl⟩ := Sys.step_produce hg hs
      rw [List.countP_cons_of_pos rfl] at hcount
      have hslot : i.toNat % size ≠ s.queue.slot s.mem := by
        rw [slot, hg.order, hindex, hg.size]
        exact (slot_ne (hg.size ▸ hg.formed.dvd) i hd (by omega)).symm
      have hbefore := hg.agrees hbase (i.toNat % size) (hg.size.symm ▸ hmod)
      rw [hg.order, helem] at hbefore
      refine ih hg₁ hnew.2 (d := d + 1) (by omega) (by omega) ?_ ?_
      · have hnext := indexAt_nextMem s.mem index len hg.formed
        rw [hg.order, hindex, BitVec.add_assoc] at hnext
        rw [BitVec.ofNat_add]
        exact hnext
      · have hkept : (s.queue.nextRing s.mem index len)[i.toNat % size]? = some elem :=
          (nextRing_other hslot).trans hbefore
        have hnext := usedAt_nextMem hg.formed hkept
        rw [hg.order] at hnext
        exact hnext
    | consume =>
      unfold Sys.step at hs
      rw [Run.bind_eq_ok] at hs
      obtain ⟨⟨q, r⟩, hc, hs⟩ := hs
      cases hs
      exact quiet rfl (by rw [(consumeDescriptor_used hc).1]) fun _ _ => rfl
    | guest mem =>
      cases hs
      refine quiet rfl rfl fun o ho => fits o (by rw [hg.size]; exact ho)
    | save =>
      cases hs
      exact quiet rfl rfl fun _ _ => rfl
    | restore => cases hnew.1
    | initialise address mem => cases hnew.1

theorem Agrees.except (h : q.Agrees mem) (k : Nat) : q.AgreesExcept mem k := fun i hi _ => h i hi

/-- **Returning descriptors does not disturb the used ring**, as long as each ring that is taken over reads as the copy
    the queue has of it; and one descriptor is returned without disturbing it exactly if the copy agrees. -/
theorem used_ring_undisturbed (bo : ByteOrder) {k : Nat} (hk : k < 16) {mem₀ : GuestMem} {es : List Event} {s : Sys}
    (h : Runs ⟨create bo (2 ^ k), mem₀, none⟩ es s) :
    (∀ q : VirtQueue, q.Formed → q.used.base ≠ 0 → ∀ mem index len, ∃ q' mem',
      q.produceDescriptor mem index len = .ok (q', mem') ∧
        (q.OnlyPublishes mem mem' index len ↔ q.AgreesExcept mem (q.slot mem))) ∧
    ∀ index len s₁, s.step (.produce index len) = .ok s₁ →
      s.queue.OnlyPublishes s.mem s₁.mem index len ∧
      ∀ es' s₂, Runs s₁ es' s₂ → (∀ e ∈ es', e.isNew = false) → es'.countP Event.isProduce < 2 ^ k →
        usedAt bo s₂.mem s₂.queue.used.base (s.queue.slot s.mem) = ⟨index.setWidth 32, len⟩ := by
  refine ⟨fun q hq hbase mem index len => ⟨_, _, produceDescriptor_eq hq hbase, onlyPublishes_iff hq⟩, ?_⟩
  intro index len s₁ hs
  have hg : s.Good bo (2 ^ k) := h.good ⟨formed_create bo hk, rfl, rfl, fun hb => absurd rfl hb⟩
  obtain ⟨hbase, hs₁⟩ := Sys.step_produce hg hs
  have hpub : s.queue.OnlyPublishes s.mem s₁.mem index len := by
    rw [hs₁]
    exact (onlyPublishes_iff hg.formed).2 ((hg.agrees hbase).except _)
  refine ⟨hpub, fun es' s₂ hrun hnew hcount => ?_⟩
  have hg₁ : s₁.Good bo (2 ^ k) := Sys.step_good (e := .produce index len) hg trivial hs
  have hb₁ : s₁.queue.used.base = s.queue.used.base := by rw [hs₁]; rfl
  have hslot : s.queue.slot s.mem = (indexAt bo s.mem s.queue.used.base).toNat % 2 ^ k := by
    rw [slot, hg.order, hg.size]
  rw [hslot]
  refine (hrun.element_stays hg₁ hnew (d := 1) (by omega) (by omega) ?_ ?_).2
  · rw [hb₁, ← hg.order]
    exact hpub.counted
  · rw [hb₁, ← hg.order, ← hpub.element, slot, hg.size]

def twoSlots : VirtQueue := (create .little (2 ^ 1)).reset.setAddress 0x10000

theorem formed_twoSlots : twoSlots.Formed := ⟨rfl, 1, by omega, rfl⟩

theorem runs_twoSlots : Runs ⟨create .little (2 ^ 1), fun _ => 0, none⟩ [.initialise 0x10000 fun _ => 0]
    ⟨twoSlots, fun _ => 0, none⟩ := by
  have hagree : ((create .little (2 ^ 1)).reset.setAddress 0x10000).Agrees fun _ => 0 := by decide +kernel
  exact .cons hagree rfl (.nil _)

theorem twoSlots_first_element : ∃ s₁, Sys.step ⟨twoSlots, fun _ => 0, none⟩ (.produce 1 10) = .ok s₁ ∧
    usedAt .little s₁.mem s₁.queue.used.base 0 = ⟨1, 10⟩ := by
  have hs : Sys.step ⟨twoSlots, fun _ => 0, none⟩ (.produce 1 10) =
      .ok ⟨{ twoSlots with used := twoSlots.nextUsed (fun _ => 0) 1 10 }, twoSlots.nextMem (fun _ => 0) 1 10, none⟩ := by
    rw [Sys.step, produceDescriptor_eq formed_twoSlots (by decide)]
    rfl
  have hstays := ((used_ring_undisturbed .little (by omega) runs_twoSlots).2 1 10 _ hs).2 [] _ (.nil _) (by simp)
    (by decide)
  have hslot : twoSlots.slot (fun _ => 0) = 0 := by decide +kernel
  rw [hslot] at hstays
  exact ⟨_, hs, hstays⟩

/-- **A restored device wipes out what was published**: one descriptor was returned before the checkpoint, and the next
    one returned by the restored device overwrites its element with the zeros of the new copy. -/
theorem restored_ring_overwritten :
    ∃ q₁ mem₁ q₂ mem₂, twoSlots.produceDescriptor (fun _ => 0) 1 10 = .ok (q₁, mem₁) ∧
      usedAt .little mem₁ q₁.used.base 0 = ⟨1, 10⟩ ∧
      ((create .little (2 ^ 1)).unserialize q₁.serialize).produceDescriptor mem₁ 0 20 = .ok (q₂, mem₂) ∧
      usedAt .little mem₂ q₂.used.base 0 = ⟨0, 0⟩ := by
  refine ⟨_, _, _, _, produceDescriptor_eq formed_twoSlots (by decide), by decide +kernel,
    produceDescriptor_eq ⟨rfl, 1, by omega, rfl⟩ (by decide), by decide +kernel⟩

end VirtQueue

end Gem5
