import Gem5Cxl.BridgeConfig
import Gem5Cxl.Bits
/-!
# BridgeReadback — config writes and what reads them back (`config_class::readConfig` in `dev/PciBridge2.cc`)

`readConfig` reads bytes of the header or of the PCIe capability.  Of a config space one expects that a write changes the
writable bits of the bytes it covers and nothing else: `specWrite`.  `writeConfig` does so for some widths and registers;
which writes keep the two in step is `reads_back_iff`.
-/
namespace Gem5

/-- The registers of the header that no write changes, with the values of `RootComplex`. -/
structure BridgeIdent where
  vendorId : BitVec 16 := 0x8086
  deviceId : BitVec 16 := 0x9c90
  revision : Byte := 0
  progIF : Byte := 0
  subClassCode : Byte := 0x04
  classCode : Byte := 0x06
  cacheLineSize : Byte := 0
  latencyTimer : Byte := 0
  headerType : Byte := 0x01
  capabilityPointer : Byte := 0xD0
  interruptPin : Byte := 0x01

def halfBytes (v : BitVec 16) : List Byte := [Packet.hostByte v 0, Packet.hostByte v 1]

def wordBytes (v : BitVec 32) : List Byte :=
  [Packet.hostByte v 0, Packet.hostByte v 1, Packet.hostByte v 2, Packet.hostByte v 3]

def BridgeHeader.data (id : BridgeIdent) (h : BridgeHeader) : List Byte :=
  [halfBytes id.vendorId, halfBytes id.deviceId, halfBytes h.command, halfBytes h.status,
    [id.revision, id.progIF, id.subClassCode, id.classCode, id.cacheLineSize, id.latencyTimer, id.headerType, h.bist],
    wordBytes h.bar0, wordBytes h.bar1,
    [h.primaryBusNumber, h.secondaryBusNumber, h.subordinateBusNumber, h.secondaryLatencyTimer, h.ioBase, h.ioLimit],
    halfBytes h.secondaryStatus, halfBytes h.memoryBase, halfBytes h.memoryLimit, halfBytes h.prefetchableMemoryBase,
    halfBytes h.prefetchableMemoryLimit, wordBytes h.prefetchableMemoryBaseUpper,
    wordBytes h.prefetchableMemoryLimitUpper, halfBytes h.ioBaseUpper, halfBytes h.ioLimitUpper,
    [id.capabilityPointer, 0, 0, 0], wordBytes h.expansionROMBaseAddress, [h.interruptLine, id.interruptPin],
    halfBytes h.bridgeControl].flatten

def readBytes (data : List Byte) (offset size : Nat) : Except Failure (List Byte) :=
  if size = 1 ∨ size = 2 ∨ size = 4 then
    if offset + size ≤ data.length then .ok ((data.drop offset).take size) else .error .outOfBounds
  else .error (.panic "invalid access size\n")

structure RegWrite where
  addr : Addr
  size : Nat
  val : BitVec 32

def RegWrite.offset (w : RegWrite) : Nat := (w.addr &&& 0xFFF).toNat

namespace ConfigClass

/-- `config_class::readConfig`: the bytes it puts into the packet. -/
def readConfig (id : BridgeIdent) (c : ConfigClass) (addr : Addr) (size : Nat) : Except Failure (List Byte) :=
  let offset := (addr &&& 0xFFF).toNat
  if offset < 64 then readBytes (c.storage1.data id) offset size
  else if c.pxcapBaseOffset ≤ offset ∧ offset < c.pxcapBaseOffset + 36 then
    readBytes ((List.range 36).map c.storage2) (offset - c.pxcapBaseOffset) size
  else if size = 1 ∨ size = 2 ∨ size = 4 then .ok (List.replicate size 0)
  else .error (.panic "invalid access size\n")

def configure : ConfigClass → List RegWrite → Except Failure ConfigClass
  | c, [] => .ok c
  | c, w :: ws => c.writeConfig w.addr w.size w.val >>= fun r => r.1.configure ws

/-! ## What a config space does -/

def windowOffsets : List Nat := [0x1C, 0x1D, 0x20, 0x21, 0x22, 0x23, 0x24, 0x25, 0x26, 0x27]

def InCapability (pxcap o : Nat) : Prop := 64 ≤ o ∧ pxcap ≤ o ∧ o < pxcap + 36

def Watched (pxcap o : Nat) : Prop := o ∈ windowOffsets ∨ InCapability pxcap o

instance (pxcap o : Nat) : Decidable (InCapability pxcap o) := inferInstanceAs (Decidable (_ ∧ _))

/-- The bits a write does not change: the low nibble of a base or limit register, and the slot registers. -/
def readOnlyBits (pxcap o : Nat) : Byte :=
  if o ∈ [0x1C, 0x1D, 0x20, 0x22, 0x24, 0x26] then 0x0F
  else if o ∈ [0x21, 0x23, 0x25, 0x27] then 0
  else if InCapability pxcap o ∧ ¬ (pxcap + 20 ≤ o ∧ o ≤ pxcap + 27) then 0
  else 0xFF

/-- A write of `size` bytes changes the writable bits of the bytes it covers. -/
def specWrite (pxcap : Nat) (σ : Nat → Byte) (w : RegWrite) (o : Nat) : Byte :=
  if w.offset ≤ o ∧ o < w.offset + w.size then
    merge (readOnlyBits pxcap o) (Packet.hostByte w.val (o - w.offset)) (σ o)
  else σ o

def specRun (pxcap : Nat) (σ : Nat → Byte) (ws : List RegWrite) : Nat → Byte := ws.foldl (specWrite pxcap) σ

/-- **Reads return what the config space holds**, in every width that stays inside the registers. -/
def ReadsBack (id : BridgeIdent) (c : ConfigClass) (σ : Nat → Byte) : Prop :=
  ∀ (addr : Addr) (size : Nat), size = 1 ∨ size = 2 ∨ size = 4 →
    (∀ i < size, Watched c.pxcapBaseOffset ((addr &&& 0xFFF).toNat + i)) →
      c.readConfig id addr size = .ok ((List.range size).map fun i => σ ((addr &&& 0xFFF).toNat + i))

def powerOn (id : BridgeIdent) (c : ConfigClass) (o : Nat) : Byte :=
  if o < 64 then (c.storage1.data id).getD o 0 else c.storage2 (o - c.pxcapBaseOffset)

/-! ## Bytes of registers -/

def windowByte (h : BridgeHeader) (o : Nat) : Byte :=
  if o = 0x1C then h.ioBase
  else if o = 0x1D then h.ioLimit
  else if o < 0x22 then Packet.hostByte h.memoryBase (o - 0x20)
  else if o < 0x24 then Packet.hostByte h.memoryLimit (o - 0x22)
  else if o < 0x26 then Packet.hostByte h.prefetchableMemoryBase (o - 0x24)
  else Packet.hostByte h.prefetchableMemoryLimit (o - 0x26)

variable {o offset size i : Nat} {σ : Nat → Byte} {c c' : ConfigClass} {id : BridgeIdent} {flag : Bool} {w : RegWrite}
  {old v : BitVec 16} {vb : Byte} {ws : List RegWrite}

theorem data_windowByte (id : BridgeIdent) (h : BridgeHeader) (ho : o ∈ windowOffsets) :
    (h.data id)[o]? = some (windowByte h o) := by
  simp only [windowOffsets, List.mem_cons, List.not_mem_nil, or_false] at ho
  rcases ho with rfl | rfl | rfl | rfl | rfl | rfl | rfl | rfl | rfl | rfl <;> rfl

theorem windowOffsets_lt (ho : o ∈ windowOffsets) : o < 0x28 := by
  revert o
  decide

structure Agrees (c : ConfigClass) (σ : Nat → Byte) : Prop where
  windows : ∀ o ∈ windowOffsets, windowByte c.storage1 o = σ o
  capability : ∀ o, InCapability c.pxcapBaseOffset o → c.storage2 (o - c.pxcapBaseOffset) = σ o

theorem agrees_powerOn (id : BridgeIdent) (c : ConfigClass) : c.Agrees (c.powerOn id) := by
  constructor
  · intro o ho
    have hlt := windowOffsets_lt ho
    rw [powerOn, if_pos (by omega), List.getD_eq_getElem?_getD, data_windowByte id c.storage1 ho, Option.getD_some]
  · intro o ho
    rw [powerOn, if_neg (Nat.not_lt.2 ho.1)]

theorem readBytes_eq {data : List Byte} (hs : size = 1 ∨ size = 2 ∨ size = 4)
    (hdata : ∀ i < size, data[offset + i]? = some (σ i)) :
    readBytes data offset size = .ok ((List.range size).map σ) := by
  have hpos : 0 < size := by omega
  have hlast := hdata (size - 1) (by omega)
  have hlen : offset + size ≤ data.length := by
    have := (List.getElem?_eq_some_iff.1 hlast).1
    omega
  rw [readBytes, if_pos hs, if_pos hlen]
  refine congrArg Except.ok (List.ext_getElem? fun i => ?_)
  rw [List.getElem?_take, List.getElem?_drop, List.getElem?_map]
  by_cases hi : i < size
  · rw [if_pos hi, hdata i hi, List.getElem?_range hi]
    rfl
  · rw [if_neg hi, List.getElem?_eq_none (by rw [List.length_range]; omega)]
    rfl

theorem offset_ofNat (ho : o < 4096) : ((BitVec.ofNat 64 o) &&& 0xFFF).toNat = o := by
  have hmask := Bits.toNat_and_lowMask (BitVec.ofNat 64 o) 12
  have hlow : BitVec.ofNat 64 (2 ^ 12 - 1) = 0xFFF := rfl
  rw [hlow, BitVec.toNat_ofNat] at hmask
  rw [hmask]
  omega

theorem agrees_iff_watched {τ : Nat → Byte} (h : c.Agrees σ) :
    c.Agrees τ ↔ ∀ o, Watched c.pxcapBaseOffset o → τ o = σ o := by
  constructor
  · rintro hτ o (ho | ho)
    · rw [← hτ.windows o ho, h.windows o ho]
    · rw [← hτ.capability o ho, h.capability o ho]
  · intro hsame
    exact ⟨fun o ho => (h.windows o ho).trans (hsame o (.inl ho)).symm,
      fun o ho => (h.capability o ho).trans (hsame o (.inr ho)).symm⟩

/-- A read inside the registers returns the bytes that are there. -/
theorem readConfig_watched {addr : Addr} (hs : size = 1 ∨ size = 2 ∨ size = 4)
    (hw : ∀ i < size, Watched c.pxcapBaseOffset ((addr &&& 0xFFF).toNat + i)) :
    c.readConfig id addr size = .ok ((List.range size).map fun i => c.powerOn id ((addr &&& 0xFFF).toNat + i)) := by
  generalize hoff : (addr &&& 0xFFF).toNat = offset at hw ⊢
  have hw0 : Watched c.pxcapBaseOffset offset := hw 0 (by omega)
  rw [readConfig, hoff]
  rcases hw0 with hw0 | hcap
  · -- a read that starts in the windows stays below the capability
    have hlt := windowOffsets_lt hw0
    simp only [if_pos (show offset < 64 by omega)]
    refine readBytes_eq (σ := fun i => c.powerOn id (offset + i)) hs fun i hi => ?_
    have hmem := (hw i hi).resolve_right fun hcap => by
      have := hcap.1
      omega
    rw [data_windowByte id c.storage1 hmem, (agrees_powerOn id c).windows _ hmem]
  · simp only [if_neg (Nat.not_lt.2 hcap.1), if_pos hcap.2]
    refine readBytes_eq (σ := fun i => c.powerOn id (offset + i)) hs fun i hi => ?_
    have hcapi : InCapability c.pxcapBaseOffset (offset + i) := (hw i hi).resolve_left fun hmem => by
      have := windowOffsets_lt hmem
      have := hcap.1
      omega
    have hidx : offset - c.pxcapBaseOffset + i = offset + i - c.pxcapBaseOffset := by
      have := hcap.2.1
      omega
    have hlt : offset + i - c.pxcapBaseOffset < 36 := by
      have := hcapi.2
      omega
    rw [hidx, List.getElem?_map, List.getElem?_range hlt, Option.map_some, (agrees_powerOn id c).capability _ hcapi]

theorem Agrees.readConfig (h : c.Agrees σ) : c.ReadsBack id σ := by
  intro addr size hs hw
  rw [readConfig_watched hs hw]
  refine congrArg Except.ok (List.map_congr_left fun i hi => ?_)
  exact ((agrees_iff_watched (agrees_powerOn id c)).1 h _ (hw i (List.mem_range.1 hi))).symm

theorem ReadsBack.agrees (hpx : c.pxcapBaseOffset < 256) (h : c.ReadsBack id σ) : c.Agrees σ := by
  refine (agrees_iff_watched (agrees_powerOn id c)).2 fun o ho => ?_
  have hlt : o < 4096 := by
    rcases ho with ho | ho
    · have := windowOffsets_lt ho
      omega
    · have := ho.2.2
      omega
  have hw : ∀ i < 1, Watched c.pxcapBaseOffset ((BitVec.ofNat 64 o &&& 0xFFF).toNat + i) := by
    intro i hi
    rw [offset_ofNat hlt, Nat.lt_one_iff.1 hi]
    exact ho
  have hbytes := h (BitVec.ofNat 64 o) 1 (.inl rfl) hw
  rw [readConfig_watched (.inl rfl) hw, offset_ofNat hlt] at hbytes
  exact (List.cons.inj (Except.ok.inj hbytes)).1.symm

/-! ## One write -/

/-- The writes to base and limit registers that `writeConfig` knows: access size and offset. -/
def handledWrites : List (Nat × Nat) :=
  [(1, 0x1C), (1, 0x1D), (2, 0x1C), (2, 0x20), (2, 0x22), (4, 0x20), (2, 0x24), (2, 0x26), (4, 0x24)]

/-- **The writes that keep the registers in step with the config space.**  A write the source does not know must change
nothing; the prefetchable base must be written with the low nibble it has; the low nibble of the prefetchable limit must
be 0. -/
def Honoured (pxcap : Nat) (σ : Nat → Byte) (w : RegWrite) : Prop :=
  if handledWrites.contains (w.size, w.offset) then
    (w.offset = 0x24 → Packet.hostByte w.val 0 &&& 0x0F = σ 0x24 &&& 0x0F) ∧
      ((w.size, w.offset) ∈ [(2, 0x26), (4, 0x24)] → σ 0x26 &&& 0x0F = 0)
  else ∀ o, Watched pxcap o → specWrite pxcap σ w o = σ o

structure SameWindows (c c' : ConfigClass) : Prop where
  ioBase : c'.storage1.ioBase = c.storage1.ioBase
  ioLimit : c'.storage1.ioLimit = c.storage1.ioLimit
  memoryBase : c'.storage1.memoryBase = c.storage1.memoryBase
  memoryLimit : c'.storage1.memoryLimit = c.storage1.memoryLimit
  prefetchableMemoryBase : c'.storage1.prefetchableMemoryBase = c.storage1.prefetchableMemoryBase
  prefetchableMemoryLimit : c'.storage1.prefetchableMemoryLimit = c.storage1.prefetchableMemoryLimit
  storage2 : c'.storage2 = c.storage2
  pxcapBaseOffset : c'.pxcapBaseOffset = c.pxcapBaseOffset

theorem SameWindows.refl (c : ConfigClass) : SameWindows c c := ⟨rfl, rfl, rfl, rfl, rfl, rfl, rfl, rfl⟩

theorem SameWindows.agrees (h : SameWindows c c') : c'.Agrees σ ↔ c.Agrees σ := by
  have hbyte : ∀ o, windowByte c'.storage1 o = windowByte c.storage1 o := fun o => by
    simp only [windowByte, h.ioBase, h.ioLimit, h.memoryBase, h.memoryLimit, h.prefetchableMemoryBase,
      h.prefetchableMemoryLimit]
  constructor
  · rintro ⟨hw, hc⟩
    rw [h.pxcapBaseOffset, h.storage2] at hc
    exact ⟨fun o ho => by rw [← hbyte]; exact hw o ho, hc⟩
  · rintro ⟨hw, hc⟩
    refine ⟨fun o ho => by rw [hbyte]; exact hw o ho, ?_⟩
    rw [h.pxcapBaseOffset, h.storage2]
    exact hc

theorem sameWindows_ite {p : Prop} [Decidable p] {x y : ConfigClass × Bool} (hx : p → SameWindows c x.1)
    (hy : ¬ p → SameWindows c y.1) : SameWindows c (if p then x else y).1 := by
  by_cases h : p
  · rw [if_pos h]
    exact hx h
  · rw [if_neg h]
    exact hy h

/-- **A write the source does not know** changes no base or limit register and nothing of the capability. -/
theorem writeConfigs_same : ((1, offset) ∉ handledWrites → ∀ val, SameWindows c (c.writeConfig8 offset val).1) ∧
    ((2, offset) ∉ handledWrites → ∀ val, SameWindows c (c.writeConfig16 offset val).1) ∧
    ((4, offset) ∉ handledWrites → ∀ val, SameWindows c (c.writeConfig32 offset val).1) := by
  refine ⟨fun h val => ?_, fun h val => ?_, fun h val => ?_⟩
  all_goals
    first | unfold writeConfig8 | unfold writeConfig16 | unfold writeConfig32
    repeat' apply sameWindows_ite <;> intro hoff
    all_goals first
      | exact ⟨rfl, rfl, rfl, rfl, rfl, rfl, rfl, rfl⟩
      | exact absurd (by rw [hoff]; decide) h

theorem writeConfig_same (hc : c.writeConfig w.addr w.size w.val = .ok (c', flag))
    (h : (w.size, w.offset) ∉ handledWrites) : SameWindows c c' := by
  rcases writeConfig_cases hc with ⟨rfl, -⟩ | ⟨hs, rfl⟩ | ⟨hs, rfl⟩ | ⟨hs, rfl⟩
  · exact SameWindows.refl _
  · exact writeConfigs_same.1 (hs ▸ h) _
  · exact writeConfigs_same.2.1 (hs ▸ h) _
  · exact writeConfigs_same.2.2 (hs ▸ h) _

/-! ## The bytes of a written register -/

section Merge

variable {w : Nat}

theorem getLsbD_merge (m v old : BitVec w) (i : Nat) :
    (merge m v old).getLsbD i = if m.getLsbD i then old.getLsbD i else v.getLsbD i := by
  rw [merge, BitVec.getLsbD_or, BitVec.getLsbD_and, BitVec.getLsbD_and, BitVec.getLsbD_not]
  by_cases hi : i < w
  · cases hm : m.getLsbD i <;> simp [hi]
  · simp [hi, BitVec.getLsbD_of_ge _ _ (Nat.le_of_not_lt hi)]

theorem merge_self (m v : BitVec w) : merge m v v = v := by
  refine BitVec.eq_of_getLsbD_eq fun i _ => ?_
  rw [getLsbD_merge, ite_self]

theorem merge_eq_merge (m v x y : BitVec w) : merge m v x = merge m v y ↔ x &&& m = y &&& m := by
  have hkept : ∀ z : BitVec w, merge m v z &&& m = z &&& m := fun z => by
    refine BitVec.eq_of_getLsbD_eq fun i _ => ?_
    rw [BitVec.getLsbD_and, BitVec.getLsbD_and, getLsbD_merge]
    cases m.getLsbD i <;> simp
  constructor
  · intro h
    rw [← hkept x, h, hkept y]
  · intro h
    rw [merge, merge, h]

theorem merge_zero_mask (v old : BitVec w) : merge 0 v old = v := by
  refine BitVec.eq_of_getLsbD_eq fun i _ => ?_
  rw [getLsbD_merge, if_neg (by simp)]

theorem hostByte_merge (m v old : BitVec w) (i : Nat) :
    Packet.hostByte (merge m v old) i = merge (Packet.hostByte m i) (Packet.hostByte v i) (Packet.hostByte old i) := by
  refine BitVec.eq_of_getLsbD_eq fun j hj => ?_
  simp only [Packet.hostByte, getLsbD_merge, BitVec.getLsbD_extractLsb', hj, decide_true, Bool.true_and]

theorem hostByte_setWidth (v : BitVec w) {n i : Nat} (hi : 8 * i + 8 ≤ n) :
    Packet.hostByte (v.setWidth n) i = Packet.hostByte v i := by
  refine BitVec.eq_of_getLsbD_eq fun j hj => ?_
  simp only [Packet.hostByte, BitVec.getLsbD_extractLsb', BitVec.getLsbD_setWidth, hj, decide_true, Bool.true_and,
    decide_eq_true (show 8 * i + j < n by omega)]

theorem hostByte_ushiftRight (v : BitVec w) (k i : Nat) :
    Packet.hostByte (v >>> (8 * k)) i = Packet.hostByte v (k + i) := by
  refine BitVec.eq_of_getLsbD_eq fun j _ => ?_
  simp only [Packet.hostByte, BitVec.getLsbD_extractLsb', BitVec.getLsbD_ushiftRight]
  congr 2
  omega

end Merge

theorem setWidth_eight {w : Nat} (v : BitVec w) : v.setWidth 8 = Packet.hostByte v 0 := by
  refine BitVec.eq_of_getLsbD_eq fun i hi => ?_
  simp only [Packet.hostByte, BitVec.getLsbD_setWidth, BitVec.getLsbD_extractLsb', Nat.mul_zero, Nat.zero_add]

theorem lowHalf_low (v : BitVec 32) : (v.setWidth 16).setWidth 8 = Packet.hostByte v 0 := by
  rw [setWidth_eight, hostByte_setWidth v (by decide)]

theorem lowHalf_high (v : BitVec 32) : (v.setWidth 16 >>> 8).setWidth 8 = Packet.hostByte v 1 := by
  rw [setWidth_eight, ← hostByte_setWidth (n := 16) v (by decide)]
  exact hostByte_ushiftRight (v.setWidth 16) 1 0

theorem highHalf_byte (v : BitVec 32) (hi : i < 2) :
    Packet.hostByte ((v >>> 16).setWidth 16) i = Packet.hostByte v (2 + i) := by
  rw [hostByte_setWidth _ (by omega)]
  exact hostByte_ushiftRight v 2 i

theorem written_byte {m : BitVec 16} {mb : Byte} (hm : Packet.hostByte m i = mb) (hv : Packet.hostByte v i = vb) :
    Packet.hostByte (merge m v old) i = merge mb vb (Packet.hostByte old i) := by
  rw [hostByte_merge, hm, hv]

theorem limit_merge (v old : BitVec 16) : (v &&& ~~~ 0x000F) ||| (old &&& 0x000) = merge 0x000F v 0 := by
  have hnone : old &&& 0x000 = (0 : BitVec 16) &&& 0x000F := BitVec.and_zero
  rw [hnone, merge]

theorem limit_low (hv : Packet.hostByte v 0 = vb) :
    Packet.hostByte ((v &&& ~~~ 0x000F) ||| (old &&& 0x000)) 0 = merge 0x0F vb 0 := by
  rw [limit_merge]
  exact written_byte rfl hv

theorem limit_high (hv : Packet.hostByte v 1 = vb) (b : Byte) :
    Packet.hostByte ((v &&& ~~~ 0x000F) ||| (old &&& 0x000)) 1 = merge 0 vb b := by
  rw [limit_merge, hostByte_merge, hv]
  exact (merge_zero_mask vb _).trans (merge_zero_mask vb b).symm

def keptBits (o : Nat) : Byte := if o = 0x24 then 0 else readOnlyBits 0 o

def keptFrom (h : BridgeHeader) (o : Nat) : Byte := if o = 0x26 then 0 else windowByte h o

theorem mem_windowOffsets (ho : o ∈ windowOffsets) : o = 0x1C ∨ o = 0x1D ∨ (0x20 ≤ o ∧ o < 0x28) := by
  revert o
  decide

theorem windowByte_congr {h h' : BridgeHeader} (ho : o ∈ windowOffsets) (hio : o = 0x1C → h'.ioBase = h.ioBase)
    (hiol : o = 0x1D → h'.ioLimit = h.ioLimit) (hmem : 0x20 ≤ o ∧ o < 0x22 → h'.memoryBase = h.memoryBase)
    (hmeml : 0x22 ≤ o ∧ o < 0x24 → h'.memoryLimit = h.memoryLimit)
    (hpre : 0x24 ≤ o ∧ o < 0x26 → h'.prefetchableMemoryBase = h.prefetchableMemoryBase)
    (hprel : 0x26 ≤ o ∧ o < 0x28 → h'.prefetchableMemoryLimit = h.prefetchableMemoryLimit) :
    windowByte h' o = windowByte h o := by
  have hrange := mem_windowOffsets ho
  unfold windowByte
  split_ifs with h1 h2 h3 h4 h5
  · exact hio h1
  · exact hiol h2
  · rw [hmem (by omega)]
  · rw [hmeml (by omega)]
  · rw [hpre (by omega)]
  · rw [hprel (by omega)]

/-- **What a write that the source knows leaves in the bytes it covers.** -/
theorem writeConfig_handled (hc : c.writeConfig w.addr w.size w.val = .ok (c', flag))
    (h : (w.size, w.offset) ∈ handledWrites) : (∀ o ∈ windowOffsets, windowByte c'.storage1 o =
      if w.offset ≤ o ∧ o < w.offset + w.size then
        merge (keptBits o) (Packet.hostByte w.val (o - w.offset)) (keptFrom c.storage1 o)
      else windowByte c.storage1 o) ∧
      c'.storage2 = c.storage2 ∧ c'.pxcapBaseOffset = c.pxcapBaseOffset := by
  unfold writeConfig at hc
  change (w.size, (w.addr &&& 0xFFF).toNat) ∈ handledWrites at h
  rw [RegWrite.offset]
  generalize (w.addr &&& 0xFFF).toNat = offset at hc h ⊢
  generalize w.size = size at hc h ⊢
  generalize w.val = val at hc ⊢
  simp only [handledWrites, List.mem_cons, List.not_mem_nil, or_false, Prod.mk.injEq] at h
  rcases h with ⟨rfl, rfl⟩ | ⟨rfl, rfl⟩ | ⟨rfl, rfl⟩ | ⟨rfl, rfl⟩ | ⟨rfl, rfl⟩ | ⟨rfl, rfl⟩ | ⟨rfl, rfl⟩ | ⟨rfl, rfl⟩ |
    ⟨rfl, rfl⟩ <;>
  obtain rfl := congrArg Prod.fst (Except.ok.inj hc) <;>
  refine ⟨fun o ho => ?_, rfl, rfl⟩ <;>
  split <;> rename_i hcov
  -- the bytes that are not covered are in other registers
  all_goals try
    refine windowByte_congr ho ?_ ?_ ?_ ?_ ?_ ?_ <;> intro h <;> first
      | rfl
      | exact absurd h (by omega)
  · obtain rfl : o = 0x1C := by omega
    exact congrArg (merge 0x0F · _) (setWidth_eight val)
  · obtain rfl : o = 0x1D := by omega
    exact congrArg (merge 0x0F · _) (setWidth_eight val)
  · obtain rfl | rfl : o = 0x1C ∨ o = 0x1D := by omega
    · exact congrArg (merge 0x0F · _) (lowHalf_low val)
    · exact congrArg (merge 0x0F · _) (lowHalf_high val)
  · obtain rfl | rfl : o = 0x20 ∨ o = 0x21 := by omega
    · exact written_byte rfl (hostByte_setWidth val (by decide))
    · exact written_byte rfl (hostByte_setWidth val (by decide))
  · obtain rfl | rfl : o = 0x22 ∨ o = 0x23 := by omega
    · exact written_byte rfl (hostByte_setWidth val (by decide))
    · exact written_byte rfl (hostByte_setWidth val (by decide))
  · obtain rfl | rfl | rfl | rfl : o = 0x20 ∨ o = 0x21 ∨ o = 0x22 ∨ o = 0x23 := by omega
    · exact written_byte rfl (hostByte_setWidth val (by decide))
    · exact written_byte rfl (hostByte_setWidth val (by decide))
    · exact written_byte rfl (highHalf_byte val (by decide))
    · exact written_byte rfl (highHalf_byte val (by decide))
  · obtain rfl | rfl : o = 0x24 ∨ o = 0x25 := by omega
    · exact written_byte rfl (hostByte_setWidth val (by decide))
    · exact written_byte rfl (hostByte_setWidth val (by decide))
  · obtain rfl | rfl : o = 0x26 ∨ o = 0x27 := by omega
    · exact limit_low (hostByte_setWidth val (by decide))
    · exact limit_high (hostByte_setWidth val (by decide)) _
  · obtain rfl | rfl | rfl | rfl : o = 0x24 ∨ o = 0x25 ∨ o = 0x26 ∨ o = 0x27 := by omega
    · exact written_byte rfl (hostByte_setWidth val (by decide))
    · exact written_byte rfl (hostByte_setWidth val (by decide))
    · exact limit_low (highHalf_byte val (by decide))
    · exact limit_high (highHalf_byte val (by decide)) _

theorem handled_covers (h : (size, offset) ∈ handledWrites) :
    offset + size ≤ 0x28 ∧ (offset ≤ 0x24 ∧ 0x24 < offset + size ↔ offset = 0x24) ∧
      (offset ≤ 0x26 ∧ 0x26 < offset + size ↔ (size, offset) ∈ [(2, 0x26), (4, 0x24)]) := by
  have hall : ∀ p ∈ handledWrites, p.2 + p.1 ≤ 0x28 ∧ (p.2 ≤ 0x24 ∧ 0x24 < p.2 + p.1 ↔ p.2 = 0x24) ∧
      (p.2 ≤ 0x26 ∧ 0x26 < p.2 + p.1 ↔ p ∈ [(2, 0x26), (4, 0x24)]) := by decide
  exact hall _ h

theorem readOnlyBits_window (pxcap : Nat) (ho : o ∈ windowOffsets) : readOnlyBits pxcap o = readOnlyBits 0 o := by
  unfold readOnlyBits
  simp only [windowOffsets, List.mem_cons, List.not_mem_nil, or_false] at ho ⊢
  split_ifs with h1 h2 <;> first | rfl | omega

theorem keptBits_eq (pxcap : Nat) (ho : o ∈ windowOffsets) (h24 : o ≠ 0x24) : keptBits o = readOnlyBits pxcap o := by
  rw [keptBits, if_neg h24, readOnlyBits_window pxcap ho]

theorem kept_agrees (hσ : c.Agrees σ) (pxcap : Nat) (ho : o ∈ windowOffsets) (v : Byte) :
    merge (keptBits o) v (keptFrom c.storage1 o) = merge (readOnlyBits pxcap o) v (σ o) ↔
      (o = 0x24 → v &&& 0x0F = σ o &&& 0x0F) ∧ (o = 0x26 → σ o &&& 0x0F = 0) := by
  by_cases h24 : o = 0x24
  · subst h24
    have hmask : merge 0 v (keptFrom c.storage1 0x24) = merge 0x0F v v := by
      rw [merge_zero_mask, merge_self]
    change merge 0 v _ = merge 0x0F v _ ↔ _
    rw [hmask, merge_eq_merge]
    exact ⟨fun h => ⟨fun _ => h, fun h26 => absurd h26 (by decide)⟩, fun h => h.1 rfl⟩
  · rw [keptBits_eq pxcap ho h24, merge_eq_merge, keptFrom]
    by_cases h26 : o = 0x26
    · subst h26
      rw [if_pos rfl]
      have hzero : (0 : Byte) &&& readOnlyBits pxcap 0x26 = 0 := BitVec.zero_and
      rw [hzero, eq_comm]
      exact ⟨fun h => ⟨fun h24' => absurd h24' h24, fun _ => h⟩, fun h => h.2 rfl⟩
    · rw [if_neg h26, hσ.windows o ho]
      exact ⟨fun _ => ⟨fun h => absurd h h24, fun h => absurd h h26⟩, fun _ => rfl⟩

theorem writeConfig_pxcap (hc : c.writeConfig w.addr w.size w.val = .ok (c', flag)) :
    c'.pxcapBaseOffset = c.pxcapBaseOffset := by
  by_cases h : (w.size, w.offset) ∈ handledWrites
  · exact (writeConfig_handled hc h).2.2
  · exact (writeConfig_same hc h).pxcapBaseOffset

/-- **One write keeps the registers in step exactly when it is honoured.** -/
theorem writeConfig_agrees (hσ : c.Agrees σ) (hc : c.writeConfig w.addr w.size w.val = .ok (c', flag)) :
    c'.Agrees (specWrite c.pxcapBaseOffset σ w) ↔ Honoured c.pxcapBaseOffset σ w := by
  unfold Honoured
  simp only [List.contains_iff_mem]
  split_ifs with h
  · obtain ⟨hend, h24, h26⟩ := handled_covers h
    obtain ⟨hbyte, hstore, hpx⟩ := writeConfig_handled hc h
    have hcap : ∀ o, InCapability c.pxcapBaseOffset o → specWrite c.pxcapBaseOffset σ w o = σ o := by
      intro o ho
      have := ho.1
      rw [specWrite, if_neg (by omega)]
    have hkept := fun o (ho : o ∈ windowOffsets) => kept_agrees hσ c.pxcapBaseOffset ho
    constructor
    · intro hτ
      have hcovered : ∀ o ∈ windowOffsets, w.offset ≤ o ∧ o < w.offset + w.size →
          (o = 0x24 → Packet.hostByte w.val (o - w.offset) &&& 0x0F = σ o &&& 0x0F) ∧ (o = 0x26 → σ o &&& 0x0F = 0) := by
        intro o ho hcov
        have hb := hτ.windows o ho
        rw [hbyte o ho, specWrite, if_pos hcov, if_pos hcov] at hb
        exact (hkept o ho _).1 hb
      constructor
      · intro hoff
        have hb := (hcovered 0x24 (by decide) (h24.2 hoff)).1 rfl
        rw [hoff] at hb
        exact hb
      · intro hmem
        exact (hcovered 0x26 (by decide) (h26.2 hmem)).2 rfl
    · rintro ⟨hbase, hlimit⟩
      constructor
      · intro o ho
        rw [hbyte o ho, specWrite]
        split_ifs with hcov
        · refine (hkept o ho _).2 ⟨fun ho24 => ?_, fun ho26 => ?_⟩
          · subst ho24
            have hoff := h24.1 hcov
            rw [hoff]
            exact hbase hoff
          · subst ho26
            exact hlimit (h26.1 hcov)
        · exact hσ.windows o ho
      · intro o ho
        rw [hpx] at ho ⊢
        rw [hstore, hcap o ho]
        exact hσ.capability o ho
  · rw [(writeConfig_same hc h).agrees]
    exact agrees_iff_watched hσ

/-! ## Runs -/

def AllHonoured (pxcap : Nat) : (Nat → Byte) → List RegWrite → Prop
  | _, [] => True
  | σ, w :: ws => Honoured pxcap σ w ∧ AllHonoured pxcap (specWrite pxcap σ w) ws

theorem configure_pxcap : ∀ {c c' : ConfigClass}, c.configure ws = .ok c' →
    c'.pxcapBaseOffset = c.pxcapBaseOffset := by
  induction ws with
  | nil =>
    intro c c' h
    rw [← Except.ok.inj h]
  | cons w ws ih =>
    intro c c' h
    obtain ⟨⟨c₁, flag⟩, hw, hrest⟩ := Run.bind_eq_ok.1 h
    rw [ih hrest, writeConfig_pxcap hw]

theorem configure_agrees : ∀ {c c' : ConfigClass} {σ : Nat → Byte}, c.Agrees σ →
    c.configure ws = .ok c' →
    ((∀ n ≤ ws.length, ∀ d, c.configure (ws.take n) = .ok d → d.Agrees (specRun c.pxcapBaseOffset σ (ws.take n))) ↔
      AllHonoured c.pxcapBaseOffset σ ws) := by
  induction ws with
  | nil =>
    intro c c' σ hσ _
    refine ⟨fun _ => trivial, fun _ n _ d hd => ?_⟩
    rw [List.take_nil] at hd ⊢
    rw [← Except.ok.inj hd]
    exact hσ
  | cons w ws ih =>
    intro c c' σ hσ h
    obtain ⟨⟨c₁, flag⟩, hw, hrest⟩ := Run.bind_eq_ok.1 h
    have hpx := writeConfig_pxcap hw
    have hone := writeConfig_agrees hσ hw
    have hsucc : ∀ n, c.configure ((w :: ws).take (n + 1)) = c₁.configure (ws.take n) := fun n => by
      rw [List.take_succ_cons, configure, hw, Run.ok_bind]
    constructor
    · intro hall
      -- the configuration after `w` is the one after no further write
      have hfirst : Honoured c.pxcapBaseOffset σ w :=
        hone.1 (hall 1 (Nat.succ_le_succ (Nat.zero_le _)) c₁ (by rw [hsucc]; rfl))
      have hτ := hone.2 hfirst
      refine ⟨hfirst, ?_⟩
      rw [← hpx] at hτ ⊢
      refine (ih hτ hrest).1 fun n hn d hd => ?_
      have hd' := hall (n + 1) (Nat.succ_le_succ hn) d ((hsucc n).trans hd)
      rw [← hpx] at hd'
      exact hd'
    · rintro ⟨hfirst, hall⟩ n hn d hd
      have hτ := hone.2 hfirst
      cases n with
      | zero =>
        rw [← Except.ok.inj hd]
        exact hσ
      | succ n =>
        rw [← hpx] at hτ hall ⊢
        exact (ih hτ hrest).2 hall n (Nat.le_of_succ_le_succ hn) d ((hsucc n).symm.trans hd)

/-- **Write and read back.**  After each write of a run, reads return what the config space holds, exactly when every
write is honoured: one the source knows, of the low nibbles the prefetchable registers have. -/
theorem reads_back_iff {c₀ c : ConfigClass} {ws : List RegWrite} (id : BridgeIdent) (h : c₀.configure ws = .ok c)
    (hpx : c₀.pxcapBaseOffset < 256) :
    (∀ n ≤ ws.length, ∀ d, c₀.configure (ws.take n) = .ok d →
        d.ReadsBack id (specRun c₀.pxcapBaseOffset (c₀.powerOn id) (ws.take n))) ↔
      AllHonoured c₀.pxcapBaseOffset (c₀.powerOn id) ws := by
  rw [← configure_agrees (agrees_powerOn id c₀) h]
  constructor
  · intro hall n hn d hd
    exact (hall n hn d hd).agrees (by rw [configure_pxcap hd]; exact hpx)
  · intro hall n hn d hd
    exact (hall n hn d hd).readConfig

theorem reads_back_windows :
    ∃ c, configure {} [⟨0x20, 4, 0xA1509008⟩, ⟨0x24, 4, 0xC000B000⟩] = .ok c ∧
      c.ReadsBack {} (specRun 0xD0 (powerOn {} {}) [⟨0x20, 4, 0xA1509008⟩, ⟨0x24, 4, 0xC000B000⟩]) := by
  obtain ⟨c, hc⟩ : ∃ c, configure {} [⟨0x20, 4, 0xA1509008⟩, ⟨0x24, 4, 0xC000B000⟩] = .ok c := ⟨_, rfl⟩
  refine ⟨c, hc, (reads_back_iff {} hc (by decide)).2 ?_ 2 (Nat.le_refl 2) c hc⟩
  refine ⟨?_, ?_, trivial⟩
  · rw [Honoured, if_pos (by decide)]
    exact ⟨fun h => absurd h (by decide), fun h => absurd h (by decide)⟩
  · rw [Honoured, if_pos (by decide)]
    exact ⟨fun _ => (by decide), fun _ => (by decide)⟩

/-- A byte of the capability does not take `0x12`, and the low nibble of the prefetchable base takes `0xF`. -/
theorem writes_not_read_back :
    (∃ c, configure {} [⟨0xD0, 1, 0x12⟩] = .ok c ∧ c.readConfig {} 0xD0 1 = .ok [0x00] ∧
        specRun 0xD0 (powerOn {} {}) [⟨0xD0, 1, 0x12⟩] 0xD0 = 0x12) ∧
      ∃ c, configure {} [⟨0x24, 2, 0x000F⟩] = .ok c ∧ c.readConfig {} 0x24 1 = .ok [0x0F] ∧
        specRun 0xD0 (powerOn {} {}) [⟨0x24, 2, 0x000F⟩] 0x24 = 0x00 :=
  ⟨⟨_, rfl, by decide +kernel, by decide⟩, ⟨_, rfl, rfl, by decide⟩⟩

end ConfigClass

end Gem5
