import Gem5Cxl.Packet
/-!
# BridgeConfig — the config space of a PCI-PCI bridge (`config_class` in `dev/PciBridge2.hh`, `dev/PciBridge2.cc`)

The header registers a config write can change, the windows they decode to, and `writeConfig` over its three access
widths.  A window's base and its limit each have a flag that the first write of the register sets.  `IOBaseUpper` and
`IOLimitUpper` keep their power-on values: the source accepts the write and drops the value.

An `int` product that overflows wraps, and is sign extended when it is added to a 64-bit base.
-/
namespace Gem5

/-- `config_storage`: the registers of the bridge header that software can write, with the power-on values of
`RootComplex` in `PciBridge2.py`. -/
structure BridgeHeader where
  command : BitVec 16 := 0x0407
  status : BitVec 16 := 0x0010
  bist : BitVec 8 := 0
  bar0 : BitVec 32 := 0
  bar1 : BitVec 32 := 0
  primaryBusNumber : BitVec 8 := 0
  secondaryBusNumber : BitVec 8 := 0
  subordinateBusNumber : BitVec 8 := 0
  secondaryLatencyTimer : BitVec 8 := 0
  ioBase : BitVec 8 := 0x01
  ioLimit : BitVec 8 := 0x01
  secondaryStatus : BitVec 16 := 0
  memoryBase : BitVec 16 := 0
  memoryLimit : BitVec 16 := 0
  prefetchableMemoryBase : BitVec 16 := 0
  prefetchableMemoryLimit : BitVec 16 := 0
  prefetchableMemoryBaseUpper : BitVec 32 := 0
  prefetchableMemoryLimitUpper : BitVec 32 := 0
  ioBaseUpper : BitVec 16 := 0x2f00
  ioLimitUpper : BitVec 16 := 0x2f00
  expansionROMBaseAddress : BitVec 32 := 0
  interruptLine : BitVec 8 := 0x20
  bridgeControl : BitVec 16 := 0
deriving DecidableEq, Repr

structure ConfigClass where
  storage1 : BridgeHeader := {}
  /-- the PCIe capability structure, 36 bytes -/
  storage2 : Nat → Byte := fun _ => 0
  barsize0 : BitVec 32 := 0
  barsize1 : BitVec 32 := 0
  barflag0 : Bool := false
  barflag1 : Bool := false
  pciBus : Int := 0
  pxcapBaseOffset : Nat := 0xD0
  isValid : Bool := false
  validIOBase : Bool := false
  validIOLimit : Bool := false
  validPrefetchableMemoryBase : Bool := false
  validPrefetchableMemoryLimit : Bool := false
  validMemoryBase : Bool := false
  validMemoryLimit : Bool := false

inductive Window where
  | memory
  | prefetchable
  | io
deriving DecidableEq, Repr

namespace ConfigClass

/-! ## Decoding -/

def getBar0 (c : ConfigClass) : Addr := (c.storage1.bar0 &&& ~~~(c.barsize0 - 1)).setWidth 64

def getBar1 (c : ConfigClass) : Addr := (c.storage1.bar1 &&& ~~~(c.barsize1 - 1)).setWidth 64

def getIOBase (c : ConfigClass) : Addr :=
  ((c.storage1.ioBaseUpper.setWidth 32 <<< 16) + (c.storage1.ioBase >>> 4).setWidth 32 * 4096#32).setWidth 64

def getIOLimit (c : ConfigClass) : Addr :=
  (((c.storage1.ioLimitUpper.setWidth 32 <<< 16) + (c.storage1.ioLimit >>> 4).setWidth 32 * 4096#32) ||| 0xFFF#32).setWidth 64

def getMemoryBase (c : ConfigClass) : Addr := ((c.storage1.memoryBase >>> 4).setWidth 32 <<< 20).setWidth 64

def getMemoryLimit (c : ConfigClass) : Addr :=
  (((c.storage1.memoryLimit >>> 4).setWidth 32 <<< 20) ||| 0xFFFFF#32).setWidth 64

def getPrefetchableMemoryBase (c : ConfigClass) : Addr :=
  (c.storage1.prefetchableMemoryBaseUpper.setWidth 64 <<< 32) +
    ((c.storage1.prefetchableMemoryBase >>> 4).setWidth 32 * 1048576#32).signExtend 64

/-- The upper half of the limit is read into a `uint16_t`. -/
def getPrefetchableMemoryLimit (c : ConfigClass) : Addr :=
  (((c.storage1.prefetchableMemoryLimitUpper.setWidth 16).setWidth 64 <<< 32) +
    ((c.storage1.prefetchableMemoryLimit >>> 4).setWidth 32 * 1048576#32).signExtend 64) ||| 0xFFFFF#64

def base (c : ConfigClass) : Window → Addr
  | .memory => c.getMemoryBase
  | .prefetchable => c.getPrefetchableMemoryBase
  | .io => c.getIOBase

def limit (c : ConfigClass) : Window → Addr
  | .memory => c.getMemoryLimit
  | .prefetchable => c.getPrefetchableMemoryLimit
  | .io => c.getIOLimit

def validBase (c : ConfigClass) : Window → Bool
  | .memory => c.validMemoryBase
  | .prefetchable => c.validPrefetchableMemoryBase
  | .io => c.validIOBase

def validLimit (c : ConfigClass) : Window → Bool
  | .memory => c.validMemoryLimit
  | .prefetchable => c.validPrefetchableMemoryLimit
  | .io => c.validIOLimit

/-! ## Config writes -/

/-- `isWritable`: the read-only registers are the identification registers, the cache line size, the latency timers, the
header type, the capability pointer and the interrupt pin. -/
def isWritable (offset : Nat) : Bool :=
  decide (offset ∉ [0x00, 0x02, 0x08, 0x09, 0x0A, 0x0B, 0x0C, 0x0D, 0x0E, 0x1B, 0x34, 0x3D])

def merge {w : Nat} (mask val old : BitVec w) : BitVec w := (val &&& ~~~mask) ||| (old &&& mask)

/-- The bits of a BAR that tell its type: `IO_MASK` or `MEM_MASK`. -/
def barMask (bar : BitVec 32) : BitVec 32 := if bar &&& 1 ≠ 0 then 0x1 else 0xF

def assignBar (size val bar : BitVec 32) : BitVec 32 := (val &&& ~~~(size - 1)) ||| (bar &&& barMask bar)

/-- The answer of BAR1 to the sizing write `0xFFFFFFFF`. -/
def sizeBar1 (size bar : BitVec 32) : BitVec 32 := ~~~(size - 1) ||| (bar &&& barMask bar)

/-- The answer of BAR0, which as an I/O BAR complements the size before it subtracts. -/
def sizeBar0 (size bar : BitVec 32) : BitVec 32 :=
  if bar &&& 1 ≠ 0 then (~~~size - 1) ||| (bar &&& 0x1) else ~~~(size - 1) ||| (bar &&& 0xF)

/-- The one-byte case of `writeConfig`.  The second component is `flag`: the address ranges changed. -/
def writeConfig8 (c : ConfigClass) (offset : Nat) (val : BitVec 8) : ConfigClass × Bool :=
  if offset = 0x18 then ({ c with storage1.primaryBusNumber := val }, false)
  else if offset = 0x19 then ({ c with storage1.secondaryBusNumber := val, isValid := true }, false)
  else if offset = 0x1A then ({ c with storage1.subordinateBusNumber := val }, false)
  else if offset = 0x1C then
    ({ c with storage1.ioBase := merge 0x0F val c.storage1.ioBase, validIOBase := true }, true)
  else if offset = 0x1D then
    ({ c with storage1.ioLimit := merge 0x0F val c.storage1.ioLimit, validIOLimit := true }, true)
  else if offset = 0x3C then ({ c with storage1.interruptLine := val }, false)
  else if offset = 0x0F then ({ c with storage1.bist := val }, false)
  else (c, false)

/-- The two-byte case of `writeConfig`.  The command and status registers take the low byte only. -/
def writeConfig16 (c : ConfigClass) (offset : Nat) (val : BitVec 16) : ConfigClass × Bool :=
  if offset = 0x04 then ({ c with storage1.command := (val.setWidth 8).setWidth 16 ||| 0x0400 }, false)
  else if offset = 0x06 then ({ c with storage1.status := (val.setWidth 8).setWidth 16 }, false)
  else if offset = 0x1E then ({ c with storage1.secondaryStatus := (val.setWidth 8).setWidth 16 }, false)
  else if offset = 0x20 then
    ({ c with storage1.memoryBase := merge 0x000F val c.storage1.memoryBase, validMemoryBase := true }, true)
  else if offset = 0x22 then
    ({ c with storage1.memoryLimit := merge 0x000F val c.storage1.memoryLimit, validMemoryLimit := true }, true)
  else if offset = 0x24 then
    ({ c with
        storage1.prefetchableMemoryBase := merge 0x000 val c.storage1.prefetchableMemoryBase
        validPrefetchableMemoryBase := true }, true)
  else if offset = 0x26 then
    -- the bits kept are those of the mask of the base
    ({ c with
        storage1.prefetchableMemoryLimit := (val &&& ~~~0x000F) ||| (c.storage1.prefetchableMemoryLimit &&& 0x000)
        validPrefetchableMemoryLimit := true }, true)
  else if offset = 0x30 then ({ c with validIOBase := true }, true)
  else if offset = 0x32 then ({ c with validIOLimit := true }, true)
  else if offset = 0x3E then ({ c with storage1.bridgeControl := val }, false)
  else if offset = 0x1C then
    ({ c with
        storage1.ioBase := merge 0x0F (val.setWidth 8) c.storage1.ioBase
        storage1.ioLimit := merge 0x0F ((val >>> 8).setWidth 8) c.storage1.ioLimit
        validIOBase := true
        validIOLimit := true }, true)
  else (c, false)

def writeConfig32 (c : ConfigClass) (offset : Nat) (val : BitVec 32) : ConfigClass × Bool :=
  if offset = 0x38 then ({ c with storage1.expansionROMBaseAddress := 0 }, false)
  else if offset = 0x28 then
    ({ c with storage1.prefetchableMemoryBaseUpper := val, validPrefetchableMemoryBase := true }, true)
  else if offset = 0x2C then
    ({ c with storage1.prefetchableMemoryLimitUpper := val, validPrefetchableMemoryLimit := true }, true)
  else if offset = 0x10 then
    if val = 0xFFFFFFFF then ({ c with storage1.bar0 := sizeBar0 c.barsize0 c.storage1.bar0 }, false)
    else ({ c with storage1.bar0 := assignBar c.barsize0 val c.storage1.bar0, barflag0 := true }, true)
  else if offset = 0x14 then
    if val = 0xFFFFFFFF then ({ c with storage1.bar1 := sizeBar1 c.barsize1 c.storage1.bar1 }, false)
    else ({ c with storage1.bar1 := assignBar c.barsize1 val c.storage1.bar1, barflag1 := true }, true)
  else if offset = 0x20 then
    ({ c with
        storage1.memoryBase := merge 0x000F (val.setWidth 16) c.storage1.memoryBase
        storage1.memoryLimit := merge 0x000F ((val >>> 16).setWidth 16) c.storage1.memoryLimit
        validMemoryBase := true
        validMemoryLimit := true }, true)
  else if offset = 0x30 then ({ c with validIOBase := true, validIOLimit := true }, true)
  else if offset = 0x24 then
    ({ c with
        storage1.prefetchableMemoryBase := merge 0x000 (val.setWidth 16) c.storage1.prefetchableMemoryBase
        storage1.prefetchableMemoryLimit :=
          ((val >>> 16).setWidth 16 &&& ~~~0x000F) ||| (c.storage1.prefetchableMemoryLimit &&& 0x000)
        validPrefetchableMemoryBase := true
        validPrefetchableMemoryLimit := true }, true)
  else if offset = 0x04 then
    ({ c with storage1.command := val.setWidth 16, storage1.status := (val >>> 16).setWidth 16 }, false)
  else if offset = 0x18 then
    -- the word covers the three bus numbers and the secondary latency timer
    ({ c with
        storage1.primaryBusNumber := val.setWidth 8
        storage1.secondaryBusNumber := (val >>> 8).setWidth 8
        storage1.subordinateBusNumber := (val >>> 16).setWidth 8
        storage1.secondaryLatencyTimer := (val >>> 24).setWidth 8
        isValid := true }, false)
  else (c, false)

/-- A write to the PCIe capability structure.  The guard against the slot registers is the source's: no offset is below
20 and above 27. -/
def writeCapability (c : ConfigClass) (offset size : Nat) (val : BitVec 32) : Except Failure ConfigClass :=
  if offset < 20 ∧ 27 < offset then
    if size = 1 ∨ size = 2 ∨ size = 4 then
      .ok { c with storage2 := ByteStore.patch c.storage2 offset (fun i : Fin size => some (Packet.hostByte val i)) }
    else .error (.panic "invalid access size\n")
  else .ok c

def writeConfig (c : ConfigClass) (addr : Addr) (size : Nat) (val : BitVec 32) : Except Failure (ConfigClass × Bool) :=
  let offset := (addr &&& 0xFFF).toNat
  if offset < 64 then
    if isWritable offset = false then .ok (c, false)
    else if size = 1 then .ok (c.writeConfig8 offset (val.setWidth 8))
    else if size = 2 then .ok (c.writeConfig16 offset (val.setWidth 16))
    else if size = 4 then .ok (c.writeConfig32 offset val)
    else .error (.panic "invalid access size\n")
  else if c.pxcapBaseOffset ≤ offset ∧ offset < c.pxcapBaseOffset + 36 then
    (c.writeCapability (offset - c.pxcapBaseOffset) size val).map (fun c' => (c', false))
  else .error (.panic "out of range access to pcie config space\n")

/-! ## Which writes set which flag -/

/-- The writes that set a window's base flag: access size and register offset. -/
def baseWrites : Window → List (Nat × Nat)
  | .memory => [(2, 0x20), (4, 0x20)]
  | .prefetchable => [(2, 0x24), (4, 0x24), (4, 0x28)]
  | .io => [(1, 0x1C), (2, 0x1C), (2, 0x30), (4, 0x30)]

def limitWrites : Window → List (Nat × Nat)
  | .memory => [(2, 0x22), (4, 0x20)]
  | .prefetchable => [(2, 0x26), (4, 0x24), (4, 0x2C)]
  | .io => [(1, 0x1D), (2, 0x1C), (2, 0x32), (4, 0x30)]

def FlagsAfter (c c' : ConfigClass) (size offset : Nat) : Prop :=
  ∀ k, c'.validBase k = (c.validBase k || decide ((size, offset) ∈ baseWrites k)) ∧
    c'.validLimit k = (c.validLimit k || decide ((size, offset) ∈ limitWrites k))

variable {offset size : Nat} {c : ConfigClass}

theorem flagsAfter_self (h : ∀ k, (size, offset) ∉ baseWrites k ++ limitWrites k) : FlagsAfter c c size offset := by
  intro k
  have hk := h k
  rw [List.mem_append, not_or] at hk
  simp [hk.1, hk.2]

theorem flagsAfter_ite {p : Prop} [Decidable p] {x y : ConfigClass × Bool} (hx : p → FlagsAfter c x.1 size offset)
    (hy : ¬ p → FlagsAfter c y.1 size offset) : FlagsAfter c (if p then x else y).1 size offset := by
  by_cases h : p
  · rw [if_pos h]
    exact hx h
  · rw [if_neg h]
    exact hy h

theorem writeConfigs_flags (c : ConfigClass) (offset : Nat) : (∀ val, FlagsAfter c (c.writeConfig8 offset val).1 1 offset) ∧
    (∀ val, FlagsAfter c (c.writeConfig16 offset val).1 2 offset) ∧
    ∀ val, FlagsAfter c (c.writeConfig32 offset val).1 4 offset := by
  refine ⟨fun val => ?_, fun val => ?_, fun val => ?_⟩
  all_goals
    first | unfold writeConfig8 | unfold writeConfig16 | unfold writeConfig32
    repeat' apply flagsAfter_ite <;> intro h
    all_goals first
      | apply flagsAfter_self
        intro k
        cases k <;> simp [baseWrites, limitWrites] <;> omega
      | subst offset
        intro k
        cases k <;> simp [validBase, validLimit, baseWrites, limitWrites]

theorem writes_offset {k : Window} (h : (size, offset) ∈ baseWrites k ++ limitWrites k) :
    isWritable offset = true ∧ offset < 64 := by
  have hall : ∀ k, ∀ w ∈ baseWrites k ++ limitWrites k, isWritable w.2 = true ∧ w.2 < 64 := by
    intro k
    cases k <;> decide
  exact hall k (size, offset) h

theorem writeCapability_eq (c : ConfigClass) (offset size : Nat) (val : BitVec 32) :
    c.writeCapability offset size val = .ok c := by
  unfold writeCapability
  rw [if_neg (by omega)]

section

variable {c' : ConfigClass} {addr : Addr} {val : BitVec 32} {flag : Bool} (h : c.writeConfig addr size val = .ok (c', flag))
include h

theorem writeConfig_cases : c' = c ∧ (isWritable (addr &&& 0xFFF).toNat = false ∨ ¬ (addr &&& 0xFFF).toNat < 64) ∨
      size = 1 ∧ c' = (c.writeConfig8 (addr &&& 0xFFF).toNat (val.setWidth 8)).1 ∨
      size = 2 ∧ c' = (c.writeConfig16 (addr &&& 0xFFF).toNat (val.setWidth 16)).1 ∨
      size = 4 ∧ c' = (c.writeConfig32 (addr &&& 0xFFF).toNat val).1 := by
  unfold writeConfig at h
  simp only [writeCapability_eq, Except.map] at h
  split_ifs at h with hhdr hro h1 h2 h4 hcap <;> injection h with h <;> replace h := (congrArg Prod.fst h).symm
  · exact .inl ⟨h, .inl hro⟩
  · exact .inr (.inl ⟨h1, h⟩)
  · exact .inr (.inr (.inl ⟨h2, h⟩))
  · exact .inr (.inr (.inr ⟨h4, h⟩))
  · exact .inl ⟨h, .inr hhdr⟩

/-- **A write sets exactly the flags of the registers it covers**, and clears none. -/
theorem writeConfig_flags : FlagsAfter c c' size (addr &&& 0xFFF).toNat := by
  rcases writeConfig_cases h with ⟨rfl, hout⟩ | ⟨rfl, rfl⟩ | ⟨rfl, rfl⟩ | ⟨rfl, rfl⟩
  · apply flagsAfter_self
    intro k hm
    obtain ⟨hw, hlt⟩ := writes_offset hm
    rcases hout with hro | hhdr
    · rw [hw] at hro
      cases hro
    · exact hhdr hlt
  · exact (writeConfigs_flags c _).1 _
  · exact (writeConfigs_flags c _).2.1 _
  · exact (writeConfigs_flags c _).2.2 _

end

/-! ## Windows -/

theorem add_even {w : Nat} {x y : BitVec w} (hx : x.getLsbD 0 = false) (hy : y.getLsbD 0 = false) :
    (x + y).getLsbD 0 = false := by
  by_cases hw : 0 < w
  · rw [BitVec.getLsbD_add hw, hx, hy, BitVec.carry_zero]
    rfl
  · exact BitVec.getLsbD_of_ge _ _ (by omega)

theorem mul_even (x : BitVec 32) {n : BitVec 32} (hn : n.toNat % 2 = 0) : (x * n).getLsbD 0 = false := by
  rw [BitVec.getLsbD, Nat.testBit_zero, BitVec.toNat_mul, decide_eq_false_iff_not,
    Nat.mod_mod_of_dvd _ (by decide : 2 ∣ 2 ^ 32), Nat.mul_mod, hn]
  simp

section

variable (c : ConfigClass) (k : Window)

theorem base_even : (c.base k).getLsbD 0 = false := by
  cases k with
  | memory => simp [base, getMemoryBase]
  | prefetchable =>
    apply add_even
    · simp
    · rw [BitVec.getLsbD_signExtend, if_pos (by decide), mul_even _ (by decide), Bool.and_false]
  | io =>
    rw [base, getIOBase, BitVec.getLsbD_setWidth, add_even (by simp) (mul_even _ (by decide)), Bool.and_false]

theorem limit_odd : (c.limit k).getLsbD 0 = true := by
  cases k with
  | memory => simp [limit, getMemoryLimit]
  | prefetchable => simp [limit, getPrefetchableMemoryLimit]
  | io => simp [limit, getIOLimit]

theorem limit_ne_zero : c.limit k ≠ 0 := by
  intro h
  have hodd := c.limit_odd k
  rw [h] at hodd
  cases hodd

theorem base_ne_limit : c.base k ≠ c.limit k := by
  intro h
  have heven := c.base_even k
  rw [h, c.limit_odd k] at heven
  cases heven

end

end ConfigClass
end Gem5
