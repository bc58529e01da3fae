import Gem5Cxl.AddrRange
/-!
# PciDevice — config space and the 64-bit memory BAR (`dev/pci/device.hh`, `dev/pci/device.cc`)

A device with one 64-bit memory BAR: BAR0 is the `PciMemBar`, BAR1 its `PciMemUpperBar`, and BAR2 to BAR5 are
`PciBarNone`.  The host is a `GenericPciHost`, which maps PCI memory space at `pciMemBase`.  Of the config space, the
registers a write can change are kept.
-/
namespace Gem5

structure PciMemBar where
  addr : Addr := 0
  size : Addr
  wide : Bool := false
  lower : BitVec 64 := 0
  upper : BitVec 64 := 0
deriving DecidableEq, Repr

def memAddr (pciMemBase pciAddr : Addr) : Addr := pciMemBase + pciAddr

def PciMemBar.create (size : Addr) : Except Failure PciMemBar :=
  if size = 0 || !decide (size &&& (size - 1) = 0) || !decide (size &&& 7 = 0) then
    .error (.panic "Illegal size for bar.")
  else .ok { size := size }

/-- `PciMemBar::write`: the new BAR, and what goes into config space. -/
def PciMemBar.write (b : PciMemBar) (pciMemBase : Addr) (val : BitVec 32) : PciMemBar × BitVec 32 :=
  -- mask away the bits fixed by hardware
  let bar : BitVec 32 := (val.setWidth 64 &&& ~~~(b.size - 1)).setWidth 32
  let barAddr : BitVec 32 := bar >>> 3
  let lower : BitVec 64 := (barAddr <<< 3).setWidth 64
  ({ b with lower := lower, addr := memAddr pciMemBase (b.upper + lower) },
    barAddr <<< 3 ||| (if b.wide then 4 else 0))

def PciMemBar.setUpper (b : PciMemBar) (pciMemBase : Addr) (val : BitVec 32) : PciMemBar :=
  let upper : BitVec 64 := val.setWidth 64 <<< 32
  { b with upper := upper, addr := memAddr pciMemBase (upper + b.lower) }

/-- `PciMemUpperBar::write`, on the BAR below it. -/
def PciMemBar.writeUpper (b : PciMemBar) (pciMemBase : Addr) (val : BitVec 32) : PciMemBar × BitVec 32 :=
  let upper : BitVec 64 := val.setWidth 64 &&& ~~~((b.size - 1) >>> 32)
  (b.setUpper pciMemBase (upper.setWidth 32), upper.setWidth 32)

structure PciConfig where
  command : BitVec 16 := 0
  status : BitVec 16 := 0
  cacheLineSize : BitVec 8 := 0
  latencyTimer : BitVec 8 := 0
  interruptLine : BitVec 8 := 0
  expansionROM : BitVec 32 := 0
  baseAddr : Fin 6 → BitVec 32 := fun _ => 0

structure PciDevice where
  pciMemBase : Addr
  config : PciConfig := {}
  bar0 : PciMemBar

namespace PciDevice

def writeBar (d : PciDevice) (num : Fin 6) (val : BitVec 32) : PciMemBar × BitVec 32 :=
  match num with
  | 0 => d.bar0.write d.pciMemBase val
  | 1 => d.bar0.writeUpper d.pciMemBase val
  | _ => (d.bar0, 0)

def setBar (d : PciDevice) (num : Fin 6) (val : BitVec 32) : PciDevice :=
  let (bar, v) := d.writeBar num val
  { d with
    bar0 := bar
    config := { d.config with baseAddr := fun i => if i = num then v else d.config.baseAddr i } }

/-- The constructor of `PciDevice`: BAR1 tells BAR0 that it is wide, and zero is written to every BAR. -/
def create (pciMemBase : Addr) (config : PciConfig) (bar : PciMemBar) : PciDevice :=
  let d : PciDevice := { pciMemBase := pciMemBase, config := config, bar0 := { bar with wide := true } }
  (List.finRange 6).foldl (fun d i => d.setBar i 0) d

def barNumber (offset : Nat) : Option (Fin 6) :=
  if h : 0x10 ≤ offset ∧ offset < 0x28 ∧ offset % 4 = 0 then some ⟨(offset - 0x10) / 4, by omega⟩ else none

def writeConfig8 (d : PciDevice) (offset : Nat) (val : BitVec 8) : Except Failure PciDevice :=
  if offset = 0x3C then .ok { d with config := { d.config with interruptLine := val } }
  else if offset = 0x0C then .ok { d with config := { d.config with cacheLineSize := val } }
  else if offset = 0x0D then .ok { d with config := { d.config with latencyTimer := val } }
  -- the read-only registers
  else if offset ∈ [0x3D, 0x3E, 0x3F, 0x09, 0x08] then .ok d
  else .error (.panic "writing to a read only register")

/-- The two-byte case of `writeConfig`, which reads the low byte only. -/
def writeConfig16 (d : PciDevice) (offset : Nat) (val : BitVec 8) : Except Failure PciDevice :=
  if offset = 0x04 then .ok { d with config := { d.config with command := val.setWidth 16 } }
  else if offset = 0x06 then .ok { d with config := { d.config with status := val.setWidth 16 } }
  else if offset = 0x0C then .ok { d with config := { d.config with cacheLineSize := val } }
  else .error (.panic "writing to a read only register")

def writeConfig32 (d : PciDevice) (offset : Nat) (val : BitVec 32) : PciDevice :=
  match barNumber offset with
  | some num => d.setBar num val
  | none =>
    if offset = 0x30 then
      { d with config := { d.config with expansionROM := if val = 0xfffffffe then 0xffffffff else val } }
    else if offset = 0x04 then { d with config := { d.config with command := val.setWidth 16 } }
    else d

def writeConfig (d : PciDevice) (addr : Addr) (size : Nat) (val : BitVec 32) : Except Failure PciDevice :=
  match size with
  | 1 => d.writeConfig8 (addr &&& 0xFF).toNat (val.setWidth 8)
  | 2 => d.writeConfig16 (addr &&& 0xFF).toNat (val.setWidth 8)
  | 4 => .ok (d.writeConfig32 (addr &&& 0xFF).toNat val)
  | _ => .error (.panic "invalid access size(?) for PCI configspace!\n")

theorem setBar_size (d : PciDevice) (num : Fin 6) (val : BitVec 32) : (d.setBar num val).bar0.size = d.bar0.size := by
  unfold setBar writeBar
  split
  · rename_i bar v hbv
    split at hbv <;> (cases hbv; rfl)

theorem writeConfig32_size (d : PciDevice) (offset : Nat) (val : BitVec 32) :
    (d.writeConfig32 offset val).bar0.size = d.bar0.size := by
  unfold writeConfig32
  split
  · exact setBar_size d _ val
  · split_ifs <;> rfl

theorem writeConfig_size {d d' : PciDevice} {addr : Addr} {size : Nat} {val : BitVec 32}
    (h : d.writeConfig addr size val = .ok d') : d'.bar0.size = d.bar0.size := by
  unfold writeConfig at h
  split at h
  · unfold writeConfig8 at h
    split_ifs at h <;> cases h <;> rfl
  · unfold writeConfig16 at h
    split_ifs at h <;> cases h <;> rfl
  · cases h
    exact writeConfig32_size d _ val
  · cases h

end PciDevice
end Gem5
