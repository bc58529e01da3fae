import Gem5Cxl.Bitfield
import Mathlib.Data.List.Induction
import Mathlib.Data.List.Nodup
import Mathlib.Logic.Function.Basic
/-!
# PciHost — config accesses through the host (`dev/pci/host.cc`)

Devices and bridges register under a bus address, each kind in a map of its own, and a map refuses an address it has.
Reads and writes look only among the devices.  A device is called with the packet, and takes the low eight bits of its
address for the offset.
-/
namespace Gem5

structure PciBusAddr where
  bus : BitVec 8
  dev : BitVec 8
  func : BitVec 8
deriving DecidableEq, Repr

namespace PciHost

inductive Kind where
  | device
  | bridge
deriving DecidableEq, Repr

structure Call where
  kind : Kind
  id : Nat
  busAddr : PciBusAddr
deriving DecidableEq, Repr

end PciHost

structure PciHost where
  confBase : Addr
  confDeviceBits : Nat
  devices : PciBusAddr → Option Nat := fun _ => none
  bridges : PciBusAddr → Option Nat := fun _ => none

namespace PciHost

def emplace (map : PciBusAddr → Option Nat) (busAddr : PciBusAddr) (id : Nat) :
    Except Failure (PciBusAddr → Option Nat) :=
  if (map busAddr).isSome then .error (.panic "PCI bus ID collision") else .ok (Function.update map busAddr (some id))

def registerDevice (h : PciHost) (id : Nat) (busAddr : PciBusAddr) : Except Failure PciHost :=
  (emplace h.devices busAddr id).map fun devices => { h with devices := devices }

def registerBridge (h : PciHost) (id : Nat) (busAddr : PciBusAddr) : Except Failure PciHost :=
  (emplace h.bridges busAddr id).map fun bridges => { h with bridges := bridges }

def getDevice (h : PciHost) (busAddr : PciBusAddr) : Option Nat := h.devices busAddr

def decodeAddress (h : PciHost) (addr : Addr) : PciBusAddr × Addr :=
  let offset := addr &&& mask h.confDeviceBits
  let busAddr := addr >>> h.confDeviceBits
  (⟨(bits busAddr 15 8).setWidth 8, (bits busAddr 7 3).setWidth 8, (bits busAddr 2 0).setWidth 8⟩, offset)

def decode (h : PciHost) (pktAddr : Addr) : PciBusAddr × Addr := h.decodeAddress (pktAddr - h.confBase)

def deviceOffset (pktAddr : Addr) : Addr := pktAddr &&& 0xFF

/-- What a read does: `readConfig` of a function at an offset, or an answer of the host's own. -/
inductive ReadResult where
  | readConfig (kind : Kind) (id : Nat) (offset : Addr)
  | data (bytes : List Byte)
deriving DecidableEq, Repr

def read (h : PciHost) (pktAddr : Addr) (size : Nat) : ReadResult :=
  match h.getDevice (h.decode pktAddr).1 with
  | some id => .readConfig .device id (deviceOffset pktAddr)
  | none => .data (List.replicate size 0xFF)

/-- The function and the offset of the `writeConfig` that a write calls. -/
def write (h : PciHost) (pktAddr : Addr) : Except Failure (Kind × Nat × Addr) :=
  match h.getDevice (h.decode pktAddr).1 with
  | some id => .ok (.device, id, deviceOffset pktAddr)
  | none => .error (.panic "Write to config space on non-existent PCI device")

def register (h : PciHost) (c : Call) : Except Failure PciHost :=
  match c.kind with
  | .device => h.registerDevice c.id c.busAddr
  | .bridge => h.registerBridge c.id c.busAddr

def registerAll (h : PciHost) (cs : List Call) : Except Failure PciHost := cs.foldlM register h

/-! ## The maps -/

def mapOf (h : PciHost) : Kind → PciBusAddr → Option Nat
  | .device => h.devices
  | .bridge => h.bridges

variable {h h' : PciHost} {c c' : Call} {cs : List Call}

theorem emplace_eq_ok {map map' : PciBusAddr → Option Nat} {b : PciBusAddr} {id : Nat} (he : emplace map b id = .ok map') :
    map b = none ∧ map' = Function.update map b (some id) := by
  unfold emplace at he
  split at he
  · cases he
  · rename_i hnone
    cases he
    exact ⟨Option.not_isSome_iff_eq_none.1 hnone, rfl⟩

theorem register_spec (hr : h.register c = .ok h') : h.mapOf c.kind c.busAddr = none ∧
    ∀ k, h'.mapOf k = if k = c.kind then Function.update (h.mapOf k) c.busAddr (some c.id) else h.mapOf k := by
  obtain ⟨kind, id, b⟩ := c
  cases kind with
  | device =>
    obtain ⟨m, hm, rfl⟩ := Run.map_eq_ok.1 hr
    obtain ⟨hnone, rfl⟩ := emplace_eq_ok hm
    refine ⟨hnone, fun k => ?_⟩
    cases k <;> rfl
  | bridge =>
    obtain ⟨m, hm, rfl⟩ := Run.map_eq_ok.1 hr
    obtain ⟨hnone, rfl⟩ := emplace_eq_ok hm
    refine ⟨hnone, fun k => ?_⟩
    cases k <;> rfl

/-- The maps hold the calls, and no two of one kind share an address. -/
structure Holds (h : PciHost) (cs : List Call) : Prop where
  mapOf : ∀ c, h.mapOf c.kind c.busAddr = some c.id ↔ c ∈ cs
  apart : cs.Pairwise fun c c' => c.kind = c'.kind → c.busAddr ≠ c'.busAddr

theorem Holds.register (hh : Holds h cs) (hr : h.register c = .ok h') : Holds h' (cs ++ [c]) := by
  obtain ⟨hfree, hmap⟩ := register_spec hr
  constructor
  · intro x
    rw [List.mem_append, List.mem_singleton, hmap, ← hh.mapOf]
    split
    · rename_i hk
      by_cases hb : x.busAddr = c.busAddr
      · rw [hb, Function.update_self, hk, hfree, Option.some.injEq]
        obtain ⟨kind, id, b⟩ := x
        obtain ⟨kind', id', b'⟩ := c
        cases hk
        cases hb
        simp [eq_comm]
      · rw [Function.update_of_ne hb]
        exact ⟨.inl, fun hx => hx.resolve_right fun heq => hb (heq ▸ rfl)⟩
    · rename_i hk
      exact ⟨.inl, fun hx => hx.resolve_right fun heq => hk (heq ▸ rfl)⟩
  · refine List.pairwise_append.2 ⟨hh.apart, List.pairwise_singleton .., fun x hx y hy hk hb => ?_⟩
    rw [List.mem_singleton.1 hy] at hk hb
    have := (hh.mapOf x).2 hx
    rw [hk, hb, hfree] at this
    cases this

theorem Holds.registerAll {confBase : Addr} {confDeviceBits : Nat}
    (hr : ({ confBase, confDeviceBits } : PciHost).registerAll cs = .ok h) : Holds h cs := by
  induction cs using List.reverseRecOn generalizing h with
  | nil =>
    cases hr
    refine ⟨fun c => iff_of_false (fun hc => ?_) List.not_mem_nil, List.Pairwise.nil⟩
    obtain ⟨kind, id, b⟩ := c
    cases kind <;> cases hc
  | append_singleton cs c ih =>
    rw [PciHost.registerAll, List.foldlM_append] at hr
    obtain ⟨h₁, h₁r, hr⟩ := Run.bind_eq_ok.1 hr
    rw [List.foldlM_cons] at hr
    obtain ⟨h₂, hr, h₂r⟩ := Run.bind_eq_ok.1 hr
    cases h₂r
    exact (ih h₁r).register hr

/-! ## Routing -/

/-- An access at the address reaches the function registered for it, at the decoded offset, or reads all ones. -/
structure Routed (h : PciHost) (cs : List Call) (pktAddr : Addr) : Prop where
  distinct : (cs.map Call.busAddr).Nodup
  read : ∀ c ∈ cs, c.busAddr = (h.decode pktAddr).1 → ∀ size,
    h.read pktAddr size = .readConfig c.kind c.id (h.decode pktAddr).2
  write : ∀ c ∈ cs, c.busAddr = (h.decode pktAddr).1 → h.write pktAddr = .ok (c.kind, c.id, (h.decode pktAddr).2)
  free : (∀ c ∈ cs, c.busAddr ≠ (h.decode pktAddr).1) → ∀ size, h.read pktAddr size = .data (List.replicate size 0xFF)

theorem Holds.getDevice (hh : Holds h cs) (hc : c ∈ cs) (hk : c.kind = .device) : h.getDevice c.busAddr = some c.id := by
  have := (hh.mapOf c).2 hc
  rw [hk] at this
  exact this

theorem Holds.getDevice_eq_none (hh : Holds h cs) {b : PciBusAddr} (hb : ∀ c ∈ cs, c.kind = .device → c.busAddr ≠ b) :
    h.getDevice b = none := by
  cases hd : h.getDevice b with
  | none => rfl
  | some id => exact absurd rfl (hb ⟨.device, id, b⟩ ((hh.mapOf ⟨.device, id, b⟩).1 hd) rfl)

/-- **Which accesses are routed**: no bridge has the address of a device, none is registered at the one accessed, and the
offset that a device takes is the decoded one. -/
theorem routed_iff {confBase : Addr} {confDeviceBits : Nat}
    (hr : ({ confBase, confDeviceBits } : PciHost).registerAll cs = .ok h) (pktAddr : Addr) :
    Routed h cs pktAddr ↔ (∀ c ∈ cs, ∀ c' ∈ cs, c.kind = .device → c'.kind = .bridge → c.busAddr ≠ c'.busAddr) ∧
      ∀ c ∈ cs, c.busAddr = (h.decode pktAddr).1 → c.kind = .device ∧ deviceOffset pktAddr = (h.decode pktAddr).2 := by
  have hh := Holds.registerAll hr
  constructor
  · intro hrouted
    refine ⟨fun c hc c' hc' hk hk' hb => ?_, fun c hc hb => ?_⟩
    · have := List.inj_on_of_nodup_map hrouted.distinct hc hc' hb
      rw [this, hk'] at hk
      cases hk
    · have hread := hrouted.read c hc hb 1
      unfold PciHost.read at hread
      split at hread
      · injection hread with hkind _ hoff
        exact ⟨hkind.symm, hoff⟩
      · cases hread
  · rintro ⟨hcross, hhit⟩
    have hdev : ∀ c ∈ cs, c.busAddr = (h.decode pktAddr).1 → h.getDevice (h.decode pktAddr).1 = some c.id :=
      fun c hc hb => hb ▸ hh.getDevice hc (hhit c hc hb).1
    refine ⟨?_, fun c hc hb size => ?_, fun c hc hb => ?_, fun hfree size => ?_⟩
    · refine List.pairwise_map.2 (hh.apart.imp_of_mem fun {c c'} hc hc' hsame => ?_)
      cases hk : c.kind with
      | device =>
        cases hk' : c'.kind with
        | device => exact hsame (hk.trans hk'.symm)
        | bridge => exact hcross c hc c' hc' hk hk'
      | bridge =>
        cases hk' : c'.kind with
        | device => exact (hcross c' hc' c hc hk' hk).symm
        | bridge => exact hsame (hk.trans hk'.symm)
    · rw [PciHost.read, hdev c hc hb, (hhit c hc hb).1, (hhit c hc hb).2]
    · rw [PciHost.write, hdev c hc hb, (hhit c hc hb).1, (hhit c hc hb).2]
    · rw [PciHost.read, hh.getDevice_eq_none fun c hc _ => hfree c hc]

theorem routed_device : ∃ h, ({ confBase := 0xC000000000000000, confDeviceBits := 8 } : PciHost).registerAll
    [⟨.device, 0, ⟨0, 1, 0⟩⟩] = .ok h ∧ Routed h [⟨.device, 0, ⟨0, 1, 0⟩⟩] 0xC000000000000804 :=
  ⟨_, rfl, (routed_iff rfl 0xC000000000000804).2 ⟨by decide, by decide⟩⟩

/-- **A bridge registers at the address of a device, and at one of its own**: neither is reached. -/
theorem bridge_not_reached : ∃ h, ({ confBase := 0xC000000000000000, confDeviceBits := 8 } : PciHost).registerAll
    [⟨.device, 0, ⟨0, 1, 0⟩⟩, ⟨.bridge, 0, ⟨0, 1, 0⟩⟩, ⟨.bridge, 1, ⟨0, 2, 0⟩⟩] = .ok h ∧
    (h.decode 0xC000000000001000).1 = ⟨0, 2, 0⟩ ∧ h.read 0xC000000000001000 4 = .data [0xFF, 0xFF, 0xFF, 0xFF] :=
  ⟨_, rfl, by decide, by decide⟩

end PciHost
end Gem5
