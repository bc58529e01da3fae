import Gem5Cxl.PciBars
import Mathlib.Data.List.Induction
/-!
# PciConfig — accesses to the config space of a device (`PciDevice::readConfig`, `PciDevice::writeConfig`)

The 64 bytes of `config.data`, which are also the registers of the header, little endian.  Offsets go up to 0xFF.  A read of
the area from 0x40 on answers zero and then goes on to read `config.data` there, past its end; that is undefined, and
fails here.
-/
namespace Gem5

structure PciFunction where
  host : PciHostMap
  bars : PciBars.Bars
  data : Fin 64 → Byte

namespace PciFunction

structure Write where
  addr : Addr
  size : Nat
  val : BitVec 32
deriving DecidableEq, Repr

def offsetOf (addr : Addr) : Nat := (addr &&& 0xFF).toNat

def byteOf (val : BitVec 32) (i : Nat) : Byte := (val >>> (8 * i)).setWidth 8

def setLE (d : PciFunction) (offset n : Nat) (val : BitVec 32) : PciFunction :=
  { d with data := fun i => if offset ≤ i.val ∧ i.val < offset + n then byteOf val (i - offset) else d.data i }

def getLE (d : PciFunction) (offset : Nat) : Nat → Except Failure (List Byte)
  | 0 => .ok []
  | n + 1 =>
    if h : offset < 64 then (d.getLE (offset + 1) n).map (d.data ⟨offset, h⟩ :: ·) else .error .outOfBounds

def checkSize (size : Nat) : Except Failure Unit :=
  panicIf (!(decide (size = 1) || decide (size = 2) || decide (size = 4))) "invalid access size(?) for PCI configspace!\n"

def readConfig (d : PciFunction) (addr : Addr) (size : Nat) : Except Failure (List Byte) := do
  let offset := offsetOf addr
  -- in the device specific area the response is set to zero, and the read below sets it again
  if 0x40 ≤ offset ∧ offset < 0xFF then checkSize size
  checkSize size
  d.getLE offset size

def writeConfig8 (d : PciFunction) (offset : Nat) (val : BitVec 32) : Except Failure PciFunction :=
  if offset = 0x3C ∨ offset = 0x0C ∨ offset = 0x0D then .ok (d.setLE offset 1 val)
  -- the read-only registers
  else if offset = 0x3D ∨ offset = 0x3E ∨ offset = 0x3F ∨ offset = 0x09 ∨ offset = 0x08 then .ok d
  else .error (.panic "writing to a read only register")

/-- The two-byte case of `writeConfig`, which reads the low byte of the packet. -/
def writeConfig16 (d : PciFunction) (offset : Nat) (val : BitVec 32) : Except Failure PciFunction :=
  if offset = 0x04 ∨ offset = 0x06 then .ok (d.setLE offset 2 ((val.setWidth 8).setWidth 32))
  else if offset = 0x0C then .ok (d.setLE offset 1 val)
  else .error (.panic "writing to a read only register")

def writeConfig32 (d : PciFunction) (offset : Nat) (val : BitVec 32) : Except Failure PciFunction :=
  match PciDevice.barNumber offset with
  | some num => (PciBars.writeBar d.host d.bars num val).map fun r => ({ d with bars := r.1 } : PciFunction).setLE offset 4 r.2
  | none =>
    if offset = 0x30 then .ok (d.setLE offset 4 (if val = 0xfffffffe then 0xffffffff else val))
    else if offset = 0x04 then .ok (d.setLE offset 2 val)
    else .ok d

def writeConfig (d : PciFunction) (w : Write) : Except Failure PciFunction :=
  match w.size with
  | 1 => d.writeConfig8 (offsetOf w.addr) w.val
  | 2 => d.writeConfig16 (offsetOf w.addr) w.val
  | 4 => d.writeConfig32 (offsetOf w.addr) w.val
  | _ => .error (.panic "invalid access size(?) for PCI configspace!\n")

def writeConfigs (d : PciFunction) (ws : List Write) : Except Failure PciFunction := ws.foldlM writeConfig d

variable {d d' : PciFunction} {offset n : Nat} {val : BitVec 32}

/-! ## Reads -/

theorem getLE_returns_iff (hn : 0 < n) : (∃ bs, d.getLE offset n = .ok bs) ↔ offset + n ≤ 64 := by
  induction n generalizing offset with
  | zero => exact absurd hn (Nat.lt_irrefl 0)
  | succ n ih =>
    rw [getLE]
    split
    · rw [Run.exists_map_eq_ok]
      cases n with
      | zero => exact iff_of_true ⟨[], rfl⟩ (by omega)
      | succ n =>
        rw [ih (Nat.succ_pos n)]
        omega
    · exact iff_of_false (fun ⟨_, h⟩ => by cases h) (by omega)

/-- **A read stays inside the 64 bytes, and is zero in the device specific area, exactly if it ends inside them.** -/
theorem readConfig_inBounds_iff (d : PciFunction) (addr : Addr) {size : Nat} (hsize : size = 1 ∨ size = 2 ∨ size = 4) :
    (∃ bs, d.readConfig addr size = .ok bs ∧
      (0x40 ≤ offsetOf addr ∧ offsetOf addr < 0xFF → bs = List.replicate size 0)) ↔ offsetOf addr + size ≤ 64 := by
  have hcheck : checkSize size = .ok () := by
    rcases hsize with rfl | rfl | rfl <;> rfl
  have hread : d.readConfig addr size = d.getLE (offsetOf addr) size := by
    unfold readConfig
    dsimp only
    split
    · rw [hcheck, Run.ok_bind, Run.ok_bind]
    · rw [hcheck]
      rfl
  have hpos : 0 < size := by omega
  rw [hread, ← getLE_returns_iff hpos (d := d)]
  constructor
  · rintro ⟨bs, hbs, -⟩
    exact ⟨bs, hbs⟩
  · rintro ⟨bs, hbs⟩
    have hin := (getLE_returns_iff hpos).1 ⟨bs, hbs⟩
    exact ⟨bs, hbs, fun h => by omega⟩

/-! ## Writes -/

def Write.IsCommand (w : Write) : Prop := offsetOf w.addr = 0x04

instance (w : Write) : Decidable w.IsCommand := inferInstanceAs (Decidable (_ = _))

/-- The bytes that a write can change, and COMMAND after a write of it. -/
structure Wrote (w : Write) (d d' : PciFunction) : Prop where
  frame : ∀ i : Fin 64, ¬(offsetOf w.addr ≤ i.val ∧ i.val < offsetOf w.addr + w.size) → d'.data i = d.data i
  other : ¬w.IsCommand → d'.data 4 = d.data 4 ∧ d'.data 5 = d.data 5
  command : w.IsCommand → d'.data 4 = byteOf w.val 0 ∧ d'.data 5 = if w.size = 4 then byteOf w.val 1 else 0

variable {w : Write}

theorem Wrote.unchanged (hno : ¬w.IsCommand) : Wrote w d d := ⟨fun _ _ => rfl, fun _ => ⟨rfl, rfl⟩, fun h => absurd h hno⟩

theorem Wrote.of_setLE (d : PciFunction) (val : BitVec 32) (hn : n ≤ w.size) (h : 6 ≤ offsetOf w.addr) :
    Wrote w d (d.setLE (offsetOf w.addr) n val) where
  frame i hi := if_neg fun hin => hi ⟨hin.1, by omega⟩
  other _ := ⟨if_neg fun hin => absurd (h.trans hin.1) (by decide), if_neg fun hin => absurd (h.trans hin.1) (by decide)⟩
  command hc := by
    rw [Write.IsCommand] at hc
    omega

theorem Wrote.of_command (hc : w.IsCommand) (hn : 2 ≤ w.size) (hlow : byteOf val 0 = byteOf w.val 0)
    (hhigh : byteOf val 1 = if w.size = 4 then byteOf w.val 1 else 0) : Wrote w d (d.setLE 4 2 val) where
  frame i hi := if_neg fun hin => hi (by rw [hc]; omega)
  other h := absurd hc h
  command _ := ⟨hlow, hhigh⟩

theorem byteOf_low (val : BitVec 32) :
    byteOf ((val.setWidth 8).setWidth 32) 0 = byteOf val 0 ∧ byteOf ((val.setWidth 8).setWidth 32) 1 = 0 := by
  refine ⟨BitVec.eq_of_getLsbD_eq fun i hi => ?_, BitVec.eq_of_getLsbD_eq fun i hi => ?_⟩
  · have : i < 32 := by omega
    simp only [byteOf, BitVec.getLsbD_setWidth, BitVec.getLsbD_ushiftRight, Nat.mul_zero, Nat.zero_add, hi, this, decide_true,
      Bool.true_and]
  · simp [byteOf, BitVec.getLsbD_setWidth, BitVec.getLsbD_ushiftRight]

theorem barNumber_le {num : Fin 6} (h : PciDevice.barNumber offset = some num) : 0x10 ≤ offset := by
  unfold PciDevice.barNumber at h
  split at h
  · rename_i hin
    exact hin.1
  · cases h

theorem writeConfig_wrote (h : d.writeConfig w = .ok d') : Wrote w d d' := by
  unfold writeConfig at h
  split at h
  · rename_i hsize
    unfold writeConfig8 at h
    split_ifs at h with h1 h2
    · cases h
      exact .of_setLE d _ (Nat.le_of_eq hsize.symm) (by omega)
    · cases h
      refine .unchanged fun hc => ?_
      rw [Write.IsCommand] at hc
      omega
  · rename_i hsize
    unfold writeConfig16 at h
    split_ifs at h with h1 h2
    · cases h
      rcases h1 with hc | hc
      · rw [hc]
        refine .of_command hc (Nat.le_of_eq hsize.symm) (byteOf_low w.val).1 ?_
        rw [(byteOf_low w.val).2, hsize, if_neg (by decide)]
      · exact .of_setLE d _ (Nat.le_of_eq hsize.symm) (Nat.le_of_eq hc.symm)
    · cases h
      exact .of_setLE d _ (by omega) (by omega)
  · rename_i hsize
    unfold writeConfig32 at h
    split at h
    · rename_i num hnum
      obtain ⟨r, -, rfl⟩ := Run.map_eq_ok.1 h
      have hle := barNumber_le hnum
      have hw := Wrote.of_setLE (w := w) { d with bars := r.1 } r.2 (Nat.le_of_eq hsize.symm) (by omega)
      exact ⟨hw.frame, hw.other, hw.command⟩
    · split at h
      · cases h
        exact .of_setLE d _ (Nat.le_of_eq hsize.symm) (by omega)
      · split at h
        · rename_i hc
          cases h
          rw [hc]
          exact .of_command hc (by omega) rfl (by rw [hsize, if_pos rfl])
        · rename_i hc
          cases h
          exact .unchanged hc
  · cases h

def lastCommand (ws : List Write) : Option Write := ws.reverse.find? fun w => decide w.IsCommand

theorem writeConfigs_command {ws : List Write} (h : d.writeConfigs ws = .ok d') (hw : lastCommand ws = some w) :
    w.IsCommand ∧ d'.data 4 = byteOf w.val 0 ∧ d'.data 5 = if w.size = 4 then byteOf w.val 1 else 0 := by
  induction ws using List.reverseRecOn generalizing d' with
  | nil => cases hw
  | append_singleton ws x ih =>
    rw [writeConfigs, List.foldlM_append] at h
    obtain ⟨d₁, h₁, hx⟩ := Run.bind_eq_ok.1 h
    rw [List.foldlM_cons] at hx
    obtain ⟨d₂, hx, hd₂⟩ := Run.bind_eq_ok.1 hx
    cases hd₂
    have hwrote := writeConfig_wrote hx
    rw [lastCommand, List.reverse_append, List.reverse_singleton, List.singleton_append, List.find?_cons] at hw
    split at hw
    · rename_i hc
      cases hw
      exact ⟨of_decide_eq_true hc, hwrote.command (of_decide_eq_true hc)⟩
    · rename_i hc
      obtain ⟨h4, h5⟩ := hwrote.other (of_decide_eq_false hc)
      rw [h4, h5]
      exact ih h₁ hw

/-- **The accesses to config space.**  A read is in bounds and zero in the device specific area exactly if it ends inside
the 64 bytes.  A write changes only bytes of its own.  After any writes, COMMAND reads as the last value written to it
exactly if that came with four bytes or had no upper byte. -/
theorem config_access_iff (d : PciFunction) :
    (∀ (addr : Addr) (size : Nat), size = 1 ∨ size = 2 ∨ size = 4 →
      ((∃ bs, d.readConfig addr size = .ok bs ∧
        (0x40 ≤ offsetOf addr ∧ offsetOf addr < 0xFF → bs = List.replicate size 0)) ↔ offsetOf addr + size ≤ 64)) ∧
    (∀ (d' : PciFunction) (w : Write), d.writeConfig w = .ok d' → ∀ i : Fin 64,
      ¬(offsetOf w.addr ≤ i.val ∧ i.val < offsetOf w.addr + w.size) → d'.data i = d.data i) ∧
    ∀ (d' : PciFunction) (ws : List Write) (w : Write), d.writeConfigs ws = .ok d' → lastCommand ws = some w →
      (d'.readConfig 0x04 2 = .ok [byteOf w.val 0, byteOf w.val 1] ↔ w.size = 4 ∨ byteOf w.val 1 = 0) := by
  refine ⟨fun addr size hsize => readConfig_inBounds_iff d addr hsize, fun d' w h => (writeConfig_wrote h).frame,
    fun d' ws w h hw => ?_⟩
  obtain ⟨-, h4, h5⟩ := writeConfigs_command h hw
  have hread : d'.readConfig 0x04 2 = .ok [d'.data 4, d'.data 5] := rfl
  rw [hread, h4, h5, Except.ok.injEq, List.cons.injEq, List.cons.injEq]
  by_cases hsize : w.size = 4
  · simp [hsize]
  · simp [hsize, eq_comm]

def blank : PciFunction := { host := ⟨0, 0⟩, bars := fun _ => .none, data := fun _ => 0 }

theorem command_written : ∃ d', blank.writeConfigs [⟨0x04, 2, 6⟩] = .ok d' ∧ d'.readConfig 0x04 2 = .ok [6, 0] :=
  ⟨_, rfl, ((config_access_iff blank).2.2 _ [⟨0x04, 2, 6⟩] ⟨0x04, 2, 6⟩ rfl rfl).2 (.inr rfl)⟩

/-- **Interrupts are disabled (bit 10) with a two-byte write, and COMMAND reads zero; a read at 0x40 goes past the end.** -/
theorem command_truncated : (∃ d', blank.writeConfigs [⟨0x04, 2, 0x400⟩] = .ok d' ∧ d'.readConfig 0x04 2 = .ok [0, 0]) ∧
    blank.readConfig 0x40 1 = .error .outOfBounds :=
  ⟨⟨_, rfl, rfl⟩, rfl⟩

end PciFunction
end Gem5
