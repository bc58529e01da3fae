import Gem5Cxl.CxlMemory
/-!
# CxlWindow — the CXL memory is one byte array, addressed by window offset

The abstract window knows nothing of addresses: it is a log of the bytes written, by offset, and answers a read with the
byte last written there.  A run of the device, with its window moved about by config writes, hands back the packets the
abstract window hands back for the same packets at their offsets.
-/
namespace Gem5
namespace CxlMemory

open ByteStore

/-! ## The abstract window -/

/-- Whether a swap that finds `old` in memory writes: a conditional one only when `old` is the request's extra data. -/
def swapWrites (pkt : Packet) (old : Fin pkt.size → Byte) : Prop :=
  pkt.req.isCondSwap = true → ∀ i : Fin pkt.size, Packet.hostByte (pkt.req.extraData.getD 0) i = old i

instance (pkt : Packet) (old : Fin pkt.size → Byte) : Decidable (swapWrites pkt old) := by
  unfold swapWrites
  infer_instance

/-- The bytes a packet stores over `old`: an atomic operation its results, a swap that goes through its data, a write
its enabled data, a read nothing. -/
def stores (pkt : Packet) (old : Fin pkt.size → Byte) : Fin pkt.size → Option Byte :=
  if pkt.cmd = .swapReq then
    match pkt.atomicOp with
    | some op => fun i => some (op old i)
    | none => fun i => if swapWrites pkt old then some (pkt.data.getD (fun _ => 0) i) else none
  else if pkt.isRead then fun _ => none
  else pkt.enabledData (pkt.data.getD (fun _ => 0))

/-- The packet handed back: reads and swaps carry `old`, and a packet that needs a response is turned into it. -/
def reply (pkt : Packet) (old : Fin pkt.size → Byte) : Packet :=
  let pkt' := if pkt.isRead then pkt.withData old else pkt
  if pkt'.needsResponse then pkt'.response else pkt'

/-- **The abstract window**: what it hands back for packets at window offsets, and the log it ends with. -/
def window (init : Pmem) : List (Nat × Byte) → List (Nat × Packet) → List Packet × List (Nat × Byte)
  | log, [] => ([], log)
  | log, (o, pkt) :: rest =>
    let old : Fin pkt.size → Byte := fun i => lastWritten init log (o + i)
    let (rs, log') := window init (entries o (stores pkt old) ++ log) rest
    (reply pkt old :: rs, log')

/-! ## Legal runs -/

/-- A packet of the kinds the window serves, inside the BAR0 range, that passes the assertions on its own fields. -/
structure Legal (dev : PciDevice) (pkt : Packet) : Prop where
  kind : pkt.cmd ∈ [MemCmd.readReq, .writeReq, .writebackDirty, .writeClean, .swapReq]
  responding : pkt.cacheResponding = false
  valid : pkt.getAddrRange.valid = true
  subset : pkt.getAddrRange.isSubset (bar0Range dev) = .ok true
  payload : pkt.data.isSome = true
  mask : pkt.isMaskedWrite = true → pkt.req.byteEnable.length = pkt.size
  fetch : pkt.isWrite = true → pkt.req.isInstFetch = false
  cond : pkt.req.isCondSwap = true → (pkt.size = 4 ∨ pkt.size = 8) ∧ pkt.req.extraData.isSome = true

def LegalRun : PciDevice → List Op → Prop
  | _, [] => True
  | dev, .writeConfig addr size val :: ops => ∃ dev', dev.writeConfig addr size val = .ok dev' ∧ LegalRun dev' ops
  | dev, .access pkt :: ops => Legal dev pkt ∧ LegalRun dev ops

def journal : PciDevice → List Op → List (Nat × Packet)
  | _, [] => []
  | dev, .writeConfig addr size val :: ops =>
    match dev.writeConfig addr size val with
    | .ok dev' => journal dev' ops
    | .error _ => []
  | dev, .access pkt :: ops => (toHostAddr (bar0Range dev) pkt.addr, pkt) :: journal dev ops

/-! ## One step -/

variable {dev : PciDevice} {pkt : Packet}

theorem swapWrites_iff (h : Legal dev pkt) (old : Fin pkt.size → Byte) :
    pkt.overwriteMem old = .ok (decide (swapWrites pkt old)) := by
  by_cases hc : pkt.req.isCondSwap = true
  · obtain ⟨hs, hx⟩ := h.cond hc
    obtain ⟨x, hx⟩ := Option.isSome_iff_exists.1 hx
    rw [Packet.overwriteMem_eq hc hs hx, Except.ok.injEq, decide_eq_decide, swapWrites, hx]
    exact ⟨fun hi _ => hi, fun hi => hi hc⟩
  · rw [Packet.overwriteMem, if_neg hc]
    simp [swapWrites, hc]

theorem accessSwap_eq (h : Legal dev pkt) (hk : pkt.cmd = .swapReq) (p : Pmem) (o : Nat) : pkt.accessSwap p o =
      .ok (patch p o (stores pkt (slice p o pkt.size)), pkt.withData (slice p o pkt.size)) := by
  have hm : pkt.isMaskedWrite = false := Packet.isMaskedWrite_eq_false (by rw [hk]; decide)
  have hset := Packet.setData_eq h.payload hm p o
  obtain ⟨d, hd⟩ := Option.isSome_iff_exists.1 h.payload
  have hfetch : pkt.req.isInstFetch = false := h.fetch (by rw [Packet.isWrite, hk]; decide)
  unfold Packet.accessSwap stores
  rw [if_pos hk]
  cases hop : pkt.atomicOp with
  | some op =>
    simp only [hset, Run.ok_bind]
    rfl
  | none =>
    have hval : ∀ i : Fin pkt.size, patch (fun _ => 0) 0 (pkt.enabledData d) i.val = d i := by
      intro i
      have hpatch := patch_add (fun _ => 0) 0 (pkt.enabledData d) i
      rw [Nat.zero_add, Packet.enabledData, if_neg (by rw [hm]; decide)] at hpatch
      exact hpatch
    simp only [Packet.writeData_eq hd h.mask, hset, swapWrites_iff h, Run.ok_bind, hfetch, Bool.not_false,
      assertThat_true, Run.pure_eq_ok, hval, hd, Option.getD_some]
    by_cases hw : swapWrites pkt (slice p o pkt.size)
    · simp only [hw, decide_true, if_true]
    · simp only [hw, decide_false, Bool.false_eq_true, if_false, patch_none]

theorem accessData_eq (h : Legal dev pkt) (r : AddrRange) (p : Pmem) : accessData r p pkt =
      .ok (patch p (toHostAddr r pkt.addr) (stores pkt (slice p (toHostAddr r pkt.addr) pkt.size)),
        if pkt.isRead then pkt.withData (slice p (toHostAddr r pkt.addr) pkt.size) else pkt) := by
  obtain ⟨d, hd⟩ := Option.isSome_iff_exists.1 h.payload
  unfold accessData
  by_cases hs : pkt.cmd = .swapReq
  · have hr : pkt.isRead = true := by rw [Packet.isRead, hs]; decide
    rw [if_pos hs, if_pos hr, accessSwap_eq h hs]
  · rw [if_neg hs, stores, if_neg hs]
    have hk := h.kind
    by_cases hr : pkt.cmd = .readReq
    · have hread : pkt.isRead = true := by rw [Packet.isRead, hr]; decide
      have hwrite : pkt.isWrite = false := by rw [Packet.isWrite, hr]; decide
      have hm : pkt.isMaskedWrite = false := Packet.isMaskedWrite_eq_false (by rw [hr]; decide)
      simp only [hread, hwrite, if_true, Bool.not_false, assertThat_true, Packet.setData_eq h.payload hm, Run.ok_bind,
        Run.pure_eq_ok, patch_none]
    · -- the three kinds of writes
      have hw : pkt.isRead = false ∧ (pkt.isInvalidate || pkt.isClean) = false ∧ pkt.isWrite = true := by
        simp only [List.mem_cons, List.not_mem_nil, or_false] at hk
        unfold Packet.isRead Packet.isInvalidate Packet.isClean Packet.isWrite
        rcases hk with hk | hk | hk | hk | hk
        · exact absurd hk hr
        · rw [hk]; decide
        · rw [hk]; decide
        · rw [hk]; decide
        · exact absurd hk hs
      simp only [hw.1, hw.2.1, hw.2.2, Bool.false_eq_true, if_false, if_true, Packet.writeData_eq hd h.mask, Run.ok_bind,
        h.fetch hw.2.2, Bool.not_false, assertThat_true, Run.pure_eq_ok, hd, Option.getD_some]

def under (c : CxlMemory) (pkt : Packet) : Fin pkt.size → Byte :=
  slice c.pmem (toHostAddr (bar0Range c.dev) pkt.addr) pkt.size

def after (c : CxlMemory) (pkt : Packet) : CxlMemory :=
  { c with
    range := bar0Range c.dev
    pmem := patch c.pmem (toHostAddr (bar0Range c.dev) pkt.addr) (stores pkt (c.under pkt)) }

/-- **One packet**: the device stores what the abstract window stores, and hands back what it hands back. -/
theorem access_eq {c : CxlMemory} (h : Legal c.dev pkt) :
    c.access pkt = .ok (c.after pkt, reply pkt (c.under pkt)) := by
  have hce : ¬ (pkt.cmd = .cleanEvict ∨ pkt.cmd = .writebackClean) := by
    intro hc
    have hk := h.kind
    rcases hc with hc | hc <;> rw [hc] at hk <;> revert hk <;> decide
  unfold access
  simp only [h.responding, Bool.false_eq_true, if_false, if_neg hce, h.subset, Run.ok_bind, assertThat_true,
    accessData_eq h, Packet.respond_eq, Run.pure_eq_ok]
  rfl

/-! ## Runs -/

theorem offset_le (h : Legal dev pkt) : toHostAddr (bar0Range dev) pkt.addr + pkt.size ≤ dev.bar0.size.toNat := by
  have hle := offset_le_of_isSubset h.valid h.subset
  have hlt := pkt.size_lt
  rw [BitVec.toNat_ofNat, Nat.mod_eq_of_lt (by omega)] at hle
  exact hle

theorem journal_le : ∀ (ops : List Op) (dev : PciDevice), LegalRun dev ops →
    ∀ x ∈ journal dev ops, x.1 + x.2.size ≤ dev.bar0.size.toNat
  | [], _, _, x, hx => by cases hx
  | .writeConfig addr size val :: ops, dev, h, x, hx => by
    obtain ⟨dev', hdev, hops⟩ := h
    rw [journal, hdev] at hx
    rw [← PciDevice.writeConfig_size hdev]
    exact journal_le ops dev' hops x hx
  | .access pkt :: ops, dev, h, x, hx => by
    rw [journal] at hx
    rcases List.mem_cons.1 hx with rfl | hx
    · exact offset_le h.1
    · exact journal_le ops dev h.2 x hx

theorem run_eq_window (init : Pmem) : ∀ (ops : List Op) (c : CxlMemory) (log : List (Nat × Byte)),
    LegalRun c.dev ops → c.pmem = lastWritten init log →
    ∃ c', c.run ops = .ok (c', (window init log (journal c.dev ops)).1) ∧
      c'.pmem = lastWritten init (window init log (journal c.dev ops)).2
  | [], c, log, _, hp => ⟨c, rfl, hp⟩
  | .writeConfig addr size val :: ops, c, log, h, hp => by
    obtain ⟨dev', hdev, hops⟩ := h
    obtain ⟨c', hrun, hmem⟩ := run_eq_window init ops { c with dev := dev' } log hops hp
    have hj : journal c.dev (.writeConfig addr size val :: ops) = journal dev' ops := by rw [journal, hdev]
    rw [hj, run, hdev]
    exact ⟨c', hrun, hmem⟩
  | .access pkt :: ops, c, log, h, hp => by
    obtain ⟨hpkt, hops⟩ := h
    have hold : c.under pkt =
        fun i : Fin pkt.size => lastWritten init log (toHostAddr (bar0Range c.dev) pkt.addr + i) := by
      unfold under
      rw [hp]
      rfl
    -- the bytes stored are the entries logged
    have hafter : (c.after pkt).pmem = lastWritten init
        (entries (toHostAddr (bar0Range c.dev) pkt.addr) (stores pkt (c.under pkt)) ++ log) := by
      rw [lastWritten_entries, ← hp]
      rfl
    obtain ⟨c', hrun, hmem⟩ := run_eq_window init ops (c.after pkt) _ hops hafter
    rw [hold] at hrun hmem
    refine ⟨c', ?_, hmem⟩
    rw [run, serve_eq, access_eq hpkt, hold]
    show (run (c.after pkt) ops >>= _) = _
    rw [hrun]
    rfl

end CxlMemory
end Gem5
