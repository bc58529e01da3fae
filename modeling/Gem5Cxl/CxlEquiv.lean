import Gem5Cxl.AbstractMem
import Gem5Cxl.CxlMemory
/-!
# CxlEquiv — the CXL memory against `AbstractMemory`

`CxlMemory::Memory::access` is a copy of `AbstractMemory::access` without the load-locked tracking.  The two agree on
every run with no store conditional; a store conditional always goes through on the CXL memory and reports nothing.
-/
namespace Gem5
namespace CxlMemory

open ByteStore

structure Same (c : CxlMemory) (m : AbstractMemory) : Prop where
  range : m.range = bar0Range c.dev
  pmem : m.pmem = some c.pmem
  writeable : m.writeable = true

/-- A packet that carries no store conditional past the early returns, and whose load-locked passes the assertions of
the reservation tracking. -/
structure NoStoreCond (pkt : Packet) : Prop where
  store : pkt.cacheResponding = false → pkt.isWrite = true → pkt.isLLSC = false
  load : pkt.cacheResponding = false → pkt.isRead = true → pkt.isLLSC = true →
    pkt.fromCache = false ∧ pkt.req.contextId.isSome = true

/-- **Observational equivalence on a run**: the same bytes, and the same packets handed back, or the same failure. -/
def Equivalent (c : CxlMemory) (m : AbstractMemory) (pkts : List Packet) : Prop :=
  (c.run (pkts.map .access)).map (fun r => (some r.1.pmem, r.2)) = (m.run pkts).map (fun r => (r.1.pmem, r.2))

/-- Two answers to one packet: equal packets and equal memories, or the same failure. -/
def Agree (x : Except Failure (CxlMemory × Packet)) (y : Except Failure (AbstractMemory × Packet)) : Prop :=
  match x, y with
  | .ok r, .ok s => r.2 = s.2 ∧ Same r.1 s.1
  | .error f, .error g => f = g
  | _, _ => False

def lift (c : CxlMemory) (x : Except Failure (Pmem × Packet)) : Except Failure (CxlMemory × Packet) :=
  x.map (fun r => ({ c with pmem := r.1 }, r.2))

/-! ## One packet -/

variable {c : CxlMemory} {m : AbstractMemory} {pkt : Packet}

section

variable (h : Same c m)
include h

theorem Same.toHostAddr (a : Addr) : m.toHostAddr a = CxlMemory.toHostAddr (bar0Range c.dev) a := by
  rw [AbstractMemory.toHostAddr, CxlMemory.toHostAddr, h.range]

theorem agree_swap (pkt : Packet) :
    Agree (c.lift (pkt.accessSwap c.pmem (CxlMemory.toHostAddr (bar0Range c.dev) pkt.addr))) (m.accessSwap pkt) := by
  simp only [AbstractMemory.accessSwap, h.pmem, h.toHostAddr]
  cases pkt.accessSwap c.pmem (CxlMemory.toHostAddr (bar0Range c.dev) pkt.addr) with
  | error f => exact rfl
  | ok r => exact ⟨rfl, h.range, rfl, h.writeable⟩

theorem same_trackRead (hl : pkt.isLLSC = true → pkt.fromCache = false ∧ pkt.req.contextId.isSome = true) :
    ∃ m', m.trackRead pkt = .ok m' ∧ Same c m' := by
  unfold AbstractMemory.trackRead
  by_cases hll : pkt.isLLSC = true
  · obtain ⟨hf, hc⟩ := hl hll
    obtain ⟨cid, hc⟩ := Option.isSome_iff_exists.1 hc
    rw [if_pos hll, hf, AbstractMemory.trackLoadLocked, hc]
    exact ⟨_, rfl, h.range, h.pmem, h.writeable⟩
  · rw [if_neg hll]
    exact ⟨m, rfl, h⟩

theorem agree_read (hl : pkt.isLLSC = true → pkt.fromCache = false ∧ pkt.req.contextId.isSome = true) :
    Agree (c.lift (do
      assertThat (!pkt.isWrite)
      let pkt' ← pkt.setData c.pmem (CxlMemory.toHostAddr (bar0Range c.dev) pkt.addr)
      return (c.pmem, pkt'))) (m.accessRead pkt) := by
  obtain ⟨m', hm', hs⟩ := same_trackRead h hl
  rw [AbstractMemory.accessRead, hm']
  cases pkt.isWrite with
  | true => exact rfl
  | false =>
    simp only [Bool.not_false, assertThat_true, Run.ok_bind, AbstractMemory.readPmem, hs.pmem, hs.toHostAddr]
    cases pkt.setData c.pmem (CxlMemory.toHostAddr (bar0Range c.dev) pkt.addr) with
    | error f => exact rfl
    | ok r => exact ⟨rfl, hs⟩

theorem writeOK_plain (hl : pkt.isLLSC = false) :
    ∃ m', m.writeOK pkt = .ok (m', pkt.req, true) ∧ Same c m' := by
  unfold AbstractMemory.writeOK
  rw [h.writeable, hl]
  by_cases he : m.lockedAddrList = []
  · rw [if_pos he]
    exact ⟨m, rfl, h⟩
  · rw [if_neg he]
    simp only [AbstractMemory.checkLockedAddrList, hl]
    exact ⟨_, rfl, h.range, h.pmem, h.writeable⟩

theorem agree_write (hl : pkt.isLLSC = false) : Agree (c.lift (do
      let pmem' ← pkt.writeData c.pmem (CxlMemory.toHostAddr (bar0Range c.dev) pkt.addr)
      assertThat (!pkt.req.isInstFetch)
      return (pmem', pkt))) (m.accessWrite pkt) := by
  obtain ⟨m', hm', hs⟩ := writeOK_plain h hl
  rw [AbstractMemory.accessWrite, hm']
  simp only [Run.ok_bind, if_true, AbstractMemory.writePmem, hs.pmem, hs.toHostAddr]
  cases pkt.writeData c.pmem (CxlMemory.toHostAddr (bar0Range c.dev) pkt.addr) with
  | error f => exact rfl
  | ok p =>
    cases pkt.req.isInstFetch with
    | true => exact rfl
    | false => exact ⟨rfl, hs.range, rfl, hs.writeable⟩

theorem agree_accessData (hp : NoStoreCond pkt) (hr : pkt.cacheResponding = false) :
    Agree (c.lift (accessData (bar0Range c.dev) c.pmem pkt)) (m.accessData pkt) := by
  unfold accessData AbstractMemory.accessData
  by_cases hs : pkt.cmd = .swapReq
  · rw [if_pos hs, if_pos hs]
    exact agree_swap h pkt
  · rw [if_neg hs, if_neg hs]
    by_cases hread : pkt.isRead = true
    · rw [if_pos hread, if_pos hread]
      exact agree_read h (hp.load hr hread)
    · rw [if_neg hread, if_neg hread]
      by_cases hi : (pkt.isInvalidate || pkt.isClean) = true
      · rw [if_pos hi, if_pos hi]
        cases pkt.isWrite with
        | true => exact rfl
        | false => exact ⟨rfl, h⟩
      · rw [if_neg hi, if_neg hi]
        by_cases hw : pkt.isWrite = true
        · rw [if_pos hw, if_pos hw]
          exact agree_write h (hp.store hr hw)
        · rw [if_neg hw, if_neg hw]
          exact rfl

theorem agree_access (hp : NoStoreCond pkt) : Agree (c.access pkt) (m.access pkt) := by
  unfold access AbstractMemory.access
  cases hr : pkt.cacheResponding with
  | true => exact ⟨rfl, h.range, h.pmem, h.writeable⟩
  | false =>
    by_cases he : pkt.cmd = .cleanEvict ∨ pkt.cmd = .writebackClean
    · simp only [Bool.false_eq_true, if_false, if_pos he]
      exact ⟨rfl, h.range, h.pmem, h.writeable⟩
    · simp only [Bool.false_eq_true, if_false, if_neg he, h.range]
      cases pkt.getAddrRange.isSubset (bar0Range c.dev) with
      | error f => exact rfl
      | ok b =>
        cases b with
        | false => exact rfl
        | true =>
          have hd := agree_accessData h hp hr
          simp only [Run.ok_bind, assertThat_true]
          revert hd
          cases accessData (bar0Range c.dev) c.pmem pkt with
          | error f =>
            cases m.accessData pkt with
            | error g => exact id
            | ok s => exact False.elim
          | ok r =>
            cases m.accessData pkt with
            | error g => exact False.elim
            | ok s =>
              rintro ⟨hpkt, hs⟩
              have hpkt : r.2 = s.2 := hpkt
              simp only [Run.ok_bind, hpkt, Packet.respond_eq]
              exact ⟨rfl, hs.range, hs.pmem, hs.writeable⟩

end

/-! ## Runs -/

theorem equivalent_of_same : ∀ (pkts : List Packet) (c : CxlMemory) (m : AbstractMemory), Same c m →
    (∀ pkt ∈ pkts, NoStoreCond pkt) → Equivalent c m pkts
  | [], c, m, h, _ => by
    unfold Equivalent
    rw [AbstractMemory.run, List.map_nil, run, Except.map, Except.map, h.pmem]
  | pkt :: pkts, c, m, h, hp => by
    have hstep := agree_access h (hp pkt List.mem_cons_self)
    unfold Equivalent
    rw [List.map_cons, run, serve_eq, AbstractMemory.run]
    revert hstep
    cases c.access pkt with
    | error f =>
      cases m.access pkt with
      | error g => exact congrArg Except.error
      | ok s => exact False.elim
    | ok r =>
      cases m.access pkt with
      | error g => exact False.elim
      | ok s =>
        rintro ⟨hpkt, hs⟩
        have ih := equivalent_of_same pkts r.1 s.1 hs (fun x hx => hp x (List.mem_cons_of_mem pkt hx))
        unfold Equivalent at ih
        show Except.map _ (run r.1 (pkts.map .access) >>= fun q => .ok (q.1, r.2 :: q.2)) =
          Except.map _ (s.1.run pkts >>= fun q => .ok (q.1, s.2 :: q.2))
        rw [show r.2 = s.2 from hpkt]
        revert ih
        cases run r.1 (pkts.map .access) <;> cases s.1.run pkts <;> intro ih <;> simp_all [Except.map]

/-- **The CXL memory answers as `AbstractMemory` does**, on every run of packets none of which is a store
conditional: the same bytes in memory, the same packets handed back, the same failures. -/
theorem cxlMemory_equivalent_abstractMemory (dev : PciDevice) (pmem : Pmem) (latency cxlMemLatency : Nat)
    (pkts : List Packet) (h : ∀ pkt ∈ pkts, NoStoreCond pkt) :
    Equivalent (create dev pmem latency cxlMemLatency) { range := bar0Range dev, pmem := some pmem, writeable := true }
      pkts :=
  equivalent_of_same pkts _ _ ⟨rfl, rfl, rfl⟩ h

/-- A load-locked, then another context's write. -/
theorem cxlMemory_equivalent_loadLocked :
    Equivalent (create (PciDevice.create 0 {} { size := 16 }) (fun _ => 0) 50 2)
      { range := bar0Range (PciDevice.create 0 {} { size := 16 }), pmem := some (fun _ => 0), writeable := true }
      [{ cmd := .loadLockedReq, req := { paddr := 0, contextId := some 0 }, addr := 0, size := 8, data := some (fun _ => 0) },
        { cmd := .writeReq, req := { paddr := 0, contextId := some 1 }, addr := 0, size := 8,
          data := some (fun _ => 1) }] := by
  apply cxlMemory_equivalent_abstractMemory
  intro pkt hpkt
  simp only [List.mem_cons, List.not_mem_nil, or_false] at hpkt
  rcases hpkt with rfl | rfl <;> constructor <;> decide

/-- Context 1 writes between the load-locked and the store conditional of context 0.  `AbstractMemory` refuses the
store conditional and says so; the CXL memory stores, and leaves the result unset. -/
theorem cxlMemory_loses_storeConditional :
    ¬ Equivalent (create (PciDevice.create 0 {} { size := 16 }) (fun _ => 0) 50 2)
      { range := bar0Range (PciDevice.create 0 {} { size := 16 }), pmem := some (fun _ => 0), writeable := true }
      [{ cmd := .loadLockedReq, req := { paddr := 0, contextId := some 0 }, addr := 0, size := 8, data := some (fun _ => 0) },
        { cmd := .writeReq, req := { paddr := 0, contextId := some 1 }, addr := 0, size := 8,
          data := some (fun _ => 1) },
        { cmd := .storeCondReq, req := { paddr := 0, contextId := some 0 }, addr := 0, size := 8,
          data := some (fun _ => 2) }] := by
  intro h
  have hbyte := congrArg (fun x => x.map (fun r => (r.1.map (· 0), r.2.map (fun p => p.req.extraData)))) h
  revert hbyte
  decide

end CxlMemory
end Gem5
