import Gem5Cxl.CxlEquiv
import Gem5Cxl.PacketQueue
/-!
# PioPort — timing requests at the CXL memory's PIO port (`dev/io_device.hh`, `mem/tport.cc`)

`PioPort::recvAtomic` asserts that the device turned the packet into a response.  The CXL memory turns around exactly
the packets whose command needs a response, so the port delivers those and no others.
-/
namespace Gem5

structure PioPort where
  device : CxlMemory
  respQueue : PacketQueue := {}
  curTick : Nat := 0

namespace PioPort

def arrived (pkt : Packet) : Packet := { pkt with headerDelay := 0, payloadDelay := 0 }

/-- `PioPort::recvAtomic`: the device, the packet and the latency.  The delays are added as 32-bit words. -/
def recvAtomic (device : CxlMemory) (pkt : Packet) : Except Failure (CxlMemory × Packet × Nat) := do
  let receiveDelay := (pkt.headerDelay + pkt.payloadDelay).toNat
  let (device', pkt', delay) ← device.serve (arrived pkt)
  assertThat (pkt'.isResponse || pkt'.isError)
  return (device', pkt', delay + receiveDelay)

/-- `SimpleTimingPort::recvTimingReq`; a packet that needs no response is deleted. -/
def recvTimingReq (p : PioPort) (pkt : Packet) : Except Failure PioPort := do
  panicIf pkt.cacheResponding "SimpleTimingPort should never see packets with the cacheResponding flag set\n"
  let (device, pkt', latency) ← recvAtomic p.device pkt
  if pkt.needsResponse then
    assertThat pkt'.isResponse
    let respQueue ← p.respQueue.schedSendTiming p.curTick pkt' (p.curTick + latency)
    return { p with device := device, respQueue := respQueue }
  else return { p with device := device }

/-- **Delivered**: no assertion fails, and the request gets exactly one response when it needs one, and none
otherwise. -/
def Delivered (p : PioPort) (pkt : Packet) : Prop :=
  ∃ p', p.recvTimingReq pkt = .ok p' ∧
    if pkt.needsResponse then
      ∃ dp : DeferredPacket, dp.pkt.cmd = pkt.cmd.responseCommand ∧ dp.pkt.isResponse = true ∧ p.curTick ≤ dp.tick ∧
        p'.respQueue.transmitList.Perm (dp :: p.respQueue.transmitList)
    else p'.respQueue.transmitList = p.respQueue.transmitList

variable {pkt : Packet} {c : CxlMemory} {m : AbstractMemory} {p : PioPort}

theorem accessData_cmd {r : AddrRange} {m m' : Pmem} {pkt' : Packet}
    (h : CxlMemory.accessData r m pkt = .ok (m', pkt')) : pkt'.cmd = pkt.cmd := by
  have hset : ∀ {q : Packet} {o : Nat}, pkt.setData m o = .ok q → q.cmd = pkt.cmd := by
    intro q o hq
    rw [Packet.setData, Run.bind_eq_ok] at hq
    obtain ⟨_, -, hq⟩ := hq
    cases hq
    rfl
  unfold CxlMemory.accessData at h
  split_ifs at h
  · unfold Packet.accessSwap at h
    split at h
    · rw [Run.bind_eq_ok] at h
      obtain ⟨q, hq, h⟩ := h
      cases h
      exact hset hq
    · simp only [Run.bind_eq_ok] at h
      obtain ⟨_, -, q, hq, _, -, _, -, h⟩ := h
      cases h
      exact hset hq
  · simp only [Run.bind_eq_ok] at h
    obtain ⟨_, -, q, hq, h⟩ := h
    cases h
    exact hset hq
  · rw [Run.bind_eq_ok] at h
    obtain ⟨_, -, h⟩ := h
    cases h
    rfl
  · simp only [Run.bind_eq_ok] at h
    obtain ⟨_, -, _, -, h⟩ := h
    cases h
    rfl

/-- **The CXL memory accepts what `AbstractMemory` accepts**, a store conditional too once it carries data. -/
theorem accessData_accepts (h : CxlMemory.Same c m)
    (hst : pkt.isWrite = true → pkt.data.isSome = true ∧ pkt.req.isInstFetch = false)
    (ha : ∃ x, m.accessData pkt = .ok x) :
    ∃ x, CxlMemory.accessData (CxlMemory.bar0Range c.dev) c.pmem pkt = .ok x := by
  obtain ⟨⟨m', r⟩, ha⟩ := ha
  unfold AbstractMemory.accessData at ha
  unfold CxlMemory.accessData
  by_cases hs : pkt.cmd = .swapReq
  · rw [if_pos hs] at ha ⊢
    simp only [AbstractMemory.accessSwap, h.pmem, h.toHostAddr, Run.bind_eq_ok] at ha
    obtain ⟨x, hx, -⟩ := ha
    exact ⟨x, hx⟩
  · rw [if_neg hs] at ha ⊢
    by_cases hread : pkt.isRead = true
    · rw [if_pos hread] at ha ⊢
      rw [AbstractMemory.accessRead] at ha
      simp only [Run.bind_eq_ok] at ha
      obtain ⟨u, hu, m₁, hm₁, q, hq, -⟩ := ha
      obtain ⟨hpm, hrange⟩ := AbstractMemory.trackRead_frame hm₁
      have ho : m₁.toHostAddr pkt.addr = CxlMemory.toHostAddr (CxlMemory.bar0Range c.dev) pkt.addr := by
        rw [AbstractMemory.toHostAddr, hrange, h.range]
        rfl
      simp only [AbstractMemory.readPmem, hpm, h.pmem, ho] at hq
      rw [hu, Run.ok_bind, hq]
      exact ⟨_, rfl⟩
    · rw [if_neg hread] at ha ⊢
      by_cases hi : (pkt.isInvalidate || pkt.isClean) = true
      · rw [if_pos hi] at ha ⊢
        rw [Run.bind_eq_ok] at ha
        obtain ⟨u, hu, -⟩ := ha
        rw [hu]
        exact ⟨_, rfl⟩
      · rw [if_neg hi] at ha ⊢
        by_cases hw : pkt.isWrite = true
        · rw [if_pos hw] at ha ⊢
          obtain ⟨hdata, hfetch⟩ := hst hw
          have hwrite : ∃ p', pkt.writeData c.pmem (CxlMemory.toHostAddr (CxlMemory.bar0Range c.dev) pkt.addr) =
              .ok p' := by
            by_cases hm : pkt.isMaskedWrite = true
            · -- only a plain write has a mask, and `AbstractMemory` has written it
              have hcmd : pkt.cmd = .writeReq := by
                rw [Packet.isMaskedWrite, Bool.and_eq_true] at hm
                exact of_decide_eq_true hm.1
              have hl : pkt.isLLSC = false := by rw [Packet.isLLSC, hcmd]; decide
              obtain ⟨m₁, hok, hsame⟩ := CxlMemory.writeOK_plain h hl
              rw [AbstractMemory.accessWrite, hok] at ha
              simp only [Run.ok_bind, if_true, Run.bind_eq_ok, AbstractMemory.writePmem, hsame.pmem,
                hsame.toHostAddr] at ha
              obtain ⟨_, hmap, -⟩ := ha
              cases hwd : pkt.writeData c.pmem (CxlMemory.toHostAddr (CxlMemory.bar0Range c.dev) pkt.addr) with
              | error f =>
                rw [hwd] at hmap
                cases hmap
              | ok p' => exact ⟨p', rfl⟩
            · obtain ⟨d, hd⟩ := Option.isSome_iff_exists.1 hdata
              exact ⟨_, Packet.writeData_eq hd (fun hc => absurd hc hm) _ _⟩
          obtain ⟨p', hp'⟩ := hwrite
          rw [hp', Run.ok_bind, hfetch]
          exact ⟨_, rfl⟩
        · rw [if_neg hw] at ha
          cases ha

theorem access_accepts (pkt : Packet) (h : CxlMemory.Same c m) (hr : pkt.cacheResponding = false)
    (hst : pkt.isWrite = true → pkt.data.isSome = true ∧ pkt.req.isInstFetch = false) (ha : ∃ x, m.access pkt = .ok x) :
    ∃ c' r, c.access pkt = .ok (c', r) ∧
      if pkt.needsResponse then r.cmd = pkt.cmd.responseCommand ∧ r.isExpressSnoop = false else r.cmd = pkt.cmd := by
  obtain ⟨x, ha⟩ := ha
  unfold AbstractMemory.access at ha
  unfold CxlMemory.access
  simp only [hr, Bool.false_eq_true, if_false] at ha ⊢
  by_cases he : pkt.cmd = .cleanEvict ∨ pkt.cmd = .writebackClean
  · have hn : pkt.needsResponse = false := by
      rw [Packet.needsResponse]
      rcases he with he | he <;> rw [he] <;> decide
    rw [if_pos he, hn]
    exact ⟨_, _, rfl, rfl⟩
  · rw [if_neg he] at ha ⊢
    simp only [Run.bind_eq_ok, h.range] at ha
    obtain ⟨b, hb, u, hu, y, hy, -⟩ := ha
    obtain ⟨⟨p', r⟩, hd⟩ := accessData_accepts h hst ⟨y, hy⟩
    have hcmd := accessData_cmd hd
    have hneeds : r.needsResponse = pkt.needsResponse := by rw [Packet.needsResponse, Packet.needsResponse, hcmd]
    simp only [hb, hu, hd, Run.ok_bind, Packet.respond_eq, hneeds, Run.pure_eq_ok]
    refine ⟨_, _, rfl, ?_⟩
    by_cases hn : pkt.needsResponse = true
    · rw [if_pos hn, if_pos hn]
      exact ⟨congrArg MemCmd.responseCommand hcmd, rfl⟩
    · rw [if_neg hn, if_neg hn]
      exact hcmd

theorem isRequest_not_response (c : MemCmd) (h : c.isRequest = true) : (c.isResponse || c.isError) = false := by
  revert h
  cases c <;> decide

/-- A packet that needs no response comes back as it went in, and fails the assertion. -/
theorem recvTimingReq_noResponse (hs : CxlMemory.Same p.device m) (hreq : pkt.isRequest = true)
    (hr : pkt.cacheResponding = false)
    (hst : pkt.isWrite = true → pkt.data.isSome = true ∧ pkt.req.isInstFetch = false)
    (ha : ∃ x, m.access (arrived pkt) = .ok x) (hn : pkt.needsResponse = false) :
    p.recvTimingReq pkt = .error .assertFailed := by
  obtain ⟨c', r, hacc, hcmd⟩ := access_accepts (arrived pkt) hs hr hst ha
  have hcmd : r.cmd = pkt.cmd := by
    rw [show (arrived pkt).needsResponse = false from hn] at hcmd
    exact hcmd
  have hassert : (r.isResponse || r.isError) = false := by
    rw [Packet.isResponse, Packet.isError, hcmd]
    exact isRequest_not_response pkt.cmd hreq
  rw [recvTimingReq, hr, recvAtomic, CxlMemory.serve_eq, hacc]
  simp only [panicIf, Bool.false_eq_true, if_false, Run.ok_bind, Except.map, hassert, assertThat, Run.error_bind]

theorem recvTimingReq_response (hs : CxlMemory.Same p.device m) (hr : pkt.cacheResponding = false)
    (hst : pkt.isWrite = true → pkt.data.isSome = true ∧ pkt.req.isInstFetch = false)
    (ha : ∃ x, m.access (arrived pkt) = .ok x) (hn : pkt.needsResponse = true) :
    ∃ c' r when, r.cmd = pkt.cmd.responseCommand ∧ r.isExpressSnoop = false ∧ r.isResponse = true ∧ p.curTick ≤ when ∧
      p.recvTimingReq pkt = (p.respQueue.schedSendTiming p.curTick r when).map
        (fun q => { p with device := c', respQueue := q }) := by
  obtain ⟨c', r, hacc, hcmd⟩ := access_accepts (arrived pkt) hs hr hst ha
  rw [show (arrived pkt).needsResponse = true from hn, if_pos rfl] at hcmd
  obtain ⟨hcmd, hexp⟩ := hcmd
  have hresp : r.isResponse = true := by
    rw [Packet.isResponse, hcmd]
    exact (MemCmd.responseCommand_spec pkt.cmd hn).2.1
  refine ⟨c', r, p.curTick + (p.device.latency + p.device.cxlMemLatency + (pkt.headerDelay + pkt.payloadDelay).toNat),
    hcmd, hexp, hresp, Nat.le_add_right _ _, ?_⟩
  rw [recvTimingReq, hr, recvAtomic, CxlMemory.serve_eq, hacc]
  simp only [panicIf, Bool.false_eq_true, if_false, Run.ok_bind, Except.map, hresp, Bool.true_or, assertThat_true,
    Run.pure_eq_ok, hn, if_true]
  cases p.respQueue.schedSendTiming p.curTick r _ with
  | error f => rfl
  | ok q => rfl

/-- **A request the memory accepts is delivered exactly when its command needs a response**, and the response queue is
within its limit. -/
theorem delivered_iff (p : PioPort) (m : AbstractMemory) (pkt : Packet) (hs : CxlMemory.Same p.device m)
    (hreq : pkt.isRequest = true) (hr : pkt.cacheResponding = false)
    (hst : pkt.isWrite = true → pkt.data.isSome = true ∧ pkt.req.isInstFetch = false)
    (ha : ∃ x, m.access (arrived pkt) = .ok x)
    (hq : p.respQueue.waitingOnRetry = true → p.respQueue.sendEvent = none) :
    p.Delivered pkt ↔ pkt.needsResponse = true ∧ p.respQueue.transmitList.length ≤ 128 := by
  by_cases hn : pkt.needsResponse = true
  · obtain ⟨c', r, when, hcmd, hexp, hresp, hwhen, heq⟩ := recvTimingReq_response hs hr hst ha hn
    constructor
    · rintro ⟨p', hp', -⟩
      refine ⟨hn, ?_⟩
      by_contra hlen
      rw [heq] at hp'
      cases hsched : p.respQueue.schedSendTiming p.curTick r when with
      | error f =>
        rw [hsched] at hp'
        cases hp'
      | ok q => exact PacketQueue.schedSendTiming_full (by omega) q hsched
    · rintro ⟨-, hlen⟩
      obtain ⟨q, hsched, hperm⟩ := PacketQueue.schedSendTiming_perm hwhen hexp hlen hq
      rw [hsched] at heq
      refine ⟨_, heq, ?_⟩
      rw [if_pos hn]
      exact ⟨⟨when, r⟩, hcmd, hresp, hwhen, hperm⟩
  · constructor
    · rintro ⟨p', hp', -⟩
      rw [recvTimingReq_noResponse hs hreq hr hst ha (Bool.eq_false_iff.2 hn)] at hp'
      cases hp'
    · rintro ⟨hc, -⟩
      exact absurd hc hn

def samplePort : PioPort := { device := CxlMemory.create (PciDevice.create 0 {} { size := 64 }) (fun _ => 0) 50 2 }

def sampleMemory : AbstractMemory := { range := rangeSize 0 64, pmem := some (fun _ => 0) }

def samplePacket (cmd : MemCmd) : Packet :=
  { cmd := cmd, req := { paddr := 0 }, addr := 0, size := 64, data := some (fun _ => 1), size_lt := Packet.lineSize_lt }

theorem delivered_iff_read : samplePort.Delivered (samplePacket .readReq) :=
  (delivered_iff samplePort sampleMemory (samplePacket .readReq) ⟨rfl, rfl, rfl⟩ rfl rfl (by decide) ⟨_, rfl⟩
    (by decide)).2 (by decide)

/-- The writeback a cache above the memory sends is accepted by `AbstractMemory`, and stops the simulator at the port
of the CXL memory. -/
theorem writebackDirty_not_delivered :
    (∃ x, sampleMemory.access (samplePacket .writebackDirty) = .ok x) ∧
      samplePort.recvTimingReq (samplePacket .writebackDirty) = .error .assertFailed ∧
      ¬ samplePort.Delivered (samplePacket .writebackDirty) := by
  have hfail : samplePort.recvTimingReq (samplePacket .writebackDirty) = .error .assertFailed := rfl
  refine ⟨⟨_, rfl⟩, hfail, ?_⟩
  rintro ⟨p', hp', -⟩
  rw [hfail] at hp'
  cases hp'

end PioPort
end Gem5
