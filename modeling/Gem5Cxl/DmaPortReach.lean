import Gem5Cxl.DmaPortRun
/-!
# DmaPortReach — DMA transfers and their aborts, over every run

A run is any interleaving of calls, send events, retries and responses.  Without aborts every request is sent once, in
order, and completes with its last response.  With aborts, whether the state of an aborted request is ever freed depends
on which response comes last.
-/
namespace Gem5.DmaPort

variable {R : Type}

/-! ## Runs -/

/-- What can happen next: a send event that is scheduled, a retry that is owed, a response to a packet in flight. -/
def Enabled (s : System R) : Event R → Prop
  | .dmaAction a _ => 0 < a.size.toNat
  | .sendEvent _ => s.port.sendEvent = true
  | .recvReqRetry _ => s.owed = true
  | .response n _ => n < s.inFlight.length
  | .abortPending => True

def Event.Fits (k : Nat) : Event R → Prop
  | .dmaAction a _ => DmaPort.Fits k a
  | _ => True

inductive Reach (line : Addr) (ok : System R → Event R → Prop) : System R → Prop
  | create : Reach line ok .create
  | step {s s' : System R} {e : Event R} : Reach line ok s → Enabled s e → ok s e → s.step line e = .ok s' →
      Reach line ok s'

theorem Data.create (k : Nat) (cur : Nat → Nat) : Data k (.create : System R) cur where
  sent := by simp [System.create]
  alive := by simp [System.create, DmaPort.create]
  nodup := List.nodup_nil
  waiting := by simp [System.create, DmaPort.create]
  unstarted := by simp [System.create, DmaPort.create]
  unlisted := by simp [System.create, DmaPort.create]
  flights := by simp [System.create]
  pending := rfl
  inRetry := by simp [System.create, DmaPort.create]
  completed := by simp [System.create]
  signalled := by simp [System.create]
  dropped := by simp [System.create]
  positive := by simp [System.create]
  fresh := by simp [System.create, ofRequest]

theorem Control.create : Control (.create : System R) where
  owed := rfl
  inRetry := by simp [System.create, DmaPort.create]
  sendEvent := by simp [System.create, DmaPort.create]
  ready := by simp [System.create, DmaPort.create]

variable {cur : Nat → Nat} {k i : Nat} {s : System R} {a : DmaAction R}

/-- **Every event lands**: no assertion fails, no deleted state is read, and the invariant holds after it. -/
theorem step_lands (hk : k < 32) (h : Data k s cur) (hc : Control s) {e : Event R} (he : Enabled s e) (hf : e.Fits k) :
    ∃ s' cur', s.step (BitVec.ofNat 64 (2 ^ k)) e = .ok s' ∧ Data k s' cur' ∧ Control s' ∧
      (e ≠ .abortPending → (Ordered k s cur → Ordered k s' cur') ∧ s'.dropped = s.dropped) ∧
      (Calm s → (Calm s' ↔ Alone s e)) := by
  have hsend : Lands k s cur e → (Alone s e ↔ True) → ∃ s' cur', s.step (BitVec.ofNat 64 (2 ^ k)) e = .ok s' ∧
      Data k s' cur' ∧ Control s' ∧ (e ≠ .abortPending → (Ordered k s cur → Ordered k s' cur') ∧ s'.dropped = s.dropped) ∧
      (Calm s → (Calm s' ↔ Alone s e)) := by
    rintro ⟨s', cur', hstep, hkeep⟩ halone
    exact ⟨s', cur', hstep, hkeep.data, hkeep.control, fun _ => ⟨hkeep.ordered, hkeep.dropped⟩,
      fun hcalm => iff_of_true (hkeep.calm hcalm) (halone.2 trivial)⟩
  cases e with
  | dmaAction a accept => exact hsend (dmaAction_lands hk h hc hf accept) Iff.rfl
  | sendEvent accept => exact hsend (sendEvent_lands hk h hc he accept) Iff.rfl
  | recvReqRetry accept => exact hsend (recvReqRetry_lands hk h hc he accept) Iff.rfl
  | response n now =>
    obtain ⟨s', hstep, hdata, hcontrol, hordered, hcalm, hdropped⟩ := response_lands h hc he now (BitVec.ofNat 64 (2 ^ k))
    exact ⟨s', cur, hstep, hdata, hcontrol, fun _ => ⟨hordered, hdropped⟩, fun _ => hcalm⟩
  | abortPending =>
    obtain ⟨s', hstep, hdata, hcontrol, hcalm⟩ := abortPending_lands h hc (BitVec.ofNat 64 (2 ^ k))
    exact ⟨s', cur, hstep, hdata, hcontrol, fun hne => absurd rfl hne, fun hc' => iff_of_true (hcalm hc') trivial⟩

theorem Reach.inv (hk : k < 32) {ok : System R → Event R → Prop} (hok : ∀ s e, ok s e → e.Fits k)
    (h : Reach (BitVec.ofNat 64 (2 ^ k)) ok s) :
    ∃ cur, Data k s cur ∧ Control s ∧ ((∀ s e, ok s e → e ≠ .abortPending) → Ordered k s cur ∧ s.dropped = []) ∧
      ((∀ s e, ok s e → Alone s e) → Calm s) := by
  induction h with
  | create =>
    refine ⟨fun _ => 0, .create k _, .create, fun _ => ⟨?_, rfl⟩, fun _ => ?_⟩
    · simp [Ordered, System.create, DmaPort.create]
    · simp [Calm, System.create, DmaPort.create]
  | @step s s' e _ he hoke hstep ih =>
    obtain ⟨cur, hdata, hcontrol, hordered, hcalm⟩ := ih
    obtain ⟨s'', cur', hstep', hdata', hcontrol', hordered', hcalm'⟩ := step_lands hk hdata hcontrol he (hok _ _ hoke)
    obtain rfl := Except.ok.inj (hstep.symm.trans hstep')
    refine ⟨cur', hdata', hcontrol', fun hno => ?_, fun halone => (hcalm' (hcalm halone)).2 (halone _ _ hoke)⟩
    obtain ⟨ho, hd⟩ := hordered hno
    exact ⟨(hordered' (hno _ _ hoke)).1 ho, (hordered' (hno _ _ hoke)).2.trans hd⟩

/-! ## What the packets of a request are -/

/-- The packets cover the region of request `i` exactly once, in increasing order, each within one line and pointing to
the place in the data buffer that matches its address. -/
def Covers (k i : Nat) (a : DmaAction R) (l : List (DmaPacket R)) : Prop :=
  Bits.Tiles a.addr.toNat (last a) (l.map fun pkt => (pkt.addr.toNat, pkt.size.toNat)) ∧
  ∀ pkt ∈ l, pkt.senderState = i ∧ pkt.addr.toNat % 2 ^ k + pkt.size.toNat ≤ 2 ^ k ∧
    pkt.data = a.data.map (· + (pkt.addr - a.addr)) ∧ pkt.req = a.req

theorem piecePacket_toNat (hk : k < 32) (hf : Fits k a) {pc : Nat × Nat}
    (hin : a.addr.toNat ≤ pc.1 ∧ 0 < pc.2 ∧ pc.1 + pc.2 ≤ last a) (hline : pc.1 % 2 ^ k + pc.2 ≤ 2 ^ k) :
    (piecePacket i a pc).addr.toNat = pc.1 ∧ (piecePacket i a pc).size.toNat = pc.2 := by
  have htop : last a ≤ 2 ^ 64 := hf.le
  have hpow : 2 ^ k < 2 ^ 32 := Nat.pow_lt_pow_right (by decide) hk
  constructor
  · rw [piecePacket, BitVec.toNat_ofNat]
    exact Nat.mod_eq_of_lt (by omega)
  · rw [piecePacket, BitVec.toNat_ofNat]
    exact Nat.mod_eq_of_lt (by omega)

theorem packetsFrom_covers (hk : k < 32) (i : Nat) (hf : Fits k a) : Covers k i a (packetsFrom k i a a.addr.toNat) := by
  obtain ⟨htile, hline⟩ := Bits.pieces_tile (Nat.two_pow_pos k) (last a) a.addr.toNat (Nat.le_add_right _ _)
  have hin := htile.bounds.2
  have hnat : ∀ pc ∈ Bits.pieces (2 ^ k) (last a) a.addr.toNat, _ := fun pc hpc =>
    piecePacket_toNat (i := i) hk hf (hin pc hpc) (hline pc hpc)
  constructor
  · rw [packetsFrom, List.map_map]
    have hmap : (Bits.pieces (2 ^ k) (last a) a.addr.toNat).map
        ((fun pkt : DmaPacket R => (pkt.addr.toNat, pkt.size.toNat)) ∘ piecePacket i a) =
        Bits.pieces (2 ^ k) (last a) a.addr.toNat := by
      refine (List.map_congr_left fun pc hpc => ?_).trans (List.map_id _)
      rw [Function.comp_apply, (hnat pc hpc).1, (hnat pc hpc).2]
      rfl
    rw [hmap]
    exact htile
  · intro pkt hpkt
    obtain ⟨pc, hpc, rfl⟩ := List.mem_map.1 hpkt
    refine ⟨rfl, ?_, ?_, rfl⟩
    · rw [(hnat pc hpc).1, (hnat pc hpc).2]
      exact hline pc hpc
    · have hoff : BitVec.ofNat 64 (pc.1 - a.addr.toNat) = (piecePacket i a pc).addr - a.addr := by
        have hge := (hin pc hpc).1
        apply BitVec.eq_of_toNat_eq
        rw [BitVec.toNat_sub_of_le (by rw [BitVec.le_def, (hnat pc hpc).1]; exact hge), (hnat pc hpc).1, BitVec.toNat_ofNat]
        have := (hin pc hpc).2.2
        have : last a ≤ 2 ^ 64 := hf.le
        have := (hin pc hpc).2.1
        omega
      rw [← hoff]
      rfl

theorem whole_covers (hk : k < 32) (h : Data k s cur) (ha : s.actions[i]? = some a) : Covers k i a (whole k s i) := by
  rw [whole, ha]
  exact packetsFrom_covers hk i (h.sent i a ha).fits

theorem Data.sent_whole_iff (h : Data k s cur) (ha : s.actions[i]? = some a) :
    ofRequest i s.sent = whole k s i ↔ cur i = last a := by
  have hs := h.sent i a ha
  rw [whole, ha]
  simp only
  rw [← hs.sent, List.self_eq_append_right]
  constructor
  · intro hnil
    by_contra hne
    rw [packetsFrom_eq (Nat.lt_of_le_of_ne hs.le hne)] at hnil
    cases hnil
  · intro heq
    rw [heq, packetsFrom_last]

theorem Data.no_flights_of_none (h : Data k s cur) (hnone : s.port.states i = none) : ofRequest i s.inFlight = [] := by
  refine List.filter_eq_nil_iff.2 fun pkt hpkt heq => h.flights pkt hpkt ?_
  rw [decide_eq_true_eq] at heq
  rw [heq, hnone]

theorem Data.finished_iff (h : Data k s cur) (ha : s.actions[i]? = some a) :
    s.port.states i = none ∧ cur i = last a ↔ ofRequest i s.sent = whole k s i ∧ ofRequest i s.inFlight = [] := by
  rw [h.sent_whole_iff ha]
  constructor
  · rintro ⟨hnone, hcur⟩
    exact ⟨hcur, h.no_flights_of_none hnone⟩
  · rintro ⟨hcur, hnil⟩
    refine ⟨?_, hcur⟩
    by_contra hsome
    obtain ⟨st, hst⟩ := Option.ne_none_iff_exists'.1 hsome
    by_cases hl : i ∈ s.port.transmitList
    · obtain ⟨-, b, -, hb, -, hlt⟩ := h.waiting i hl
      obtain rfl := Option.some.inj (ha.symm.trans hb)
      omega
    · have hun := h.unlisted i st a hst ha hl
      split at hun
      · omega
      · exact hun.2 hnil

/-- The completion event of request `i` has been scheduled once if the request has been sent and answered whole, and not
before. -/
def CompletedOnce (k : Nat) (s : System R) (i : Nat) (a : DmaAction R) : Prop :=
  (s.completed.map (·.1)).count i ≤ 1 ∧
  ((s.completed.map (·.1)).count i = 1 ↔ a.event = true ∧ ofRequest i s.sent = whole k s i ∧ ofRequest i s.inFlight = [])

theorem Data.completedOnce (h : Data k s cur) (ha : s.actions[i]? = some a) : CompletedOnce k s i a := by
  rw [CompletedOnce, h.completed i a ha, ← h.finished_iff ha]
  split <;> simp_all

/-! ## Without aborts -/

/-- What `DmaPort` does with the requests it was given. -/
structure Delivers (k : Nat) (s : System R) : Prop where
  covers : ∀ i a, s.actions[i]? = some a → Covers k i a (whole k s i)
  /-- The requests are sent in the order of the calls. -/
  inOrder : ∃ rest, s.sent ++ rest = (List.range s.actions.length).flatMap (whole k s) ∧
    (s.port.transmitList = [] → rest = [])
  pending : s.port.pendingCount = s.inFlight.length
  completed : ∀ i a, s.actions[i]? = some a → CompletedOnce k s i a
  sender : s.port.transmitList ≠ [] →
    (s.port.retryPending = true ∧ s.port.sendEvent = false) ∨ (s.port.retryPending = false ∧ s.port.sendEvent = true)

theorem Control.sender (h : Control s) (hne : s.port.transmitList ≠ []) :
    (s.port.retryPending = true ∧ s.port.sendEvent = false) ∨ (s.port.retryPending = false ∧ s.port.sendEvent = true) := by
  cases hev : s.port.sendEvent with
  | true => exact .inr ⟨(h.sendEvent hev).2, rfl⟩
  | false =>
    refine .inl ⟨(h.ready hne).resolve_right ?_, rfl⟩
    simp [hev]

theorem first_sent {line : Addr} {g : ChunkGenerator} (hg : ChunkGenerator.create a.addr a.size line = .ok g) :
    ∃ s' pkt, System.create.step line (.dmaAction a true) = .ok s' ∧ s'.sent = [pkt] ∧ pkt.addr = g.curAddr ∧
      pkt.size = g.curSize.setWidth 32 := by
  obtain ⟨st, hst, hgen⟩ : ∃ st, newState line a = .ok st ∧ st.gen = g := ⟨_, by rw [newState, hg]; rfl, rfl⟩
  obtain ⟨p, hp⟩ : ∃ p, DmaPort.create.dmaAction line 0 a true = .ok (p, [createPacket 0 st]) := by
    rw [dmaAction, hst]
    by_cases hlast : st.gen.last = true
    · exact ⟨_, by simp [sendDma, trySendTimingReq, DmaPort.create, deref, hlast, nextPacket]; rfl⟩
    · exact ⟨_, by simp [sendDma, trySendTimingReq, DmaPort.create, deref, hlast, nextPacket]; rfl⟩
  refine ⟨{ System.create.sends (p, [createPacket 0 st]) with actions := [a] }, createPacket 0 st, ?_, rfl, ?_, ?_⟩
  · change (do
      let r ← DmaPort.create.dmaAction line 0 a true
      Except.ok { System.create.sends r with actions := [a] }) = _
    rw [hp, Run.ok_bind]
  · rw [createPacket, ChunkGenerator.addr, hgen]
  · rw [createPacket, ChunkGenerator.size, hgen]

/-- The first packet of a lone call stays in its line and in the region exactly when the call fits. -/
theorem first_packet_iff (hk : k < 32) (hpos : 0 < a.size.toNat) (hint : a.size.toNat < 2 ^ 31)
    (htop : last a ≤ 2 ^ 64) : ∃ s', System.create.step (BitVec.ofNat 64 (2 ^ k)) (.dmaAction a true) = .ok s' ∧
      ((∀ pkt ∈ s'.sent, pkt.addr.toNat % 2 ^ k + pkt.size.toNat ≤ 2 ^ k ∧ pkt.addr.toNat + pkt.size.toNat ≤ last a) ↔
        Fits k a) := by
  have hpow : 2 ^ k < 2 ^ 32 := Nat.pow_lt_pow_right (by decide) hk
  have hlast : last a = a.addr.toNat + a.size.toNat := rfl
  by_cases hf : Fits k a
  · obtain ⟨g, hg, hat⟩ := ChunkGenerator.create_at (by omega : k < 64) hf
    obtain ⟨s', pkt, hstep, hsent, haddr, hsize⟩ := first_sent hg
    have hline := Bits.cut_le_line (Nat.two_pow_pos k) (last a) a.addr.toNat
    have hcut := Bits.cut_le (2 ^ k) (last a) a.addr.toNat
    have hlt := Bits.lt_cut (Nat.two_pow_pos k) (by omega : a.addr.toNat < last a)
    have hnat : pkt.size.toNat = Bits.cut (2 ^ k) (last a) a.addr.toNat - a.addr.toNat := by
      rw [hsize, BitVec.toNat_setWidth, hat.curSize]
      exact Nat.mod_eq_of_lt (cut_sub_lt hk _ _)
    refine ⟨s', hstep, iff_of_true ?_ hf⟩
    intro q hq
    rw [hsent, List.mem_singleton] at hq
    subst hq
    rw [haddr, hat.curAddr, hnat]
    exact ⟨hline, by omega⟩
  · obtain ⟨g, hg, hcur, hsz⟩ : ∃ g, ChunkGenerator.create a.addr a.size (BitVec.ofNat 64 (2 ^ k)) = .ok g ∧
        g.curAddr = a.addr ∧ g.curSize = 0 - a.addr := by
      refine ⟨_, by simp only [ChunkGenerator.create, ChunkGenerator.isPowerOf2_ofNat (by omega : k < 64), Bool.or_true,
        assertThat_true, Run.ok_bind]; rfl, rfl, ?_⟩
      simp only [ChunkGenerator.firstEnd_of_not_fits (by omega : k < 64) hpos htop hf]
    obtain ⟨s', pkt, hstep, hsent, haddr, hsize⟩ := first_sent hg
    refine ⟨s', hstep, iff_of_false (fun hall => ?_) hf⟩
    obtain ⟨hline, hin⟩ := hall pkt (by rw [hsent]; exact List.mem_singleton_self _)
    have hnot : ¬ (a.addr.toNat + 2 ^ k < 2 ^ 64 ∧ last a < 2 ^ 64 ∨ 2 ^ 64 ≤ a.addr.toNat + 2 ^ k ∧ last a = 2 ^ 64) :=
      fun hc => hf ⟨hpos, hc⟩
    -- the packet runs up to the top of the address space
    have hnat : pkt.size.toNat = 2 ^ 64 - a.addr.toNat := by
      rw [hsize, hsz, BitVec.toNat_setWidth, BitVec.toNat_sub]
      change (2 ^ 64 - a.addr.toNat + 0) % 2 ^ 64 % 2 ^ 32 = _
      omega
    rw [haddr, hcur] at hline hin
    omega

/-- **DMA requests complete once.**  In every run without an abort whose calls fit, no assertion fails, and after every
event the packets sent are those of the calls in their order, with completion events for the calls that were answered
whole.  A call that does not fit gets a first packet that leaves its line or the region. -/
theorem dma_completes_once {k : Nat} (hk : k < 32) :
    (∀ s : System R, Reach (BitVec.ofNat 64 (2 ^ k)) (fun _ e => e ≠ .abortPending ∧ e.Fits k) s →
      (∀ e, Enabled s e → e ≠ .abortPending → e.Fits k → ∃ s', s.step (BitVec.ofNat 64 (2 ^ k)) e = .ok s') ∧
      Delivers k s) ∧
    ∀ a : DmaAction R, 0 < a.size.toNat → a.size.toNat < 2 ^ 31 → last a ≤ 2 ^ 64 →
      ∃ s', System.create.step (BitVec.ofNat 64 (2 ^ k)) (.dmaAction a true) = .ok s' ∧
        ((∀ pkt ∈ s'.sent, pkt.addr.toNat % 2 ^ k + pkt.size.toNat ≤ 2 ^ k ∧
          pkt.addr.toNat + pkt.size.toNat ≤ last a) ↔ Fits k a) := by
  refine ⟨fun s hreach => ?_, fun a => first_packet_iff hk⟩
  obtain ⟨cur, hdata, hcontrol, hordered, -⟩ := hreach.inv hk fun _ _ h => h.2
  obtain ⟨hord, -⟩ := hordered fun _ _ h => h.1
  refine ⟨fun e he _ hf => ?_, fun i a ha => whole_covers hk hdata ha, ⟨_, hord, ?_⟩, hdata.pending,
    fun i a ha => hdata.completedOnce ha, hcontrol.sender⟩
  · obtain ⟨s', _, hstep, -⟩ := step_lands hk hdata hcontrol he hf
    exact ⟨s', hstep⟩
  · intro hnil
    rw [hnil]
    rfl

/-- Requests on 64-byte lines: 100 bytes from `0x30`, which take three packets; two lines at the top of the address
space. -/
def unaligned : DmaAction Unit :=
  { req := (), addr := 0x30, size := 100, event := true, abortEvent := false, data := some 0x1000, delay := 0 }

def topLines : DmaAction Unit := { unaligned with addr := 0xffffffffffffff80, size := 128 }

theorem unaligned_delivered : ∃ s : System Unit, s.sent.length = 1 ∧ s.port.sendEvent = true ∧ Delivers 6 s := by
  have hfits : Fits 6 unaligned := by
    refine ⟨by decide, .inl ⟨by decide, by decide⟩⟩
  refine ⟨_, rfl, rfl, ((dma_completes_once (R := Unit) (k := 6) (by decide)).1 _
    (.step .create (e := .dmaAction unaligned true) (by decide : 0 < unaligned.size.toNat) ⟨by simp, hfits⟩ rfl)).2⟩

/-- The two lines at the top go out in one packet. -/
theorem topLines_one_packet : ∃ s : System Unit, Reach 64 (fun _ e => e ≠ .abortPending) s ∧ s.actions = [topLines] ∧
    s.port.transmitList = [] ∧ ∃ pkt ∈ s.sent, 64 < pkt.addr.toNat % 64 + pkt.size.toNat := by
  refine ⟨_, .step .create (e := .dmaAction topLines true) (by decide : 0 < topLines.size.toNat) (by simp) rfl, rfl, rfl, ?_⟩
  exact ⟨_, List.mem_singleton_self _, by decide⟩

/-! ## With aborts -/

def Settled (s : System R) : Prop := s.inFlight = [] → ∀ i ∈ s.dropped, s.port.states i = none

theorem Data.mem_dropped (h : Data k s cur) (hi : i ∈ s.dropped) :
    ∃ a, s.actions[i]? = some a ∧ i ∉ s.port.transmitList ∧ cur i < last a := by
  have hlt : i < s.actions.length := by
    by_contra hge
    exact (h.fresh i (by omega)).2.2.2 hi
  have ha : s.actions[i]? = some s.actions[i] := List.getElem?_eq_getElem hlt
  exact ⟨_, ha, (h.dropped i _ ha).1 hi⟩

theorem Data.settled_iff (h : Data k s cur) : Settled s ↔ Calm s := by
  constructor
  · intro hs i st hst hab hnil
    obtain ⟨a, ha, -⟩ := h.alive i st hst
    have hout : i ∉ s.port.transmitList := by
      intro hin
      obtain ⟨st', -, hst', -, hab', -⟩ := h.waiting i hin
      obtain rfl := Option.some.inj (hst.symm.trans hst')
      simp [hab'] at hab
    have hlt := h.unlisted i st a hst ha hout
    rw [if_pos hab] at hlt
    have hnone := hs hnil i ((h.dropped i a ha).2 ⟨hout, hlt⟩)
    simp [hst] at hnone
  · intro hcalm hnil i hi
    obtain ⟨a, ha, hout, hlt⟩ := h.mem_dropped hi
    by_contra hsome
    obtain ⟨st, hst⟩ := Option.ne_none_iff_exists'.1 hsome
    have hun := h.unlisted i st a hst ha hout
    split at hun
    · rename_i hab
      exact hcalm i st hst hab hnil
    · omega

/-- What becomes of the requests that aborts found on the list, and of the others. -/
structure Aborts (k : Nat) (s : System R) : Prop where
  /-- Such a request signals its abort event with the end of its state, with none of its packets in flight. -/
  aborted : ∀ i ∈ s.dropped, ∃ a, s.actions[i]? = some a ∧ (s.completed.map (·.1)).count i = 0 ∧
    s.signalled.count i = (if a.abortEvent ∧ s.port.states i = none then 1 else 0) ∧
    (s.port.states i = none → ofRequest i s.inFlight = [])
  settled : Settled s
  others : ∀ i a, s.actions[i]? = some a → i ∉ s.dropped → s.signalled.count i = 0 ∧ CompletedOnce k s i a ∧
    (i ∉ s.port.transmitList → ofRequest i s.sent = whole k s i)

theorem Data.aborts (h : Data k s cur) (hcalm : Calm s) : Aborts k s where
  aborted := by
    intro i hi
    obtain ⟨a, ha, hout, hlt⟩ := h.mem_dropped hi
    refine ⟨a, ha, ?_, ?_, h.no_flights_of_none⟩
    · rw [h.completed i a ha, if_neg fun hc => Nat.ne_of_lt hlt hc.2.2]
    · rw [h.signalled i a ha]
      simp only [hlt, and_true]
  settled := h.settled_iff.2 hcalm
  others := by
    intro i a ha hi
    have hpart : cur i < last a → i ∈ s.port.transmitList := fun hlt =>
      by_contra fun hout => hi ((h.dropped i a ha).2 ⟨hout, hlt⟩)
    refine ⟨?_, h.completedOnce ha, fun hout => (h.sent_whole_iff ha).2 ?_⟩
    · rw [h.signalled i a ha, if_neg]
      rintro ⟨-, hnone, hlt⟩
      exact h.listed_ne_none (hpart hlt) hnone
    · have hle := (h.sent i a ha).le
      exact Nat.le_antisymm hle (Nat.not_lt.1 fun hlt => hout (hpart hlt))

/-- **Aborts.**  In every run whose calls fit and in which the last response in flight leaves no other aborted request
waiting, every aborted request signals its abort event once, when none of its packets is in flight, and is freed with the
last response at the latest; the other requests complete.  The condition is exact: an event breaks it exactly when it
leaves an aborted request that nothing will free. -/
theorem dma_abort_signals {k : Nat} (hk : k < 32) {s : System R}
    (h : Reach (BitVec.ofNat 64 (2 ^ k)) (fun s e => e.Fits k ∧ Alone s e) s) :
    Aborts k s ∧ ∀ e, Enabled s e → e.Fits k →
      ∃ s', s.step (BitVec.ofNat 64 (2 ^ k)) e = .ok s' ∧ (Settled s' ↔ Alone s e) := by
  obtain ⟨cur, hdata, hcontrol, -, hcalm⟩ := h.inv hk fun _ _ h => h.1
  have hcalm := hcalm fun _ _ h => h.2
  refine ⟨hdata.aborts hcalm, fun e he hf => ?_⟩
  obtain ⟨s', cur', hstep, hdata', -, -, hcalm'⟩ := step_lands hk hdata hcontrol he hf
  exact ⟨s', hstep, hdata'.settled_iff.trans (hcalm' hcalm)⟩

def oneLine : DmaAction Unit :=
  { req := (), addr := 0x1000, size := 64, event := true, abortEvent := true, data := none, delay := 0 }

def twoLines : DmaAction Unit := { oneLine with addr := 0x2000, size := 128 }

theorem oneLine_fits : Fits 6 oneLine := ⟨by decide, .inl ⟨by decide, by decide⟩⟩

theorem twoLines_fits : Fits 6 twoLines := ⟨by decide, .inl ⟨by decide, by decide⟩⟩

theorem Data.alone_of_single (h : Data k s cur) (hone : s.actions.length = 1) (n now : Nat) :
    Alone s (.response n now) := by
  intro pkt hpkt _ i st hst _
  obtain ⟨st', hst'⟩ := Option.ne_none_iff_exists'.1 (h.flights pkt (List.mem_of_getElem? hpkt))
  have hi := h.lt_of_states hst
  have hp := h.lt_of_states hst'
  omega

theorem twoLines_abort : ∃ s : System Unit, s.signalled = [0] ∧ s.inFlight = [] ∧ s.dropped = [0] ∧ Aborts 6 s := by
  have hreach : Reach 64 (fun s e => e.Fits 6 ∧ Alone s e) _ := .step (.step .create (e := .dmaAction twoLines true)
    (by decide : 0 < twoLines.size.toNat) ⟨twoLines_fits, trivial⟩ rfl) (e := .abortPending) trivial ⟨trivial, trivial⟩ rfl
  obtain ⟨cur, hdata, -⟩ := hreach.inv (k := 6) (by decide) fun _ _ h => h.1
  exact ⟨_, rfl, rfl, rfl, (dma_abort_signals (k := 6) (by decide)
    (.step hreach (e := .response 0 0) (by decide : 0 < 1) ⟨trivial, hdata.alone_of_single rfl 0 0⟩ rfl)).1⟩

/-- The response to `twoLines` comes first, that to `oneLine` last: the state of `twoLines` stays for good. -/
theorem oneLine_last_leaks : ∃ s : System Unit, Reach 64 (fun _ e => e.Fits 6) s ∧ s.inFlight = [] ∧ 1 ∈ s.dropped ∧
    (s.port.states 1).isSome ∧ s.signalled = [] := by
  have hsent : Reach 64 (fun _ e => e.Fits 6) _ := .step (.step .create (e := .dmaAction oneLine true)
    (by decide : 0 < oneLine.size.toNat) oneLine_fits rfl) (e := .dmaAction twoLines true)
    (by decide : 0 < twoLines.size.toNat) twoLines_fits rfl
  have haborted : Reach 64 (fun _ e => e.Fits 6) _ := .step hsent (e := .abortPending) trivial trivial rfl
  exact ⟨_, .step (.step haborted (e := .response 1 0) (by decide : 1 < 2) trivial rfl) (e := .response 0 0)
    (by decide : 0 < 1) trivial rfl, rfl, by decide, rfl, rfl⟩

end Gem5.DmaPort
