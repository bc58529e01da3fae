import Gem5Cxl.DmaPort
/-!
# DmaPortRun — what becomes of every DMA request

Over a whole run, the port is described by how far each request has been sent: `cur i` is the address up to which the
packets of request `i` have gone out.
-/
namespace Gem5.DmaPort

open Function (update update_of_ne update_self)

variable {R : Type}

/-! ## The packets of a request -/

def last (a : DmaAction R) : Nat := a.addr.toNat + a.size.toNat

def piecePacket (i : Nat) (a : DmaAction R) (pc : Nat × Nat) : DmaPacket R :=
  { senderState := i, addr := BitVec.ofNat 64 pc.1, size := BitVec.ofNat 32 pc.2,
    data := a.data.map (· + BitVec.ofNat 64 (pc.1 - a.addr.toNat)), req := a.req }

/-- The packets of request `i` from the address `c` on, in lines of `2 ^ k` bytes. -/
def packetsFrom (k i : Nat) (a : DmaAction R) (c : Nat) : List (DmaPacket R) :=
  (Bits.pieces (2 ^ k) (last a) c).map (piecePacket i a)

def Fits (k : Nat) (a : DmaAction R) : Prop := ChunkGenerator.Fits k a.addr.toNat a.size.toNat

variable {a : DmaAction R} {c i k j n : Nat} {pkt : DmaPacket R} {l : List (DmaPacket R)} {st : DmaReqState R}
  {cur : Nat → Nat} {s : System R} {waiting signalled : List Nat} {completed : List (Nat × Nat)}
  {x : Option (DmaReqState R)} {states : Nat → Option (DmaReqState R)}

theorem packetsFrom_eq (hc : c < last a) : packetsFrom k i a c =
      piecePacket i a (c, Bits.cut (2 ^ k) (last a) c - c) :: packetsFrom k i a (Bits.cut (2 ^ k) (last a) c) := by
  rw [packetsFrom, Bits.pieces_eq (Nat.two_pow_pos k) hc, List.map_cons, packetsFrom]

theorem packetsFrom_last (k i : Nat) (a : DmaAction R) : packetsFrom k i a (last a) = [] := by
  rw [packetsFrom, Bits.pieces_self, List.map_nil]

theorem cut_sub_lt (hk : k < 32) (hi c : Nat) : Bits.cut (2 ^ k) hi c - c < 2 ^ 32 := by
  have hline := Bits.cut_le_line (Nat.two_pow_pos k) hi c
  have hlt : 2 ^ k < 2 ^ 32 := Nat.pow_lt_pow_right (by decide) hk
  omega

def bytesOf (l : List (DmaPacket R)) : Nat := (l.map fun pkt => pkt.size.toNat).sum

theorem bytesOf_append (l l' : List (DmaPacket R)) : bytesOf (l ++ l') = bytesOf l + bytesOf l' := by
  simp [bytesOf]

def ofRequest (i : Nat) (l : List (DmaPacket R)) : List (DmaPacket R) := l.filter fun pkt => pkt.senderState = i

theorem ofRequest_append (i : Nat) (l l' : List (DmaPacket R)) :
    ofRequest i (l ++ l') = ofRequest i l ++ ofRequest i l' := List.filter_append _ _

theorem ofRequest_self (h : pkt.senderState = i) : ofRequest i [pkt] = [pkt] := by
  simp [ofRequest, h]

theorem ofRequest_of_ne (h : pkt.senderState ≠ i) : ofRequest i [pkt] = [] := by
  simp [ofRequest, h]

/-! ## The invariant -/

/-- A request state against its call, with packets sent up to `c`. -/
structure Alive (k : Nat) (inFlight : List (DmaPacket R)) (i : Nat) (a : DmaAction R) (st : DmaReqState R) (c : Nat) : Prop where
  completionEvent : st.completionEvent = a.event
  abortEvent : st.abortEvent = a.abortEvent
  totBytes : st.totBytes = a.size
  data : st.data = a.data
  req : st.req = a.req
  gen : c < last a → st.gen.At (2 ^ k) a.addr.toNat (last a) c
  bytes : st.numBytes.toNat + bytesOf (ofRequest i inFlight) = c - a.addr.toNat

structure Sent (k : Nat) (sentPkts : List (DmaPacket R)) (i : Nat) (a : DmaAction R) (c : Nat) : Prop where
  fits : Fits k a
  ge : a.addr.toNat ≤ c
  le : c ≤ last a
  sent : ofRequest i sentPkts ++ packetsFrom k i a c = packetsFrom k i a a.addr.toNat

/-- What holds of the port and of the record, with packets of request `i` sent up to `cur i`. -/
structure Data (k : Nat) (s : System R) (cur : Nat → Nat) : Prop where
  sent : ∀ i a, s.actions[i]? = some a → Sent k s.sent i a (cur i)
  alive : ∀ i st, s.port.states i = some st → ∃ a, s.actions[i]? = some a ∧ Alive k s.inFlight i a st (cur i)
  nodup : s.port.transmitList.Nodup
  waiting : ∀ i ∈ s.port.transmitList, ∃ st a, s.port.states i = some st ∧ s.actions[i]? = some a ∧ st.aborted = false ∧
    cur i < last a
  unstarted : ∀ i ∈ s.port.transmitList.tail, ∀ a, s.actions[i]? = some a → cur i = a.addr.toNat
  /-- A state off the list has been sent whole and waits for responses, or was aborted. -/
  unlisted : ∀ i st a, s.port.states i = some st → s.actions[i]? = some a → i ∉ s.port.transmitList →
    if st.aborted then cur i < last a else cur i = last a ∧ ofRequest i s.inFlight ≠ []
  flights : ∀ pkt ∈ s.inFlight, s.port.states pkt.senderState ≠ none
  pending : s.port.pendingCount = s.inFlight.length
  inRetry : ∀ pkt, s.port.inRetry = some pkt → ∃ i a, s.port.transmitList.head? = some i ∧ s.actions[i]? = some a ∧
    (packetsFrom k i a (cur i)).head? = some pkt
  /-- A request whose state is gone has signalled its end, once. -/
  completed : ∀ i a, s.actions[i]? = some a →
    (s.completed.map (·.1)).count i = if a.event ∧ s.port.states i = none ∧ cur i = last a then 1 else 0
  signalled : ∀ i a, s.actions[i]? = some a →
    s.signalled.count i = if a.abortEvent ∧ s.port.states i = none ∧ cur i < last a then 1 else 0
  dropped : ∀ i a, s.actions[i]? = some a → (i ∈ s.dropped ↔ i ∉ s.port.transmitList ∧ cur i < last a)
  positive : ∀ pkt ∈ s.inFlight, 0 < pkt.size.toNat
  /-- Nothing is on record of a call that has not been made. -/
  fresh : ∀ i, s.actions.length ≤ i →
    ofRequest i s.sent = [] ∧ (s.completed.map (·.1)).count i = 0 ∧ s.signalled.count i = 0 ∧ i ∉ s.dropped

structure Control (s : System R) : Prop where
  owed : s.owed = s.port.retryPending
  inRetry : s.port.inRetry.isSome → s.port.retryPending = true
  sendEvent : s.port.sendEvent = true → s.port.transmitList ≠ [] ∧ s.port.retryPending = false
  ready : s.port.transmitList ≠ [] → s.port.retryPending = true ∨ s.port.sendEvent = true

theorem lt_of_getElem? {α : Type} {l : List α} {a : α} (h : l[i]? = some a) : i < l.length :=
  (List.getElem?_eq_some_iff.1 h).1

/-! ## Sending a packet -/

theorem createPacket_eq (h : Alive k l i a st c) (hge : a.addr.toNat ≤ c) (hc : c < last a) :
    createPacket i st = piecePacket i a (c, Bits.cut (2 ^ k) (last a) c - c) := by
  have hg := h.gen hc
  have haddr : st.gen.addr = BitVec.ofNat 64 c := by
    apply BitVec.eq_of_toNat_eq
    rw [ChunkGenerator.addr, hg.curAddr, BitVec.toNat_ofNat, Nat.mod_eq_of_lt]
    exact hg.curAddr ▸ st.gen.curAddr.isLt
  have hsize : st.gen.size.setWidth 32 = BitVec.ofNat 32 (Bits.cut (2 ^ k) (last a) c - c) := by
    apply BitVec.eq_of_toNat_eq
    rw [ChunkGenerator.size, BitVec.toNat_setWidth, hg.curSize, BitVec.toNat_ofNat]
  have hcomplete : st.gen.complete = BitVec.ofNat 64 (c - a.addr.toNat) := by
    apply BitVec.eq_of_toNat_eq
    rw [ChunkGenerator.complete, BitVec.toNat_sub_of_le, hg.curAddr, hg.startAddr, BitVec.toNat_ofNat, Nat.mod_eq_of_lt]
    · have := hg.curAddr ▸ st.gen.curAddr.isLt
      omega
    · rw [BitVec.le_def, hg.curAddr, hg.startAddr]
      exact hge
  rw [createPacket, piecePacket, haddr, hsize, hcomplete, h.data, h.req]

theorem Data.front (h : Data k s cur) (hl : s.port.transmitList = i :: waiting) :
    ∃ st a, s.port.states i = some st ∧ s.actions[i]? = some a ∧ st.aborted = false ∧ cur i < last a ∧
      Alive k s.inFlight i a st (cur i) ∧ Sent k s.sent i a (cur i) := by
  obtain ⟨st, a, hst, ha, hab, hc⟩ := h.waiting i (hl ▸ List.mem_cons_self)
  obtain ⟨a', ha', halive⟩ := h.alive i st hst
  obtain rfl := Option.some.inj (ha.symm.trans ha')
  exact ⟨st, a, hst, ha, hab, hc, halive, h.sent i a ha⟩

theorem Data.nextPacket_eq (h : Data k s cur) (hl : s.port.transmitList = i :: waiting) (ha : s.actions[i]? = some a)
    (halive : Alive k s.inFlight i a st (cur i)) (hc : cur i < last a) :
    s.port.nextPacket i st = piecePacket i a (cur i, Bits.cut (2 ^ k) (last a) (cur i) - cur i) := by
  rw [nextPacket]
  cases hr : s.port.inRetry with
  | none => exact createPacket_eq halive (h.sent i a ha).ge hc
  | some pkt =>
    obtain ⟨j, a', hj, ha', hhead⟩ := h.inRetry pkt hr
    obtain rfl : i = j := by simpa [hl] using hj
    obtain rfl := Option.some.inj (ha.symm.trans ha')
    rw [packetsFrom_eq hc] at hhead
    exact (Option.some.inj hhead).symm

def sentState (s : System R) (i : Nat) (st : DmaReqState R) (pkt : DmaPacket R) (list : List Nat) : System R :=
  { s with
    port := { s.port with
      states := Function.update s.port.states i (some { st with gen := st.gen.next.1 })
      transmitList := list
      pendingCount := s.port.pendingCount + 1
      inRetry := none }
    inFlight := s.inFlight ++ [pkt]
    sent := s.sent ++ [pkt] }

theorem Alive.append_of_ne (h : Alive k l i a st c) (hne : pkt.senderState ≠ i) : Alive k (l ++ [pkt]) i a st c :=
  { h with bytes := by rw [ofRequest_append, ofRequest_of_ne hne, List.append_nil]; exact h.bytes }

theorem Sent.append_of_ne (h : Sent k l i a c) (hne : pkt.senderState ≠ i) : Sent k (l ++ [pkt]) i a c :=
  { h with sent := by rw [ofRequest_append, ofRequest_of_ne hne, List.append_nil]; exact h.sent }

/-- **Sending a packet**: the request moves on by one piece, and leaves the list with its last. -/
theorem Data.sendPacket (hk : k < 32) (h : Data k s cur) (hl : s.port.transmitList = i :: waiting)
    (hst : s.port.states i = some st) (ha : s.actions[i]? = some a) :
    Data k (sentState s i st (piecePacket i a (cur i, Bits.cut (2 ^ k) (last a) (cur i) - cur i))
      (if st.gen.last then waiting else i :: waiting)) (update cur i (Bits.cut (2 ^ k) (last a) (cur i))) := by
  obtain ⟨st', a', hst', ha', hab, hc, halive, hsent⟩ := h.front hl
  obtain rfl := Option.some.inj (hst.symm.trans hst')
  obtain rfl := Option.some.inj (ha.symm.trans ha')
  have hcut := Bits.lt_cut (Nat.two_pow_pos k) hc
  have hle := Bits.cut_le (2 ^ k) (last a) (cur i)
  have hlast := (halive.gen hc).last_iff
  have hnd := List.nodup_cons.1 (hl ▸ h.nodup)
  generalize hpkt : piecePacket i a (cur i, Bits.cut (2 ^ k) (last a) (cur i) - cur i) = pkt
  have hown : pkt.senderState = i := by rw [← hpkt]; rfl
  have hne : ∀ {j}, j ≠ i → pkt.senderState ≠ j := fun hj => hown ▸ Ne.symm hj
  have hsize : pkt.size.toNat = Bits.cut (2 ^ k) (last a) (cur i) - cur i := by
    rw [← hpkt, piecePacket, BitVec.toNat_ofNat]
    exact Nat.mod_eq_of_lt (cut_sub_lt hk _ _)
  have hmem : ∀ j, j ≠ i → (j ∈ (if st.gen.last = true then waiting else i :: waiting) ↔ j ∈ s.port.transmitList) := by
    intro j hj
    rw [hl]
    split <;> simp [hj]
  constructor
  case sent =>
    intro j b hb
    by_cases hj : j = i
    · subst hj
      obtain rfl := Option.some.inj (ha.symm.trans hb)
      rw [update_self]
      refine ⟨hsent.fits, by have := hsent.ge; omega, hle, ?_⟩
      have hs := hsent.sent
      rw [packetsFrom_eq hc, hpkt] at hs
      change ofRequest j (s.sent ++ [pkt]) ++ _ = _
      rw [ofRequest_append, ofRequest_self hown, List.append_assoc]
      exact hs
    · rw [update_of_ne hj]
      exact (h.sent j b hb).append_of_ne (hne hj)
  case alive =>
    intro j stj hstj
    by_cases hj : j = i
    · subst hj
      simp only [sentState, update_self, Option.some.injEq] at hstj
      subst hstj
      refine ⟨a, ha, ?_⟩
      rw [update_self]
      refine { halive with gen := fun hlt => ?_, bytes := ?_ }
      · exact (halive.gen hc).next (Nat.two_pow_pos k) hsent.fits.le hlt
      · change st.numBytes.toNat + bytesOf (ofRequest j (s.inFlight ++ [pkt])) = _
        have hb := halive.bytes
        have hge := hsent.ge
        rw [ofRequest_append, ofRequest_self hown, bytesOf_append, bytesOf, bytesOf, List.map_singleton,
          List.sum_singleton, hsize]
        rw [bytesOf] at hb
        omega
    · simp only [sentState, update_of_ne hj] at hstj
      obtain ⟨b, hb, hal⟩ := h.alive j stj hstj
      rw [update_of_ne hj]
      exact ⟨b, hb, hal.append_of_ne (hne hj)⟩
  case nodup =>
    change (if st.gen.last = true then waiting else i :: waiting).Nodup
    split
    · exact hnd.2
    · exact hl ▸ h.nodup
  case waiting =>
    intro j hj
    by_cases hji : j = i
    · subst hji
      have hmore : ¬ st.gen.last = true := fun hlast' => by
        change j ∈ (if st.gen.last = true then waiting else j :: waiting) at hj
        rw [if_pos hlast'] at hj
        exact hnd.1 hj
      refine ⟨_, a, update_self _ _ _, ha, hab, ?_⟩
      rw [update_self]
      exact Nat.lt_of_le_of_ne hle fun heq => hmore (hlast.2 heq)
    · obtain ⟨stj, b, hstj, hb, habj, hcj⟩ := h.waiting j ((hmem j hji).1 hj)
      refine ⟨stj, b, (update_of_ne hji _ _).trans hstj, hb, habj, ?_⟩
      rw [update_of_ne hji]
      exact hcj
  case unstarted =>
    intro j hj b hb
    have hjw : j ∈ waiting := by
      change j ∈ (if st.gen.last = true then waiting else i :: waiting).tail at hj
      split at hj
      · exact List.mem_of_mem_tail hj
      · exact hj
    have hji : j ≠ i := fun heq => hnd.1 (heq ▸ hjw)
    rw [update_of_ne hji]
    exact h.unstarted j (by rw [hl]; exact hjw) b hb
  case unlisted =>
    intro j stj b hstj hb hj
    by_cases hji : j = i
    · subst hji
      obtain rfl := Option.some.inj (ha.symm.trans hb)
      have hdone : st.gen.last = true := by
        by_contra hmore
        refine hj ?_
        change j ∈ (if st.gen.last = true then waiting else j :: waiting)
        rw [if_neg hmore]
        exact List.mem_cons_self
      simp only [sentState, update_self, Option.some.injEq] at hstj
      subst hstj
      simp only [hab, update_self, Bool.false_eq_true, if_false]
      refine ⟨hlast.1 hdone, ?_⟩
      change ofRequest j (s.inFlight ++ [pkt]) ≠ []
      rw [ofRequest_append, ofRequest_self hown]
      simp
    · simp only [sentState, update_of_ne hji] at hstj
      have hold := h.unlisted j stj b hstj hb (fun hmem' => hj ((hmem j hji).2 hmem'))
      rw [update_of_ne hji]
      change if stj.aborted = true then _ else _ ∧ ofRequest j (s.inFlight ++ [pkt]) ≠ []
      rw [ofRequest_append, ofRequest_of_ne (hne hji), List.append_nil]
      exact hold
  case flights =>
    intro q hq
    change update s.port.states i _ q.senderState ≠ none
    by_cases hji : q.senderState = i
    · rw [hji, update_self]
      simp
    · rw [update_of_ne hji]
      rcases List.mem_append.1 hq with hq | hq
      · exact h.flights q hq
      · exact absurd (List.mem_singleton.1 hq ▸ hown) hji
  case pending =>
    change s.port.pendingCount + 1 = (s.inFlight ++ [pkt]).length
    rw [h.pending, List.length_append, List.length_singleton]
  case inRetry => rintro _ ⟨⟩
  case completed =>
    intro j b hb
    by_cases hji : j = i
    · subst hji
      have hold := h.completed j b hb
      simp only [hst, sentState, update_self, reduceCtorEq, false_and, and_false, if_false] at hold ⊢
      exact hold
    · rw [update_of_ne hji]
      simp only [sentState, update_of_ne hji]
      exact h.completed j b hb
  case signalled =>
    intro j b hb
    by_cases hji : j = i
    · subst hji
      have hold := h.signalled j b hb
      simp only [hst, sentState, update_self, reduceCtorEq, false_and, and_false, if_false] at hold ⊢
      exact hold
    · rw [update_of_ne hji]
      simp only [sentState, update_of_ne hji]
      exact h.signalled j b hb
  case dropped =>
    intro j b hb
    by_cases hji : j = i
    · subst hji
      obtain rfl := Option.some.inj (ha.symm.trans hb)
      have hnot : j ∉ s.dropped := fun hd => ((h.dropped j a ha).1 hd).1 (by simp [hl])
      refine iff_of_false hnot ?_
      rintro ⟨hout, hlt⟩
      rw [update_self] at hlt
      refine hout ?_
      change j ∈ (if st.gen.last = true then waiting else j :: waiting)
      rw [if_neg fun hl' => Nat.ne_of_lt hlt (hlast.1 hl')]
      exact List.mem_cons_self
    · rw [update_of_ne hji]
      exact (h.dropped j b hb).trans (and_congr_left' (hmem j hji).not.symm)
  case positive =>
    intro q hq
    rcases List.mem_append.1 hq with hq | hq
    · exact h.positive q hq
    · rw [List.mem_singleton.1 hq, hsize]
      omega
  case fresh =>
    intro j hj
    obtain ⟨hs, hrest⟩ := h.fresh j hj
    refine ⟨?_, hrest⟩
    have hlt : i < s.actions.length := lt_of_getElem? ha
    change ofRequest j (s.sent ++ [pkt]) = []
    rw [ofRequest_append, hs, ofRequest_of_ne (hne (by have : s.actions.length ≤ j := hj; omega))]
    rfl

/-- The packets of a request that are still to be sent, and all of its packets. -/
def unsent (k : Nat) (s : System R) (cur : Nat → Nat) (i : Nat) : List (DmaPacket R) :=
  match s.actions[i]? with
  | none => []
  | some a => packetsFrom k i a (cur i)

def whole (k : Nat) (s : System R) (i : Nat) : List (DmaPacket R) :=
  match s.actions[i]? with
  | none => []
  | some a => packetsFrom k i a a.addr.toNat

def Ordered (k : Nat) (s : System R) (cur : Nat → Nat) : Prop :=
  s.sent ++ s.port.transmitList.flatMap (unsent k s cur) = (List.range s.actions.length).flatMap (whole k s)

def Calm (s : System R) : Prop :=
  ∀ i st, s.port.states i = some st → st.aborted = true → s.inFlight ≠ []

structure Keeps (k : Nat) (s : System R) (cur : Nat → Nat) (s' : System R) (cur' : Nat → Nat) : Prop where
  data : Data k s' cur'
  control : Control s'
  ordered : Ordered k s cur → Ordered k s' cur'
  calm : Calm s → Calm s'
  dropped : s'.dropped = s.dropped

theorem sends_nil (s : System R) (p : DmaPort R) :
    s.sends (p, []) = { s with port := p, owed := s.owed || p.inRetry.isSome } := by
  simp [System.sends]

theorem unsent_eq (ha : s.actions[i]? = some a) : unsent k s cur i = packetsFrom k i a (cur i) := by rw [unsent, ha]

theorem unsent_update_of_ne (hj : j ≠ i) :
    unsent k s (update cur i c) j = unsent k s cur j := by rw [unsent, unsent, update_of_ne hj]

theorem Ordered.sendPacket (h : Ordered k s cur) (hl : s.port.transmitList = i :: waiting) (hi : i ∉ waiting)
    (ha : s.actions[i]? = some a) (hc : cur i < last a)
    (hlast : st.gen.last = true ↔ Bits.cut (2 ^ k) (last a) (cur i) = last a) :
    Ordered k (sentState s i st (piecePacket i a (cur i, Bits.cut (2 ^ k) (last a) (cur i) - cur i))
      (if st.gen.last then waiting else i :: waiting)) (update cur i (Bits.cut (2 ^ k) (last a) (cur i))) := by
  have hrest : waiting.flatMap (unsent k s (update cur i (Bits.cut (2 ^ k) (last a) (cur i)))) =
      waiting.flatMap (unsent k s cur) :=
    List.flatMap_congr fun j hj => unsent_update_of_ne fun heq => hi (heq ▸ hj)
  have hfront : (if st.gen.last = true then waiting else i :: waiting).flatMap
      (unsent k s (update cur i (Bits.cut (2 ^ k) (last a) (cur i)))) =
      packetsFrom k i a (Bits.cut (2 ^ k) (last a) (cur i)) ++ waiting.flatMap (unsent k s cur) := by
    split
    · rename_i hl'
      rw [hrest, hlast.1 hl', packetsFrom_last, List.nil_append]
    · rw [List.flatMap_cons, hrest, unsent_eq ha, update_self]
  rw [Ordered, hl, List.flatMap_cons, unsent_eq ha, packetsFrom_eq hc] at h
  change (s.sent ++ [_]) ++ (if st.gen.last = true then waiting else i :: waiting).flatMap
    (unsent k s (update cur i (Bits.cut (2 ^ k) (last a) (cur i)))) = (List.range s.actions.length).flatMap (whole k s)
  rw [hfront, ← h]
  simp

theorem Data.trySend (hk : k < 32) (h : Data k s cur) (hne : s.port.transmitList ≠ [])
    (hev : s.port.sendEvent = false) (hret : s.port.retryPending = false) (howed : s.owed = false) (accept : Bool) :
    ∃ r cur', s.port.trySendTimingReq accept = .ok r ∧ Keeps k s cur (s.sends r) cur' := by
  obtain ⟨i, waiting, hl⟩ := List.exists_cons_of_ne_nil hne
  obtain ⟨st, a, hst, ha, hab, hc, halive, hsent⟩ := h.front hl
  have hpkt := h.nextPacket_eq hl ha halive hc
  cases accept with
  | false =>
    refine ⟨({ s.port with inRetry := some (s.port.nextPacket i st), retryPending := true }, []), cur, ?_, ?_⟩
    · simp [trySendTimingReq, hl, deref, hst]
    · rw [sends_nil]
      refine ⟨{ h with inRetry := ?_ }, ?_, id, id, rfl⟩
      · rintro pkt ⟨⟩
        exact ⟨i, a, by simp [hl], ha, by rw [packetsFrom_eq hc, hpkt]; rfl⟩
      · exact ⟨by simp, fun _ => rfl, by simp [hev], fun _ => .inl rfl⟩
  | true =>
    have hnd := List.nodup_cons.1 (hl ▸ h.nodup)
    have hlast := (halive.gen hc).last_iff
    have hd := h.sendPacket hk hl hst ha
    have ho := fun ho : Ordered k s cur => ho.sendPacket hl hnd.1 ha hc hlast
    rw [← hpkt] at hd ho
    generalize hlist : (if st.gen.last = true then waiting else i :: waiting) = list at hd ho
    refine ⟨({ s.port with
        states := update s.port.states i (some { st with gen := st.gen.next.1 })
        transmitList := list
        pendingCount := s.port.pendingCount + 1
        inRetry := none
        sendEvent := !list.isEmpty }, [s.port.nextPacket i st]), _, ?_, { hd with }, ?_, ho, ?_, rfl⟩
    · cases list with
      | nil => simp [trySendTimingReq, hl, deref, hst, hret, hlist, hev]
      | cons j js => simp [trySendTimingReq, hl, deref, hst, hret, hlist, hev]
    · refine ⟨?_, by rintro ⟨⟩, ?_, ?_⟩
      · simp [System.sends, howed, hret]
      · intro hse
        exact ⟨by simpa [System.sends] using hse, hret⟩
      · intro hne'
        exact .inr (by simpa [System.sends] using hne')
    · intro _ _ _ _ _
      simp [System.sends]

/-! ## A new request -/

def pushed (s : System R) (a : DmaAction R) (st : DmaReqState R) : System R :=
  { s with
    port := { s.port with
      states := Function.update s.port.states s.actions.length (some st)
      transmitList := s.port.transmitList ++ [s.actions.length] }
    actions := s.actions ++ [a] }

theorem getElem?_pushed {α : Type} {l : List α} {a b : α} (h : (l ++ [a])[i]? = some b) :
    i < l.length ∧ l[i]? = some b ∨ i = l.length ∧ a = b := by
  rw [List.getElem?_append] at h
  split at h
  · rename_i hi
    exact .inl ⟨hi, h⟩
  · rename_i hi
    rw [List.getElem?_singleton] at h
    split at h
    · exact .inr ⟨by omega, Option.some.inj h⟩
    · cases h

theorem Data.lt_of_states (h : Data k s cur) (hst : s.port.states i = some st) : i < s.actions.length := by
  obtain ⟨a, ha, -⟩ := h.alive i st hst
  exact lt_of_getElem? ha

theorem Data.lt_of_listed (h : Data k s cur) (hi : i ∈ s.port.transmitList) : i < s.actions.length := by
  obtain ⟨st, a, hst, -⟩ := h.waiting i hi
  exact h.lt_of_states hst

theorem newState_alive (hk : k < 32) (hf : Fits k a) (hl : ofRequest i l = []) :
    ∃ st, newState (BitVec.ofNat 64 (2 ^ k)) a = .ok st ∧ st.aborted = false ∧ Alive k l i a st a.addr.toNat := by
  obtain ⟨g, hg, hat⟩ := ChunkGenerator.create_at (by omega : k < 64) hf
  refine ⟨_, by rw [newState, hg]; rfl, rfl, ⟨rfl, rfl, rfl, rfl, rfl, fun _ => hat, ?_⟩⟩
  rw [hl]
  simp [bytesOf]

theorem Data.push (h : Data k s cur) (hf : Fits k a) (hab : st.aborted = false)
    (halive : Alive k s.inFlight s.actions.length a st a.addr.toNat) :
    Data k (pushed s a st) (update cur s.actions.length a.addr.toNat) := by
  obtain ⟨hfresh, hcompleted, hsignalled, hdropped⟩ := h.fresh _ (Nat.le_refl _)
  have hpos : a.addr.toNat < last a := Nat.lt_add_of_pos_right hf.1
  have hold : ∀ {j b}, (s.actions ++ [a])[j]? = some b → j ≠ s.actions.length → s.actions[j]? = some b := by
    intro j b hb hj
    rcases getElem?_pushed hb with ⟨-, hb⟩ | ⟨heq, -⟩
    · exact hb
    · exact absurd heq hj
  have hnew : ∀ {b}, (s.actions ++ [a])[s.actions.length]? = some b → a = b := by
    intro b hb
    rcases getElem?_pushed hb with ⟨hlt, -⟩ | ⟨-, heq⟩
    · omega
    · exact heq
  have hne : ∀ {j}, j ∈ s.port.transmitList → j ≠ s.actions.length := fun hj => Nat.ne_of_lt (h.lt_of_listed hj)
  constructor
  case sent =>
    intro j b hb
    by_cases hj : j = s.actions.length
    · subst hj
      obtain rfl := hnew hb
      rw [update_self]
      exact ⟨hf, Nat.le_refl _, Nat.le_of_lt hpos, by change ofRequest _ s.sent ++ _ = _; rw [hfresh, List.nil_append]⟩
    · rw [update_of_ne hj]
      exact h.sent j b (hold hb hj)
  case alive =>
    intro j stj hstj
    by_cases hj : j = s.actions.length
    · subst hj
      simp only [pushed, update_self, Option.some.injEq] at hstj
      subst hstj
      rw [update_self]
      exact ⟨a, by simp [pushed], halive⟩
    · simp only [pushed, update_of_ne hj] at hstj
      obtain ⟨b, hb, hal⟩ := h.alive j stj hstj
      rw [update_of_ne hj]
      exact ⟨b, List.getElem?_append_left (lt_of_getElem? hb) ▸ hb, hal⟩
  case nodup =>
    refine List.nodup_append.2 ⟨h.nodup, by simp, fun i hi j hj heq => ?_⟩
    exact hne hi (heq.trans (List.mem_singleton.1 hj))
  case waiting =>
    intro j hj
    rcases List.mem_append.1 hj with hj | hj
    · obtain ⟨stj, b, hstj, hb, habj, hcj⟩ := h.waiting j hj
      refine ⟨stj, b, (update_of_ne (hne hj) _ _).trans hstj, ?_, habj, ?_⟩
      · exact List.getElem?_append_left (lt_of_getElem? hb) ▸ hb
      · rw [update_of_ne (hne hj)]
        exact hcj
    · obtain rfl := List.mem_singleton.1 hj
      refine ⟨st, a, update_self _ _ _, by simp [pushed], hab, ?_⟩
      rw [update_self]
      exact hpos
  case unstarted =>
    intro j hj b hb
    by_cases hjn : j = s.actions.length
    · subst hjn
      rw [update_self, hnew hb]
    · rw [update_of_ne hjn]
      refine h.unstarted j ?_ b (hold hb hjn)
      change j ∈ (s.port.transmitList ++ [s.actions.length]).tail at hj
      cases hl : s.port.transmitList with
      | nil => simp [hl] at hj
      | cons i waiting => simpa [hl, hjn] using hj
  case unlisted =>
    intro j stj b hstj hb hj
    have hj' : j ∉ s.port.transmitList ∧ j ≠ s.actions.length := by simpa [pushed] using hj
    rw [update_of_ne hj'.2]
    exact h.unlisted j stj b ((update_of_ne hj'.2 _ _).symm.trans hstj) (hold hb hj'.2) hj'.1
  case flights =>
    intro pkt hpkt
    change update s.port.states s.actions.length (some st) pkt.senderState ≠ none
    by_cases hj : pkt.senderState = s.actions.length
    · rw [hj, update_self]
      simp
    · rw [update_of_ne hj]
      exact h.flights pkt hpkt
  case pending => exact h.pending
  case inRetry =>
    intro pkt hpkt
    obtain ⟨j, b, hhead, hb, hp⟩ := h.inRetry pkt hpkt
    have hj : j ∈ s.port.transmitList := List.mem_of_head? hhead
    refine ⟨j, b, ?_, List.getElem?_append_left (lt_of_getElem? hb) ▸ hb, ?_⟩
    · change (s.port.transmitList ++ [s.actions.length]).head? = some j
      rw [List.head?_append, hhead, Option.some_or]
    · rw [update_of_ne (hne hj)]
      exact hp
  case completed =>
    intro j b hb
    by_cases hj : j = s.actions.length
    · subst hj
      simp only [pushed, update_self, reduceCtorEq, false_and, and_false, if_false]
      exact hcompleted
    · rw [update_of_ne hj]
      simp only [pushed, update_of_ne hj]
      exact h.completed j b (hold hb hj)
  case signalled =>
    intro j b hb
    by_cases hj : j = s.actions.length
    · subst hj
      simp only [pushed, update_self, reduceCtorEq, false_and, and_false, if_false]
      exact hsignalled
    · rw [update_of_ne hj]
      simp only [pushed, update_of_ne hj]
      exact h.signalled j b (hold hb hj)
  case dropped =>
    intro j b hb
    by_cases hj : j = s.actions.length
    · subst hj
      exact iff_of_false hdropped (fun hout => hout.1 (by simp [pushed]))
    · rw [update_of_ne hj]
      have hmem : j ∈ s.port.transmitList ++ [s.actions.length] ↔ j ∈ s.port.transmitList := by simp [hj]
      exact (h.dropped j b (hold hb hj)).trans (and_congr_left' hmem.not.symm)
  case positive => exact h.positive
  case fresh =>
    intro j hj
    have hj' : s.actions.length + 1 ≤ j := by simpa [pushed] using hj
    exact h.fresh j (by omega)

theorem Ordered.push (h : Ordered k s cur) (hd : Data k s cur) (a : DmaAction R) (st : DmaReqState R) :
    Ordered k (pushed s a st) (update cur s.actions.length a.addr.toNat) := by
  have hold : ∀ j < s.actions.length, (s.actions ++ [a])[j]? = s.actions[j]? := fun j hj => List.getElem?_append_left hj
  have hlist : s.port.transmitList.flatMap (unsent k (pushed s a st) (update cur s.actions.length a.addr.toNat)) =
      s.port.transmitList.flatMap (unsent k s cur) := by
    refine List.flatMap_congr fun j hj => ?_
    have hlt := hd.lt_of_listed hj
    rw [unsent_update_of_ne (Nat.ne_of_lt hlt), unsent, unsent]
    simp only [pushed, hold j hlt]
  have hwhole : (List.range s.actions.length).flatMap (whole k (pushed s a st)) =
      (List.range s.actions.length).flatMap (whole k s) := by
    refine List.flatMap_congr fun j hj => ?_
    rw [whole, whole]
    simp only [pushed, hold j (List.mem_range.1 hj)]
  have hnew : unsent k (pushed s a st) (update cur s.actions.length a.addr.toNat) s.actions.length =
      whole k (pushed s a st) s.actions.length := by
    simp [unsent, whole, pushed]
  rw [Ordered]
  simp only [pushed, List.length_append, List.length_singleton, List.range_succ, List.flatMap_append, List.flatMap_cons,
    List.flatMap_nil, List.append_nil]
  change s.sent ++ (s.port.transmitList.flatMap (unsent k (pushed s a st) _) ++ unsent k (pushed s a st) _ _) =
    (List.range s.actions.length).flatMap (whole k (pushed s a st)) ++ whole k (pushed s a st) _
  rw [hlist, hwhole, hnew, ← List.append_assoc, h]

/-! ## The calls that send -/

def Lands (k : Nat) (s : System R) (cur : Nat → Nat) (e : Event R) : Prop :=
  ∃ s' cur', s.step (BitVec.ofNat 64 (2 ^ k)) e = .ok s' ∧ Keeps k s cur s' cur'

section

variable (hk : k < 32) (h : Data k s cur) (hc : Control s)
include hk h hc

theorem dmaAction_lands (hf : Fits k a) (accept : Bool) :
    Lands k s cur (.dmaAction a accept) := by
  have hfl : ofRequest s.actions.length s.inFlight = [] := by
    refine List.filter_eq_nil_iff.2 fun pkt hpkt heq => ?_
    obtain ⟨st, hst⟩ := Option.ne_none_iff_exists'.1 (h.flights pkt hpkt)
    exact absurd (h.lt_of_states hst) (by simp at heq; omega)
  obtain ⟨st, hst, hab, halive⟩ := newState_alive hk hf hfl
  have hd := h.push hf hab halive
  have hne : (pushed s a st).port.transmitList ≠ [] := by simp [pushed]
  have hempty : (s.port.transmitList ++ [s.actions.length]).isEmpty = false := by simp
  have hcalm : Calm s → Calm (pushed s a st) := by
    intro hcalm j stj hstj habj
    by_cases hj : j = s.actions.length
    · subst hj
      simp only [pushed, update_self, Option.some.injEq] at hstj
      subst hstj
      simp [hab] at habj
    · simp only [pushed, update_of_ne hj] at hstj
      exact hcalm j stj hstj habj
  by_cases hwait : s.port.retryPending = true ∨ s.port.sendEvent = true
  · -- the port will come back to the list
    refine ⟨pushed s a st, _, ?_, hd, ?_, fun ho => ho.push h a st, hcalm, rfl⟩
    · have howed : (s.owed || s.port.inRetry.isSome) = s.owed := by
        rw [Bool.or_eq_left_iff_imp, hc.owed]
        exact hc.inRetry
      have hskip : (s.port.retryPending || s.port.sendEvent) = true := by simpa using hwait
      generalize BitVec.ofNat 64 (2 ^ k) = line at hst ⊢
      simp [System.step, dmaAction, hst, sendDma, hempty, hskip, sends_nil, howed, pushed]
    · exact ⟨hc.owed, hc.inRetry, fun hse => ⟨hne, (hc.sendEvent hse).2⟩, fun _ => hwait⟩
  · obtain ⟨hret, hev⟩ := not_or.1 hwait
    rw [Bool.not_eq_true] at hret hev
    obtain ⟨r, cur', hr, hkeep⟩ := hd.trySend hk hne hev hret (hc.owed.trans hret) accept
    refine ⟨(pushed s a st).sends r, cur', ?_, { hkeep with
      ordered := fun ho => hkeep.ordered (ho.push h a st)
      calm := fun hcalm' => hkeep.calm (hcalm hcalm') }⟩
    have hsend : s.port.dmaAction (BitVec.ofNat 64 (2 ^ k)) s.actions.length a accept = .ok r := by
      have hskip : (s.port.retryPending || s.port.sendEvent) = false := by rw [hret, hev, Bool.or_self]
      rw [dmaAction, hst, Run.ok_bind, sendDma]
      simp only [hempty, hskip, Bool.not_false, assertThat_true, Run.ok_bind, Bool.false_eq_true, if_false]
      exact hr
    rw [System.step, hsend, Run.ok_bind]
    rfl

theorem sendEvent_lands (hev : s.port.sendEvent = true)
    (accept : Bool) : Lands k s cur (.sendEvent accept) := by
  obtain ⟨hne, hret⟩ := hc.sendEvent hev
  have hfree : Data k { s with port := { s.port with sendEvent := false } } cur := { h with }
  obtain ⟨r, cur', hr, hkeep⟩ := hfree.trySend hk hne rfl hret (hc.owed.trans hret) accept
  refine ⟨s.sends r, cur', ?_, { hkeep with }⟩
  have hempty : s.port.transmitList.isEmpty = false := by simpa using hne
  have hskip : (s.port.retryPending || false) = false := by rw [hret, Bool.or_self]
  have hsend : { s.port with sendEvent := false }.sendDma accept = .ok r := by
    rw [sendDma]
    simp only [hempty, hskip, Bool.not_false, assertThat_true, Run.ok_bind, Bool.false_eq_true, if_false]
    exact hr
  rw [System.step, hsend, Run.ok_bind]

theorem recvReqRetry_lands (howed : s.owed = true) (accept : Bool) :
    Lands k s cur (.recvReqRetry accept) := by
  have hret : s.port.retryPending = true := hc.owed.symm.trans howed
  have hev : s.port.sendEvent = false := by
    by_contra hev
    simp [(hc.sendEvent (by simpa using hev)).2] at hret
  by_cases hl : s.port.transmitList = []
  · -- the list was aborted in the meantime
    have hretry : s.port.inRetry = none := by
      cases hr : s.port.inRetry with
      | none => rfl
      | some pkt =>
        obtain ⟨i, a, hhead, -⟩ := h.inRetry pkt hr
        simp [hl] at hhead
    refine ⟨{ s with port := { s.port with retryPending := false }, owed := false }, cur, ?_, { h with }, ?_, id, id, rfl⟩
    · simp [System.step, recvReqRetry, hl, sends_nil, hretry]
    · exact ⟨rfl, by simp [hretry], by simp [hev], fun hne => absurd hl hne⟩
  · have hfree : Data k { s with port := { s.port with retryPending := false }, owed := false } cur := { h with }
    obtain ⟨r, cur', hr, hkeep⟩ := hfree.trySend hk hl hev rfl rfl accept
    refine ⟨_, cur', ?_, { hkeep with }⟩
    have hempty : s.port.transmitList.isEmpty = false := by simpa using hl
    have hsend : s.port.recvReqRetry accept = .ok r := by
      rw [recvReqRetry]
      simp only [hempty, Bool.false_eq_true, if_false]
      exact hr
    rw [System.step, hsend, Run.ok_bind]
    rfl

end

/-! ## A response -/

theorem eraseIdx_split (h : l[n]? = some pkt) : ∃ l₁ l₂, l = l₁ ++ pkt :: l₂ ∧ l.eraseIdx n = l₁ ++ l₂ := by
  obtain ⟨hn, rfl⟩ := List.getElem?_eq_some_iff.1 h
  refine ⟨l.take n, l.drop (n + 1), ?_, List.eraseIdx_eq_take_drop_succ l n⟩
  rw [← List.drop_eq_getElem_cons hn, List.take_append_drop]

theorem ofRequest_eraseIdx_of_ne (h : l[n]? = some pkt) (hj : j ≠ pkt.senderState) :
    ofRequest j (l.eraseIdx n) = ofRequest j l := by
  obtain ⟨l₁, l₂, rfl, herase⟩ := eraseIdx_split h
  rw [herase, ofRequest_append, ofRequest, ofRequest, ofRequest]
  simp [Ne.symm hj]

theorem bytesOf_eraseIdx (h : l[n]? = some pkt) :
    bytesOf (ofRequest pkt.senderState l) = pkt.size.toNat + bytesOf (ofRequest pkt.senderState (l.eraseIdx n)) := by
  obtain ⟨l₁, l₂, rfl, herase⟩ := eraseIdx_split h
  rw [herase, ofRequest_append, bytesOf_append, ofRequest_append, bytesOf_append]
  simp only [ofRequest, decide_true, List.filter_cons_of_pos, bytesOf, List.map_cons, List.sum_cons]
  omega

/-- Packets are not empty, so requests with no byte in flight have no packet in flight. -/
theorem ofRequest_eq_nil_iff (hpos : ∀ pkt ∈ l, 0 < pkt.size.toNat) (i : Nat) :
    ofRequest i l = [] ↔ bytesOf (ofRequest i l) = 0 := by
  constructor
  · intro h
    rw [h]
    rfl
  · intro h
    cases hl : ofRequest i l with
    | nil => rfl
    | cons pkt rest =>
      have hmem : pkt ∈ l := List.mem_of_mem_filter (hl ▸ List.mem_cons_self : pkt ∈ ofRequest i l)
      have := hpos pkt hmem
      rw [hl, bytesOf, List.map_cons, List.sum_cons] at h
      omega

theorem count_one (i j : Nat) : [i].count j = if j = i then 1 else 0 := by
  by_cases h : j = i
  · simp [h]
  · simp [h, Ne.symm h]

/-- The system once the response to the `n`-th packet in flight has left the state of its request at `x`. -/
def answered (s : System R) (n i : Nat) (x : Option (DmaReqState R)) (completed : List (Nat × Nat))
    (signalled : List Nat) : System R :=
  { s with
    port := { s.port with
      states := Function.update s.port.states i x
      pendingCount := s.port.pendingCount - 1 }
    inFlight := s.inFlight.eraseIdx n
    completed
    signalled }

theorem Data.answered_of_ne (h : Data k s cur) (hn : s.inFlight[n]? = some pkt) (hj : j ≠ pkt.senderState)
    (hst : s.port.states j = some st) :
    ∃ a, s.actions[j]? = some a ∧ Alive k (s.inFlight.eraseIdx n) j a st (cur j) := by
  obtain ⟨a, ha, halive⟩ := h.alive j st hst
  exact ⟨a, ha, { halive with bytes := by rw [ofRequest_eraseIdx_of_ne hn hj]; exact halive.bytes }⟩

/-- **A response**: the request goes on waiting with fewer bytes in flight (`x` is its state), or its state goes away
(`x = none`) once none is in flight. -/
theorem Data.answer (h : Data k s cur) (hn : s.inFlight[n]? = some pkt)
    (hst : s.port.states pkt.senderState = some st) (ha : s.actions[pkt.senderState]? = some a) (hsome : ∀ st', x =
    some st' → st'.aborted = st.aborted ∧ Alive k (s.inFlight.eraseIdx n) pkt.senderState a st' (cur pkt.senderState)
    ∧ (pkt.senderState ∉ s.port.transmitList → st.aborted = false → ofRequest pkt.senderState (s.inFlight.eraseIdx n)
    ≠ [])) (hnone : x = none → pkt.senderState ∉ s.port.transmitList ∧ ofRequest pkt.senderState (s.inFlight.eraseIdx
    n) = []) (hcompleted : ∀ j, (completed.map (·.1)).count j = (s.completed.map (·.1)).count j + if j =
    pkt.senderState ∧ a.event ∧ x = none ∧ cur pkt.senderState = last a then 1 else 0) (hsignalled : ∀ j,
    signalled.count j = s.signalled.count j + if j = pkt.senderState ∧ a.abortEvent ∧ x = none ∧ cur pkt.senderState <
    last a then 1 else 0) : Data k (answered s n pkt.senderState x completed signalled) cur := by
  have hlt : pkt.senderState < s.actions.length := lt_of_getElem? ha
  have hlen : (s.inFlight.eraseIdx n).length = s.inFlight.length - 1 :=
    List.length_eraseIdx_of_lt (lt_of_getElem? hn)
  constructor
  case sent => exact h.sent
  case alive =>
    intro j stj hstj
    by_cases hj : j = pkt.senderState
    · subst hj
      simp only [answered, update_self] at hstj
      exact ⟨a, ha, (hsome stj hstj).2.1⟩
    · simp only [answered, update_of_ne hj] at hstj
      exact h.answered_of_ne hn hj hstj
  case nodup => exact h.nodup
  case waiting =>
    intro j hj
    obtain ⟨stj, b, hstj, hb, habj, hcj⟩ := h.waiting j hj
    by_cases hji : j = pkt.senderState
    · subst hji
      cases x with
      | none => exact absurd hj (hnone rfl).1
      | some st' =>
        obtain rfl := Option.some.inj (hst.symm.trans hstj)
        exact ⟨st', b, update_self _ _ _, hb, ((hsome st' rfl).1).trans habj, hcj⟩
    · exact ⟨stj, b, (update_of_ne hji _ _).trans hstj, hb, habj, hcj⟩
  case unstarted => exact h.unstarted
  case unlisted =>
    intro j stj b hstj hb hj
    by_cases hji : j = pkt.senderState
    · subst hji
      simp only [answered, update_self] at hstj
      obtain ⟨hab, -, hfl⟩ := hsome stj hstj
      have hold := h.unlisted _ st b hst hb hj
      rw [hab]
      change if st.aborted = true then _ else _ ∧ ofRequest _ (s.inFlight.eraseIdx n) ≠ []
      by_cases habt : st.aborted = true
      · rw [if_pos habt] at hold ⊢
        exact hold
      · rw [if_neg habt] at hold ⊢
        exact ⟨hold.1, hfl hj (by simpa using habt)⟩
    · simp only [answered, update_of_ne hji] at hstj
      have hold := h.unlisted j stj b hstj hb hj
      change if stj.aborted = true then _ else _ ∧ ofRequest j (s.inFlight.eraseIdx n) ≠ []
      rw [ofRequest_eraseIdx_of_ne hn hji]
      exact hold
  case flights =>
    intro q hq
    change update s.port.states pkt.senderState x q.senderState ≠ none
    by_cases hqi : q.senderState = pkt.senderState
    · rw [hqi, update_self]
      rintro rfl
      have hmem : q ∈ ofRequest pkt.senderState (s.inFlight.eraseIdx n) := List.mem_filter.2 ⟨hq, by simpa using hqi⟩
      rw [(hnone rfl).2] at hmem
      cases hmem
    · rw [update_of_ne hqi]
      exact h.flights q (List.mem_of_mem_eraseIdx hq)
  case pending =>
    change s.port.pendingCount - 1 = (s.inFlight.eraseIdx n).length
    rw [h.pending, hlen]
  case inRetry => exact h.inRetry
  case completed =>
    intro j b hb
    change (completed.map (·.1)).count j =
      if b.event ∧ update s.port.states pkt.senderState x j = none ∧ cur j = last b then 1 else 0
    rw [hcompleted j, h.completed j b hb]
    by_cases hji : j = pkt.senderState
    · subst hji
      obtain rfl := Option.some.inj (ha.symm.trans hb)
      simp [hst]
    · simp [hji]
  case signalled =>
    intro j b hb
    change signalled.count j =
      if b.abortEvent ∧ update s.port.states pkt.senderState x j = none ∧ cur j < last b then 1 else 0
    rw [hsignalled j, h.signalled j b hb]
    by_cases hji : j = pkt.senderState
    · subst hji
      obtain rfl := Option.some.inj (ha.symm.trans hb)
      simp [hst]
    · simp [hji]
  case dropped => exact h.dropped
  case positive => exact fun q hq => h.positive q (List.mem_of_mem_eraseIdx hq)
  case fresh =>
    intro j hj
    obtain ⟨h1, h2, h3, h4⟩ := h.fresh j hj
    have hji : j ≠ pkt.senderState := by
      have : s.actions.length ≤ j := hj
      omega
    refine ⟨h1, ?_, ?_, h4⟩
    · exact (hcompleted j).trans (by rw [h2, if_neg fun hc => hji hc.1])
    · exact (hsignalled j).trans (by rw [h3, if_neg fun hc => hji hc.1])

/-- A response leaves only the aborted request it is for, if any, without packets in flight. -/
def Alone (s : System R) : Event R → Prop
  | .response n _ => ∀ pkt, s.inFlight[n]? = some pkt → s.inFlight.length = 1 →
      ∀ i st, s.port.states i = some st → st.aborted = true → i = pkt.senderState
  | _ => True

theorem calm_answered_iff (hn : s.inFlight[n]? = some pkt) {now : Nat}
    (hx : ∀ st, x = some st → st.aborted = true → s.inFlight.length ≠ 1) :
    Calm (answered s n pkt.senderState x completed signalled) ↔ Alone s (.response n now) := by
  have hlt := lt_of_getElem? hn
  have hlen := List.length_eraseIdx_of_lt hlt
  have hnil : s.inFlight.eraseIdx n = [] ↔ s.inFlight.length = 1 := by
    rw [← List.length_eq_zero_iff]
    omega
  constructor
  · intro hcalm q hq hone j st hst hab
    obtain rfl := Option.some.inj (hn.symm.trans hq)
    by_contra hj
    exact hcalm j st ((update_of_ne hj _ _).trans hst) hab (hnil.2 hone)
  · intro halone j st hst hab hempty
    have hone := hnil.1 hempty
    by_cases hj : j = pkt.senderState
    · subst hj
      simp only [answered, update_self] at hst
      exact hx st hst hab hone
    · simp only [answered, update_of_ne hj] at hst
      exact hj (halone pkt hn hone j st hst hab)

theorem Ordered.answer (h : Ordered k s cur) (n i : Nat) (x : Option (DmaReqState R)) (completed : List (Nat × Nat))
    (signalled : List Nat) : Ordered k (answered s n i x completed signalled) cur := h

theorem Alive.answer (hn : l[n]? = some pkt) (h : Alive k l pkt.senderState a st c) (hge : a.addr.toNat ≤ c)
    (hle : c ≤ last a) :
    Alive k (l.eraseIdx n) pkt.senderState a { st with numBytes := st.numBytes + pkt.size.setWidth 64 } c ∧
      st.numBytes + pkt.size.setWidth 64 ≤ st.totBytes ∧
      (st.totBytes = st.numBytes + pkt.size.setWidth 64 ↔
        c = last a ∧ bytesOf (ofRequest pkt.senderState (l.eraseIdx n)) = 0) := by
  have hb := h.bytes
  rw [bytesOf_eraseIdx hn] at hb
  have hsize := a.size.isLt
  have hlast : last a = a.addr.toNat + a.size.toNat := rfl
  have hnum : (st.numBytes + pkt.size.setWidth 64).toNat = st.numBytes.toNat + pkt.size.toNat := by
    have hext : (pkt.size.setWidth 64).toNat = pkt.size.toNat := by
      rw [BitVec.toNat_setWidth]
      exact Nat.mod_eq_of_lt (Nat.lt_trans pkt.size.isLt (by decide))
    rw [BitVec.toNat_add, hext]
    omega
  refine ⟨{ h with bytes := ?_ }, ?_, ?_⟩
  · change (st.numBytes + pkt.size.setWidth 64).toNat + _ = _
    omega
  · rw [BitVec.le_def, hnum, h.totBytes]
    omega
  · rw [h.totBytes, ← BitVec.toNat_inj, hnum]
    omega

/-- **A response** is counted; with the last byte of a request that was not aborted its state goes and its completion
event is scheduled, and with the last packet in flight the state of an aborted request goes. -/
theorem response_lands (h : Data k s cur) (hc : Control s) (hlt : n < s.inFlight.length) (now : Nat) (line : Addr) :
    ∃ s', s.step line (.response n now) = .ok s' ∧ Data k s' cur ∧ Control s' ∧ (Ordered k s cur → Ordered k s' cur) ∧
      (Calm s' ↔ Alone s (.response n now)) ∧ s'.dropped = s.dropped := by
  obtain ⟨pkt, hn⟩ : ∃ pkt, s.inFlight[n]? = some pkt := ⟨_, List.getElem?_eq_getElem hlt⟩
  obtain ⟨st, hst⟩ := Option.ne_none_iff_exists'.1 (h.flights pkt (List.mem_of_getElem? hn))
  obtain ⟨a, ha, halive⟩ := h.alive _ st hst
  have hsent := h.sent _ a ha
  obtain ⟨halive', hle, hall⟩ := halive.answer hn hsent.ge hsent.le
  have hpos : ∀ q ∈ s.inFlight.eraseIdx n, 0 < q.size.toNat := fun q hq => h.positive q (List.mem_of_mem_eraseIdx hq)
  rw [← ofRequest_eq_nil_iff hpos] at hall
  have hcount : s.port.pendingCount ≠ 0 := by rw [h.pending]; omega
  have hlen : (s.inFlight.eraseIdx n).length = s.inFlight.length - 1 := List.length_eraseIdx_of_lt hlt
  by_cases hab : st.aborted = true
  · have hout : pkt.senderState ∉ s.port.transmitList := by
      intro hin
      obtain ⟨st', -, hst', -, hab', -⟩ := h.waiting _ hin
      obtain rfl := Option.some.inj (hst.symm.trans hst')
      simp [hab'] at hab
    have hpart : cur pkt.senderState < last a := by
      have := h.unlisted _ st a hst ha hout
      rwa [if_pos hab] at this
    have hnot : ¬ st.totBytes = st.numBytes + pkt.size.setWidth 64 := fun heq => Nat.ne_of_lt hpart (hall.1 heq).1
    by_cases hone : s.port.pendingCount - 1 = 0
    · have hnil : s.inFlight.eraseIdx n = [] := List.length_eq_zero_iff.1 (by rw [hlen, ← h.pending]; exact hone)
      refine ⟨answered s n pkt.senderState none s.completed
        (if st.abortEvent then s.signalled ++ [pkt.senderState] else s.signalled), ?_,
        h.answer hn hst ha (by rintro _ ⟨⟩) (fun _ => ⟨hout, by rw [hnil]; rfl⟩) ?_ ?_, ⟨hc.1, hc.2, hc.3, hc.4⟩,
        fun ho => ho.answer _ _ _ _ _, calm_answered_iff hn (by rintro _ ⟨⟩), rfl⟩
      · simp [System.step, hn, handleResp, hcount, deref, hst, hle, hab, hone, delete, answered]
      · intro j
        simp [Nat.ne_of_lt hpart]
      · intro j
        rw [halive.abortEvent]
        by_cases hev : a.abortEvent = true
        · simp [hev, hpart, count_one]
        · simp [hev]
    · refine ⟨answered s n pkt.senderState (some { st with numBytes := st.numBytes + pkt.size.setWidth 64 }) s.completed
        s.signalled, ?_, h.answer hn hst ha ?_ (by rintro ⟨⟩) (by simp) (by simp), ⟨hc.1, hc.2, hc.3, hc.4⟩,
        fun ho => ho.answer _ _ _ _ _, calm_answered_iff hn ?_, rfl⟩
      · simp [System.step, hn, handleResp, hcount, deref, hst, hle, hab, hone, hnot, answered]
      · rintro st' ⟨⟩
        exact ⟨rfl, halive', fun _ hfalse => by simp [hab] at hfalse⟩
      · intro _ _ _ hlen1
        rw [h.pending, hlen1] at hone
        exact hone rfl
  · rw [Bool.not_eq_true] at hab
    by_cases heq : st.totBytes = st.numBytes + pkt.size.setWidth 64
    · obtain ⟨hdone, hnil⟩ := hall.1 heq
      have hout : pkt.senderState ∉ s.port.transmitList := by
        intro hin
        obtain ⟨-, b, -, hb, -, hlt'⟩ := h.waiting _ hin
        obtain rfl := Option.some.inj (ha.symm.trans hb)
        omega
      refine ⟨answered s n pkt.senderState none
        (s.completed ++ (if st.completionEvent then some (now + st.delay) else none).toList.map
          fun t => (pkt.senderState, t)) s.signalled, ?_,
        h.answer hn hst ha (by rintro _ ⟨⟩) (fun _ => ⟨hout, hnil⟩) ?_ ?_, ⟨hc.1, hc.2, hc.3, hc.4⟩,
        fun ho => ho.answer _ _ _ _ _, calm_answered_iff hn (by rintro _ ⟨⟩), rfl⟩
      · simp [System.step, hn, handleResp, hcount, deref, hst, hab, ← heq, delete, answered]
      · intro j
        rw [halive.completionEvent]
        by_cases hev : a.event = true
        · simp [hev, hdone, count_one]
        · simp [hev]
      · intro j
        simp [hdone]
    · refine ⟨answered s n pkt.senderState (some { st with numBytes := st.numBytes + pkt.size.setWidth 64 }) s.completed
        s.signalled, ?_, h.answer hn hst ha ?_ (by rintro ⟨⟩) (by simp) (by simp), ⟨hc.1, hc.2, hc.3, hc.4⟩,
        fun ho => ho.answer _ _ _ _ _, calm_answered_iff hn ?_, rfl⟩
      · simp [System.step, hn, handleResp, hcount, deref, hst, hle, hab, heq, answered]
      · rintro st' ⟨⟩
        refine ⟨rfl, halive', fun hout _ hnil => heq (hall.2 ⟨?_, hnil⟩)⟩
        have := h.unlisted _ st a hst ha hout
        rw [hab, if_neg (by decide)] at this
        exact this.1
      · rintro st' ⟨⟩ hab'
        simp [hab] at hab'

/-! ## An abort -/

/-- The states that are left when the requests of a list are deleted, and those of them with an abort event. -/
def without (states : Nat → Option (DmaReqState R)) (is : List Nat) (j : Nat) : Option (DmaReqState R) :=
  if j ∈ is then none else states j

def signals (states : Nat → Option (DmaReqState R)) (is : List Nat) : List Nat :=
  is.filter fun i => (states i).any (·.abortEvent)

theorem abortAll_eq (p : DmaPort R) (is : List Nat) (hnd : is.Nodup) (hst : ∀ i ∈ is, p.states i ≠ none) :
    p.abortAll is = .ok ({ p with states := without p.states is }, signals p.states is) := by
  induction is generalizing p with
  | nil =>
    have hstates : without p.states [] = p.states := by funext j; simp [without]
    rw [abortAll, hstates]
    rfl
  | cons i is ih =>
    obtain ⟨hi, hnd⟩ := List.nodup_cons.1 hnd
    obtain ⟨st, hsti⟩ := Option.ne_none_iff_exists'.1 (hst i List.mem_cons_self)
    have hother : ∀ j ∈ is, (p.delete i).states j = p.states j := by
      intro j hj
      have hji : j ≠ i := fun heq => hi (heq ▸ hj)
      exact update_of_ne hji _ _
    have hrest : signals (p.delete i).states is = signals p.states is :=
      List.filter_congr fun j hj => by rw [hother j hj]
    have hstates : without (p.delete i).states is = without p.states (i :: is) := by
      funext j
      by_cases hj : j = i
      · simp [hj, without, delete]
      · simp [hj, without, delete]
    rw [abortAll, deref, hsti]
    simp only [Run.ok_bind]
    rw [ih (p.delete i) hnd fun j hj => by rw [hother j hj]; exact hst j (List.mem_cons_of_mem _ hj)]
    simp only [Run.ok_bind, hrest, hstates]
    rw [signals, signals, List.filter_cons, hsti, Option.any_some]
    rfl

theorem Data.listed_ne_none (h : Data k s cur) (hj : j ∈ s.port.transmitList) : s.port.states j ≠ none := by
  obtain ⟨st, -, hst, -⟩ := h.waiting j hj
  simp [hst]

/-- The system once the requests of the list have been aborted and `states` is left. -/
def aborted (s : System R) (states : Nat → Option (DmaReqState R)) (signalled : List Nat) : System R :=
  { s with
    port := { s.port with states, transmitList := [], sendEvent := false, inRetry := none }
    signalled := s.signalled ++ signalled
    dropped := s.dropped ++ s.port.transmitList }

section

variable (h : Data k s cur)
include h

/-- **An abort**: a listed request loses its state, or has packets in flight and keeps it, marked. -/
theorem Data.abort (hout : ∀ j, j ∉ s.port.transmitList → states j = s.port.states j) (hin : ∀ j ∈
    s.port.transmitList, states j = none ∧ ofRequest j s.inFlight = [] ∨ ∃ st, s.port.states j = some st ∧ states j =
    some { st with aborted := true }) (hsignalled : ∀ j a, s.actions[j]? = some a → signalled.count j = if
    a.abortEvent ∧ j ∈ s.port.transmitList ∧ states j = none then 1 else 0)
    (hfresh : ∀ j, s.actions.length ≤ j → signalled.count j = 0) : Data k (aborted s states signalled) cur := by
  have hpart : ∀ {j a}, j ∈ s.port.transmitList → s.actions[j]? = some a → cur j < last a := by
    intro j a hj ha
    obtain ⟨-, b, -, hb, -, hlt⟩ := h.waiting j hj
    obtain rfl := Option.some.inj (ha.symm.trans hb)
    exact hlt
  constructor
  case sent => exact h.sent
  case alive =>
    intro j stj hstj
    by_cases hj : j ∈ s.port.transmitList
    · rcases hin j hj with ⟨hnone, -⟩ | ⟨st, hst, hsome⟩
      · exact absurd (hnone.symm.trans hstj) (by simp)
      · obtain rfl := Option.some.inj (hsome.symm.trans hstj)
        obtain ⟨a, ha, halive⟩ := h.alive j st hst
        exact ⟨a, ha, { halive with }⟩
    · exact h.alive j stj ((hout j hj).symm.trans hstj)
  case nodup => exact List.nodup_nil
  case waiting => simp [aborted]
  case unstarted => simp [aborted]
  case unlisted =>
    intro j stj a hstj ha _
    by_cases hj : j ∈ s.port.transmitList
    · rcases hin j hj with ⟨hnone, -⟩ | ⟨st, -, hsome⟩
      · exact absurd (hnone.symm.trans hstj) (by simp)
      · obtain rfl := Option.some.inj (hsome.symm.trans hstj)
        exact hpart hj ha
    · exact h.unlisted j stj a ((hout j hj).symm.trans hstj) ha hj
  case flights =>
    intro pkt hpkt hnone
    by_cases hj : pkt.senderState ∈ s.port.transmitList
    · rcases hin _ hj with ⟨-, hnil⟩ | ⟨st, -, hsome⟩
      · have hmem : pkt ∈ ofRequest pkt.senderState s.inFlight := List.mem_filter.2 ⟨hpkt, by simp⟩
        rw [hnil] at hmem
        cases hmem
      · exact absurd (hsome.symm.trans hnone) (by simp)
    · exact h.flights pkt hpkt ((hout _ hj).symm.trans hnone)
  case pending => exact h.pending
  case inRetry => rintro _ ⟨⟩
  case completed =>
    intro j a ha
    change (s.completed.map (·.1)).count j = if a.event ∧ states j = none ∧ cur j = last a then 1 else 0
    rw [h.completed j a ha]
    by_cases hj : j ∈ s.port.transmitList
    · simp [Nat.ne_of_lt (hpart hj ha)]
    · rw [hout j hj]
  case signalled =>
    intro j a ha
    change (s.signalled ++ signalled).count j = if a.abortEvent ∧ states j = none ∧ cur j < last a then 1 else 0
    rw [List.count_append, h.signalled j a ha, hsignalled j a ha]
    by_cases hj : j ∈ s.port.transmitList
    · simp [h.listed_ne_none hj, hj, hpart hj ha]
    · simp [hj, hout j hj]
  case dropped =>
    intro j a ha
    change j ∈ s.dropped ++ s.port.transmitList ↔ j ∉ [] ∧ cur j < last a
    rw [List.mem_append, h.dropped j a ha]
    by_cases hj : j ∈ s.port.transmitList
    · simp [hj, hpart hj ha]
    · simp [hj]
  case positive => exact h.positive
  case fresh =>
    intro j hj
    obtain ⟨h1, h2, h3, h4⟩ := h.fresh j hj
    refine ⟨h1, h2, ?_, ?_⟩
    · exact (List.count_append (a := j)).trans (by rw [h3, hfresh j hj])
    · refine fun hmem => (List.mem_append.1 hmem).elim h4 fun hlist => ?_
      have := h.lt_of_listed hlist
      have : s.actions.length ≤ j := hj
      omega

theorem Data.no_flights (hl : s.port.transmitList = i :: waiting) (hj : j ∈ waiting) :
    ofRequest j s.inFlight = [] := by
  obtain ⟨st, a, hst, ha, -, -⟩ := h.waiting j (by rw [hl]; exact List.mem_cons_of_mem _ hj)
  obtain ⟨b, hb, halive⟩ := h.alive j st hst
  obtain rfl := Option.some.inj (ha.symm.trans hb)
  have hcur := h.unstarted j (by rw [hl]; exact hj) a ha
  have hbytes := halive.bytes
  rw [ofRequest_eq_nil_iff h.positive]
  omega

/-- What `abortPending` compares tells whether the front request has packets in flight. -/
theorem Data.front_idle_iff (halive : Alive k s.inFlight i a st (cur i))
    (hsent : Sent k s.sent i a (cur i)) (hc : cur i < last a) :
    st.numBytes = st.gen.complete ↔ ofRequest i s.inFlight = [] := by
  have hg := halive.gen hc
  have hge := hsent.ge
  have hbytes := halive.bytes
  have hcomplete : st.gen.complete.toNat = cur i - a.addr.toNat := by
    rw [ChunkGenerator.complete, BitVec.toNat_sub_of_le, hg.curAddr, hg.startAddr]
    rw [BitVec.le_def, hg.curAddr, hg.startAddr]
    exact hge
  rw [ofRequest_eq_nil_iff h.positive, ← BitVec.toNat_inj, hcomplete]
  omega

theorem Data.count_signalled {is : List Nat} (hnd : is.Nodup)
    (hlist : ∀ i ∈ is, i ∈ s.port.transmitList) (hp : ∀ i ∈ is, states i = s.port.states i) (j : Nat) :
    (∀ a, s.actions[j]? = some a → (signals states is).count j = if a.abortEvent ∧ j ∈ is then 1 else 0) ∧
    (s.actions.length ≤ j → (signals states is).count j = 0) := by
  constructor
  · intro a ha
    by_cases hj : j ∈ is
    · obtain ⟨st, b, hst, hb, -⟩ := h.waiting j (hlist j hj)
      obtain ⟨b', hb', halive⟩ := h.alive j st hst
      obtain rfl := Option.some.inj (ha.symm.trans hb')
      have hany : (states j).any (·.abortEvent) = a.abortEvent := by
        rw [hp j hj, hst, Option.any_some, halive.abortEvent]
      by_cases hev : a.abortEvent = true
      · rw [signals, List.count_filter (by rw [hany, hev]), List.count_eq_one_of_mem hnd hj, if_pos ⟨hev, hj⟩]
      · rw [if_neg fun hc => hev hc.1, List.count_eq_zero]
        intro hmem
        exact hev (hany.symm.trans (List.mem_filter.1 hmem).2)
    · rw [if_neg fun hc => hj hc.2, List.count_eq_zero]
      exact fun hmem => hj (List.mem_filter.1 hmem).1
  · intro hj
    rw [List.count_eq_zero]
    intro hmem
    have := h.lt_of_listed (hlist j (List.mem_filter.1 hmem).1)
    omega

theorem abortPending_busy (hl : s.port.transmitList = i :: waiting)
    (hfl : ofRequest i s.inFlight ≠ []) (line : Addr) :
    ∃ states signalled, s.step line .abortPending = .ok (aborted s states signalled) ∧
      Data k (aborted s states signalled) cur ∧ (Calm s → Calm (aborted s states signalled)) := by
  obtain ⟨st, a, hst, ha, hab, hlt, halive, hsent⟩ := h.front hl
  obtain ⟨hi, hnd⟩ := List.nodup_cons.1 (hl ▸ h.nodup)
  have hmem : ∀ j ∈ waiting, j ∈ s.port.transmitList := fun j hj => by rw [hl]; exact List.mem_cons_of_mem _ hj
  have hbusy : ¬ st.numBytes = st.gen.complete := (h.front_idle_iff halive hsent hlt).not.2 hfl
  have hcount : s.port.pendingCount ≠ 0 := by
    rw [h.pending, List.length_eq_zero_iff.ne]
    rintro hnil
    exact hfl (by rw [hnil]; rfl)
  generalize hmarked : update s.port.states i (some { st with aborted := true }) = marked
  have hself : marked i = some { st with aborted := true } := by rw [← hmarked, update_self]
  have hother : ∀ {j}, j ≠ i → marked j = s.port.states j := fun hj => by rw [← hmarked, update_of_ne hj]
  have hwait : ∀ j ∈ waiting, marked j = s.port.states j := fun j hj => hother fun heq => hi (heq ▸ hj)
  have hfront : { s.port with inRetry := none }.abortFront =
      .ok { s.port with inRetry := none, transmitList := waiting, states := marked } := by
    simp [abortFront, hl, hcount, deref, hst, hbusy, hmarked]
  have hall := abortAll_eq { s.port with inRetry := none, transmitList := waiting, states := marked } waiting hnd
    fun j hj hnone => h.listed_ne_none (hmem j hj) ((hwait j hj).symm.trans hnone)
  refine ⟨without marked waiting, signals marked waiting, ?_, h.abort ?_ ?_ ?_ ?_, ?_⟩
  · rw [System.step, abortPending, hfront]
    simp only [Run.ok_bind]
    rw [hall]
    rfl
  · intro j hj
    rw [hl, List.mem_cons, not_or] at hj
    rw [without, if_neg hj.2, hother hj.1]
  · intro j hj
    rw [hl, List.mem_cons] at hj
    rcases hj with rfl | hj
    · exact .inr ⟨st, hst, by rw [without, if_neg hi, hself]⟩
    · exact .inl ⟨if_pos hj, h.no_flights hl hj⟩
  · intro j b hb
    rw [(h.count_signalled hnd hmem hwait j).1 b hb]
    by_cases hj : j ∈ waiting
    · simp [without, hj, hmem j hj]
    · by_cases hji : j = i
      · subst hji
        simp [without, hj, hself]
      · simp [hj, hji, hl]
  · exact fun j => (h.count_signalled hnd hmem hwait j).2
  · intro hcalm j stj hstj habj hnil
    exact hfl (by rw [show s.inFlight = [] from hnil]; rfl)

theorem abortPending_idle (hidle : ∀ j ∈ s.port.transmitList, ofRequest j s.inFlight = [])
    (line : Addr) : ∃ states signalled, s.step line .abortPending = .ok (aborted s states signalled) ∧
      Data k (aborted s states signalled) cur ∧ (Calm s → Calm (aborted s states signalled)) := by
  have hfront : { s.port with inRetry := none }.abortFront = .ok { s.port with inRetry := none } := by
    cases hl : s.port.transmitList with
    | nil => simp [abortFront, hl]
    | cons i waiting =>
      obtain ⟨st, a, hst, ha, hab, hlt, halive, hsent⟩ := h.front hl
      have hsame := (h.front_idle_iff halive hsent hlt).2 (hidle i (hl ▸ List.mem_cons_self))
      simp [abortFront, hl, deref, hst, hsame]
  have hall := abortAll_eq { s.port with inRetry := none } s.port.transmitList h.nodup fun j => h.listed_ne_none
  have hcount := h.count_signalled h.nodup (fun _ hj => hj) (fun _ _ => rfl)
  refine ⟨without s.port.states s.port.transmitList, signals s.port.states s.port.transmitList, ?_,
    h.abort (fun j hj => if_neg hj) (fun j hj => .inl ⟨if_pos hj, hidle j hj⟩) ?_ (fun j => (hcount j).2), ?_⟩
  · rw [System.step, abortPending, hfront]
    simp only [Run.ok_bind]
    rw [hall]
    rfl
  · intro j b hb
    rw [(hcount j).1 b hb]
    by_cases hj : j ∈ s.port.transmitList
    · simp [without, hj]
    · simp [hj]
  · intro hcalm j stj hstj habj hnil
    by_cases hj : j ∈ s.port.transmitList
    · simp [aborted, without, hj] at hstj
    · simp only [aborted, without, if_neg hj] at hstj
      exact hcalm j stj hstj habj hnil

theorem abortPending_lands (hc : Control s) (line : Addr) :
    ∃ s', s.step line .abortPending = .ok s' ∧ Data k s' cur ∧ Control s' ∧ (Calm s → Calm s') := by
  have hcontrol : ∀ states signalled, Control (aborted s states signalled) := fun _ _ =>
    ⟨hc.owed, by rintro ⟨⟩, by rintro ⟨⟩, fun hne => absurd rfl hne⟩
  by_cases hidle : ∀ j ∈ s.port.transmitList, ofRequest j s.inFlight = []
  · obtain ⟨_, _, hstep, hdata, hcalm⟩ := abortPending_idle h hidle line
    exact ⟨_, hstep, hdata, hcontrol _ _, hcalm⟩
  · -- only the front request can have packets in flight
    obtain ⟨j, hj, hfl⟩ : ∃ j ∈ s.port.transmitList, ofRequest j s.inFlight ≠ [] := by
      by_contra hnone
      exact hidle fun j hj => by_contra fun hfl => hnone ⟨j, hj, hfl⟩
    obtain ⟨i, waiting, hl⟩ := List.exists_cons_of_ne_nil (List.ne_nil_of_mem hj)
    rw [hl, List.mem_cons] at hj
    rcases hj with rfl | hj
    · obtain ⟨_, _, hstep, hdata, hcalm⟩ := abortPending_busy h hl hfl line
      exact ⟨_, hstep, hdata, hcontrol _ _, hcalm⟩
    · exact absurd (h.no_flights hl hj) hfl

end

end Gem5.DmaPort
