import Gem5Cxl.AbstractMem
/-!
# Llsc — store conditionals of `AbstractMemory`

A live reservation should mean that nothing was stored into its granule since the load-locked.  Two kinds of stores
break this: swaps, which never look at the reservations, and stores that reach past the granule of their request's
address, which clear that granule only.  In every run without such a store into a reserved granule, a store conditional
goes through only when its context's load-locked still stands.
-/
namespace Gem5
namespace AbstractMemory

open ByteStore LockedAddr

structure WriteBranch (pkt : Packet) : Prop where
  responding : pkt.cacheResponding = false
  notEvict : ¬ (pkt.cmd = .cleanEvict ∨ pkt.cmd = .writebackClean)
  notSwap : pkt.cmd ≠ .swapReq
  notRead : pkt.isRead = false
  notClean : (pkt.isInvalidate || pkt.isClean) = false
  write : pkt.isWrite = true

structure LoadLocked (pkt : Packet) (c : Nat) (g : Addr) : Prop where
  responding : pkt.cacheResponding = false
  read : pkt.isRead = true
  llsc : pkt.isLLSC = true
  context : pkt.req.contextId = some c
  granule : LockedAddr.mask pkt.req.paddr = g

def Allowed (m : AbstractMemory) (pkt : Packet) : Prop := ∃ m' req, m.writeOK pkt = .ok (m', req, true)

/-- A swap that overwrites memory: every atomic operation, and every other swap but a failed conditional one. -/
def SwapOverwrites (m : AbstractMemory) (pkt : Packet) : Prop :=
  pkt.cacheResponding = false ∧ pkt.cmd = .swapReq ∧
    ∃ pmem, m.pmem = some pmem ∧
      (pkt.atomicOp.isSome = true ∨ pkt.overwriteMem (slice pmem (m.toHostAddr pkt.addr) pkt.size) = .ok true)

def Stores (m : AbstractMemory) (pkt : Packet) (i : Fin pkt.size) : Prop :=
  SwapOverwrites m pkt ∨
    (WriteBranch pkt ∧ Allowed m pkt ∧ (pkt.isMaskedWrite = true → pkt.req.byteEnable.getD i false = true))

def StoresTo (m : AbstractMemory) (pkt : Packet) (g : Addr) : Prop :=
  ∃ i : Fin pkt.size, Stores m pkt i ∧ LockedAddr.mask (pkt.addr + BitVec.ofNat 64 i) = g

/-- **The condition on a step**: into a reserved granule only a write stores, and it is the granule of the write's
request address. -/
def Covered (m : AbstractMemory) (pkt : Packet) : Prop :=
  ∀ r ∈ m.lockedAddrList, StoresTo m pkt r.addr → pkt.cmd ≠ .swapReq ∧ LockedAddr.mask pkt.req.paddr = r.addr

/-! ## Runs -/

structure Step where
  before : AbstractMemory
  pkt : Packet

inductive Trace (m₀ : AbstractMemory) : List Step → AbstractMemory → Prop
  | nil : Trace m₀ [] m₀
  | step {hist : List Step} {m m' : AbstractMemory} (pkt : Packet) {r : Packet} : Trace m₀ hist m →
      m.access pkt = .ok (m', r) → Trace m₀ (⟨m, pkt⟩ :: hist) m'

/-- **A standing load-locked**: context `c` loaded-locked granule `g`, loaded-locked no other granule since, and no
packet stored a byte of `g` since. -/
def Stands (hist : List Step) (c : Nat) (g : Addr) : Prop :=
  ∃ newer ll older, hist = newer ++ ll :: older ∧ LoadLocked ll.pkt c g ∧
    ∀ s ∈ newer, (∀ g', LoadLocked s.pkt c g' → g' = g) ∧ ¬ StoresTo s.before s.pkt g

variable {c o x : Nat} {g : Addr} {hist : List Step} {s : Step} {req : Request} {m m' : AbstractMemory} {pkt r : Packet}
  {p p' : Pmem}

theorem Stands.cons (h : Stands hist c g) (hll : ∀ g', LoadLocked s.pkt c g' → g' = g)
    (hst : ¬ StoresTo s.before s.pkt g) : Stands (s :: hist) c g := by
  obtain ⟨newer, ll, older, rfl, hl, hnew⟩ := h
  refine ⟨s :: newer, ll, older, rfl, hl, ?_⟩
  intro x hx
  rcases List.mem_cons.1 hx with rfl | hx
  · exact ⟨hll, hst⟩
  · exact hnew x hx

theorem stands_loadLocked (h : LoadLocked s.pkt c g) : Stands (s :: hist) c g := by
  refine ⟨[], s, hist, rfl, h, ?_⟩
  intro x hx
  cases hx

/-! ## What one packet does to the reservations -/

theorem findRecord_mem : ∀ {l : List LockedAddr}, findRecord req g l = .ok true →
    ∃ c, req.contextId = some c ∧ ⟨g, c⟩ ∈ l
  | [], h => by cases h
  | r :: rs, h => by
    rw [findRecord] at h
    by_cases hg : r.addr = g
    · rw [if_pos hg] at h
      cases hc : req.contextId with
      | none =>
        rw [hc] at h
        cases h
      | some c =>
        rw [hc] at h
        simp only at h
        by_cases hrc : r.contextId = c
        · have hr : r = ⟨g, c⟩ := by
            cases r
            simp_all
          exact ⟨c, rfl, hr ▸ List.mem_cons_self⟩
        · rw [if_neg hrc] at h
          obtain ⟨c', hc', hm⟩ := findRecord_mem h
          rw [hc] at hc'
          cases hc'
          exact ⟨c, rfl, List.mem_cons_of_mem r hm⟩
    · rw [if_neg hg] at h
      obtain ⟨c, hc, hm⟩ := findRecord_mem h
      exact ⟨c, hc, List.mem_cons_of_mem r hm⟩

/-- **What `writeOK` answers**: yes, with the granule's records gone, a store conditional only for a record of its own
context; or no, with the reservations as they were. -/
theorem writeOK_cases {m₁ : AbstractMemory} {ok : Bool} (h : m.writeOK pkt = .ok (m₁, req, ok)) :
    m₁.pmem = m.pmem ∧ m₁.range = m.range ∧
    ((ok = true ∧ m₁.lockedAddrList = m.lockedAddrList.filter (fun r => !decide (r.addr = LockedAddr.mask pkt.req.paddr)) ∧
      (pkt.isLLSC = true → req.extraData = some 1 ∧ findRecord pkt.req (LockedAddr.mask pkt.req.paddr) m.lockedAddrList = .ok true)) ∨
    (ok = false ∧ m₁.lockedAddrList = m.lockedAddrList)) := by
  unfold writeOK at h
  by_cases hw : m.writeable = true
  · rw [hw] at h
    simp only [Bool.not_true, Bool.false_eq_true, if_false] at h
    by_cases he : m.lockedAddrList = []
    · rw [if_pos he] at h
      cases hl : pkt.isLLSC with
      | true =>
        rw [hl] at h
        cases h
        exact ⟨rfl, rfl, Or.inr ⟨rfl, rfl⟩⟩
      | false =>
        rw [hl] at h
        cases h
        exact ⟨rfl, rfl, Or.inl ⟨rfl, by rw [he]; rfl, fun hc => (by cases hc)⟩⟩
    · rw [if_neg he, checkLockedAddrList] at h
      cases hl : pkt.isLLSC with
      | false =>
        rw [hl] at h
        cases h
        exact ⟨rfl, rfl, Or.inl ⟨rfl, rfl, fun hc => (by cases hc)⟩⟩
      | true =>
        rw [hl] at h
        simp only [if_true] at h
        rw [Run.bind_eq_ok] at h
        obtain ⟨b, hb, h⟩ := h
        cases b with
        | true =>
          cases h
          exact ⟨rfl, rfl, Or.inl ⟨rfl, rfl, fun _ => ⟨rfl, hb⟩⟩⟩
        | false =>
          cases h
          exact ⟨rfl, rfl, Or.inr ⟨rfl, rfl⟩⟩
  · rw [Bool.not_eq_true] at hw
    rw [hw] at h
    cases h
    exact ⟨rfl, rfl, Or.inr ⟨rfl, rfl⟩⟩

/-- The write branch: the answer of `writeOK`, in the reservations, the reply and, when it is no, the bytes. -/
theorem accessWrite_inv (h : m.accessWrite pkt = .ok (m', r)) :
    ∃ m₁ req ok, m.writeOK pkt = .ok (m₁, req, ok) ∧ m'.lockedAddrList = m₁.lockedAddrList ∧ r.req = req ∧
      (ok = false → m'.pmem = m₁.pmem) := by
  rw [accessWrite, Run.bind_eq_ok] at h
  obtain ⟨⟨m₁, req, ok⟩, hok, h⟩ := h
  refine ⟨m₁, req, ok, hok, ?_⟩
  cases ok with
  | false =>
    cases h
    exact ⟨rfl, rfl, fun _ => rfl⟩
  | true =>
    simp only [if_true, Run.bind_eq_ok] at h
    obtain ⟨m₂, hm₂, -, -, h⟩ := h
    cases h
    refine ⟨?_, rfl, fun hc => (by cases hc)⟩
    unfold writePmem at hm₂
    split at hm₂
    · cases hw : pkt.writeData _ _ with
      | error f =>
        rw [hw] at hm₂
        cases hm₂
      | ok p =>
        rw [hw] at hm₂
        cases hm₂
        rfl
    · cases hm₂
      rfl

theorem access_inv (h : m.access pkt = .ok (m', r)) :
    (m' = m ∧ (pkt.cacheResponding = true ∨ pkt.cmd = .cleanEvict ∨ pkt.cmd = .writebackClean)) ∨
    (pkt.cacheResponding = false ∧ ¬ (pkt.cmd = .cleanEvict ∨ pkt.cmd = .writebackClean) ∧
      ∃ r', m.accessData pkt = .ok (m', r') ∧ r.req = r'.req) := by
  unfold access at h
  cases hr : pkt.cacheResponding with
  | true =>
    rw [hr] at h
    cases h
    exact Or.inl ⟨rfl, Or.inl rfl⟩
  | false =>
    rw [hr] at h
    simp only [Bool.false_eq_true, if_false] at h
    by_cases he : pkt.cmd = .cleanEvict ∨ pkt.cmd = .writebackClean
    · rw [if_pos he] at h
      cases h
      exact Or.inl ⟨rfl, Or.inr he⟩
    · simp only [if_neg he, Run.bind_eq_ok, Packet.respond_eq] at h
      obtain ⟨_, -, _, -, ⟨m₁, r'⟩, hd, _, hresp, h⟩ := h
      cases hresp
      cases h
      refine Or.inr ⟨rfl, he, r', hd, ?_⟩
      split <;> rfl

theorem accessSwap_locked (h : m.accessSwap pkt = .ok (m', r)) : m'.lockedAddrList = m.lockedAddrList := by
  unfold accessSwap at h
  split at h
  · rw [Run.bind_eq_ok] at h
    obtain ⟨_, -, h⟩ := h
    cases h
    rfl
  · split_ifs at h
    cases h
    rfl

theorem accessRead_locked (h : m.accessRead pkt = .ok (m', r)) :
    (pkt.isLLSC = false ∧ m'.lockedAddrList = m.lockedAddrList) ∨
    (pkt.isLLSC = true ∧ ∃ c, pkt.req.contextId = some c ∧
      m'.lockedAddrList = (moveRecord c (LockedAddr.mask pkt.req.paddr) m.lockedAddrList).getD
        (⟨LockedAddr.mask pkt.req.paddr, c⟩ :: m.lockedAddrList)) := by
  rw [accessRead] at h
  simp only [Run.bind_eq_ok] at h
  obtain ⟨_, -, m₁, hm₁, _, -, h⟩ := h
  cases h
  unfold trackRead at hm₁
  by_cases hl : pkt.isLLSC = true
  · rw [if_pos hl, Run.bind_eq_ok] at hm₁
    obtain ⟨-, -, htrack⟩ := hm₁
    refine Or.inr ⟨hl, ?_⟩
    unfold trackLoadLocked at htrack
    cases hc : pkt.req.contextId with
    | none =>
      rw [hc] at htrack
      cases htrack
    | some c =>
      rw [hc] at htrack
      cases htrack
      exact ⟨c, rfl, rfl⟩
  · rw [if_neg hl] at hm₁
    cases hm₁
    exact Or.inl ⟨Bool.eq_false_iff.2 hl, rfl⟩

/-- **What a packet does to the reservations.** -/
theorem locked_cases (h : m.access pkt = .ok (m', r)) :
    (∃ c g, LoadLocked pkt c g ∧ ¬ WriteBranch pkt ∧ pkt.cmd ≠ .swapReq ∧
      m'.lockedAddrList = (moveRecord c g m.lockedAddrList).getD (⟨g, c⟩ :: m.lockedAddrList)) ∨
    (WriteBranch pkt ∧ Allowed m pkt ∧
      m'.lockedAddrList = m.lockedAddrList.filter (fun r => !decide (r.addr = LockedAddr.mask pkt.req.paddr))) ∨
    ((∀ c g, ¬ LoadLocked pkt c g) ∧ (WriteBranch pkt → ¬ Allowed m pkt) ∧ m'.lockedAddrList = m.lockedAddrList) := by
  rcases access_inv h with ⟨rfl, hearly⟩ | ⟨hr, he, r', hd, -⟩
  · refine Or.inr (Or.inr ⟨fun c g hl => ?_, fun hw => ?_, rfl⟩)
    · rcases hearly with hc | hc
      · rw [hl.responding] at hc
        cases hc
      · have hread := hl.read
        unfold Packet.isRead at hread
        rcases hc with hc | hc <;> rw [hc] at hread <;> revert hread <;> decide
    · rcases hearly with hc | hc
      · rw [hw.responding] at hc
        cases hc
      · exact absurd hc hw.notEvict
  · unfold accessData at hd
    by_cases hs : pkt.cmd = .swapReq
    · rw [if_pos hs] at hd
      refine Or.inr (Or.inr ⟨fun c g hl => ?_, fun hw => absurd hs hw.notSwap, accessSwap_locked hd⟩)
      have hll := hl.llsc
      rw [Packet.isLLSC, hs] at hll
      revert hll
      decide
    · rw [if_neg hs] at hd
      by_cases hread : pkt.isRead = true
      · have hnw : ¬ WriteBranch pkt := fun hw => by
          rw [hw.notRead] at hread
          cases hread
        rw [if_pos hread] at hd
        rcases accessRead_locked hd with ⟨hl, hsame⟩ | ⟨hl, c, hc, hmove⟩
        · refine Or.inr (Or.inr ⟨fun c g hll => ?_, fun hw => absurd hw hnw, hsame⟩)
          rw [hll.llsc] at hl
          cases hl
        · exact Or.inl ⟨c, _, ⟨hr, hread, hl, hc, rfl⟩, hnw, hs, hmove⟩
      · have hnl : ∀ c g, ¬ LoadLocked pkt c g := fun c g hl => hread hl.read
        rw [if_neg hread] at hd
        by_cases hi : (pkt.isInvalidate || pkt.isClean) = true
        · rw [if_pos hi, Run.bind_eq_ok] at hd
          obtain ⟨-, -, hd⟩ := hd
          cases hd
          refine Or.inr (Or.inr ⟨hnl, fun hw => ?_, rfl⟩)
          rw [hw.notClean] at hi
          cases hi
        · rw [if_neg hi] at hd
          by_cases hw : pkt.isWrite = true
          · rw [if_pos hw] at hd
            have hwb : WriteBranch pkt :=
              ⟨hr, he, hs, Bool.eq_false_iff.2 hread, Bool.eq_false_iff.2 hi, hw⟩
            obtain ⟨m₁, req, ok, hok, hlist, -, -⟩ := accessWrite_inv hd
            obtain ⟨-, -, ⟨rfl, hfilter, -⟩ | ⟨rfl, hsame⟩⟩ := writeOK_cases hok
            · exact Or.inr (Or.inl ⟨hwb, ⟨m₁, req, hok⟩, hlist.trans hfilter⟩)
            · refine Or.inr (Or.inr ⟨hnl, fun _ hall => ?_, hlist.trans hsame⟩)
              obtain ⟨m₂, req₂, h₂⟩ := hall
              rw [hok] at h₂
              cases h₂
          · rw [if_neg hw] at hd
            cases hd

/-! ## Every byte that changes is stored -/

/-! ## The invariant -/

theorem moveRecord_none : ∀ {l : List LockedAddr}, moveRecord c g l = none →
    ∀ r ∈ l, r.contextId ≠ c
  | [], _, r, hr => by cases hr
  | x :: l, h, r, hr => by
    rw [moveRecord] at h
    by_cases hx : x.contextId = c
    · rw [if_pos hx] at h
      cases h
    · rw [if_neg hx, Option.map_eq_none_iff] at h
      rcases List.mem_cons.1 hr with rfl | hr
      · exact hx
      · exact moveRecord_none h r hr

theorem moveRecord_some : ∀ {l l' : List LockedAddr}, moveRecord c g l = some l' →
    (l.map contextId).Nodup →
    l'.map contextId = l.map contextId ∧ ∀ r ∈ l', r = ⟨g, c⟩ ∨ (r ∈ l ∧ r.contextId ≠ c)
  | [], l', h, _ => by cases h
  | x :: l, l', h, hnd => by
    rw [List.map_cons, List.nodup_cons] at hnd
    rw [moveRecord] at h
    by_cases hx : x.contextId = c
    · rw [if_pos hx] at h
      cases h
      refine ⟨rfl, ?_⟩
      intro r hr
      rcases List.mem_cons.1 hr with rfl | hr
      · exact Or.inl (by rw [hx])
      · refine Or.inr ⟨List.mem_cons_of_mem x hr, ?_⟩
        intro hrc
        exact hnd.1 (List.mem_map.2 ⟨r, hr, hrc.trans hx.symm⟩)
    · rw [if_neg hx, Option.map_eq_some_iff] at h
      obtain ⟨l₁, hl₁, rfl⟩ := h
      obtain ⟨hmap, hmem⟩ := moveRecord_some hl₁ hnd.2
      refine ⟨by rw [List.map_cons, List.map_cons, hmap], ?_⟩
      intro r hr
      rcases List.mem_cons.1 hr with rfl | hr
      · exact Or.inr ⟨List.mem_cons_self, hx⟩
      · rcases hmem r hr with h | ⟨h1, h2⟩
        · exact Or.inl h
        · exact Or.inr ⟨List.mem_cons_of_mem x h1, h2⟩

/-- **Every reservation stands**, and no context has two. -/
structure Live (hist : List Step) (m : AbstractMemory) : Prop where
  unique : (m.lockedAddrList.map contextId).Nodup
  stands : ∀ r ∈ m.lockedAddrList, Stands hist r.contextId r.addr

theorem Live.loadLocked (h : Live hist m) (hl : LoadLocked pkt c g) (hst : ∀ g', ¬ StoresTo m pkt g')
    (hm : m'.lockedAddrList = (moveRecord c g m.lockedAddrList).getD (⟨g, c⟩ :: m.lockedAddrList)) :
    Live (⟨m, pkt⟩ :: hist) m' := by
  -- a record that is not the new one is another context's, and stands as before
  have hkeep : ∀ r ∈ m.lockedAddrList, r.contextId ≠ c → Stands (⟨m, pkt⟩ :: hist) r.contextId r.addr := by
    intro r hr hrc
    apply (h.stands r hr).cons
    · intro g' hl'
      have := hl.context.symm.trans hl'.context
      exact absurd (Option.some.inj this).symm hrc
    · exact hst r.addr
  cases hmove : moveRecord c g m.lockedAddrList with
  | none =>
    have hnone := moveRecord_none hmove
    rw [hmove, Option.getD_none] at hm
    constructor
    · rw [hm, List.map_cons, List.nodup_cons]
      refine ⟨?_, h.unique⟩
      intro hmem
      obtain ⟨r, hr, hrc⟩ := List.mem_map.1 hmem
      exact hnone r hr hrc
    · intro r hr
      rw [hm] at hr
      rcases List.mem_cons.1 hr with rfl | hr
      · exact stands_loadLocked hl
      · exact hkeep r hr (hnone r hr)
  | some l =>
    obtain ⟨hmap, hmem⟩ := moveRecord_some hmove h.unique
    rw [hmove, Option.getD_some] at hm
    constructor
    · rw [hm, hmap]
      exact h.unique
    · intro r hr
      rw [hm] at hr
      rcases hmem r hr with rfl | ⟨h1, h2⟩
      · exact stands_loadLocked hl
      · exact hkeep r h1 h2

/-- **One packet keeps every reservation standing**, when the granules it stores to are covered. -/
theorem Live.access (h : Live hist m) (hc : Covered m pkt) (ha : m.access pkt = .ok (m', r)) :
    Live (⟨m, pkt⟩ :: hist) m' := by
  rcases locked_cases ha with ⟨c, g, hl, hnw, hns, hm⟩ | ⟨hw, -, hm⟩ | ⟨hnl, hnw, hm⟩
  · refine h.loadLocked hl ?_ hm
    rintro g' ⟨i, hi | hi, -⟩
    · exact hns hi.2.1
    · exact hnw hi.1
  · constructor
    · rw [hm]
      exact h.unique.sublist (List.filter_sublist.map contextId)
    · intro x hx
      rw [hm, List.mem_filter] at hx
      obtain ⟨hx, hne⟩ := hx
      simp only [Bool.not_eq_true', decide_eq_false_iff_not] at hne
      apply (h.stands x hx).cons
      · intro g' hl
        have hread := hl.read
        rw [hw.notRead] at hread
        cases hread
      · intro hst
        exact hne (hc x hx hst).2.symm
  · constructor
    · rw [hm]
      exact h.unique
    · intro x hx
      rw [hm] at hx
      apply (h.stands x hx).cons
      · intro g' hl
        exact absurd hl (hnl _ g')
      · rintro ⟨i, hi, hg⟩
        obtain ⟨hns, -⟩ := hc x hx ⟨i, hi, hg⟩
        rcases hi with hi | ⟨hw, hall, -⟩
        · exact hns hi.2.1
        · exact hnw hw hall

theorem Trace.live {m₀ : AbstractMemory} (h₀ : m₀.lockedAddrList = []) (ht : Trace m₀ hist m)
    (hc : ∀ s ∈ hist, Covered s.before s.pkt) : Live hist m := by
  induction ht with
  | nil =>
    constructor
    · rw [h₀]
      exact List.nodup_nil
    · intro r hr
      rw [h₀] at hr
      cases hr
  | step pkt _ ha ih =>
    exact (ih (fun s hs => hc s (List.mem_cons_of_mem _ hs))).access (hc _ List.mem_cons_self) ha

/-! ## Store conditionals -/

structure StoreCond (pkt : Packet) : Prop where
  responding : pkt.cacheResponding = false
  write : pkt.isWrite = true
  llsc : pkt.isLLSC = true

theorem StoreCond.writeBranch (h : StoreCond pkt) : WriteBranch pkt := by
  have hcmd : pkt.cmd = .storeCondReq ∨ pkt.cmd = .storeCondFailReq ∨ pkt.cmd = .storeCondResp := by
    have hw := h.write
    have hl := h.llsc
    unfold Packet.isWrite at hw
    unfold Packet.isLLSC at hl
    revert hw hl
    cases pkt.cmd <;> decide
  constructor
  · exact h.responding
  · rcases hcmd with hcmd | hcmd | hcmd <;> rw [hcmd] <;> decide
  · rcases hcmd with hcmd | hcmd | hcmd <;> rw [hcmd] <;> decide
  · rw [Packet.isRead]
    rcases hcmd with hcmd | hcmd | hcmd <;> rw [hcmd] <;> decide
  · rw [Packet.isInvalidate, Packet.isClean]
    rcases hcmd with hcmd | hcmd | hcmd <;> rw [hcmd] <;> decide
  · exact h.write

theorem StoreCond.accessWrite (h : StoreCond pkt) (ha : m.access pkt = .ok (m', r)) :
    ∃ r', m.accessWrite pkt = .ok (m', r') ∧ r.req = r'.req := by
  have hw := h.writeBranch
  rcases access_inv ha with ⟨-, hearly⟩ | ⟨-, -, r', hd, hreq⟩
  · rcases hearly with hc | hc
    · rw [hw.responding] at hc
      cases hc
    · exact absurd hc hw.notEvict
  · have hr : ¬ pkt.isRead = true := by rw [hw.notRead]; decide
    have hi : ¬ (pkt.isInvalidate || pkt.isClean) = true := by rw [hw.notClean]; decide
    rw [accessData, if_neg hw.notSwap, if_neg hr, if_neg hi, if_pos hw.write] at hd
    exact ⟨r', hd, hreq⟩

/-- **A store conditional that stores, or is allowed to, reports success, and its context's load-locked stands.** -/
theorem storeConditional_stands (m₀ : AbstractMemory) (h₀ : m₀.lockedAddrList = []) (hist : List Step)
    (m : AbstractMemory) (ht : Trace m₀ hist m) (hc : ∀ s ∈ hist, Covered s.before s.pkt) (pkt : Packet)
    (hsc : StoreCond pkt) (m' : AbstractMemory) (r : Packet) (ha : m.access pkt = .ok (m', r))
    (hw : m'.pmem ≠ m.pmem ∨ Allowed m pkt) :
    r.req.extraData = some 1 ∧ ∃ c, pkt.req.contextId = some c ∧ Stands hist c (LockedAddr.mask pkt.req.paddr) := by
  have hlive := ht.live h₀ hc
  obtain ⟨r', haw, hreq⟩ := hsc.accessWrite ha
  obtain ⟨m₁, req, ok, hok, -, hr', hsame⟩ := accessWrite_inv haw
  obtain ⟨hpmem, -, ⟨rfl, -, hll⟩ | ⟨rfl, -⟩⟩ := writeOK_cases hok
  · obtain ⟨hx, hfind⟩ := hll hsc.llsc
    obtain ⟨c, hctx, hmem⟩ := findRecord_mem hfind
    exact ⟨by rw [hreq, hr', hx], c, hctx, hlive.stands _ hmem⟩
  · rcases hw with hw | ⟨m₂, req₂, h₂⟩
    · exact absurd ((hsame rfl).trans hpmem) hw
    · rw [hok] at h₂
      cases h₂

def granuleZero (cmd : MemCmd) (c : Nat) (b : Byte) : Packet :=
  { cmd := cmd, req := { paddr := 0, contextId := some c }, addr := 0, size := 8, data := some (fun _ => b) }

theorem storeConditional_stands_alone :
    ∃ m r, ({ range := rangeSize 0 64, pmem := some (fun _ => 0) } : AbstractMemory).run
        [granuleZero .loadLockedReq 0 0, granuleZero .storeCondReq 0 2] = .ok (m, r) ∧
      r.map (fun p => p.req.extraData) = [none, some 1] := by
  refine ⟨_, _, rfl, ?_⟩
  have h := storeConditional_stands { range := rangeSize 0 64, pmem := some (fun _ => 0) } rfl _ _
    (Trace.nil.step (granuleZero .loadLockedReq 0 0) rfl)
    (by
      intro s hs r hr
      rw [List.mem_singleton.1 hs] at hr
      cases hr)
    (granuleZero .storeCondReq 0 2) ⟨rfl, rfl, rfl⟩ _ _ rfl (Or.inr ⟨_, _, rfl⟩)
  exact congrArg (fun x => [none, x]) h.1

/-- Context 1 swaps the granule that context 0 has load-locked; the store conditional of context 0 still goes through,
over the swapped bytes. -/
theorem storeConditional_after_swap :
    ∃ hist m m' r, Trace { range := rangeSize 0 64, pmem := some (fun _ => 0) } hist m ∧
      m.access (granuleZero .storeCondReq 0 2) = .ok (m', r) ∧ m'.pmem ≠ m.pmem ∧ r.req.extraData = some 1 ∧
      ¬ Stands hist 0 (LockedAddr.mask 0) := by
  refine ⟨_, _, _, _, (Trace.nil.step (granuleZero .loadLockedReq 0 0) rfl).step (granuleZero .swapReq 1 1) rfl, rfl,
    ?_, rfl, ?_⟩
  · intro h
    have hbyte := congrArg (Option.map (fun p : Pmem => p 0)) h
    revert hbyte
    decide
  · rintro ⟨newer, ll, older, heq, hl, hnew⟩
    cases newer with
    | nil =>
      cases heq
      exact absurd hl.llsc (by decide)
    | cons s newer =>
      obtain ⟨rfl, -⟩ := List.cons.inj heq
      exact (hnew _ List.mem_cons_self).2 ⟨⟨0, by decide⟩, Or.inl ⟨rfl, rfl, _, rfl, Or.inr rfl⟩, rfl⟩

end AbstractMemory
end Gem5
