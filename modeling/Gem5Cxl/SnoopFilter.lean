import Gem5Cxl.Packet
import Mathlib.Data.Finmap
/-!
# SnoopFilter — which CPU-side port may have a line (`mem/snoop_filter.hh`, `mem/snoop_filter.cc`)

`cachedLocations` maps a line address to two port masks: the ports with a request in flight (`requested`) and the ports
that have the line (`holder`).  Bit 0 of the key is the security state.  An iterator is the key it stands at, `none` for
`end()`; reading through an iterator whose entry is gone is `nullPointer`.  Ports are numbered as the crossbar numbers
them; the filter numbers the snooping ones again, one mask bit each.  Statistics are left out.
-/
namespace Gem5

/-- A packet with the flags of it, and of its request, that only caches and crossbars read. -/
structure SnoopPacket extends Packet where
  isUncacheable : Bool := false
  isCacheMaintenance : Bool := false
  isSecure : Bool := false
  hasSharers : Bool := false
  isBlockCached : Bool := false

def SnoopPacket.getBlockAddr (pkt : SnoopPacket) (blkSize : BitVec 32) : Addr :=
  pkt.addr &&& ~~~(blkSize - 1).setWidth 64

/-- `Packet::needsWritable`, which is asked of requests only. -/
def SnoopPacket.needsWritable (pkt : SnoopPacket) : Except Failure Bool := do
  assertThat pkt.isRequest
  return pkt.cmd.needsWritable

namespace SnoopFilter

abbrev snoopMaskSize : Nat := 256

abbrev SnoopMask := BitVec snoopMaskSize

/-! ## The ports -/

/-- The port tables while `setCPUSidePorts` fills them; `InvalidPortID` is `none`. -/
structure Ports (n : Nat) where
  cpuSidePorts : List (Fin n) := []
  localResponsePortIds : Fin n → Option Nat := fun _ => none
  id : Nat := 0

def Ports.add {n : Nat} (isSnooping : Fin n → Bool) (t : Ports n) (p : Fin n) : Ports n :=
  if isSnooping p then
    { cpuSidePorts := t.cpuSidePorts ++ [p]
      localResponsePortIds := fun q => if q = p then some t.id else t.localResponsePortIds q
      id := t.id + 1 }
  else t

def setCPUSidePorts {n : Nat} (isSnooping : Fin n → Bool) : Except Failure (Ports n) := do
  let t := (List.finRange n).foldl (Ports.add isSnooping) {}
  panicIf (decide (snoopMaskSize < t.id)) "Snoop filter only supports %d snooping ports, got %d\n"
  return t

/-- What a filter is told at construction and by `setCPUSidePorts`.  The line size is one the caches above accept
(`BaseSetAssoc`: at least 4 and a power of two). -/
structure Config where
  numPorts : Nat
  isSnooping : Fin numPorts → Bool
  ports : Ports numPorts
  linesize : BitVec 32 := 64
  lookupLatency : Nat := 1
  maxEntryCount : Nat
  ports_eq : setCPUSidePorts isSnooping = .ok ports
  linesize_pow : ∃ k, 2 ≤ k ∧ k < 32 ∧ linesize = 1#32 <<< k := by exact ⟨6, by decide, by decide, rfl⟩

namespace Config

variable (c : Config)

abbrev Port := Fin c.numPorts

def portToMask (p : c.Port) : SnoopMask :=
  if !c.isSnooping p then 0 else BitVec.ofNat snoopMaskSize 1 <<< (c.ports.localResponsePortIds p).getD 0

def maskToPortList (mask : SnoopMask) : List c.Port :=
  c.ports.cpuSidePorts.filter fun p => mask &&& c.portToMask p != 0

def lineSecure : Addr := 1

/-- The key of an address: its line, with the security state in bit 0. -/
def lineKey (a : Addr) (isSecure : Bool) : Addr :=
  let line := a &&& ~~~(c.linesize - 1).setWidth 64
  if isSecure then line ||| lineSecure else line

def lineAddr (pkt : SnoopPacket) : Addr :=
  let line := pkt.getBlockAddr c.linesize
  if pkt.isSecure then line ||| lineSecure else line

end Config

/-! ## The filter -/

structure SnoopItem where
  requested : SnoopMask := 0
  holder : SnoopMask := 0
deriving DecidableEq, Repr

def SnoopItem.isNull (item : SnoopItem) : Bool := item.requested ||| item.holder == 0

abbrev SnoopFilterCache := Finmap fun _ : Addr => SnoopItem

structure ReqLookupResult where
  it : Option Addr := none
  retryItem : SnoopItem := {}

end SnoopFilter

open SnoopFilter in
structure SnoopFilter where
  cachedLocations : SnoopFilterCache := ∅
  reqLookupResult : ReqLookupResult := {}

namespace SnoopFilter

def eraseIfNullEntry (m : SnoopFilterCache) (it : Addr) : SnoopFilterCache :=
  match m.lookup it with
  | some item => if item.isNull then m.erase it else m
  | none => m

variable (c : Config)

/-- Whether a request leaves a mark: it is cacheable and comes from a cache behind a snooping port. -/
def allocates (pkt : SnoopPacket) (port : c.Port) : Bool :=
  !pkt.isUncacheable && c.isSnooping port && pkt.fromCache

/-- What `lookupRequest` does to the entry of a request that allocates. -/
def recordRequest (item : SnoopItem) (pkt : SnoopPacket) (port : c.Port) : Except Failure SnoopItem :=
  let reqPort := c.portToMask port
  if pkt.needsResponse then
    if !pkt.cacheResponding then do
      panicIf (item.requested &&& reqPort != 0) "double request :( SF value %x.%x\n"
      return { item with requested := item.requested ||| reqPort }
    else do
      panicIf (item.holder &&& reqPort == 0) "Need to hold the value!"
      return item
  else do
    assertThat pkt.cmd.isEviction
    panicIf (item.holder &&& reqPort == 0) "requestor %x is not a holder :( SF value %x.%x\n"
    return if !pkt.isBlockCached then { item with holder := item.holder &&& ~~~reqPort } else item

def lookupRequest (f : SnoopFilter) (pkt : SnoopPacket) (port : c.Port) :
    Except Failure (SnoopFilter × List c.Port × Nat) :=
  let allocate := allocates c pkt port
  let lineAddr := c.lineAddr pkt
  let reqPort := c.portToMask port
  let found := f.cachedLocations.lookup lineAddr
  if !found.isSome && !allocate then
    .ok ({ f with reqLookupResult.it := none }, [], c.lookupLatency)
  else do
    let item := found.getD {}
    let cachedLocations := if found.isSome then f.cachedLocations else f.cachedLocations.insert lineAddr item
    let interested := item.holder ||| item.requested
    let snooped := c.maskToPortList (interested &&& ~~~reqPort)
    let reqLookupResult : ReqLookupResult := { it := some lineAddr, retryItem := item }
    if !allocate then return ({ cachedLocations, reqLookupResult }, snooped, c.lookupLatency)
    let item ← recordRequest c item pkt port
    return ({ cachedLocations := cachedLocations.insert lineAddr item, reqLookupResult }, snooped, c.lookupLatency)

def finishRequest (f : SnoopFilter) (willRetry : Bool) (addr : Addr) (isSecure : Bool) : Except Failure SnoopFilter :=
  match f.reqLookupResult.it with
  | none => .ok f
  | some it => do
    assertThat (it == c.lineKey addr isSecure)
    match f.cachedLocations.lookup it with
    | none => .error .nullPointer
    | some item =>
      let item := if willRetry then f.reqLookupResult.retryItem else item
      return { f with cachedLocations := eraseIfNullEntry (f.cachedLocations.insert it item) it }

def lookupSnoop (f : SnoopFilter) (pkt : SnoopPacket) : Except Failure (SnoopFilter × List c.Port × Nat) := do
  assertThat pkt.isRequest
  let lineAddr := c.lineAddr pkt
  match f.cachedLocations.lookup lineAddr with
  | none =>
    panicIf (decide (c.maxEntryCount ≤ f.cachedLocations.keys.card)) "snoop filter exceeded capacity of %d cache blocks\n"
    return (f, [], c.lookupLatency)
  | some item =>
    let interested := item.holder ||| item.requested
    let needsWritable ← pkt.needsWritable
    assertThat (pkt.cmd.isWriteback || pkt.isUncacheable || pkt.isInvalidate == needsWritable || pkt.isCacheMaintenance)
    let snooped := c.maskToPortList interested
    if pkt.isInvalidate && item.requested == 0 then
      let cachedLocations := f.cachedLocations.insert lineAddr { item with holder := 0 }
      return ({ f with cachedLocations := eraseIfNullEntry cachedLocations lineAddr }, snooped, c.lookupLatency)
    else return (f, snooped, c.lookupLatency)

def updateSnoopResponse (f : SnoopFilter) (pkt : SnoopPacket) (rspPort reqPort : c.Port) :
    Except Failure SnoopFilter := do
  assertThat pkt.isResponse
  assertThat pkt.cacheResponding
  if pkt.isUncacheable || !c.isSnooping reqPort then return f
  let lineAddr := c.lineAddr pkt
  let rspMask := c.portToMask rspPort
  let reqMask := c.portToMask reqPort
  let item := (f.cachedLocations.lookup lineAddr).getD {}
  panicIf (item.holder &&& rspMask == 0) "SF value %x.%x does not have the line\n"
  panicIf (item.requested &&& reqMask == 0) "SF value %x.%x missing the original request\n"
  let holder := if !pkt.hasSharers then 0 else item.holder
  assertThat (!pkt.cmd.isWriteback)
  let item : SnoopItem := { requested := item.requested &&& ~~~reqMask, holder := holder ||| reqMask }
  assertThat (!item.isNull)
  return { f with cachedLocations := f.cachedLocations.insert lineAddr item }

def updateSnoopForward (f : SnoopFilter) (pkt : SnoopPacket) : Except Failure SnoopFilter := do
  assertThat pkt.isResponse
  assertThat pkt.cacheResponding
  let lineAddr := c.lineAddr pkt
  match f.cachedLocations.lookup lineAddr with
  | none => return f
  | some item =>
    if !pkt.hasSharers then
      let cachedLocations := f.cachedLocations.insert lineAddr { item with holder := 0 }
      return { f with cachedLocations := eraseIfNullEntry cachedLocations lineAddr }
    else return f

def updateResponse (f : SnoopFilter) (pkt : SnoopPacket) (port : c.Port) : Except Failure SnoopFilter := do
  assertThat pkt.isResponse
  if pkt.isUncacheable || !c.isSnooping port then return f
  let lineAddr := c.lineAddr pkt
  match f.cachedLocations.lookup lineAddr with
  | none => return f
  | some item =>
    let responseMask := c.portToMask port
    panicIf (item.requested &&& responseMask == 0) "SF value %x.%x missing request bit\n"
    let requested := item.requested &&& ~~~responseMask
    if pkt.isCacheMaintenance then
      let holder := if pkt.isInvalidate then item.holder &&& ~~~responseMask else item.holder
      let cachedLocations := f.cachedLocations.insert lineAddr { requested, holder }
      return { f with cachedLocations := eraseIfNullEntry cachedLocations lineAddr }
    else
      let item : SnoopItem := { requested, holder := item.holder ||| responseMask }
      assertThat (!item.isNull)
      return { f with cachedLocations := f.cachedLocations.insert lineAddr item }

/-! ## Line keys -/

theorem lineAddr_eq_lineKey (pkt : SnoopPacket) : c.lineAddr pkt = c.lineKey pkt.addr pkt.isSecure := rfl

/-- **A secure and a non-secure access never share an entry.** -/
theorem lineKey_true_ne_false (a b : Addr) : c.lineKey a true ≠ c.lineKey b false := by
  obtain ⟨k, hk, hk32, hl⟩ := c.linesize_pow
  have hbit : (c.linesize - 1#32)[0] = true := by
    have hall : ∀ k : Fin 32, 2 ≤ k.val → (1#32 <<< k.val - 1#32).getLsbD 0 = true := by decide
    rw [← BitVec.getLsbD_eq_getElem, hl]
    exact hall ⟨k, hk32⟩ hk
  intro h
  have h0 := congrArg (fun x : Addr => x.getLsbD 0) h
  simp [Config.lineKey, Config.lineSecure, hbit] at h0

/-! ## Port masks -/

/-- The ports of a table under construction, in order, have the ids from 0 on. -/
structure Ports.Numbered {n : Nat} (isSnooping : Fin n → Bool) (t : Ports n) : Prop where
  snooping : ∀ p ∈ t.cpuSidePorts, isSnooping p = true
  ids : ∀ p ∈ t.cpuSidePorts, ∃ i, t.localResponsePortIds p = some i ∧ t.cpuSidePorts[i]? = some p
  id_eq : t.id = t.cpuSidePorts.length

variable {n : Nat}

theorem Ports.Numbered.add {isSnooping : Fin n → Bool} {t : Ports n} (h : t.Numbered isSnooping) {p : Fin n}
    (hp : p ∉ t.cpuSidePorts) : (t.add isSnooping p).Numbered isSnooping := by
  rw [Ports.add]
  split
  · rename_i hs
    refine ⟨fun q hq => ?_, fun q hq => ?_, by simp [h.id_eq]⟩
    · rcases List.mem_append.1 hq with hq | hq
      · exact h.snooping q hq
      · rw [List.mem_singleton.1 hq, hs]
    · rcases List.mem_append.1 hq with hq | hq
      · obtain ⟨i, hi, hget⟩ := h.ids q hq
        refine ⟨i, ?_, ?_⟩
        · have hne : q ≠ p := fun he => hp (he ▸ hq)
          simp [hne, hi]
        · have hlt : i < t.cpuSidePorts.length := (List.getElem?_eq_some_iff.1 hget).1
          rw [List.getElem?_append_left hlt, hget]
      · rw [List.mem_singleton.1 hq]
        exact ⟨t.id, by simp, by simp [h.id_eq]⟩
  · exact h

theorem Ports.Numbered.foldl (isSnooping : Fin n → Bool) :
    ∀ (l : List (Fin n)) (t : Ports n), t.Numbered isSnooping → l.Nodup → (∀ p ∈ l, p ∉ t.cpuSidePorts) →
      (l.foldl (Ports.add isSnooping) t).Numbered isSnooping ∧
        ∀ p, p ∈ (l.foldl (Ports.add isSnooping) t).cpuSidePorts ↔ p ∈ t.cpuSidePorts ∨ (p ∈ l ∧ isSnooping p = true)
  | [], t, h, _, _ => ⟨h, by simp⟩
  | p :: l, t, h, hnd, hfresh => by
    obtain ⟨hpl, hnd⟩ := List.nodup_cons.1 hnd
    have hmem : ∀ q, q ∈ (t.add isSnooping p).cpuSidePorts ↔ q ∈ t.cpuSidePorts ∨ (q = p ∧ isSnooping q = true) := by
      intro q
      rw [Ports.add]
      split
      · rename_i hs
        simp only [List.mem_append, List.mem_singleton]
        constructor
        · rintro (hq | rfl)
          · exact .inl hq
          · exact .inr ⟨rfl, hs⟩
        · rintro (hq | ⟨rfl, -⟩)
          · exact .inl hq
          · exact .inr rfl
      · rename_i hs
        constructor
        · exact .inl
        · rintro (hq | ⟨rfl, hq⟩)
          · exact hq
          · exact absurd hq hs
    have hstep := h.add (hfresh p List.mem_cons_self)
    obtain ⟨hn, hm⟩ := Ports.Numbered.foldl isSnooping l _ hstep hnd (by
      intro q hq hin
      rcases (hmem q).1 hin with hin | ⟨rfl, -⟩
      · exact hfresh q (List.mem_cons_of_mem _ hq) hin
      · exact hpl hq)
    refine ⟨hn, fun q => ?_⟩
    rw [List.foldl_cons, hm q, hmem q, List.mem_cons]
    tauto

namespace Config

theorem numbered : c.ports.Numbered c.isSnooping ∧ (∀ p, p ∈ c.ports.cpuSidePorts ↔ c.isSnooping p = true) ∧
    c.ports.cpuSidePorts.length ≤ snoopMaskSize := by
  have h := c.ports_eq
  rw [setCPUSidePorts] at h
  obtain ⟨hn, hm⟩ := Ports.Numbered.foldl c.isSnooping (List.finRange c.numPorts) {}
    ⟨by simp, by simp, rfl⟩ (List.nodup_finRange _) (by simp)
  simp only [panicIf] at h
  split at h
  · simp at h
  · rename_i hid
    have hp : (List.finRange c.numPorts).foldl (Ports.add c.isSnooping) {} = c.ports := by simpa using h
    rw [hp] at hn hm hid
    refine ⟨hn, fun p => by simp [hm p], ?_⟩
    rw [← hn.id_eq]
    simpa using hid

def localId (p : c.Port) : Nat := (c.ports.localResponsePortIds p).getD 0

variable {p q : c.Port} {m : SnoopMask}

theorem localId_lt (h : c.isSnooping p = true) : c.localId p < snoopMaskSize := by
  obtain ⟨hn, hm, hlen⟩ := c.numbered
  obtain ⟨i, hi, hget⟩ := hn.ids p ((hm p).2 h)
  have hlt := (List.getElem?_eq_some_iff.1 hget).1
  rw [localId, hi, Option.getD_some]
  omega

theorem localId_inj (hp : c.isSnooping p = true) (hq : c.isSnooping q = true) : c.localId p = c.localId q ↔ p = q := by
  obtain ⟨hn, hm, -⟩ := c.numbered
  obtain ⟨i, hi, hgi⟩ := hn.ids p ((hm p).2 hp)
  obtain ⟨j, hj, hgj⟩ := hn.ids q ((hm q).2 hq)
  rw [localId, localId, hi, hj, Option.getD_some, Option.getD_some]
  constructor
  · rintro rfl
    exact Option.some.inj (hgi.symm.trans hgj)
  · rintro rfl
    exact Option.some.inj (hi.symm.trans hj)

/-- **A port is in a mask**: the test `(mask & portToMask(p)).any()` of the source. -/
def has (mask : SnoopMask) (p : c.Port) : Bool := mask &&& c.portToMask p != 0

theorem has_eq (mask : SnoopMask) (p : c.Port) : c.has mask p = (c.isSnooping p && mask.getLsbD (c.localId p)) := by
  rw [has, portToMask]
  cases hs : c.isSnooping p with
  | false => simp
  | true =>
    have hlt := c.localId_lt hs
    simp only [Bool.not_true, Bool.false_eq_true, if_false, Bool.true_and]
    rw [Bool.eq_iff_iff, bne_iff_ne]
    change mask &&& BitVec.ofNat snoopMaskSize 1 <<< c.localId p ≠ 0 ↔ _
    rw [← BitVec.twoPow_eq, BitVec.and_twoPow]
    split
    · rename_i hb
      simp only [hb, iff_true]
      intro h
      have := congrArg (fun m : SnoopMask => m.getLsbD (c.localId p)) h
      simp [hlt] at this
    · rename_i hb
      simp [hb]

@[simp] theorem has_zero (p : c.Port) : c.has (BitVec.ofNat snoopMaskSize 0) p = false := by simp [has]

@[simp] theorem has_or (m m' : SnoopMask) (p : c.Port) : c.has (m ||| m') p = (c.has m p || c.has m' p) := by
  simp only [has_eq, BitVec.getLsbD_or, Bool.and_or_distrib_left]

theorem getLsbD_portToMask (hq : c.isSnooping q = true) :
    (c.portToMask p).getLsbD (c.localId q) = (c.isSnooping p && decide (p = q)) := by
  have hlt := c.localId_lt hq
  rw [portToMask]
  cases hs : c.isSnooping p with
  | false => simp
  | true =>
    simp only [Bool.not_true, Bool.false_eq_true, if_false, Bool.true_and]
    change (BitVec.ofNat snoopMaskSize 1 <<< c.localId p).getLsbD (c.localId q) = _
    rw [← BitVec.twoPow_eq, BitVec.getLsbD_twoPow]
    simp only [c.localId_inj hs hq, c.localId_lt hs, decide_true, Bool.true_and]

@[simp] theorem has_portToMask (p q : c.Port) : c.has (c.portToMask p) q = (c.isSnooping p && decide (p = q)) := by
  rw [has_eq]
  cases hs : c.isSnooping q with
  | false =>
    rw [Bool.false_and]
    by_cases hpq : p = q
    · simp [hpq, hs]
    · simp [hpq]
  | true => rw [c.getLsbD_portToMask hs, Bool.true_and]

@[simp] theorem has_clear (m : SnoopMask) (p q : c.Port) :
    c.has (m &&& ~~~c.portToMask p) q = (c.has m q && decide (p ≠ q)) := by
  rw [has_eq, has_eq]
  cases hs : c.isSnooping q with
  | false => simp
  | true =>
    have hlt := c.localId_lt hs
    have hbit := c.getLsbD_portToMask (p := p) hs
    by_cases hpq : p = q
    · subst hpq
      simp [hbit, hs]
    · rw [BitVec.getLsbD_and, BitVec.getLsbD_not, hbit]
      simp [hpq, hlt]

theorem has_isSnooping (h : c.has m p = true) : c.isSnooping p = true := by
  rw [has_eq, Bool.and_eq_true] at h
  exact h.1

theorem mem_maskToPortList : p ∈ c.maskToPortList m ↔ c.has m p = true := by
  rw [maskToPortList, List.mem_filter, c.numbered.2.1 p]
  constructor
  · exact fun h => h.2
  · exact fun h => ⟨c.has_isSnooping h, h⟩

@[simp] theorem maskToPortList_zero : c.maskToPortList (BitVec.ofNat snoopMaskSize 0) = [] := by
  rw [List.eq_nil_iff_forall_not_mem]
  intro p hp
  rw [mem_maskToPortList, has_zero] at hp
  cases hp

end Config
end SnoopFilter
end Gem5
