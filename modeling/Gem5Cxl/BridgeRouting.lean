import Gem5Cxl.BridgeConfig
import Mathlib.Data.Fintype.Pi
/-!
# BridgeRouting — advertised ranges and request routing (`dev/PciBridge2.cc`)

`fill_ranges` tells the peers which addresses a bridge takes, and `getRequestPort` decides where an address goes.  Both
read the same registers, `fill_ranges` under the windows' flags and `getRequestPort` without them.  Where the two agree
is `routing_agrees_iff`.
-/
namespace Gem5

/-- Response ports, request ports and config classes, numbered as `respID`: 0 is the upstream side (`responsePort`,
`requestPort_DMA`, `storage_ptr4`), 1 to 3 are the root ports. -/
abbrev PortId := Fin 4

def addrMax : Addr := 0xFFFFFFFFFFFFFFFF

structure BridgeParams where
  rcId : Fin 2 := 0
  isSwitch : Int := 0
  pciBus : Int := 0
  header : BridgeHeader := {}
  pxcap : Nat → Byte := fun _ => 0
  pxcapBaseOffset : Nat := 0xD0
  bar0Size : BitVec 32 := 0
  bar1Size : BitVec 32 := 0
  reqSize : Nat := 16
  respSize : Nat := 16
  delay : Nat := 0

structure PciBridge2 where
  params : BridgeParams
  storage : PortId → ConfigClass

namespace ConfigClass

def decodes (c : ConfigClass) (a : Addr) (k : Window) : Bool :=
  decide (c.base k ≤ a) && decide (a ≤ c.limit k) && decide (c.base k ≠ 0) && decide (c.limit k ≠ 0)

def claims (c : ConfigClass) (a : Addr) : Bool := c.decodes a .memory || c.decodes a .prefetchable || c.decodes a .io

def barRanges (c : ConfigClass) : List AddrRange :=
  (if c.barsize0 ≠ 0 ∧ c.getBar0 ≠ 0 then [rangeSize c.getBar0 (c.barsize0.setWidth 64)] else []) ++
    if c.barsize1 ≠ 0 ∧ c.getBar1 ≠ 0 then [rangeSize c.getBar1 (c.barsize1.setWidth 64)] else []

def windowRange (c : ConfigClass) (k : Window) : List AddrRange :=
  if c.validBase k ∧ c.validLimit k ∧ c.base k < c.limit k ∧ c.base k ≠ 0 then [rangeIn (c.base k) (c.limit k)] else []

def windowRanges (c : ConfigClass) : List AddrRange :=
  c.windowRange .memory ++ c.windowRange .prefetchable ++ c.windowRange .io

def fillRanges (c : ConfigClass) (ranges : List AddrRange) : List AddrRange := ranges ++ c.barRanges ++ c.windowRanges

end ConfigClass

namespace PciBridge2

/-- The constructor of `PciBridge2`, with `initialize_ports`. -/
def create (p : BridgeParams) : PciBridge2 where
  params := p
  storage i :=
    { storage1 := p.header
      storage2 := p.pxcap
      barsize0 := p.bar0Size
      barsize1 := p.bar1Size
      pciBus := if p.isSwitch ≠ 0 ∧ i ≠ 0 then p.pciBus + 1 else p.pciBus
      pxcapBaseOffset := p.pxcapBaseOffset }

/-- The first root port in order that passes a test, and the upstream side if none does. -/
def select (p : PortId → Bool) : PortId := if p 1 then 1 else if p 2 then 2 else if p 3 then 3 else 0

def getRequestPort (b : PciBridge2) (a : Addr) : PortId := select (fun i => (b.storage i).claims a)

def getResponsePort (b : PciBridge2) (busNum : Int) : PortId :=
  select (fun i => decide (((b.storage i).storage1.secondaryBusNumber.toNat : Int) ≤ busNum) &&
    decide (busNum ≤ ((b.storage i).storage1.subordinateBusNumber.toNat : Int)) && (b.storage i).isValid)

def requesterBus (b : PciBridge2) (p : PortId) : Int :=
  if p = 0 then (b.storage 0).pciBus else ((b.storage p).storage1.secondaryBusNumber.toNat : Int)

/-- A request that carries no bus number for this root complex gets the port's. -/
def stamp (b : PciBridge2) (p : PortId) (pkt : Packet) : Packet :=
  if pkt.reqBus b.params.rcId = -1 then
    { pkt with reqBus := Function.update pkt.reqBus b.params.rcId (b.requesterBus p) }
  else pkt

def responsePortOf (b : PciBridge2) (pkt : Packet) : PortId := b.getResponsePort (pkt.reqBus b.params.rcId)

/-- The loop over the downstream ranges: the gaps before them, and where the last one ended. -/
def gaps : Addr → List AddrRange → List AddrRange × Addr
  | last, [] => ([], last)
  | last, r :: rs =>
    let rest := gaps (r.end_ + 1) rs
    (if last < r.start then rangeIn last (r.start - 1) :: rest.1 else rest.1, rest.2)

/-- What a DMA port takes: all but the downstream ranges. -/
def outsideRanges (ranges : List AddrRange) : List AddrRange :=
  let (l, last) := gaps 0 ranges
  if last = 0 then l else l ++ [rangeIn last addrMax]

def getAddrRanges (b : PciBridge2) (respID : PortId) : List AddrRange :=
  let ranges :=
    if respID = 0 then
      if b.params.isSwitch = 0 then
        (b.storage 3).fillRanges ((b.storage 2).fillRanges ((b.storage 1).fillRanges []))
      else if b.params.isSwitch = 1 then (b.storage 0).fillRanges [] else []
    else (b.storage respID).fillRanges []
  if respID = 0 then AddrRange.sort ranges else outsideRanges (AddrRange.sort ranges)

structure ConfigWrite where
  port : PortId
  addr : Addr
  size : Nat
  val : BitVec 32

def ConfigWrite.offset (w : ConfigWrite) : Nat := (w.addr &&& 0xFFF).toNat

def writeConfig (b : PciBridge2) (w : ConfigWrite) : Except Failure PciBridge2 :=
  ((b.storage w.port).writeConfig w.addr w.size w.val).map
    (fun r => { b with storage := fun i => if i = w.port then r.1 else b.storage i })

def configure : PciBridge2 → List ConfigWrite → Except Failure PciBridge2
  | b, [] => .ok b
  | b, w :: ws => b.writeConfig w >>= fun b' => b'.configure ws

/-! ## What the writes of a run say about the flags -/

def Programmed (ws : List ConfigWrite) (i : PortId) (k : Window) : Prop :=
  (∃ w ∈ ws, w.port = i ∧ (w.size, w.offset) ∈ ConfigClass.baseWrites k) ∧
    ∃ w ∈ ws, w.port = i ∧ (w.size, w.offset) ∈ ConfigClass.limitWrites k

variable {b b' : PciBridge2} {w : ConfigWrite}

theorem writeConfig_flags (h : b.writeConfig w = .ok b') (i : PortId) (k : Window) :
    ((b'.storage i).validBase k = true ↔
      (b.storage i).validBase k = true ∨ w.port = i ∧ (w.size, w.offset) ∈ ConfigClass.baseWrites k) ∧
    ((b'.storage i).validLimit k = true ↔
      (b.storage i).validLimit k = true ∨ w.port = i ∧ (w.size, w.offset) ∈ ConfigClass.limitWrites k) := by
  obtain ⟨r, hw, rfl⟩ := Run.map_eq_ok.1 h
  by_cases hi : i = w.port
  · subst hi
    obtain ⟨hb, hl⟩ := ConfigClass.writeConfig_flags hw k
    simp only [if_pos, hb, hl, Bool.or_eq_true, decide_eq_true_eq, true_and, ConfigWrite.offset, and_self]
  · simp only [if_neg hi, Ne.symm hi, false_and, or_false, and_self]

theorem writeConfig_params (h : b.writeConfig w = .ok b') : b'.params = b.params := by
  obtain ⟨r, -, rfl⟩ := Run.map_eq_ok.1 h
  rfl

theorem configure_params : ∀ (ws : List ConfigWrite) {b b' : PciBridge2}, b.configure ws = .ok b' →
    b'.params = b.params
  | [], _, _, h => by
    injection h with h
    rw [h]
  | w :: ws, b, b', h => by
    obtain ⟨b₁, h₁, h₂⟩ := Run.bind_eq_ok.1 h
    rw [configure_params ws h₂, writeConfig_params h₁]

/-- **The flags record the writes of the run**: the base's, and the limit's. -/
theorem configure_flags (i : PortId) (k : Window) : ∀ (ws : List ConfigWrite) {b b' : PciBridge2},
    b.configure ws = .ok b' →
    ((b'.storage i).validBase k = true ↔ (b.storage i).validBase k = true ∨
      ∃ w ∈ ws, w.port = i ∧ (w.size, w.offset) ∈ ConfigClass.baseWrites k) ∧
    ((b'.storage i).validLimit k = true ↔ (b.storage i).validLimit k = true ∨
      ∃ w ∈ ws, w.port = i ∧ (w.size, w.offset) ∈ ConfigClass.limitWrites k)
  | [], b, b', h => by
    injection h with h
    subst h
    simp
  | w :: ws, b, b', h => by
    obtain ⟨b₁, h₁, h₂⟩ := Run.bind_eq_ok.1 h
    obtain ⟨hb₁, hl₁⟩ := writeConfig_flags h₁ i k
    obtain ⟨hb₂, hl₂⟩ := configure_flags i k ws h₂
    rw [hb₂, hl₂, hb₁, hl₁]
    simp only [List.mem_cons, exists_eq_or_imp, or_assoc, and_self]

theorem programmed_iff {p : BridgeParams} {ws : List ConfigWrite} (h : (create p).configure ws = .ok b) (i : PortId)
    (k : Window) : Programmed ws i k ↔ (b.storage i).validBase k = true ∧ (b.storage i).validLimit k = true := by
  obtain ⟨hb, hl⟩ := configure_flags i k ws h
  have hb₀ : ((create p).storage i).validBase k = false := by cases k <;> rfl
  have hl₀ : ((create p).storage i).validLimit k = false := by cases k <;> rfl
  rw [hb, hl, hb₀, hl₀]
  simp only [Bool.false_eq_true, false_or]
  exact Iff.rfl

end PciBridge2

/-! ## Advertised and decoded addresses -/
namespace ConfigClass

def Advertises (c : ConfigClass) (a : Addr) : Prop := ∃ r ∈ c.windowRanges, r.contains a = true

theorem decodes_iff (c : ConfigClass) (a : Addr) (k : Window) :
    c.decodes a k = true ↔ c.base k ≠ 0 ∧ c.base k ≤ a ∧ a ≤ c.limit k := by
  have hl := c.limit_ne_zero k
  simp only [decodes, Bool.and_eq_true, decide_eq_true_eq]
  constructor
  · rintro ⟨⟨⟨hb, ha⟩, hz⟩, -⟩
    exact ⟨hz, hb, ha⟩
  · rintro ⟨hz, hb, ha⟩
    exact ⟨⟨⟨hb, ha⟩, hz⟩, hl⟩

theorem claims_iff (c : ConfigClass) (a : Addr) : c.claims a = true ↔ ∃ k, c.decodes a k = true := by
  rw [claims, Bool.or_eq_true, Bool.or_eq_true]
  constructor
  · rintro ((h | h) | h)
    · exact ⟨.memory, h⟩
    · exact ⟨.prefetchable, h⟩
    · exact ⟨.io, h⟩
  · rintro ⟨k, h⟩
    cases k <;> simp [h]

/-- The end of a range that ends at the last address wraps to zero, and the range is empty. -/
theorem rangeIn_contains_iff (l r a : Addr) : (rangeIn l r).contains a = true ↔ l ≤ a ∧ a ≤ r ∧ r ≠ addrMax := by
  rw [rangeIn_contains, Bool.and_eq_true, decide_eq_true_eq, decide_eq_true_eq]
  apply and_congr_right
  intro _
  have hr := r.isLt
  have ha := a.isLt
  have hmax : addrMax.toNat = 2 ^ 64 - 1 := rfl
  have hone : (1 : Addr).toNat = 1 := rfl
  rw [BitVec.lt_def, BitVec.le_def, BitVec.toNat_add, Ne, ← BitVec.toNat_inj, hmax, hone]
  omega

/-- **What one window advertises**: what it decodes, once both registers were written, unless it ends at the last
address, where the end of its range wraps to zero. -/
theorem mem_windowRange_iff (c : ConfigClass) (a : Addr) (k : Window) :
    (∃ r ∈ c.windowRange k, r.contains a = true) ↔
      (c.validBase k = true ∧ c.validLimit k = true) ∧ c.limit k ≠ addrMax ∧ c.decodes a k = true := by
  rw [decodes_iff]
  unfold windowRange
  have hne := c.base_ne_limit k
  by_cases hw : c.validBase k ∧ c.validLimit k ∧ c.base k < c.limit k ∧ c.base k ≠ 0
  · rw [if_pos hw]
    simp only [List.mem_singleton, exists_eq_left, rangeIn_contains_iff]
    constructor
    · rintro ⟨hb, ha, hm⟩
      exact ⟨⟨hw.1, hw.2.1⟩, hm, hw.2.2.2, hb, ha⟩
    · rintro ⟨-, hm, -, hb, ha⟩
      exact ⟨hb, ha, hm⟩
  · rw [if_neg hw]
    simp only [List.not_mem_nil, false_and, exists_false, false_iff]
    rintro ⟨⟨hb, hl⟩, -, hz, hle, hge⟩
    apply hw
    refine ⟨hb, hl, ?_, hz⟩
    rw [Ne, ← BitVec.toNat_inj] at hne
    rw [BitVec.le_def] at hle hge
    rw [BitVec.lt_def]
    omega

theorem advertises_iff (c : ConfigClass) (a : Addr) :
    c.Advertises a ↔ ∃ k, (c.validBase k = true ∧ c.validLimit k = true) ∧ c.limit k ≠ addrMax ∧
      c.decodes a k = true := by
  simp only [← mem_windowRange_iff]
  unfold Advertises windowRanges
  constructor
  · rintro ⟨r, hr, ha⟩
    simp only [List.mem_append] at hr
    rcases hr with (hr | hr) | hr
    · exact ⟨.memory, r, hr, ha⟩
    · exact ⟨.prefetchable, r, hr, ha⟩
    · exact ⟨.io, r, hr, ha⟩
  · rintro ⟨k, r, hr, ha⟩
    refine ⟨r, ?_, ha⟩
    cases k <;> simp [hr]

theorem Advertises.claims {c : ConfigClass} {a : Addr} (h : c.Advertises a) : c.claims a = true := by
  obtain ⟨k, -, -, hk⟩ := (c.advertises_iff a).1 h
  exact (c.claims_iff a).2 ⟨k, hk⟩

end ConfigClass

namespace PciBridge2

theorem select_eq_zero : ∀ {p : PortId → Bool}, select p = 0 ↔ ∀ i, i ≠ 0 → p i = false := by decide

theorem select_eq : ∀ {p : PortId → Bool} {i : PortId}, i ≠ 0 →
    (select p = i ↔ p i = true ∧ ∀ j, j ≠ 0 → j < i → p j = false) := by decide

/-! ## Where routing and advertising agree -/

/-- **Advertising and routing agree**: an address of the ranges the upstream port advertises goes to a root port one of
whose windows advertised it, and an address no window advertises goes upstream. -/
def RoutesAsAdvertised (b : PciBridge2) : Prop :=
  (∀ a, (∃ r ∈ b.getAddrRanges 0, r.contains a = true) →
    ∃ i, i ≠ 0 ∧ (b.storage i).Advertises a ∧ b.getRequestPort a = i) ∧
  ∀ a, (∀ i, i ≠ 0 → ¬ (b.storage i).Advertises a) → b.getRequestPort a = 0

/-- An address that decodes at a root port, and at none before it, decodes there in a window both registers of which
the run wrote. -/
def DecodesProgrammed (b : PciBridge2) (ws : List ConfigWrite) : Prop :=
  ∀ a i, i ≠ 0 → (b.storage i).claims a = true → (∀ j, j ≠ 0 → j < i → (b.storage j).claims a = false) →
    ∃ k, Programmed ws i k ∧ (b.storage i).limit k ≠ addrMax ∧ (b.storage i).decodes a k = true

def BarsDecode (b : PciBridge2) : Prop :=
  ∀ a i, i ≠ 0 → (∃ r ∈ (b.storage i).barRanges, r.contains a = true) → ∃ j, j ≠ 0 ∧ (b.storage j).claims a = true

variable {b : PciBridge2} {a : Addr} {ws : List ConfigWrite}

theorem mem_getAddrRanges (hs : b.params.isSwitch = 0) (r : AddrRange) :
    r ∈ b.getAddrRanges 0 ↔ ∃ i, i ≠ 0 ∧ (r ∈ (b.storage i).barRanges ∨ r ∈ (b.storage i).windowRanges) := by
  unfold getAddrRanges
  simp only [if_pos, hs, AddrRange.mem_sort, ConfigClass.fillRanges, List.mem_append, List.nil_append]
  constructor
  · rintro (((((h | h) | h) | h) | h) | h)
    · exact ⟨1, by decide, .inl h⟩
    · exact ⟨1, by decide, .inr h⟩
    · exact ⟨2, by decide, .inl h⟩
    · exact ⟨2, by decide, .inr h⟩
    · exact ⟨3, by decide, .inl h⟩
    · exact ⟨3, by decide, .inr h⟩
  · rintro ⟨i, hi, h⟩
    match i, hi with
    | 1, _ => rcases h with h | h <;> simp [h]
    | 2, _ => rcases h with h | h <;> simp [h]
    | 3, _ => rcases h with h | h <;> simp [h]

theorem getRequestPort_eq_zero : b.getRequestPort a = 0 ↔ ∀ i, i ≠ 0 → (b.storage i).claims a = false := select_eq_zero

theorem getRequestPort_eq {i : PortId} (hi : i ≠ 0) :
    b.getRequestPort a = i ↔ (b.storage i).claims a = true ∧ ∀ j, j ≠ 0 → j < i → (b.storage j).claims a = false :=
  select_eq hi

theorem advertises_iff_programmed {p : BridgeParams} (h : (create p).configure ws = .ok b) (i : PortId) (a : Addr) :
    (b.storage i).Advertises a ↔
      ∃ k, Programmed ws i k ∧ (b.storage i).limit k ≠ addrMax ∧ (b.storage i).decodes a k = true := by
  simp only [ConfigClass.advertises_iff, programmed_iff h]

/-- **Advertising and routing agree exactly when no address decodes first in a window the run left unwritten**, and no
BAR lies outside the windows: over every sequence of config writes to a root complex. -/
theorem routing_agrees_iff (p : BridgeParams) (hs : p.isSwitch = 0) (ws : List ConfigWrite) (b : PciBridge2)
    (h : (create p).configure ws = .ok b) : b.RoutesAsAdvertised ↔ b.DecodesProgrammed ws ∧ b.BarsDecode := by
  have hsw : b.params.isSwitch = 0 := by rw [configure_params ws h]; exact hs
  constructor
  · rintro ⟨hin, hout⟩
    constructor
    · intro a i hi hc hfirst
      have hroute : b.getRequestPort a = i := (getRequestPort_eq hi).2 ⟨hc, hfirst⟩
      rw [← advertises_iff_programmed h]
      by_contra hna
      -- an address no window advertises would go upstream, and one that another port advertises would go there
      by_cases hsome : ∃ j, j ≠ 0 ∧ (b.storage j).Advertises a
      · obtain ⟨j, hj, r, hr, hra⟩ := hsome
        obtain ⟨i', -, hadv, hroute'⟩ := hin a ⟨r, (mem_getAddrRanges hsw r).2 ⟨j, hj, .inr hr⟩, hra⟩
        rw [hroute] at hroute'
        rw [← hroute'] at hadv
        exact hna hadv
      · have hup := hout a (fun j hj hadv => hsome ⟨j, hj, hadv⟩)
        rw [hroute] at hup
        exact hi hup
    · rintro a i hi ⟨r, hr, hra⟩
      obtain ⟨j, hj, hadv, -⟩ := hin a ⟨r, (mem_getAddrRanges hsw r).2 ⟨i, hi, .inl hr⟩, hra⟩
      exact ⟨j, hj, hadv.claims⟩
  · rintro ⟨hdec, hbar⟩
    have hrouted : ∀ a, b.getRequestPort a ≠ 0 → (b.storage (b.getRequestPort a)).Advertises a := by
      intro a hi
      obtain ⟨hc, hfirst⟩ := (getRequestPort_eq hi).1 rfl
      exact (advertises_iff_programmed h _ a).2 (hdec a _ hi hc hfirst)
    constructor
    · rintro a ⟨r, hr, hra⟩
      have hclaim : ∃ j, j ≠ 0 ∧ (b.storage j).claims a = true := by
        obtain ⟨i, hi, hr | hr⟩ := (mem_getAddrRanges hsw r).1 hr
        · exact hbar a i hi ⟨r, hr, hra⟩
        · exact ⟨i, hi, ConfigClass.Advertises.claims ⟨r, hr, hra⟩⟩
      have hi : b.getRequestPort a ≠ 0 := by
        intro hz
        obtain ⟨j, hj, hc⟩ := hclaim
        rw [getRequestPort_eq_zero.1 hz j hj] at hc
        cases hc
      exact ⟨_, hi, hrouted a hi, rfl⟩
    · intro a hnone
      by_contra hi
      exact hnone _ hi (hrouted a hi)

theorem decodesProgrammed_of_windows
    (h : ∀ i k, i ≠ 0 → (b.storage i).base k ≠ 0 → Programmed ws i k ∧ (b.storage i).limit k ≠ addrMax) :
    b.DecodesProgrammed ws := by
  intro a i hi hc _
  obtain ⟨k, hk⟩ := ((b.storage i).claims_iff a).1 hc
  obtain ⟨hp, hl⟩ := h i k hi (((b.storage i).decodes_iff a k).1 hk).1
  exact ⟨k, hp, hl, hk⟩

theorem barsDecode_of_none (h : ∀ i, (b.storage i).barRanges = []) : b.BarsDecode := by
  rintro a i - ⟨r, hr, -⟩
  rw [h i] at hr
  cases hr

instance (ws : List ConfigWrite) (i : PortId) (k : Window) : Decidable (Programmed ws i k) :=
  inferInstanceAs (Decidable (_ ∧ _))

def sampleWrites : List ConfigWrite :=
  [{ port := 1, addr := 0x1C, size := 2, val := 0x1010 }, { port := 2, addr := 0x1C, size := 2, val := 0x2020 },
    { port := 3, addr := 0x1C, size := 2, val := 0x3030 }]

theorem routing_agrees_sample : ∃ b, (create {}).configure sampleWrites = .ok b ∧ b.RoutesAsAdvertised := by
  refine ⟨_, rfl, (routing_agrees_iff {} rfl sampleWrites _ rfl).2
    ⟨decodesProgrammed_of_windows ?_, barsDecode_of_none (by decide)⟩⟩
  intro i k
  revert i
  cases k <;> decide

/-- At power-on nothing is advertised, and `0x2F000000`, the reset value of the I/O base, goes to root port 1. -/
theorem powerOn_routes_unadvertised :
    (create {}).getAddrRanges 0 = [] ∧ (create {}).getRequestPort 0x2F000000 = 1 ∧ ¬ (create {}).RoutesAsAdvertised := by
  have hroute : (create {}).getRequestPort 0x2F000000 = 1 := by decide
  refine ⟨by decide, hroute, ?_⟩
  rintro ⟨-, hout⟩
  have hup := hout 0x2F000000 (by
    rintro i - ⟨r, hr, -⟩
    cases hr)
  rw [hroute] at hup
  cases hup

end PciBridge2
end Gem5
