import Gem5Cxl.PciDevice
import Gem5Cxl.Bits
import Mathlib.Data.List.FinRange
/-!
# PciBars — the BARs of a device and the 64-bit pair (`dev/pci/device.hh`, `dev/pci/device.cc`)

A device has six BARs of any kind.  The upper half of a 64-bit memory BAR keeps a pointer to the `PciMemBar` right before
it, and a write to either half moves that BAR.  Config space stores what each write answers, and `unserialize` writes the
stored values again, in order.  The claim about a pair, over every run of writes, is `pair_decodes`.
-/
namespace Gem5

open Function (update update_of_ne update_self)
open BitVec (eq_of_getLsbD_eq getLsbD_and getLsbD_append getLsbD_not getLsbD_setWidth)

/-- `class PciBar` and the kinds of BAR that derive from it. -/
inductive PciBar where
  | none
  | io (addr size : Addr)
  | legacyIo (addr size fixedAddr : Addr)
  | mem (bar : PciMemBar)
  | memUpper

/-- The `DeviceInterface` of a `GenericPciHost`: where PCI port and memory space are mapped. -/
structure PciHostMap where
  pciPioBase : Addr
  pciMemBase : Addr

def PciHostMap.pioAddr (h : PciHostMap) (pciAddr : Addr) : Addr := h.pciPioBase + pciAddr

namespace PciBars

abbrev Bars := Fin 6 → PciBar

def below (bars : Bars) (j : Fin 6) : Option (Fin 6 × PciMemBar) :=
  if h : 0 < j.val then
    match bars ⟨j.val - 1, by omega⟩ with
    | .mem b => some (⟨j.val - 1, by omega⟩, b)
    | _ => none
  else none

/-- `BARs[num]->write`: the BARs, and what goes into config space. -/
def writeBar (h : PciHostMap) (bars : Bars) (num : Fin 6) (val : BitVec 32) : Except Failure (Bars × BitVec 32) :=
  match bars num with
  | .none => .ok (bars, 0)
  | .io _ size =>
    let bar : BitVec 32 := (val.setWidth 64 &&& ~~~(size - 1)).setWidth 32
    let barAddr : BitVec 32 := bar >>> 2
    .ok (Function.update bars num (.io (h.pioAddr ((barAddr <<< 2).setWidth 64)) size), barAddr <<< 2 ||| 1)
  | .legacyIo _ size fixedAddr =>
    .ok (Function.update bars num (.legacyIo (h.pioAddr fixedAddr) size fixedAddr), 0)
  | .mem b =>
    let (b', v) := b.write h.pciMemBase val
    .ok (Function.update bars num (.mem b'), v)
  | .memUpper =>
    match below bars num with
    | some (i, b) =>
      let (b', v) := b.writeUpper h.pciMemBase val
      .ok (Function.update bars i (.mem b'), v)
    | none => .error .assertFailed

/-- The step of the constructor's loop that connects an upper half to the BAR before it. -/
def connectBar (bars : Bars) (j : Fin 6) : Except Failure Bars :=
  match bars j with
  | .memUpper =>
    if j.val = 0 then .error (.panic "First BAR in 0 is upper 32 bits of a memory BAR.")
    else
      match below bars j with
      | some (i, b) => .ok (Function.update bars i (.mem { b with wide := true }))
      | none => .error (.panic "Upper 32 bits of memory BAR in %s doesn't come after the lower 32.")
  | _ => .ok bars

end PciBars

structure PciBars where
  host : PciHostMap
  bars : PciBars.Bars
  baseAddr : Fin 6 → BitVec 32 := fun _ => 0

namespace PciBars

def setBar (d : PciBars) (num : Fin 6) (val : BitVec 32) : Except Failure PciBars :=
  (writeBar d.host d.bars num val).map fun r => { d with bars := r.1, baseAddr := Function.update d.baseAddr num r.2 }

def setBars (d : PciBars) (ws : List (Fin 6 × BitVec 32)) : Except Failure PciBars :=
  ws.foldlM (fun d w => d.setBar w.1 w.2) d

/-- The constructor of `PciDevice`: the upper halves are connected, and zero is written to every BAR. -/
def create (host : PciHostMap) (bars : Bars) : Except Failure PciBars := do
  let bars ← (List.finRange 6).foldlM connectBar bars
  setBars { host := host, bars := bars } ((List.finRange 6).map fun i => (i, 0))

/-- `PciDevice::unserialize`: the stored values are written again, and what the BARs answer is dropped. -/
def unserialize (d : PciBars) (baseAddr : Fin 6 → BitVec 32) : Except Failure PciBars := do
  let bars ← (List.finRange 6).foldlM (fun bars i => (writeBar d.host bars i (baseAddr i)).map Prod.fst) d.bars
  .ok { d with bars := bars, baseAddr := baseAddr }

/-- The last value written to a BAR; the constructor wrote 0. -/
def lastWritten (i : Fin 6) (ws : List (Fin 6 × BitVec 32)) : BitVec 32 :=
  ws.foldl (fun v w => if w.1 = i then w.2 else v) 0

/-! ## The two halves -/

def lowHalf (size : Addr) (val : BitVec 32) : BitVec 32 := (val.setWidth 64 &&& ~~~(size - 1)).setWidth 32

def highHalf (size : Addr) (val : BitVec 32) : BitVec 32 := (val.setWidth 64 &&& ~~~((size - 1) >>> 32)).setWidth 32

theorem getLsbD_lowHalf (size : Addr) (val : BitVec 32) {i : Nat} (hi : i < 32) :
    (lowHalf size val).getLsbD i = (val.getLsbD i && !(size - 1).getLsbD i) := by
  have hi' : i < 64 := by omega
  simp only [lowHalf, getLsbD_setWidth, getLsbD_and, getLsbD_not, hi, hi', decide_true, Bool.true_and]

theorem getLsbD_highHalf (size : Addr) (val : BitVec 32) {i : Nat} (hi : i < 32) :
    (highHalf size val).getLsbD i = (val.getLsbD i && !(size - 1).getLsbD (32 + i)) := by
  have hi' : i < 64 := by omega
  simp only [highHalf, getLsbD_setWidth, getLsbD_and, getLsbD_not, BitVec.getLsbD_ushiftRight, hi, hi',
    decide_true, Bool.true_and]

theorem highHalf_append_lowHalf (size : Addr) (hi lo : BitVec 32) :
    highHalf size hi ++ lowHalf size lo = (hi ++ lo) &&& ~~~(size - 1) := by
  refine eq_of_getLsbD_eq fun i hlt => ?_
  rw [getLsbD_append, getLsbD_and, getLsbD_append, getLsbD_not, decide_eq_true hlt,
    Bool.true_and]
  by_cases h : i < 32
  · simp only [h, if_true]
    exact getLsbD_lowHalf size lo h
  · simp only [h, if_false]
    rw [getLsbD_highHalf size hi (by omega), Nat.add_sub_cancel' (by omega)]

theorem shift_add_eq_append (hi lo : BitVec 32) : (hi.setWidth 64 <<< 32) + lo.setWidth 64 = hi ++ lo := by
  have hhi := hi.isLt
  have hlo := lo.isLt
  apply BitVec.eq_of_toNat_eq
  rw [BitVec.toNat_append, BitVec.toNat_add, BitVec.toNat_shiftLeft, BitVec.toNat_setWidth, BitVec.toNat_setWidth,
    Nat.shiftLeft_eq, ← Nat.shiftLeft_add_eq_or_of_lt hlo, Nat.shiftLeft_eq]
  omega

theorem getLsbD_or_four (v : BitVec 32) {i : Nat} (hi : i < 32) (h4 : 4 ≤ i) : (v ||| 4).getLsbD i = v.getLsbD i := by
  have hfour : ∀ j : Fin 32, 4 ≤ j.val → (4 : BitVec 32).getLsbD j = false := by decide
  rw [BitVec.getLsbD_or, hfour ⟨i, hi⟩ h4, Bool.or_false]

section Sizes

variable {size : Addr} {k : Nat} (hk : 4 ≤ k) (hsize : size.toNat = 2 ^ k)

include hsize in
theorem toNat_and_not_size (v : Addr) : (v &&& ~~~(size - 1)).toNat = v.toNat / 2 ^ k * 2 ^ k := by
  rw [← Bits.toNat_and_not_lowMask, ← Bits.sub_one_eq_lowMask hsize]
  rfl

include hk hsize

variable {i : Nat}

theorem size_sub_one_low (hi : i < 4) : (size - 1).getLsbD i = true := by
  have hbit := Bits.getLsbD_sub_one hsize (show i < 64 by omega)
  exact hbit.trans (decide_eq_true (by omega))

theorem lowHalf_low (val : BitVec 32) (hi : i < 4) : (lowHalf size val).getLsbD i = false := by
  rw [getLsbD_lowHalf size val (by omega), size_sub_one_low hk hsize hi, Bool.not_true, Bool.and_false]

theorem lowHalf_shift (val : BitVec 32) : lowHalf size val >>> 3 <<< 3 = lowHalf size val := by
  refine eq_of_getLsbD_eq fun i hi => ?_
  rw [BitVec.getLsbD_shiftLeft, BitVec.getLsbD_ushiftRight]
  by_cases h : i < 3
  · rw [lowHalf_low hk hsize val (show i < 4 by omega)]
    simp [h]
  · simp [h, hi, Nat.add_sub_cancel' (Nat.le_of_not_lt h)]

theorem lowHalf_stored (val : BitVec 32) : lowHalf size (lowHalf size val ||| 4) = lowHalf size val := by
  refine eq_of_getLsbD_eq fun i hi => ?_
  by_cases h4 : i < 4
  · rw [lowHalf_low hk hsize _ h4, lowHalf_low hk hsize _ h4]
  · rw [getLsbD_lowHalf size _ hi, getLsbD_or_four _ hi (by omega), getLsbD_lowHalf size val hi,
      Bool.and_assoc, Bool.and_self]

theorem stored_base (val : BitVec 32) : (lowHalf size val ||| 4) &&& ~~~0xF = lowHalf size val := by
  have hmask : ∀ j : Fin 32, (~~~0xF : BitVec 32).getLsbD j = decide (4 ≤ j.val) := by decide
  refine eq_of_getLsbD_eq fun i hi => ?_
  rw [getLsbD_and, show (~~~0xF : BitVec 32).getLsbD i = decide (4 ≤ i) from hmask ⟨i, hi⟩]
  by_cases h4 : i < 4
  · rw [lowHalf_low hk hsize _ h4, decide_eq_false (by omega), Bool.and_false]
  · rw [getLsbD_or_four _ hi (by omega), decide_eq_true (by omega), Bool.and_true]

end Sizes

theorem highHalf_stored (size : Addr) (val : BitVec 32) : highHalf size (highHalf size val) = highHalf size val := by
  refine eq_of_getLsbD_eq fun i hi => ?_
  rw [getLsbD_highHalf size _ hi, getLsbD_highHalf size val hi, Bool.and_assoc, Bool.and_self]

/-! ## Connected halves -/

def Connected (bars : Bars) : Prop := ∀ j, bars j = .memUpper → ∃ i b, i.val + 1 = j.val ∧ bars i = .mem b

variable {b : PciMemBar} {i j : Fin 6} {bars bars' : Bars}

theorem below_eq (hij : i.val + 1 = j.val) (hb : bars i = .mem b) : below bars j = some (i, b) := by
  have hidx : (⟨j.val - 1, by omega⟩ : Fin 6) = i := Fin.ext (show j.val - 1 = i.val by omega)
  rw [below, dif_pos (by omega)]
  simp only [hidx, hb]

theorem below_eq_some (h : below bars j = some (i, b)) : i.val + 1 = j.val ∧ bars i = .mem b := by
  unfold below at h
  split_ifs at h with hpos
  split at h
  · rename_i b' hb
    obtain ⟨rfl, rfl⟩ := Prod.mk.inj (Option.some.inj h)
    exact ⟨Nat.sub_add_cancel hpos, hb⟩
  · cases h

def Widened (bars bars' : Bars) : Prop :=
  ∀ i, bars' i = bars i ∨ ∃ b, bars i = .mem b ∧ bars' i = .mem { b with wide := true }

theorem Widened.upper (h : Widened bars bars') (j : Fin 6) : bars' j = .memUpper ↔ bars j = .memUpper := by
  rcases h j with heq | ⟨b, hb, hb'⟩
  · rw [heq]
  · rw [hb, hb']
    exact ⟨fun h => (by cases h), fun h => (by cases h)⟩

theorem connectBar_widened (h : connectBar bars j = .ok bars') : Widened bars bars' ∧
      (bars j = .memUpper → ∃ i b, i.val + 1 = j.val ∧ bars i = .mem b ∧ bars' i = .mem { b with wide := true }) := by
  unfold connectBar at h
  split at h
  · rename_i hj
    split_ifs at h
    split at h
    · rename_i i b hbelow
      obtain ⟨hij, hb⟩ := below_eq_some hbelow
      obtain rfl := Except.ok.inj h
      refine ⟨fun i' => ?_, fun _ => ⟨i, b, hij, hb, update_self ..⟩⟩
      by_cases hi : i' = i
      · subst hi
        exact .inr ⟨b, hb, update_self ..⟩
      · exact .inl (update_of_ne hi ..)
    · cases h
  · rename_i hj
    obtain rfl := Except.ok.inj h
    exact ⟨fun i => .inl rfl, fun hup => absurd hup hj⟩

theorem Widened.trans {bars₁ : Bars} (h : Widened bars bars₁) (h' : Widened bars₁ bars') : Widened bars bars' := by
  intro i
  rcases h i with heq | ⟨b, hb, hb₁⟩
  · rw [← heq]
    exact h' i
  · rcases h' i with heq' | ⟨b', hb', hb''⟩
    · exact .inr ⟨b, hb, heq'.trans hb₁⟩
    · obtain rfl : { b with wide := true } = b' := PciBar.mem.inj (hb₁.symm.trans hb')
      exact .inr ⟨b, hb, hb''⟩

theorem connect_widened : ∀ {l : List (Fin 6)} {bars bars' : Bars}, l.foldlM connectBar bars = .ok bars' →
    Widened bars bars' ∧ ∀ j ∈ l, bars j = .memUpper →
      ∃ i b, i.val + 1 = j.val ∧ bars i = .mem b ∧ bars' i = .mem { b with wide := true }
  | [], bars, bars', h => by
    obtain rfl := Except.ok.inj h
    exact ⟨fun i => .inl rfl, fun j hj => (by cases hj)⟩
  | j :: l, bars, bars', h => by
    rw [List.foldlM_cons] at h
    obtain ⟨bars₁, hstep, hrest⟩ := Run.bind_eq_ok.1 h
    obtain ⟨hw, hup⟩ := connectBar_widened hstep
    obtain ⟨hw', hup'⟩ := connect_widened hrest
    refine ⟨hw.trans hw', fun j' hj' hj'up => ?_⟩
    rcases List.mem_cons.1 hj' with rfl | hj'
    · -- connected in this step; a later one could only mark it again
      obtain ⟨i, b, hij, hb, hb₁⟩ := hup hj'up
      refine ⟨i, b, hij, hb, ?_⟩
      rcases hw' i with heq | ⟨b', hb', hb''⟩
      · exact heq.trans hb₁
      · obtain rfl := PciBar.mem.inj (hb₁.symm.trans hb')
        exact hb''
    · obtain ⟨i, b₁, hij, hb₁, hb'⟩ := hup' j' hj' ((hw.upper j').2 hj'up)
      rcases hw i with heq | ⟨b, hb, hbw⟩
      · exact ⟨i, b₁, hij, heq.symm.trans hb₁, hb'⟩
      · obtain rfl := PciBar.mem.inj (hbw.symm.trans hb₁)
        exact ⟨i, b, hij, hb, hb'⟩

/-! ## What a write does -/

theorem Connected.update (h : Connected bars) {x : PciBar} (hup : x = .memUpper → bars i = .memUpper)
    (hmem : ∀ b, bars i = .mem b → ∃ b', x = .mem b') : Connected (update bars i x) := by
  intro j hj
  have hjup : bars j = .memUpper := by
    by_cases hji : j = i
    · subst hji
      rw [update_self] at hj
      exact hup hj
    · rw [update_of_ne hji] at hj
      exact hj
  obtain ⟨i', b, hij, hb⟩ := h j hjup
  by_cases hi : i' = i
  · subst hi
    obtain ⟨b', hb'⟩ := hmem b hb
    exact ⟨i', b', hij, by rw [update_self, hb']⟩
  · exact ⟨i', b, hij, by rw [update_of_ne hi, hb]⟩

theorem writeBar_connected (host : PciHostMap) (h : Connected bars) (num : Fin 6) (val : BitVec 32) :
    ∃ r, writeBar host bars num val = .ok r ∧ Connected r.1 := by
  unfold writeBar
  cases hbar : bars num with
  | none => exact ⟨_, rfl, h⟩
  | io addr size =>
    refine ⟨_, rfl, h.update (fun h => (by cases h)) fun b hb => ?_⟩
    rw [hbar] at hb
    cases hb
  | legacyIo addr size fixedAddr =>
    refine ⟨_, rfl, h.update (fun h => (by cases h)) fun b hb => ?_⟩
    rw [hbar] at hb
    cases hb
  | mem b => exact ⟨_, rfl, h.update (fun h => (by cases h)) fun _ _ => ⟨_, rfl⟩⟩
  | memUpper =>
    obtain ⟨i, b, hij, hb⟩ := h num hbar
    simp only [below_eq hij hb]
    exact ⟨_, rfl, h.update (fun h => (by cases h)) fun _ _ => ⟨_, rfl⟩⟩

/-- **The pair at `i` and `j`** after `lo` and `hi` were last written to it, if anything was. -/
structure PairAt (host : PciHostMap) (i j : Fin 6) (size : Addr) (lo hi : Option (BitVec 32)) (bars : Bars) : Prop where
  upper : bars j = .memUpper
  bar : ∃ b, bars i = .mem b ∧ b.size = size ∧ b.wide = true ∧ b.lower = (lowHalf size (lo.getD 0)).setWidth 64 ∧
    b.upper = (highHalf size (hi.getD 0)).setWidth 64 <<< 32 ∧
    (lo.isSome ∨ hi.isSome → b.addr = memAddr host.pciMemBase (b.upper + b.lower))

theorem PairAt.frame {host : PciHostMap} {size : Addr} {lo hi : Option (BitVec 32)}
    (h : PairAt host i j size lo hi bars) (hi' : bars' i = bars i) (hj' : bars' j = bars j) :
    PairAt host i j size lo hi bars' := by
  obtain ⟨hup, b, hb, hrest⟩ := h
  exact ⟨hj'.trans hup, b, hi'.trans hb, hrest⟩

section Pair

variable {host : PciHostMap} {i j : Fin 6} (hij : i.val + 1 = j.val) {size : Addr} {k : Nat} (hk : 4 ≤ k)
  (hsize : size.toNat = 2 ^ k)
include hij hk hsize

theorem writeBar_pair {bars bars' : Bars} {lo hi : Option (BitVec 32)} {num : Fin 6} {val v : BitVec 32}
    (h : PairAt host i j size lo hi bars) (hw : writeBar host bars num val = .ok (bars', v)) :
    PairAt host i j size (if num = i then some val else lo) (if num = j then some val else hi) bars' ∧
      (num = i → v = lowHalf size val ||| 4) ∧ (num = j → v = highHalf size val) := by
  have hne : i ≠ j := fun h => by
    rw [h] at hij
    omega
  obtain ⟨hup, b, hb, hbs, hwide, hlo, hhi, haddr⟩ := id h
  by_cases hni : num = i
  · subst hni
    unfold writeBar at hw
    simp only [hb] at hw
    obtain ⟨rfl, rfl⟩ := Prod.mk.inj (Except.ok.inj hw)
    rw [if_pos rfl, if_neg hne]
    have hshift := lowHalf_shift hk hsize val
    refine ⟨⟨?_, _, update_self .., hbs, hwide, ?_, hhi, fun _ => rfl⟩, fun _ => ?_, fun h => absurd h hne⟩
    · rw [update_of_ne hne.symm, hup]
    · rw [Option.getD_some, ← hshift, lowHalf, ← hbs]
      rfl
    · rw [← hshift, lowHalf, ← hbs]
      simp only [PciMemBar.write, hwide, if_true]
  by_cases hnj : num = j
  · subst hnj
    unfold writeBar at hw
    simp only [hup, below_eq hij hb] at hw
    obtain ⟨rfl, rfl⟩ := Prod.mk.inj (Except.ok.inj hw)
    rw [if_neg hni, if_pos rfl]
    refine ⟨⟨?_, _, update_self .., hbs, hwide, hlo, ?_, fun _ => rfl⟩, fun h => absurd h hni, fun _ => ?_⟩
    · rw [update_of_ne hne.symm, hup]
    · rw [Option.getD_some, highHalf, ← hbs]
      rfl
    · rw [highHalf, ← hbs]
      rfl
  · rw [if_neg hni, if_neg hnj]
    refine ⟨?_, fun h => absurd h hni, fun h => absurd h hnj⟩
    have hupd : ∀ {i' : Fin 6} {x : PciBar}, i' ≠ i → i' ≠ j → PairAt host i j size lo hi (update bars i' x) :=
      fun hi hj => h.frame (update_of_ne hi.symm ..) (update_of_ne hj.symm ..)
    unfold writeBar at hw
    cases hbar : bars num with
    | none =>
      simp only [hbar] at hw
      obtain ⟨rfl, -⟩ := Prod.mk.inj (Except.ok.inj hw)
      exact h
    | io addr s =>
      simp only [hbar] at hw
      obtain ⟨rfl, -⟩ := Prod.mk.inj (Except.ok.inj hw)
      exact hupd hni hnj
    | legacyIo addr s f =>
      simp only [hbar] at hw
      obtain ⟨rfl, -⟩ := Prod.mk.inj (Except.ok.inj hw)
      exact hupd hni hnj
    | mem b' =>
      simp only [hbar] at hw
      obtain ⟨rfl, -⟩ := Prod.mk.inj (Except.ok.inj hw)
      exact hupd hni hnj
    | memUpper =>
      -- the BAR moved is the one before `num`, so it is not the one before `j`
      simp only [hbar] at hw
      split at hw
      · rename_i i' b' hbelow
        obtain ⟨hi'num, hb'⟩ := below_eq_some hbelow
        obtain ⟨rfl, -⟩ := Prod.mk.inj (Except.ok.inj hw)
        refine hupd (fun h => hnj (Fin.ext ?_)) (fun h => ?_)
        · rw [← hi'num, h, hij]
        · rw [h, hup] at hb'
          cases hb'
      · cases hw

end Pair

/-! ## Runs -/

structure Stored (host : PciHostMap) (i j : Fin 6) (size : Addr) (lo hi : Option (BitVec 32)) (d : PciBars) : Prop where
  pair : PairAt host i j size lo hi d.bars
  connected : Connected d.bars
  host_eq : d.host = host
  low : ∀ v, lo = some v → d.baseAddr i = lowHalf size v ||| 4
  high : ∀ v, hi = some v → d.baseAddr j = highHalf size v

section Runs

variable {host : PciHostMap} {i j : Fin 6} (hij : i.val + 1 = j.val) {size : Addr} {k : Nat} (hk : 4 ≤ k)
  (hsize : size.toNat = 2 ^ k)
include hij hk hsize

theorem setBar_stored {d : PciBars} {lo hi : Option (BitVec 32)} (h : Stored host i j size lo hi d) (num : Fin 6)
    (val : BitVec 32) :
    ∃ d', d.setBar num val = .ok d' ∧
      Stored host i j size (if num = i then some val else lo) (if num = j then some val else hi) d' := by
  obtain ⟨⟨bars', v⟩, hw, hconn⟩ := writeBar_connected d.host h.connected num val
  have hw' := hw
  rw [h.host_eq] at hw'
  obtain ⟨hpair, hvi, hvj⟩ := writeBar_pair hij hk hsize h.pair hw'
  refine ⟨{ d with bars := bars', baseAddr := update d.baseAddr num v }, by rw [setBar, hw]; rfl,
    ⟨hpair, hconn, h.host_eq, fun v' hv' => ?_, fun v' hv' => ?_⟩⟩
  · dsimp only
    split_ifs at hv' with hn
    · subst hn
      rw [update_self, hvi rfl, Option.some.inj hv']
    · rw [update_of_ne (Ne.symm hn)]
      exact h.low v' hv'
  · dsimp only
    split_ifs at hv' with hn
    · subst hn
      rw [update_self, hvj rfl, Option.some.inj hv']
    · rw [update_of_ne (Ne.symm hn)]
      exact h.high v' hv'

theorem setBars_stored : ∀ (ws : List (Fin 6 × BitVec 32)) {d : PciBars} {lo hi : Option (BitVec 32)},
    Stored host i j size lo hi d → ∃ d', d.setBars ws = .ok d' ∧
      Stored host i j size (ws.foldl (fun v w => if w.1 = i then some w.2 else v) lo)
        (ws.foldl (fun v w => if w.1 = j then some w.2 else v) hi) d'
  | [], d, _, _, h => ⟨d, rfl, h⟩
  | w :: ws, d, _, _, h => by
    obtain ⟨d₁, hw, h₁⟩ := setBar_stored hij hk hsize h w.1 w.2
    obtain ⟨d', hws, h'⟩ := setBars_stored ws h₁
    refine ⟨d', ?_, h'⟩
    rw [setBars, List.foldlM_cons, hw, Run.ok_bind]
    exact hws

theorem rewrite_pair (saved : Fin 6 → BitVec 32) : ∀ (l : List (Fin 6)) {bars : Bars} {lo hi : Option (BitVec 32)},
    PairAt host i j size lo hi bars → Connected bars →
    ∃ bars', l.foldlM (fun bars n => (writeBar host bars n (saved n)).map Prod.fst) bars = .ok bars' ∧
      PairAt host i j size (l.foldl (fun v n => if n = i then some (saved n) else v) lo)
        (l.foldl (fun v n => if n = j then some (saved n) else v) hi) bars'
  | [], bars, _, _, h, _ => ⟨bars, rfl, h⟩
  | n :: l, bars, _, _, h, hconn => by
    obtain ⟨⟨bars₁, v⟩, hw, hconn₁⟩ := writeBar_connected host hconn n (saved n)
    obtain ⟨bars', hl, h'⟩ := rewrite_pair saved l (writeBar_pair hij hk hsize h hw).1 hconn₁
    refine ⟨bars', ?_, h'⟩
    rw [List.foldlM_cons, hw]
    exact hl

end Runs

theorem foldl_last (f : Fin 6 → BitVec 32) (i : Fin 6) : ∀ (l : List (Fin 6)) (lo : Option (BitVec 32)),
    l.foldl (fun v n => if n = i then some (f n) else v) lo = if i ∈ l then some (f i) else lo
  | [], lo => rfl
  | n :: l, lo => by
    rw [List.foldl_cons, foldl_last f i l]
    by_cases hn : n = i
    · subst hn
      simp
    · simp [hn, Ne.symm hn]

theorem foldl_some (i : Fin 6) : ∀ (ws : List (Fin 6 × BitVec 32)) (v : BitVec 32),
    ws.foldl (fun v w => if w.1 = i then some w.2 else v) (some v) =
      some (ws.foldl (fun v w => if w.1 = i then w.2 else v) v)
  | [], _ => rfl
  | w :: ws, v => by
    rw [List.foldl_cons, List.foldl_cons, ← foldl_some i ws]
    split_ifs <;> rfl

section Created

variable {host : PciHostMap} {bars : Bars} {i j : Fin 6} (hij : i.val + 1 = j.val) {size : Addr} {k : Nat} (hk : 4 ≤ k)
  (hsize : size.toNat = 2 ^ k) {b : PciMemBar} (hb : PciMemBar.create size = .ok b) (hi : bars i = .mem b)
  (hj : bars j = .memUpper) {d₀ : PciBars} (hd : create host bars = .ok d₀)
include hij hk hsize hb hi hj hd

theorem create_stored : Stored host i j size (some 0) (some 0) d₀ := by
  obtain ⟨bars₁, hconn, hset⟩ := Run.bind_eq_ok.1 hd
  obtain ⟨hw, hup⟩ := connect_widened hconn
  have hbar : b = { size := size } := by
    unfold PciMemBar.create at hb
    split_ifs at hb
    exact (Except.ok.inj hb).symm
  have hstart : Stored host i j size none none { host := host, bars := bars₁ } := by
    refine ⟨⟨(hw.upper j).2 hj, ?_⟩, fun j' hj' => ?_, rfl, fun v hv => (by cases hv), fun v hv => (by cases hv)⟩
    · obtain ⟨i', b', hij', hb', hwide⟩ := hup j (List.mem_finRange j) hj
      obtain rfl : i' = i := Fin.ext (by omega)
      obtain rfl := PciBar.mem.inj (hi.symm.trans hb')
      subst hbar
      refine ⟨_, hwide, rfl, rfl, ?_, ?_, fun h => ?_⟩
      · simp [lowHalf]
      · simp [highHalf]
      · simp at h
    · obtain ⟨i', b', hij', -, hwide⟩ := hup j' (List.mem_finRange j') ((hw.upper j').1 hj')
      exact ⟨i', _, hij', hwide⟩
  obtain ⟨d', hd', hstored⟩ := setBars_stored hij hk hsize ((List.finRange 6).map fun i => (i, 0)) hstart
  obtain rfl : d' = d₀ := Except.ok.inj (hd'.symm.trans hset)
  simp only [List.foldl_map] at hstored
  rw [foldl_last (fun _ => 0), foldl_last (fun _ => 0), if_pos (List.mem_finRange i), if_pos (List.mem_finRange j)]
    at hstored
  exact hstored

end Created

end PciBars

def PciMemBar.range (b : PciMemBar) : AddrRange := rangeSize b.addr b.size

namespace PciBars

/-- Where PCI memory space puts a pair: the word of its halves, rounded down to a multiple of the size. -/
def pairAddr (k : Nat) (hi lo : BitVec 32) : Addr := BitVec.ofNat 64 ((hi ++ lo).toNat / 2 ^ k * 2 ^ k)

theorem halves_eq_pairAddr {size : Addr} {k : Nat} (hsize : size.toNat = 2 ^ k) (hi lo : BitVec 32) :
    highHalf size hi ++ lowHalf size lo = pairAddr k hi lo := by
  apply BitVec.eq_of_toNat_eq
  have hand := toNat_and_not_size hsize (hi ++ lo)
  rw [highHalf_append_lowHalf, hand, pairAddr, BitVec.toNat_ofNat, Nat.mod_eq_of_lt]
  rw [← hand]
  exact BitVec.isLt _

theorem append_halves (hi lo : BitVec 32) : (hi ++ lo).setWidth 32 = lo ∧ ((hi ++ lo) >>> 32).setWidth 32 = hi := by
  constructor
  · refine eq_of_getLsbD_eq fun i hlt => ?_
    rw [getLsbD_setWidth, getLsbD_append]
    simp [hlt]
  · refine eq_of_getLsbD_eq fun i hlt => ?_
    rw [getLsbD_setWidth, BitVec.getLsbD_ushiftRight, getLsbD_append]
    simp [hlt]

section Created

variable {host : PciHostMap} {bars : Bars} {i j : Fin 6} (hij : i.val + 1 = j.val) {size : Addr} {k : Nat} (hk : 4 ≤ k)
  (hsize : size.toNat = 2 ^ k)
include hsize

theorem PairAt.range {lo hi : BitVec 32} (h : PairAt host i j size (some lo) (some hi) bars) :
    ∃ bar, bars i = .mem bar ∧ bar.range = rangeSize (memAddr host.pciMemBase (pairAddr k hi lo)) size := by
  obtain ⟨-, bar, hbar, hbs, -, hlo, hhi, haddr⟩ := h
  refine ⟨bar, hbar, ?_⟩
  rw [PciMemBar.range, hbs, haddr (.inl rfl), hlo, hhi, Option.getD_some, Option.getD_some, shift_add_eq_append,
    halves_eq_pairAddr hsize]

variable {b : PciMemBar} (hb : PciMemBar.create size = .ok b) (hi : bars i = .mem b) (hj : bars j = .memUpper)
  {d₀ : PciBars} (hd : create host bars = .ok d₀)
include hij hk hb hi hj hd

/-- **The 64-bit pair, after any writes.**  Its range is where the last values written put it.  Config space stores the
halves of that address, the lower one marked as wide.  Ones written to both halves read back as the two's complement of
the size.  A fresh device restored from config space has the same range. -/
theorem pair_decodes (ws : List (Fin 6 × BitVec 32)) :
    ∃ d bar, d₀.setBars ws = .ok d ∧ d.bars i = .mem bar ∧
      bar.range = rangeSize (memAddr host.pciMemBase (pairAddr k (lastWritten j ws) (lastWritten i ws))) size ∧
      d.baseAddr i = (pairAddr k (lastWritten j ws) (lastWritten i ws)).setWidth 32 ||| 4 ∧
      d.baseAddr j = (pairAddr k (lastWritten j ws) (lastWritten i ws) >>> 32).setWidth 32 ∧
      (lastWritten i ws = 0xFFFFFFFF → lastWritten j ws = 0xFFFFFFFF →
        d.baseAddr j ++ (d.baseAddr i &&& ~~~0xF) = -size) ∧
      ∃ d' bar', d₀.unserialize d.baseAddr = .ok d' ∧ d'.bars i = .mem bar' ∧ bar'.range = bar.range := by
  have hstored := create_stored hij hk hsize hb hi hj hd
  obtain ⟨d, hset, hs⟩ := setBars_stored hij hk hsize ws hstored
  rw [foldl_some, foldl_some] at hs
  change Stored host i j size (some (lastWritten i ws)) (some (lastWritten j ws)) d at hs
  generalize lastWritten i ws = lo at hs ⊢
  generalize lastWritten j ws = hi at hs ⊢
  obtain ⟨bar, hbar, hrange⟩ := hs.pair.range hsize
  have hlow := hs.low lo rfl
  have hhigh := hs.high hi rfl
  obtain ⟨hset32, hset64⟩ := append_halves (highHalf size hi) (lowHalf size lo)
  rw [halves_eq_pairAddr hsize] at hset32 hset64
  refine ⟨d, bar, hset, hbar, hrange, by rw [hlow, hset32], by rw [hhigh, hset64], ?_, ?_⟩
  · rintro rfl rfl
    have hones : (0xFFFFFFFF : BitVec 32) ++ (0xFFFFFFFF : BitVec 32) = BitVec.allOnes 64 := by decide
    rw [hlow, hhigh, stored_base hk hsize, highHalf_append_lowHalf, hones, BitVec.allOnes_and]
    bv_omega
  · -- the stored halves decode as the halves that were written
    obtain ⟨bars', hl, hpair⟩ := rewrite_pair hij hk hsize d.baseAddr (List.finRange 6) hstored.pair hstored.connected
    rw [foldl_last, foldl_last, if_pos (List.mem_finRange i), if_pos (List.mem_finRange j), hlow, hhigh] at hpair
    obtain ⟨bar', hbar', hrange'⟩ := hpair.range hsize
    refine ⟨{ d₀ with bars := bars', baseAddr := d.baseAddr }, bar', ?_, hbar', ?_⟩
    · rw [unserialize, hstored.host_eq, hl]
      rfl
    · rw [hrange', hrange, ← halves_eq_pairAddr hsize, ← halves_eq_pairAddr hsize, lowHalf_stored hk hsize, highHalf_stored]

end Created

theorem pair_decodes_eight_gib :
    ∃ d₀ d bar, create ⟨0x2F000000, 0x40000000⟩ (fun n => if n = 2 then .mem { size := 0x200000000 }
        else if n = 3 then .memUpper else .none) = .ok d₀ ∧
      d₀.setBars [(3, 0x00000007), (2, 0x12345678)] = .ok d ∧ d.bars 2 = .mem bar ∧
      bar.range = rangeSize 0x640000000 0x200000000 := by
  obtain ⟨d₀, hd⟩ : ∃ d₀, create ⟨0x2F000000, 0x40000000⟩ (fun n => if n = 2 then .mem { size := 0x200000000 }
      else if n = 3 then .memUpper else .none) = .ok d₀ := ⟨_, rfl⟩
  have hsize : (0x200000000 : Addr).toNat = 2 ^ 33 := rfl
  have hb : PciMemBar.create 0x200000000 = .ok { size := 0x200000000 } := rfl
  obtain ⟨d, bar, hset, hbar, hrange, -⟩ := pair_decodes (i := 2) (j := 3) rfl (by decide) hsize hb rfl rfl hd
    [(3, 0x00000007), (2, 0x12345678)]
  refine ⟨d₀, d, bar, hd, hset, hbar, hrange.trans ?_⟩
  decide

end PciBars

end Gem5
