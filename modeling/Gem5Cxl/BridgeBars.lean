import Gem5Cxl.BridgeReadback
/-!
# BridgeBars — sizing the BARs of a bridge (`config_class::writeConfig` in `dev/PciBridge2.cc`)

A driver learns the size of a BAR by writing ones to it and reading it back.  Both BARs of the bridge answer a memory BAR
well, BAR1 an I/O BAR too; BAR0 as an I/O BAR answers with two bytes more than it has (`decodedSize_io_bar0`).  The
contract of the two is `BarContract`, and `bars_sized_iff` says when it holds.
-/
namespace Gem5

inductive Bar where
  | bar0
  | bar1
deriving DecidableEq, Repr

def Bar.addr : Bar → Addr
  | .bar0 => 0x10
  | .bar1 => 0x14

namespace ConfigClass

def bar (c : ConfigClass) : Bar → BitVec 32
  | .bar0 => c.storage1.bar0
  | .bar1 => c.storage1.bar1

def barsize (c : ConfigClass) : Bar → BitVec 32
  | .bar0 => c.barsize0
  | .bar1 => c.barsize1

def written (b : Bar) (size val old : BitVec 32) : BitVec 32 :=
  if val = 0xFFFFFFFF then
    match b with
    | .bar0 => sizeBar0 size old
    | .bar1 => sizeBar1 size old
  else assignBar size val old

/-- The size a driver computes from a BAR that was written with ones. -/
def decodedSize (v : BitVec 32) : BitVec 32 := ~~~ (v &&& ~~~ barMask v) + 1

def typeBits (v : BitVec 32) : BitVec 32 := v &&& barMask v

def barWrites (b : Bar) (accesses : List (Nat × BitVec 32)) : List RegWrite :=
  accesses.map fun a => ⟨b.addr, a.1, a.2⟩

/-- **What drivers rely on**, after any writes. -/
structure BarContract (id : BridgeIdent) (c₀ : ConfigClass) : Prop where
  /-- a BAR written with ones reads back its size -/
  sizing : ∀ ws c, c₀.configure ws = .ok c → ∀ b, ∃ c' v, c.configure [⟨b.addr, 4, 0xFFFFFFFF⟩] = .ok c' ∧
    c'.readConfig id b.addr 4 = .ok (wordBytes v) ∧ decodedSize v = c₀.barsize b
  /-- no write changes the type of a BAR -/
  type : ∀ ws c, c₀.configure ws = .ok c → ∀ b, typeBits (c.bar b) = typeBits (c₀.bar b)
  /-- BARs of one type and size answer the same accesses in the same way -/
  alike : c₀.bar .bar0 = c₀.bar .bar1 → c₀.barsize .bar0 = c₀.barsize .bar1 → ∀ accesses,
    (c₀.configure (barWrites .bar0 accesses) >>= fun c => c.readConfig id Bar.bar0.addr 4) =
      (c₀.configure (barWrites .bar1 accesses) >>= fun c => c.readConfig id Bar.bar1.addr 4)

/-! ## What a write does to the BARs -/

structure BarsAfter (c c' : ConfigClass) (bar0 bar1 : BitVec 32) : Prop where
  bar0 : c'.storage1.bar0 = bar0
  bar1 : c'.storage1.bar1 = bar1
  barsize0 : c'.barsize0 = c.barsize0
  barsize1 : c'.barsize1 = c.barsize1

theorem barsAfter_ite {c : ConfigClass} {p : Prop} [Decidable p] {x y : ConfigClass × Bool} {bar0 bar1 : BitVec 32}
    (hx : p → BarsAfter c x.1 bar0 bar1) (hy : ¬ p → BarsAfter c y.1 bar0 bar1) :
    BarsAfter c (if p then x else y).1 bar0 bar1 := by
  by_cases h : p
  · rw [if_pos h]
    exact hx h
  · rw [if_neg h]
    exact hy h

theorem writeConfig8_bars (c : ConfigClass) (offset : Nat) (val : BitVec 8) :
    BarsAfter c (c.writeConfig8 offset val).1 c.storage1.bar0 c.storage1.bar1 := by
  unfold writeConfig8
  repeat' apply barsAfter_ite <;> intro _
  all_goals exact ⟨rfl, rfl, rfl, rfl⟩

theorem writeConfig16_bars (c : ConfigClass) (offset : Nat) (val : BitVec 16) :
    BarsAfter c (c.writeConfig16 offset val).1 c.storage1.bar0 c.storage1.bar1 := by
  unfold writeConfig16
  repeat' apply barsAfter_ite <;> intro _
  all_goals exact ⟨rfl, rfl, rfl, rfl⟩

theorem writeConfig32_bars (c : ConfigClass) (offset : Nat) (val : BitVec 32) :
    BarsAfter c (c.writeConfig32 offset val).1
      (if offset = 0x10 then written .bar0 c.barsize0 val c.storage1.bar0 else c.storage1.bar0)
      (if offset = 0x14 then written .bar1 c.barsize1 val c.storage1.bar1 else c.storage1.bar1) := by
  by_cases h10 : offset = 0x10
  · subst h10
    simp only [writeConfig32, written]
    by_cases hv : val = 0xFFFFFFFF
    · simp only [if_pos hv]
      exact ⟨rfl, rfl, rfl, rfl⟩
    · simp only [if_neg hv]
      exact ⟨rfl, rfl, rfl, rfl⟩
  by_cases h14 : offset = 0x14
  · subst h14
    simp only [writeConfig32, written]
    by_cases hv : val = 0xFFFFFFFF
    · simp only [if_pos hv]
      exact ⟨rfl, rfl, rfl, rfl⟩
    · simp only [if_neg hv]
      exact ⟨rfl, rfl, rfl, rfl⟩
  rw [if_neg h10, if_neg h14]
  unfold writeConfig32
  repeat' apply barsAfter_ite <;> intro hoff
  all_goals first
    | exact ⟨rfl, rfl, rfl, rfl⟩
    | exact absurd ‹_› h10
    | exact absurd ‹_› h14

theorem writeConfig_bar {c c' : ConfigClass} {w : RegWrite} {flag : Bool}
    (hc : c.writeConfig w.addr w.size w.val = .ok (c', flag)) (b : Bar) :
    c'.bar b = (if w.size = 4 ∧ w.offset = b.addr.toNat then written b (c.barsize b) w.val (c.bar b) else c.bar b) ∧
      c'.barsize b = c.barsize b := by
  have hnone : ∀ {d : ConfigClass} {p : Prop} [Decidable p], BarsAfter c d c.storage1.bar0 c.storage1.bar1 → ¬ p →
      d.bar b = (if p then written b (c.barsize b) w.val (c.bar b) else c.bar b) ∧ d.barsize b = c.barsize b := by
    intro d p _ hd hp
    rw [if_neg hp]
    cases b with
    | bar0 => exact ⟨hd.bar0, hd.barsize0⟩
    | bar1 => exact ⟨hd.bar1, hd.barsize1⟩
  rw [RegWrite.offset]
  have haddr : isWritable b.addr.toNat = true ∧ b.addr.toNat < 64 := by cases b <;> decide
  rcases writeConfig_cases hc with ⟨rfl, hout⟩ | ⟨hs, rfl⟩ | ⟨hs, rfl⟩ | ⟨hs, rfl⟩
  · refine hnone ⟨rfl, rfl, rfl, rfl⟩ fun h => ?_
    rw [h.2, haddr.1] at hout
    exact hout.elim Bool.noConfusion fun hhdr => hhdr haddr.2
  · exact hnone (writeConfig8_bars c _ _) fun h => by omega
  · exact hnone (writeConfig16_bars c _ _) fun h => by omega
  · have hbars := writeConfig32_bars c (w.addr &&& 0xFFF).toNat w.val
    simp only [hs, true_and]
    cases b with
    | bar0 => exact ⟨hbars.bar0, hbars.barsize0⟩
    | bar1 => exact ⟨hbars.bar1, hbars.barsize1⟩

theorem readConfig_bar (id : BridgeIdent) (c : ConfigClass) (b : Bar) :
    c.readConfig id b.addr 4 = .ok (wordBytes (c.bar b)) := by
  cases b <;> rfl

theorem offset_bar (b : Bar) (size : Nat) (val : BitVec 32) : RegWrite.offset ⟨b.addr, size, val⟩ = b.addr.toNat := by
  change (b.addr &&& 0xFFF).toNat = b.addr.toNat
  cases b <;> decide

theorem writeConfig_bar_ok (c : ConfigClass) (b : Bar) {size : Nat} (hs : size = 1 ∨ size = 2 ∨ size = 4)
    (val : BitVec 32) : ∃ r, c.writeConfig b.addr size val = .ok r := by
  rcases hs with rfl | rfl | rfl <;> cases b <;> exact ⟨_, rfl⟩

theorem writeConfig_bar_error (c : ConfigClass) (b : Bar) {size : Nat} (hs : ¬ (size = 1 ∨ size = 2 ∨ size = 4))
    {val : BitVec 32} : c.writeConfig b.addr size val = .error (.panic "invalid access size\n") := by
  simp only [not_or] at hs
  cases b <;> simp [writeConfig, Bar.addr, isWritable, hs]

theorem wordBytes_inj {v v' : BitVec 32} (h : wordBytes v = wordBytes v') : v = v' := by
  simp only [wordBytes, List.cons.injEq, and_true] at h
  refine BitVec.eq_of_getLsbD_eq fun i hi => ?_
  have hbit : ∀ {j}, Packet.hostByte v j = Packet.hostByte v' j → 8 * j ≤ i ∧ i < 8 * j + 8 → v.getLsbD i = v'.getLsbD i := by
    intro j hj hij
    have := congrArg (fun b => BitVec.getLsbD b (i - 8 * j)) hj
    simpa [Packet.hostByte, BitVec.getLsbD_extractLsb', show i - 8 * j < 8 by omega, Nat.add_sub_cancel' hij.1] using this
  obtain ⟨h0, h1, h2, h3⟩ := h
  rcases show i < 8 ∨ (8 ≤ i ∧ i < 16) ∨ (16 ≤ i ∧ i < 24) ∨ 24 ≤ i by omega with hr | hr | hr | hr
  · exact hbit h0 (by omega)
  · exact hbit h1 (by omega)
  · exact hbit h2 (by omega)
  · exact hbit h3 (by omega)

/-! ## The bits of a written BAR -/

def typeWidth (v : BitVec 32) : Nat := if v.getLsbD 0 then 1 else 4

theorem and_one_ne_zero (v : BitVec 32) : v &&& 1 ≠ 0 ↔ v.getLsbD 0 = true := by
  have hbit : (v &&& 1).getLsbD 0 = v.getLsbD 0 := by
    rw [BitVec.getLsbD_and]
    exact Bool.and_true _
  constructor
  · intro h
    by_contra hv
    refine h (BitVec.eq_of_getLsbD_eq fun i _ => ?_)
    change (v &&& 1#32).getLsbD i = (0#32).getLsbD i
    rw [BitVec.getLsbD_and, BitVec.getLsbD_one, BitVec.getLsbD_zero]
    rcases Nat.eq_zero_or_pos i with rfl | hi
    · rw [Bool.eq_false_iff.2 hv, Bool.false_and]
    · rw [decide_eq_false (Nat.ne_of_gt hi), Bool.and_false, Bool.and_false]
  · intro hv h
    rw [h] at hbit
    exact absurd (hbit.trans hv) (by decide)

theorem barMask_eq (v : BitVec 32) : barMask v = if v.getLsbD 0 then 0x1 else 0xF := by
  unfold barMask
  simp only [and_one_ne_zero]

theorem getLsbD_barMask (v : BitVec 32) {i : Nat} (hi : i < 32) : (barMask v).getLsbD i = decide (i < typeWidth v) := by
  have hmask : barMask v = BitVec.ofNat 32 (2 ^ typeWidth v - 1) := by
    rw [barMask_eq, typeWidth]
    split_ifs <;> rfl
  rw [hmask, Bits.getLsbD_lowMask, decide_eq_true hi, Bool.true_and]

theorem typeWidth_le (v : BitVec 32) : 0 < typeWidth v ∧ typeWidth v ≤ 4 := by
  unfold typeWidth
  split_ifs <;> omega

theorem retyped {v x : BitVec 32} (hx : ∀ i < typeWidth v, x.getLsbD i = false) :
    typeBits (x ||| (v &&& barMask v)) = typeBits v ∧
      (x ||| (v &&& barMask v)) &&& ~~~ barMask (x ||| (v &&& barMask v)) = x := by
  have hlow : (x ||| (v &&& barMask v)).getLsbD 0 = v.getLsbD 0 := by
    have hpos := (typeWidth_le v).1
    rw [BitVec.getLsbD_or, BitVec.getLsbD_and, hx 0 hpos, getLsbD_barMask v (by decide), decide_eq_true hpos, Bool.and_true,
      Bool.false_or]
  have hmask : barMask (x ||| (v &&& barMask v)) = barMask v := by
    rw [barMask_eq, hlow, ← barMask_eq]
  rw [typeBits, typeBits, hmask]
  constructor
  · refine BitVec.eq_of_getLsbD_eq fun i hi => ?_
    rw [BitVec.getLsbD_and, BitVec.getLsbD_or, BitVec.getLsbD_and, getLsbD_barMask v hi]
    by_cases htype : i < typeWidth v
    · simp [htype, hx i htype]
    · simp [htype]
  · refine BitVec.eq_of_getLsbD_eq fun i hi => ?_
    rw [BitVec.getLsbD_and, BitVec.getLsbD_or, BitVec.getLsbD_and, BitVec.getLsbD_not, getLsbD_barMask v hi]
    by_cases htype : i < typeWidth v
    · simp [htype, hx i htype]
    · simp [htype, hi]

theorem low_of_typeBits {v v' : BitVec 32} (h : typeBits v' = typeBits v) : v'.getLsbD 0 = v.getLsbD 0 := by
  have hbit : ∀ u, (typeBits u).getLsbD 0 = u.getLsbD 0 := fun u => by
    rw [typeBits, BitVec.getLsbD_and, getLsbD_barMask u (by decide), decide_eq_true (typeWidth_le u).1, Bool.and_true]
  rw [← hbit v', h, hbit v]

/-- The base bits that a write of `val` leaves. -/
def fresh (b : Bar) (size val old : BitVec 32) : BitVec 32 :=
  if val = 0xFFFFFFFF then
    if b = .bar0 ∧ old.getLsbD 0 = true then ~~~ size - 1 else ~~~ (size - 1)
  else val &&& ~~~ (size - 1)

theorem written_eq (b : Bar) (size val old : BitVec 32) :
    written b size val old = fresh b size val old ||| (old &&& barMask old) := by
  unfold written fresh
  split_ifs with hval hio
  · obtain ⟨rfl, hio⟩ := hio
    simp only [sizeBar0, and_one_ne_zero, barMask_eq, hio, if_true]
  · cases b with
    | bar0 =>
      have hmem : ¬ old.getLsbD 0 = true := fun h => hio ⟨rfl, h⟩
      simp only [sizeBar0, and_one_ne_zero, barMask_eq, if_neg hmem]
    | bar1 => rfl
  · rfl

section Sizes

variable {size : BitVec 32} {k : Nat} (hk : 4 ≤ k) (hsize : size.toNat = 2 ^ k)
include hk hsize

theorem size_sub_one_low {i : Nat} (hi : i < 4) : (size - 1).getLsbD i = true := by
  have hbit := Bits.getLsbD_sub_one hsize (show i < 32 by omega)
  exact hbit.trans (decide_eq_true (by omega))

theorem not_size_sub_one_low {i : Nat} (hi : i < 4) : (~~~ (size - 1)).getLsbD i = false := by
  rw [BitVec.getLsbD_not, size_sub_one_low hk hsize hi, Bool.not_true, Bool.and_false]

theorem fresh_low (b : Bar) (val old : BitVec 32) : ∀ i < typeWidth old, (fresh b size val old).getLsbD i = false := by
  intro i hi
  have hle := (typeWidth_le old).2
  unfold fresh
  split_ifs with hval hio
  · -- the size is even, so its complement less one is even
    have hone : i = 0 := by
      rw [typeWidth, if_pos hio.2] at hi
      omega
    subst hone
    have heven : (~~~ size - 1).toNat % 2 = 0 := by
      have hdvd : 2 ∣ 2 ^ k := dvd_pow_self 2 (by omega)
      have hlt := size.isLt
      rw [BitVec.toNat_sub, BitVec.toNat_not]
      change (2 ^ 32 - 1 + (2 ^ 32 - 1 - size.toNat)) % 2 ^ 32 % 2 = 0
      omega
    rw [BitVec.getLsbD, Nat.testBit_zero, heven]
    rfl
  · exact not_size_sub_one_low hk hsize (by omega)
  · rw [BitVec.getLsbD_and, not_size_sub_one_low hk hsize (by omega), Bool.and_false]

theorem typeBits_written (b : Bar) (val old : BitVec 32) : typeBits (written b size val old) = typeBits old := by
  rw [written_eq]
  exact (retyped (fresh_low hk hsize b val old)).1

theorem decodedSize_written (b : Bar) (old : BitVec 32) :
    decodedSize (written b size 0xFFFFFFFF old) = if b = .bar0 ∧ old.getLsbD 0 = true then size + 2 else size := by
  rw [decodedSize, written_eq, (retyped (fresh_low hk hsize b _ old)).2, fresh, if_pos rfl]
  split_ifs with hio
  · bv_omega
  · rw [BitVec.not_not, BitVec.sub_add_cancel]

end Sizes

/-! ## Runs -/

def SameBars (c₀ c : ConfigClass) : Prop :=
  ∀ b, typeBits (c.bar b) = typeBits (c₀.bar b) ∧ c.barsize b = c₀.barsize b

section Runs

variable {c₀ : ConfigClass} (hsize : ∀ b, ∃ k, 4 ≤ k ∧ (c₀.barsize b).toNat = 2 ^ k)
include hsize

theorem writeConfig_sameBars {c c' : ConfigClass} {w : RegWrite} {flag : Bool} (h : SameBars c₀ c)
    (hc : c.writeConfig w.addr w.size w.val = .ok (c', flag)) : SameBars c₀ c' := by
  intro b
  obtain ⟨hbar, hs⟩ := writeConfig_bar hc b
  obtain ⟨k, hk, hpow⟩ := hsize b
  rw [hs, hbar, ← (h b).1]
  refine ⟨?_, (h b).2⟩
  split_ifs
  · rw [(h b).2]
    exact typeBits_written hk hpow b _ _
  · rfl

theorem configure_sameBars {ws : List RegWrite} : ∀ {c c' : ConfigClass}, SameBars c₀ c → c.configure ws = .ok c' →
    SameBars c₀ c' := by
  induction ws with
  | nil =>
    intro c c' h hc
    rw [← Except.ok.inj hc]
    exact h
  | cons w ws ih =>
    intro c c' h hc
    obtain ⟨⟨c₁, flag⟩, hw, hrest⟩ := Run.bind_eq_ok.1 hc
    exact ih (writeConfig_sameBars hsize h hw) hrest

/-- **Sizing**, after any run: right but for BAR0 as an I/O BAR. -/
theorem sized {c : ConfigClass} (h : SameBars c₀ c) (id : BridgeIdent) (b : Bar) :
    ∃ c', c.configure [⟨b.addr, 4, 0xFFFFFFFF⟩] = .ok c' ∧ c'.readConfig id b.addr 4 = .ok (wordBytes (c'.bar b)) ∧
      decodedSize (c'.bar b) =
        if b = .bar0 ∧ (c₀.bar b).getLsbD 0 = true then c₀.barsize b + 2 else c₀.barsize b := by
  obtain ⟨⟨c', flag⟩, hw⟩ := writeConfig_bar_ok c b (show 4 = 1 ∨ 4 = 2 ∨ 4 = 4 by decide) 0xFFFFFFFF
  obtain ⟨k, hk, hpow⟩ := hsize b
  have hbar := (writeConfig_bar (w := ⟨b.addr, 4, 0xFFFFFFFF⟩) hw b).1
  rw [if_pos ⟨rfl, offset_bar b _ _⟩, (h b).2] at hbar
  refine ⟨c', ?_, readConfig_bar id c' b, ?_⟩
  · rw [configure, hw]
    rfl
  · rw [hbar, decodedSize_written hk hpow, low_of_typeBits (h b).1]

end Runs

structure Twins (c c' : ConfigClass) : Prop where
  bar : c.bar .bar0 = c'.bar .bar1
  barsize : c.barsize .bar0 = c'.barsize .bar1
  memory : (c.bar .bar0).getLsbD 0 = false

theorem written_memory {size val old : BitVec 32} (h : old.getLsbD 0 = false) :
    written .bar0 size val old = written .bar1 size val old := by
  have hfresh : fresh .bar0 size val old = fresh .bar1 size val old := by
    simp only [fresh, h, Bool.false_eq_true, and_false, if_false]
  rw [written_eq, written_eq, hfresh]

/-- **The same accesses to memory BARs** read back the same, or fail the same. -/
theorem configure_twins (id : BridgeIdent) {k : Nat} (hk : 4 ≤ k) {accesses : List (Nat × BitVec 32)} :
    ∀ {c c' : ConfigClass}, Twins c c' → (c.barsize .bar0).toNat = 2 ^ k →
      (c.configure (barWrites .bar0 accesses) >>= fun d => d.readConfig id Bar.bar0.addr 4) =
        (c'.configure (barWrites .bar1 accesses) >>= fun d => d.readConfig id Bar.bar1.addr 4) := by
  induction accesses with
  | nil =>
    intro c c' h _
    change c.readConfig id Bar.bar0.addr 4 = c'.readConfig id Bar.bar1.addr 4
    rw [readConfig_bar, readConfig_bar, h.bar]
  | cons a accesses ih =>
    intro c c' h hpow
    obtain ⟨size, val⟩ := a
    simp only [barWrites, List.map_cons, configure]
    by_cases hs : size = 1 ∨ size = 2 ∨ size = 4
    · obtain ⟨⟨d, flag⟩, hd⟩ := writeConfig_bar_ok c .bar0 hs val
      obtain ⟨⟨d', flag'⟩, hd'⟩ := writeConfig_bar_ok c' .bar1 hs val
      obtain ⟨hbar, hsz⟩ := writeConfig_bar (w := ⟨Bar.bar0.addr, size, val⟩) hd .bar0
      obtain ⟨hbar', hsz'⟩ := writeConfig_bar (w := ⟨Bar.bar1.addr, size, val⟩) hd' .bar1
      rw [hd, hd', Run.ok_bind, Run.ok_bind]
      simp only [offset_bar, and_true] at hbar hbar'
      refine ih ⟨?_, ?_, ?_⟩ (by rw [hsz, hpow])
      · rw [hbar, hbar', ← h.bar, ← h.barsize, written_memory h.memory]
      · rw [hsz, hsz', h.barsize]
      · rw [hbar]
        split_ifs
        · rw [low_of_typeBits (typeBits_written hk hpow .bar0 val _), h.memory]
        · exact h.memory
    · rw [writeConfig_bar_error c .bar0 hs, writeConfig_bar_error c' .bar1 hs]
      rfl

/-- **The BARs do as drivers rely on** exactly if BAR0 is a memory BAR. -/
theorem bars_sized_iff (id : BridgeIdent) {c₀ : ConfigClass} (hsize : ∀ b, ∃ k, 4 ≤ k ∧ (c₀.barsize b).toNat = 2 ^ k) :
    c₀.BarContract id ↔ c₀.storage1.bar0.getLsbD 0 = false := by
  have hrefl : SameBars c₀ c₀ := fun b => ⟨rfl, rfl⟩
  constructor
  · intro h
    by_contra hio
    rw [Bool.not_eq_false] at hio
    obtain ⟨c', v, hc, hv, hdec⟩ := h.sizing [] c₀ rfl .bar0
    obtain ⟨d, hd, hread, hsized⟩ := sized hsize hrefl id .bar0
    obtain rfl : d = c' := Except.ok.inj (hd.symm.trans hc)
    obtain rfl : d.bar .bar0 = v := wordBytes_inj (Except.ok.inj (hread.symm.trans hv))
    rw [if_pos ⟨rfl, hio⟩] at hsized
    have htwo : c₀.barsize .bar0 + 2 = c₀.barsize .bar0 := hsized.symm.trans hdec
    bv_omega
  · intro hmem
    refine ⟨?_, ?_, ?_⟩
    · intro ws c hc b
      obtain ⟨c', hc', hread, hdec⟩ := sized hsize (configure_sameBars hsize hrefl hc) id b
      refine ⟨c', c'.bar b, hc', hread, ?_⟩
      rw [hdec, if_neg]
      rintro ⟨rfl, hio⟩
      exact absurd (hio.symm.trans hmem) (by decide)
    · intro ws c hc b
      exact (configure_sameBars hsize hrefl hc b).1
    · intro hbar hs accesses
      obtain ⟨k, hk, hpow⟩ := hsize .bar0
      exact configure_twins id hk ⟨hbar, hs, hmem⟩ hpow

theorem bars_sized_memory : BarContract {} { barsize0 := 0x1000, barsize1 := 0x80 } :=
  (bars_sized_iff {} fun b => by
    cases b with
    | bar0 => exact ⟨12, by decide, rfl⟩
    | bar1 => exact ⟨7, by decide, rfl⟩).2 rfl

/-- An I/O BAR0 of 16 bytes answers with `0xFFFFFFEF`, the size 18; BAR1 answers with `0xFFFFFFF1`. -/
theorem io_bar0_missized :
    ∃ c₀ c : ConfigClass, c₀ = { storage1.bar0 := 1, storage1.bar1 := 1, barsize0 := 16, barsize1 := 16 } ∧
      c₀.configure [⟨0x10, 4, 0xFFFFFFFF⟩, ⟨0x14, 4, 0xFFFFFFFF⟩] = .ok c ∧
      c.readConfig {} 0x10 4 = .ok (wordBytes 0xFFFFFFEF) ∧ decodedSize 0xFFFFFFEF = 18 ∧
      c.readConfig {} 0x14 4 = .ok (wordBytes 0xFFFFFFF1) ∧ decodedSize 0xFFFFFFF1 = 16 :=
  ⟨_, _, rfl, rfl, by decide +kernel, by decide, by decide +kernel, by decide⟩

end ConfigClass

end Gem5
