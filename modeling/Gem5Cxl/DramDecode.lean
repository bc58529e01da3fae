import Gem5Cxl.AddrRangeOffset
import Mathlib.Data.Nat.Count
/-!
# DramDecode — the rows of a DRAM channel (`mem/dram_interface.cc`)

`decodePacket` peels the digits of a burst number off in an order that depends on the address mapping.  In each of them
the digits below the row that are neither bank nor rank make up a column of the row, so that counting digit by digit
gives as many bursts to every row as it has columns.  What `init` refuses is not needed.
-/

/-! ## Counting by digits -/

namespace Digits

theorem count_congr {p q : Nat → Prop} [DecidablePred p] [DecidablePred q] {n : Nat} (h : ∀ k < n, p k ↔ q k) :
    Nat.count p n = Nat.count q n := by
  rw [Nat.count_eq_card_filter_range, Nat.count_eq_card_filter_range]
  exact congrArg Finset.card (Finset.filter_congr fun k hk => h k (Finset.mem_range.1 hk))

theorem count_eq_one {i n : Nat} (hi : i < n) : Nat.count (fun k => k = i) n = 1 := by
  rw [Nat.count_eq_card_filter_range, Finset.filter_eq', if_pos (Finset.mem_range.2 hi), Finset.card_singleton]

variable {p q : Nat → Prop} [DecidablePred p] [DecidablePred q]

/-- **A number below `m * n` is a digit below `m` and one below `n`.** -/
theorem count_mul (m n : Nat) : Nat.count (fun k => p (k % m) ∧ q (k / m)) (m * n) = Nat.count p m * Nat.count q n := by
  induction n with
  | zero => simp
  | succ n ih =>
    rw [Nat.mul_succ, Nat.count_add, ih, Nat.count_succ, Nat.mul_add]
    congr 1
    have hdigits : ∀ k < m, (p ((m * n + k) % m) ∧ q ((m * n + k) / m)) ↔ (p k ∧ q n) := fun k hk => by
      rw [Nat.mul_add_mod, Nat.mod_eq_of_lt hk, Nat.mul_add_div (by omega), Nat.div_eq_of_lt hk, Nat.add_zero]
    rw [count_congr hdigits]
    by_cases hq : q n <;> simp [hq]

/-- A digit that is not looked at. -/
theorem count_skip (m n : Nat) : Nat.count (fun k => q (k / m)) (m * n) = m * Nat.count q n := by
  have h := count_mul (p := fun _ => True) (q := q) m n
  simpa using h

theorem count_digit {i m : Nat} (hi : i < m) (n : Nat) :
    Nat.count (fun k => k % m = i ∧ q (k / m)) (m * n) = Nat.count q n := by
  rw [count_mul (p := fun k => k = i), count_eq_one hi, Nat.one_mul]

end Digits

namespace Gem5

inductive AddrMap where
  | RoRaBaChCo
  | RoRaBaCoCh
  | RoCoRaBaCh
deriving DecidableEq, Repr

structure DramInterface where
  range : AddrRange
  addrMapping : AddrMap
  burstSize : Nat
  burstsPerRowBuffer : Nat
  burstsPerStripe : Nat
  ranksPerChannel : Nat
  banksPerRank : Nat
  rowsPerBank : Nat

/-- The place of a burst, as `decodePacket` gives it to the new `MemPacket`. -/
structure DramPlace where
  rank : Nat
  bank : Nat
  row : Nat
deriving DecidableEq, Repr

namespace DramInterface

def noRow : Nat := 2 ^ 32 - 1

/-- The part of `decodePacket` after the division by `burstSize`; `rank` and `bank` are `uint8_t`. -/
def decodeBurst (d : DramInterface) (addr : Nat) : DramPlace :=
  match d.addrMapping with
  | .RoRaBaChCo | .RoRaBaCoCh =>
    let addr := addr / d.burstsPerRowBuffer
    let bank := addr % d.banksPerRank % 2 ^ 8
    let addr := addr / d.banksPerRank
    let rank := addr % d.ranksPerChannel % 2 ^ 8
    let addr := addr / d.ranksPerChannel
    ⟨rank, bank, addr % d.rowsPerBank⟩
  | .RoCoRaBaCh =>
    let addr := if d.burstsPerStripe > d.burstsPerRowBuffer then addr / d.burstsPerRowBuffer else addr / d.burstsPerStripe
    let bank := addr % d.banksPerRank % 2 ^ 8
    let addr := addr / d.banksPerRank
    let rank := addr % d.ranksPerChannel % 2 ^ 8
    let addr := addr / d.ranksPerChannel
    let addr :=
      if d.burstsPerStripe < d.burstsPerRowBuffer then addr / (d.burstsPerRowBuffer / d.burstsPerStripe) else addr
    ⟨rank, bank, addr % d.rowsPerBank⟩

def getCtrlAddr (d : DramInterface) (addr : Addr) : Addr := d.range.getOffset addr

def decodePacket (d : DramInterface) (pktAddr : Addr) : Except Failure (DramPlace × Nat) := do
  let place := d.decodeBurst ((d.getCtrlAddr pktAddr).toNat / d.burstSize)
  assertThat (place.rank < d.ranksPerChannel)
  assertThat (place.bank < d.banksPerRank)
  assertThat (place.row < d.rowsPerBank)
  assertThat (place.row < noRow)
  .ok (place, (d.banksPerRank * place.rank + place.bank) % 2 ^ 16)

def capacity (d : DramInterface) : Nat := d.rowsPerBank * d.banksPerRank * d.ranksPerChannel * d.burstsPerRowBuffer

/-- What the configuration is: powers of two, and `rowsPerBank` a `uint32_t`. -/
structure Configured (d : DramInterface) : Prop where
  row : ∃ e, d.burstsPerRowBuffer = 2 ^ e
  stripe : ∃ e, d.burstsPerStripe = 2 ^ e
  banks : (∃ e, d.banksPerRank = 2 ^ e) ∧ d.banksPerRank ≤ 256
  ranks : (∃ e, d.ranksPerChannel = 2 ^ e) ∧ d.ranksPerChannel ≤ 256
  rows : d.rowsPerBank < 2 ^ 32

variable {d : DramInterface}

/-- The bursts that follow each other in a row, below the bank. -/
def lowColumns (d : DramInterface) : Nat :=
  match d.addrMapping with
  | .RoRaBaChCo | .RoRaBaCoCh => d.burstsPerRowBuffer
  | .RoCoRaBaCh => min d.burstsPerStripe d.burstsPerRowBuffer

def highColumns (d : DramInterface) : Nat := d.burstsPerRowBuffer / d.lowColumns

section

variable (hd : d.Configured)
include hd

theorem Configured.pos : 0 < d.burstsPerRowBuffer ∧ 0 < d.burstsPerStripe := by
  obtain ⟨e, he⟩ := hd.row
  obtain ⟨f, hf⟩ := hd.stripe
  rw [he, hf]
  exact ⟨Nat.two_pow_pos e, Nat.two_pow_pos f⟩

theorem Configured.min_dvd : min d.burstsPerStripe d.burstsPerRowBuffer ∣ d.burstsPerRowBuffer := by
  obtain ⟨e, he⟩ := hd.row
  obtain ⟨f, hf⟩ := hd.stripe
  rcases Nat.le_total d.burstsPerStripe d.burstsPerRowBuffer with hle | hle
  · rw [Nat.min_eq_left hle, he, hf]
    rw [he, hf] at hle
    exact Nat.pow_dvd_pow 2 ((Nat.pow_le_pow_iff_right (by decide)).1 hle)
  · rw [Nat.min_eq_right hle]

theorem Configured.low_dvd : d.lowColumns ∣ d.burstsPerRowBuffer := by
  unfold lowColumns
  split
  · exact Nat.dvd_refl _
  · exact Nat.dvd_refl _
  · exact hd.min_dvd

theorem Configured.columns : d.lowColumns * d.highColumns = d.burstsPerRowBuffer :=
  Nat.mul_div_cancel' hd.low_dvd

/-- **The digits of a burst number**, whatever the mapping. -/
theorem Configured.decodeBurst_eq (b : Nat) : d.decodeBurst b =
    ⟨b / d.lowColumns / d.banksPerRank % d.ranksPerChannel, b / d.lowColumns % d.banksPerRank,
      b / d.lowColumns / d.banksPerRank / d.ranksPerChannel / d.highColumns % d.rowsPerBank⟩ := by
  obtain ⟨hr, hs⟩ := hd.pos
  have hbank : ∀ x, x % d.banksPerRank % 2 ^ 8 = x % d.banksPerRank := fun x => by
    obtain ⟨⟨e, he⟩, hle⟩ := hd.banks
    have := Nat.mod_lt x (he ▸ Nat.two_pow_pos e : 0 < d.banksPerRank)
    exact Nat.mod_eq_of_lt (by omega)
  have hrank : ∀ x, x % d.ranksPerChannel % 2 ^ 8 = x % d.ranksPerChannel := fun x => by
    obtain ⟨⟨e, he⟩, hle⟩ := hd.ranks
    have := Nat.mod_lt x (he ▸ Nat.two_pow_pos e : 0 < d.ranksPerChannel)
    exact Nat.mod_eq_of_lt (by omega)
  have hself : d.burstsPerRowBuffer / d.burstsPerRowBuffer = 1 := Nat.div_self hr
  cases hm : d.addrMapping with
  | RoRaBaChCo => simp only [decodeBurst, highColumns, lowColumns, hm, hbank, hrank, hself, Nat.div_one]
  | RoRaBaCoCh => simp only [decodeBurst, highColumns, lowColumns, hm, hbank, hrank, hself, Nat.div_one]
  | RoCoRaBaCh =>
    simp only [decodeBurst, highColumns, lowColumns, hm, hbank, hrank]
    rcases Nat.lt_trichotomy d.burstsPerStripe d.burstsPerRowBuffer with hlt | heq | hgt
    · rw [if_neg (by omega), if_pos hlt, Nat.min_eq_left (by omega)]
    · rw [heq, if_neg (by omega), if_neg (by omega), Nat.min_self, hself, Nat.div_one]
    · rw [if_pos hgt, if_neg (by omega), Nat.min_eq_right (by omega), hself, Nat.div_one]

theorem Configured.count_place {rank bank row : Nat} (hrank : rank < d.ranksPerChannel)
    (hbank : bank < d.banksPerRank) (hrow : row < d.rowsPerBank) :
    Nat.count (fun b => d.decodeBurst b = ⟨rank, bank, row⟩) d.capacity = d.burstsPerRowBuffer := by
  have hcap : d.capacity =
      d.lowColumns * (d.banksPerRank * (d.ranksPerChannel * (d.highColumns * d.rowsPerBank))) := by
    rw [capacity, ← hd.columns]
    ring
  have hdigits : ∀ b < d.capacity, d.decodeBurst b = ⟨rank, bank, row⟩ ↔
      (b / d.lowColumns % d.banksPerRank = bank ∧ b / d.lowColumns / d.banksPerRank % d.ranksPerChannel = rank ∧
        b / d.lowColumns / d.banksPerRank / d.ranksPerChannel / d.highColumns % d.rowsPerBank = row) := fun b _ => by
    rw [hd.decodeBurst_eq]
    simp only [DramPlace.mk.injEq]
    exact and_left_comm
  rw [Digits.count_congr hdigits, hcap, Digits.count_skip (q := fun c => c % d.banksPerRank = bank ∧
    c / d.banksPerRank % d.ranksPerChannel = rank ∧
      c / d.banksPerRank / d.ranksPerChannel / d.highColumns % d.rowsPerBank = row)]
  rw [Digits.count_digit hbank (q := fun c => c % d.ranksPerChannel = rank ∧
    c / d.ranksPerChannel / d.highColumns % d.rowsPerBank = row)]
  rw [Digits.count_digit hrank (q := fun c => c / d.highColumns % d.rowsPerBank = row)]
  rw [Digits.count_skip (q := fun c => c % d.rowsPerBank = row)]
  have hmod : ∀ c < d.rowsPerBank, c % d.rowsPerBank = row ↔ c = row := fun c hc => by rw [Nat.mod_eq_of_lt hc]
  rw [Digits.count_congr hmod, Digits.count_eq_one hrow, Nat.mul_one, hd.columns]

theorem Configured.group_eq {b b' : Nat}
    (h : b / min d.burstsPerStripe d.burstsPerRowBuffer = b' / min d.burstsPerStripe d.burstsPerRowBuffer) :
    d.decodeBurst b = d.decodeBurst b' := by
  have hdvd : min d.burstsPerStripe d.burstsPerRowBuffer ∣ d.lowColumns := by
    unfold lowColumns
    split
    · exact hd.min_dvd
    · exact hd.min_dvd
    · exact Nat.dvd_refl _
  obtain ⟨c, hc⟩ := hdvd
  have hlow : b / d.lowColumns = b' / d.lowColumns := by
    rw [hc, ← Nat.div_div_eq_div_mul, h, Nat.div_div_eq_div_mul]
  rw [hd.decodeBurst_eq, hd.decodeBurst_eq, hlow]

/-- **The bound on the decoded values**, when the channel has a burst at all. -/
theorem Configured.place_lt (hcap : 0 < d.capacity) (b : Nat) :
    (d.decodeBurst b).rank < d.ranksPerChannel ∧ (d.decodeBurst b).bank < d.banksPerRank ∧
      (d.decodeBurst b).row < d.rowsPerBank := by
  obtain ⟨e, he⟩ := hd.banks.1
  obtain ⟨f, hf⟩ := hd.ranks.1
  have hrows : 0 < d.rowsPerBank := Nat.pos_of_ne_zero fun h => by simp [capacity, h] at hcap
  rw [hd.decodeBurst_eq]
  exact ⟨Nat.mod_lt _ (hf ▸ Nat.two_pow_pos f), Nat.mod_lt _ (he ▸ Nat.two_pow_pos e), Nat.mod_lt _ hrows⟩

end

/-- **Every row is used by as many bursts as it has columns**, and no packet of the channel fails an assertion. -/
theorem decodePacket_rows (hd : d.Configured) :
    (∀ rank < d.ranksPerChannel, ∀ bank < d.banksPerRank, ∀ row < d.rowsPerBank,
      Nat.count (fun b => d.decodeBurst b = ⟨rank, bank, row⟩) d.capacity = d.burstsPerRowBuffer) ∧
    (∀ b b', b / min d.burstsPerStripe d.burstsPerRowBuffer = b' / min d.burstsPerStripe d.burstsPerRowBuffer →
      d.decodeBurst b = d.decodeBurst b') ∧
    ∀ pktAddr b, (d.getCtrlAddr pktAddr).toNat / d.burstSize = b → b < d.capacity →
      (d.decodeBurst b).rank < d.ranksPerChannel ∧ (d.decodeBurst b).bank < d.banksPerRank ∧
      (d.decodeBurst b).row < d.rowsPerBank ∧
      d.decodePacket pktAddr =
        .ok (d.decodeBurst b, d.banksPerRank * (d.decodeBurst b).rank + (d.decodeBurst b).bank) := by
  refine ⟨fun rank hrank bank hbank row hrow => hd.count_place hrank hbank hrow, fun b b' => hd.group_eq,
    fun pktAddr b hb hlt => ?_⟩
  obtain ⟨hrank, hbank, hrow⟩ := hd.place_lt (by omega) b
  have hno : (d.decodeBurst b).row < noRow := by
    have := hd.rows
    unfold noRow
    omega
  have hid : d.banksPerRank * (d.decodeBurst b).rank + (d.decodeBurst b).bank < 2 ^ 16 := by
    have hb256 := hd.banks.2
    have hr256 := hd.ranks.2
    have hmul : d.banksPerRank * (d.decodeBurst b).rank ≤ 256 * 255 := Nat.mul_le_mul hb256 (by omega)
    omega
  refine ⟨hrank, hbank, hrow, ?_⟩
  simp only [decodePacket, hb, hrank, hbank, hrow, hno, decide_true, assertThat_true, Run.ok_bind, Nat.mod_eq_of_lt hid]

/-- Two columns of two bursts, four banks, two ranks and three rows. -/
def sample : DramInterface := ⟨⟨0, 0x1800, [], 0⟩, .RoCoRaBaCh, 64, 4, 2, 2, 4, 3⟩

theorem decodePacket_sample : Nat.count (fun b => sample.decodeBurst b = ⟨1, 2, 2⟩) 96 = 4 :=
  (decodePacket_rows (d := sample) ⟨⟨2, rfl⟩, ⟨1, rfl⟩, ⟨⟨2, rfl⟩, by decide⟩, ⟨⟨1, rfl⟩, by decide⟩, by decide⟩).1
    1 (by decide) 2 (by decide) 2 (by decide)

end DramInterface

end Gem5
