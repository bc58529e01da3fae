import Mathlib.Data.Nat.Bitwise
import Mathlib.Order.Monotone.Basic
/-!
# RemoveBits — numbers without some of their bits

Bits are taken out of a number one by one, at growing positions; the position of a later bit has moved down by the bits
already taken out.  `source` says where the bits of the result come from: it is strictly increasing, and its values are
the positions that stay.
-/
namespace RemoveBits

def dropBit (j n : Nat) : Nat := 2 ^ j * (n / 2 ^ (j + 1)) + n % 2 ^ j

def addBit (j : Nat) (b : Bool) (n : Nat) : Nat := 2 ^ j * (2 * (n / 2 ^ j) + b.toNat) + n % 2 ^ j

def skip (j p : Nat) : Nat := if p < j then p else p + 1

theorem testBit_dropBit (j n p : Nat) : (dropBit j n).testBit p = n.testBit (skip j p) := by
  rw [dropBit, Nat.testBit_two_pow_mul_add _ (Nat.mod_lt n (Nat.two_pow_pos j)), skip]
  split
  · rename_i h
    rw [Nat.testBit_mod_two_pow, decide_eq_true h, Bool.true_and]
  · rename_i h
    rw [Nat.testBit_div_two_pow]
    congr 1
    omega

theorem testBit_addBit_skip (j : Nat) (b : Bool) (n p : Nat) : (addBit j b n).testBit (skip j p) = n.testBit p := by
  rw [addBit, Nat.testBit_two_pow_mul_add _ (Nat.mod_lt n (Nat.two_pow_pos j)), skip]
  by_cases h : p < j
  · rw [if_pos h, if_pos h, Nat.testBit_mod_two_pow, decide_eq_true h, Bool.true_and]
  · have hsucc : p + 1 - j = (p - j) + 1 := by omega
    have hdiv : (2 * (n / 2 ^ j) + b.toNat) / 2 = n / 2 ^ j := by
      have hb := b.toNat_lt
      omega
    rw [if_neg h, if_neg (by omega), hsucc, Nat.testBit_succ, hdiv, Nat.testBit_div_two_pow]
    congr 1
    omega

theorem testBit_addBit_self (j : Nat) (b : Bool) (n : Nat) : (addBit j b n).testBit j = b := by
  rw [addBit, Nat.testBit_two_pow_mul_add _ (Nat.mod_lt n (Nat.two_pow_pos j)), if_neg (Nat.lt_irrefl j), Nat.sub_self,
    Nat.testBit_zero]
  cases b <;> simp

theorem skip_strictMono (j : Nat) : StrictMono (skip j) := by
  intro p q h
  rw [skip, skip]
  split <;> split <;> omega

/-! ## Several bits -/

/-- Take out the bits at the positions of the list, `i` of which have been taken out before. -/
def dropBits : Nat → List Nat → Nat → Nat
  | _, [], n => n
  | i, l :: ls, n => dropBits (i + 1) ls (dropBit (l - i) n)

def addBits (g : Nat → Bool) : Nat → List Nat → Nat → Nat
  | _, [], n => n
  | i, l :: ls, n => addBit (l - i) (g l) (addBits g (i + 1) ls n)

def source : Nat → List Nat → Nat → Nat
  | _, [], p => p
  | i, l :: ls, p => skip (l - i) (source (i + 1) ls p)

theorem testBit_dropBits (i : Nat) (ls : List Nat) (n p : Nat) :
    (dropBits i ls n).testBit p = n.testBit (source i ls p) := by
  induction ls generalizing i n with
  | nil => rfl
  | cons l ls ih => rw [dropBits, ih, testBit_dropBit, source]

theorem testBit_addBits_source (g : Nat → Bool) (i : Nat) (ls : List Nat) (n p : Nat) :
    (addBits g i ls n).testBit (source i ls p) = n.testBit p := by
  induction ls generalizing i with
  | nil => rfl
  | cons l ls ih => rw [addBits, source, testBit_addBit_skip, ih]

theorem dropBits_addBits (g : Nat → Bool) (i : Nat) (ls : List Nat) (n : Nat) : dropBits i ls (addBits g i ls n) = n :=
  Nat.eq_of_testBit_eq fun p => by rw [testBit_dropBits, testBit_addBits_source]

theorem source_strictMono (i : Nat) (ls : List Nat) : StrictMono (source i ls) := by
  induction ls generalizing i with
  | nil => exact fun _ _ h => h
  | cons l ls ih => exact fun p q h => skip_strictMono _ (ih (i + 1) h)

theorem source_le (i : Nat) (ls : List Nat) (p : Nat) : source i ls p ≤ p + ls.length := by
  induction ls generalizing i with
  | nil => exact Nat.le_refl p
  | cons l ls ih =>
    have := ih (i + 1)
    rw [source, skip, List.length_cons]
    split <;> omega

theorem source_eq (i : Nat) (ls : List Nat) (p : Nat) (h : ∀ l ∈ ls, l - i < p + ls.length) :
    source i ls p = p + ls.length := by
  induction ls generalizing i with
  | nil => rfl
  | cons l ls ih =>
    have hl := h l List.mem_cons_self
    have hrest : ∀ x ∈ ls, x - (i + 1) < p + ls.length := by
      intro x hx
      have hlt := h x (List.mem_cons_of_mem _ hx)
      have hpos := List.length_pos_of_mem hx
      rw [List.length_cons] at hlt
      omega
    rw [List.length_cons] at hl ⊢
    rw [source, ih (i + 1) hrest, skip, if_neg (by omega)]
    rfl

section Sorted

variable {i : Nat} {ls : List Nat}

theorem testBit_addBits_self (g : Nat → Bool) (hs : ls.Pairwise (· < ·)) (hi : ∀ l ∈ ls, i ≤ l) (n : Nat) {l : Nat}
    (hl : l ∈ ls) : (addBits g i ls n).testBit (l - i) = g l := by
  induction ls generalizing i with
  | nil => cases hl
  | cons x ls ih =>
    obtain ⟨hx, hs⟩ := List.pairwise_cons.1 hs
    have hix := hi x List.mem_cons_self
    rcases List.mem_cons.1 hl with rfl | hl
    · rw [addBits, testBit_addBit_self]
    · have hlt := hx l hl
      have hskip : l - i = skip (x - i) (l - (i + 1)) := by
        rw [skip]
        split <;> omega
      rw [addBits, hskip, testBit_addBit_skip]
      exact ih hs (fun y hy => Nat.lt_of_le_of_lt hix (hx y hy)) hl

theorem source_not_mem (hs : ls.Pairwise (· < ·)) (p : Nat) : source 0 ls p ∉ ls := by
  intro hmem
  -- a number put in there would have any bit, and the bit it had
  have hbit : ∀ g : Nat → Bool, g (source 0 ls p) = Nat.testBit 0 p := fun g => by
    rw [← testBit_addBits_source g 0 ls 0 p, ← testBit_addBits_self g hs (fun _ _ => Nat.zero_le _) 0 hmem]
    rfl
  exact Bool.false_ne_true ((hbit fun _ => false).trans (hbit fun _ => true).symm)

theorem exists_source (hs : ls.Pairwise (· < ·)) (hi : ∀ l ∈ ls, i ≤ l) {p : Nat} (hp : ∀ l ∈ ls, p ≠ l - i) :
    ∃ q, source i ls q = p := by
  induction ls generalizing i p with
  | nil => exact ⟨p, rfl⟩
  | cons x ls ih =>
    obtain ⟨hx, hs⟩ := List.pairwise_cons.1 hs
    have hix := hi x List.mem_cons_self
    have hpx := hp x List.mem_cons_self
    have hskip : skip (x - i) (if p < x - i then p else p - 1) = p := by
      rw [skip]
      by_cases h : p < x - i
      · rw [if_pos h, if_pos h]
      · rw [if_neg h, if_neg (by omega)]
        omega
    obtain ⟨q, hq⟩ := ih hs (fun y hy => Nat.lt_of_le_of_lt hix (hx y hy)) (fun y hy heq => by
      have hlt := hx y hy
      have hne := hp y (List.mem_cons_of_mem _ hy)
      split at heq <;> omega : ∀ y ∈ ls, (if p < x - i then p else p - 1) ≠ y - (i + 1))
    exact ⟨q, by rw [source, hq, hskip]⟩

/-- Bits put in from the lowest up, each at its own position. -/
def climb (ls : List Nat) (p : Nat) : Nat := ls.foldl (fun p l => skip l p) p

omit i ls in
theorem skip_skip {i j : Nat} (h : i < j) (p : Nat) : skip j (skip i p) = skip i (skip (j - 1) p) := by
  simp only [skip]
  split_ifs <;> omega

omit i in
theorem climb_skip {l : Nat} (h : ∀ x ∈ ls, l < x) (p : Nat) :
    climb ls (skip l p) = skip l (climb (ls.map (· - 1)) p) := by
  induction ls generalizing p with
  | nil => rfl
  | cons x ls ih =>
    rw [climb, List.foldl_cons, skip_skip (h x List.mem_cons_self)]
    exact ih (fun y hy => h y (List.mem_cons_of_mem _ hy)) _

theorem source_map_pred (p : Nat) : source i (ls.map (· - 1)) p = source (i + 1) ls p := by
  induction ls generalizing i with
  | nil => rfl
  | cons x ls ih => rw [List.map_cons, source, ih, source, Nat.sub_sub, Nat.add_comm 1]

/-- **From the lowest up or from the highest down**: the bits come from the same places. -/
theorem climb_eq_source (hs : ls.Pairwise (· < ·)) (p : Nat) : climb ls p = source 0 ls p := by
  induction hn : ls.length generalizing ls with
  | zero =>
    rw [List.length_eq_zero_iff.1 hn]
    rfl
  | succ n ih =>
    obtain ⟨l, ls, rfl⟩ := List.exists_cons_of_length_eq_add_one hn
    obtain ⟨hl, hs⟩ := List.pairwise_cons.1 hs
    have hpred : (ls.map (· - 1)).Pairwise (· < ·) := by
      refine List.pairwise_map.2 (hs.imp_of_mem fun hx hy hxy => ?_)
      have := hl _ hx
      omega
    rw [climb, List.foldl_cons, ← climb, climb_skip hl, ih hpred (by simpa using hn), source_map_pred]
    rfl

end Sorted

/-! ## Order -/

theorem exists_top_difference {a b : Nat} (h : a < b) :
    ∃ i, a.testBit i = false ∧ b.testBit i = true ∧ ∀ j, i < j → a.testBit j = b.testBit j := by
  have hne : a ^^^ b ≠ 0 := fun h0 => Nat.ne_of_lt h (Nat.xor_eq_zero_iff.1 h0)
  obtain ⟨i, hi, habove⟩ := Nat.exists_most_significant_bit hne
  have hagree : ∀ j, i < j → a.testBit j = b.testBit j := by
    intro j hj
    have := habove j hj
    rw [Nat.testBit_xor] at this
    simpa using this
  rw [Nat.testBit_xor] at hi
  cases ha : a.testBit i with
  | false =>
    rw [ha, Bool.false_xor] at hi
    exact ⟨i, ha, hi, hagree⟩
  | true =>
    rw [ha, Bool.true_xor, Bool.not_eq_true'] at hi
    exact absurd (Nat.lt_of_testBit i hi ha fun j hj => (hagree j hj).symm) (Nat.lt_asymm h)

theorem dropBits_lt {i : Nat} {ls : List Nat} {a b p : Nat} (ha : a.testBit (source i ls p) = false)
    (hb : b.testBit (source i ls p) = true) (hagree : ∀ j, source i ls p < j → a.testBit j = b.testBit j) :
    dropBits i ls a < dropBits i ls b := by
  refine Nat.lt_of_testBit p ?_ ?_ fun j hj => ?_
  · rw [testBit_dropBits, ha]
  · rw [testBit_dropBits, hb]
  · rw [testBit_dropBits, testBit_dropBits]
    exact hagree _ (source_strictMono i ls hj)

section Boundary

variable {ls : List Nat} (hs : ls.Pairwise (· < ·)) {w : Nat} (hw : ∀ l ∈ ls, l < w)

include hs hw

/-- **A multiple of a power of two above all the positions** keeps its order against every number. -/
theorem le_iff_dropBits_le {t : Nat} (ht : 2 ^ w ∣ t) (a : Nat) : t ≤ a ↔ dropBits 0 ls t ≤ dropBits 0 ls a := by
  have hlow : ∀ p, p < w → t.testBit p = false := by
    intro p hp
    obtain ⟨c, rfl⟩ := ht
    rw [Nat.testBit_two_pow_mul, decide_eq_false (by omega), Bool.false_and]
  constructor
  · intro hle
    rcases Nat.lt_or_eq_of_le hle with hlt | rfl
    · obtain ⟨i, h0, h1, hagree⟩ := exists_top_difference hlt
      by_cases hin : i ∈ ls
      · -- below the bit in which they differ, the multiple has no bit at all
        refine Nat.le_of_testBit fun p hp => ?_
        rw [testBit_dropBits] at hp ⊢
        rw [← hagree _ (Nat.lt_of_lt_of_le (hw i hin) (Nat.le_of_not_lt fun hc => by rw [hlow _ hc] at hp; cases hp))]
        exact hp
      · obtain ⟨q, hq⟩ := exists_source hs (fun _ _ => Nat.zero_le _) (p := i) fun l hl heq => hin (heq ▸ hl)
        exact Nat.le_of_lt (dropBits_lt (hq ▸ h0) (hq ▸ h1) (hq ▸ hagree))
    · exact Nat.le_refl _
  · intro hle
    by_contra hlt
    obtain ⟨i, h0, h1, hagree⟩ := exists_top_difference (Nat.lt_of_not_le hlt)
    have hiw : w ≤ i := Nat.le_of_not_lt fun hc => by rw [hlow i hc] at h1; cases h1
    obtain ⟨q, hq⟩ := exists_source hs (fun _ _ => Nat.zero_le _) (p := i) fun l hl heq => by
      have := hw l hl
      rw [Nat.sub_zero] at heq
      omega
    exact Nat.not_lt.2 hle (dropBits_lt (hq ▸ h0) (hq ▸ h1) (hq ▸ hagree))

omit hs in
theorem dropBits_eq_div {t : Nat} (ht : 2 ^ w ∣ t) : dropBits 0 ls t = t / 2 ^ ls.length := by
  have hlow : ∀ p, p < w → t.testBit p = false := by
    intro p hp
    obtain ⟨c, rfl⟩ := ht
    rw [Nat.testBit_two_pow_mul, decide_eq_false (by omega), Bool.false_and]
  refine Nat.eq_of_testBit_eq fun p => ?_
  rw [testBit_dropBits, Nat.testBit_div_two_pow, Nat.add_comm]
  by_cases hp : p + ls.length < w
  · rw [hlow _ (Nat.lt_of_le_of_lt (source_le 0 ls p) hp), hlow _ (by omega)]
  · rw [source_eq 0 ls p fun l hl => by have := hw l hl; omega, Nat.add_comm]

end Boundary

end RemoveBits
