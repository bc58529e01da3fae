import Mathlib.Logic.Equiv.Basic
import Mathlib.Tactic.Common
/-!
# BinaryHeap — `push_heap` and `pop_heap` on an array

A heap is an array whose first element is nowhere preceded: no element comes before its parent.  The order is the
comparator's, which the C++ standard asks to be a strict weak ordering.  `pushHeap` lets the last element rise into the
heap before it; `popHeap` exchanges the first element with the last and lets it sink in the rest.  Both move elements by
exchanges along one path, so that the array they return is a permutation.
-/
namespace BinaryHeap

variable {α : Type} (lt : α → α → Bool)

/-- **A strict weak ordering**: `le x y := ¬ lt y x` is total and transitive. -/
structure StrictWeak : Prop where
  asymm : ∀ {x y : α}, lt x y = true → lt y x = false
  le_trans : ∀ {x y z : α}, lt y x = false → lt z y = false → lt z x = false

def parent (i : Nat) : Nat := (i - 1) / 2

section

variable [Inhabited α]

def siftUp : Nat → Array α → Nat → Array α
  | 0, a, _ => a
  | fuel + 1, a, i =>
    if i = 0 then a
    else if lt a[i]! a[parent i]! then siftUp fuel (a.swapIfInBounds i (parent i)) (parent i)
    else a

def firstChild (a : Array α) (n i : Nat) : Nat :=
  if 2 * i + 2 < n ∧ lt a[2 * i + 2]! a[2 * i + 1]! = true then 2 * i + 2 else 2 * i + 1

def siftDown : Nat → Array α → Nat → Nat → Array α
  | 0, a, _, _ => a
  | fuel + 1, a, n, i =>
    if n ≤ 2 * i + 1 then a
    else
      let m := firstChild lt a n i
      if lt a[m]! a[i]! then siftDown fuel (a.swapIfInBounds i m) n m
      else a

def pushHeap (a : Array α) : Array α := siftUp lt (a.size - 1) a (a.size - 1)

def popHeap (a : Array α) : Array α := siftDown lt (a.size - 1) (a.swapIfInBounds 0 (a.size - 1)) (a.size - 1) 0

/-- **The first `n` elements are a heap.** -/
def IsHeap (a : Array α) (n : Nat) : Prop := ∀ i, 0 < i → i < n → lt a[i]! a[parent i]! = false

end

/-! ## Exchanges -/

@[simp] theorem size_swapIfInBounds (a : Array α) (i j : Nat) : (a.swapIfInBounds i j).size = a.size :=
  Array.size_swapIfInBounds

theorem perm_swapIfInBounds (a : Array α) (i j : Nat) : (a.swapIfInBounds i j).toList.Perm a.toList := by
  rw [Array.swapIfInBounds]
  split
  · split
    · exact (Array.swap_perm ..).toList
    · exact .refl _
  · exact .refl _

variable [Inhabited α]

variable {a : Array α} {i j n : Nat}

theorem getElem!_swapIfInBounds (hi : i < a.size) (hj : j < a.size) (k : Nat) :
    (a.swapIfInBounds i j)[k]! = a[Equiv.swap i j k]! := by
  rw [Array.swapIfInBounds, dif_pos hi, dif_pos hj, Array.getElem!_eq_getD, Array.getElem!_eq_getD,
    Array.getD_eq_getD_getElem?, Array.getD_eq_getD_getElem?, Array.getElem?_swap]
  by_cases hkj : j = k
  · subst hkj
    rw [if_pos rfl, Equiv.swap_apply_right, Array.getElem?_eq_getElem hi]
  · rw [if_neg hkj]
    by_cases hki : i = k
    · subst hki
      rw [if_pos rfl, Equiv.swap_apply_left, Array.getElem?_eq_getElem hj]
    · rw [if_neg hki, Equiv.swap_apply_of_ne_of_ne (Ne.symm hki) (Ne.symm hkj)]

/-! ## Permutation and size -/

theorem perm_siftUp : ∀ (fuel : Nat) (a : Array α) (i : Nat), (siftUp lt fuel a i).toList.Perm a.toList
  | 0, _, _ => .refl _
  | fuel + 1, a, i => by
    rw [siftUp]
    split
    · exact .refl _
    · split
      · exact (perm_siftUp fuel _ _).trans (perm_swapIfInBounds a _ _)
      · exact .refl _

theorem perm_siftDown : ∀ (fuel : Nat) (a : Array α) (n i : Nat), (siftDown lt fuel a n i).toList.Perm a.toList
  | 0, _, _, _ => .refl _
  | fuel + 1, a, n, i => by
    rw [siftDown]
    split
    · exact .refl _
    · dsimp only
      split
      · exact (perm_siftDown fuel _ _ _).trans (perm_swapIfInBounds a _ _)
      · exact .refl _

theorem perm_pushHeap (a : Array α) : (pushHeap lt a).toList.Perm a.toList := perm_siftUp lt _ _ _

theorem perm_popHeap (a : Array α) : (popHeap lt a).toList.Perm a.toList :=
  (perm_siftDown lt _ _ _ _).trans (perm_swapIfInBounds a _ _)

theorem size_pushHeap (a : Array α) : (pushHeap lt a).size = a.size := (perm_pushHeap lt a).length_eq

theorem size_popHeap (a : Array α) : (popHeap lt a).size = a.size := (perm_popHeap lt a).length_eq

/-! ## Rising -/

variable {lt} (h : StrictWeak lt)

/-- **A heap but for the element at `i`**, which may come before its parent: its children come after its parent. -/
structure UpHeap (lt : α → α → Bool) (a : Array α) (n i : Nat) : Prop where
  others : ∀ j, 0 < j → j < n → j ≠ i → lt a[j]! a[parent j]! = false
  grand : 0 < i → ∀ j, 0 < j → j < n → parent j = i → lt a[j]! a[parent i]! = false

include h in
theorem UpHeap.rise (hu : UpHeap lt a n i) (hi : i < n) (hn : n ≤ a.size) (h0 : 0 < i)
    (hlt : lt a[i]! a[parent i]! = true) : UpHeap lt (a.swapIfInBounds i (parent i)) n (parent i) := by
  have hpi : parent i < i := by unfold parent; omega
  have hget := getElem!_swapIfInBounds (a := a) (i := i) (j := parent i) (by omega) (by omega)
  constructor
  · intro j hj0 hj hne
    have hpj : parent j < j := by unfold parent; omega
    by_cases hji : j = i
    · -- the old parent is now below the element that rose
      subst hji
      rw [hget, hget, Equiv.swap_apply_left, Equiv.swap_apply_right]
      exact h.asymm hlt
    · rw [hget, hget, Equiv.swap_apply_of_ne_of_ne hji hne]
      by_cases hpe : parent j = i
      · rw [hpe, Equiv.swap_apply_left]
        exact hu.grand h0 j hj0 hj hpe
      · by_cases hpp : parent j = parent i
        · rw [hpp, Equiv.swap_apply_right]
          have hj' := hu.others j hj0 hj hji
          rw [hpp] at hj'
          exact h.le_trans (h.asymm hlt) hj'
        · rw [Equiv.swap_apply_of_ne_of_ne hpe hpp]
          exact hu.others j hj0 hj hji
  · intro hp0 j hj0 hj hpj
    have hppi : parent (parent i) < parent i := by unfold parent at *; omega
    have hpar := hu.others (parent i) hp0 (by omega) (by omega)
    rw [hget, hget, Equiv.swap_apply_of_ne_of_ne (x := parent (parent i)) (by omega) (by omega)]
    by_cases hji : j = i
    · subst hji
      rw [Equiv.swap_apply_left]
      exact hpar
    · have hjp : j ≠ parent i := by
        intro he
        rw [he] at hpj
        omega
      rw [Equiv.swap_apply_of_ne_of_ne hji hjp]
      have hj' := hu.others j hj0 hj hji
      rw [hpj] at hj'
      exact h.le_trans hpar hj'

theorem UpHeap.stop (hu : UpHeap lt a n i) (hle : 0 < i → lt a[i]! a[parent i]! = false) : IsHeap lt a n := by
  intro j hj0 hj
  by_cases hji : j = i
  · subst hji
    exact hle hj0
  · exact hu.others j hj0 hj hji

include h in
theorem isHeap_siftUp : ∀ (fuel : Nat) (a : Array α) (n i : Nat), UpHeap lt a n i → i < n → n ≤ a.size → i ≤ fuel →
    IsHeap lt (siftUp lt fuel a i) n
  | 0, a, n, i, hu, _, _, hf => by
    rw [siftUp]
    exact hu.stop fun h0 => by omega
  | fuel + 1, a, n, i, hu, hi, hn, hf => by
    rw [siftUp]
    by_cases h0 : i = 0
    · rw [if_pos h0]
      exact hu.stop fun hpos => by omega
    · have hpi : parent i < i := by unfold parent; omega
      rw [if_neg h0]
      by_cases hlt : lt a[i]! a[parent i]! = true
      · rw [if_pos hlt]
        have hu' := hu.rise h hi hn (by omega) hlt
        exact isHeap_siftUp fuel _ n _ hu' (by omega) (by simpa using hn) (by omega)
      · rw [if_neg hlt]
        exact hu.stop fun _ => by simpa using hlt

/-! ## Sinking -/

/-- **A heap but for the element at `i`**, which may come after its children: they come after its parent. -/
structure DownHeap (lt : α → α → Bool) (a : Array α) (n i : Nat) : Prop where
  others : ∀ j, 0 < j → j < n → parent j ≠ i → lt a[j]! a[parent j]! = false
  grand : 0 < i → ∀ j, 0 < j → j < n → parent j = i → lt a[j]! a[parent i]! = false

theorem firstChild_spec (lt : α → α → Bool) (a : Array α) (hi : 2 * i + 1 < n) :
    parent (firstChild lt a n i) = i ∧ i < firstChild lt a n i ∧ firstChild lt a n i < n := by
  unfold firstChild parent
  split <;> omega

include h in
theorem firstChild_le (hj0 : 0 < j) (hj : j < n) (hp : parent j = i) : lt a[j]! a[firstChild lt a n i]! = false := by
  have hself : ∀ x : α, lt x x = false := by
    intro x
    cases hx : lt x x with
    | false => rfl
    | true => exact absurd (h.asymm hx) (by simp [hx])
  have hcase : j = 2 * i + 1 ∨ j = 2 * i + 2 := by unfold parent at hp; omega
  unfold firstChild
  split
  · rename_i hc
    rcases hcase with rfl | rfl
    · exact h.asymm hc.2
    · exact hself _
  · rename_i hc
    rcases hcase with rfl | rfl
    · exact hself _
    · simpa [hj] using hc

include h in
theorem DownHeap.sink (hd : DownHeap lt a n i) (hn : n ≤ a.size) (hi : 2 * i + 1 < n)
    (hlt : lt a[firstChild lt a n i]! a[i]! = true) :
    DownHeap lt (a.swapIfInBounds i (firstChild lt a n i)) n (firstChild lt a n i) := by
  obtain ⟨hpm, him, hmn⟩ := firstChild_spec lt a hi
  have hfirst := fun j hj0 hj hp => firstChild_le h (a := a) (n := n) (i := i) (j := j) hj0 hj hp
  generalize firstChild lt a n i = m at *
  have hget := getElem!_swapIfInBounds (a := a) (i := i) (j := m) (by omega) (by omega)
  constructor
  · intro j hj0 hj hpj
    have hlt' : parent j < j := by unfold parent; omega
    rw [hget, hget]
    by_cases hpi : parent j = i
    · -- the child that rose comes before its sibling, and before the element that sank
      rw [hpi, Equiv.swap_apply_left]
      by_cases hjm : j = m
      · rw [hjm, Equiv.swap_apply_right]
        exact h.asymm hlt
      · rw [Equiv.swap_apply_of_ne_of_ne (by omega) hjm]
        exact hfirst j hj0 hj hpi
    · rw [Equiv.swap_apply_of_ne_of_ne hpi hpj]
      by_cases hji : j = i
      · subst hji
        rw [Equiv.swap_apply_left]
        exact hd.grand hj0 m (by omega) hmn hpm
      · have hjm : j ≠ m := by
          rintro rfl
          exact hpi hpm
        rw [Equiv.swap_apply_of_ne_of_ne hji hjm]
        exact hd.others j hj0 hj hpi
  · intro _ j hj0 hj hpj
    have hlt' : parent j < j := by unfold parent; omega
    rw [hget, hget, hpm, Equiv.swap_apply_left, Equiv.swap_apply_of_ne_of_ne (by omega) (by omega), ← hpj]
    exact hd.others j hj0 hj (by omega)

include h in
theorem isHeap_siftDown : ∀ (fuel : Nat) (a : Array α) (n i : Nat), DownHeap lt a n i → n ≤ a.size → n ≤ fuel + i →
    IsHeap lt (siftDown lt fuel a n i) n
  | 0, a, n, i, hd, _, hf => by
    rw [siftDown]
    intro j hj0 hj
    have hlt' : parent j < j := by unfold parent; omega
    exact hd.others j hj0 hj (by omega)
  | fuel + 1, a, n, i, hd, hn, hf => by
    rw [siftDown]
    by_cases hi : n ≤ 2 * i + 1
    · rw [if_pos hi]
      intro j hj0 hj
      exact hd.others j hj0 hj (by unfold parent; omega)
    · have hi' : 2 * i + 1 < n := by omega
      obtain ⟨hpm, him, hmn⟩ := firstChild_spec lt a hi'
      rw [if_neg hi]
      dsimp only
      by_cases hlt : lt a[firstChild lt a n i]! a[i]! = true
      · rw [if_pos hlt]
        exact isHeap_siftDown fuel _ n _ (hd.sink h hn hi' hlt) (by simpa using hn) (by omega)
      · rw [if_neg hlt]
        intro j hj0 hj
        by_cases hp : parent j = i
        · rw [hp]
          exact h.le_trans (by simpa using hlt) (firstChild_le h hj0 hj hp)
        · exact hd.others j hj0 hj hp

theorem getElem!_siftDown : ∀ (fuel : Nat) (a : Array α) (n i : Nat), n ≤ a.size → ∀ k, n ≤ k →
    (siftDown lt fuel a n i)[k]! = a[k]!
  | 0, _, _, _, _, _, _ => by rw [siftDown]
  | fuel + 1, a, n, i, hn, k, hk => by
    rw [siftDown]
    by_cases hi : n ≤ 2 * i + 1
    · rw [if_pos hi]
    · obtain ⟨-, him, hmn⟩ := firstChild_spec lt a (show 2 * i + 1 < n by omega)
      rw [if_neg hi]
      dsimp only
      split
      · rw [getElem!_siftDown fuel _ n _ (by simpa using hn) k hk,
          getElem!_swapIfInBounds (by omega) (by omega), Equiv.swap_apply_of_ne_of_ne (by omega) (by omega)]
      · rfl

/-! ## What the two operations do to a heap -/

include h in
theorem IsHeap.root_le (hh : IsHeap lt a n) : ∀ i, i < n → lt a[i]! a[0]! = false := by
  intro i
  induction i using Nat.strongRecOn with
  | ind i ih =>
    intro hi
    by_cases h0 : i = 0
    · subst h0
      cases hx : lt a[0]! a[0]! with
      | false => rfl
      | true => exact absurd (h.asymm hx) (by simp [hx])
    · have hp : parent i < i := by unfold parent; omega
      exact h.le_trans (ih (parent i) hp (by omega)) (hh i (by omega) hi)

include h in
theorem IsHeap.root_le_of_mem (hh : IsHeap lt a a.size) {x : α} (hx : x ∈ a.toList) : lt x a[0]! = false := by
  obtain ⟨i, hi, rfl⟩ := List.getElem_of_mem hx
  have hlt : i < a.size := by simpa using hi
  have := hh.root_le h i hlt
  rwa [getElem!_pos a i hlt] at this

include h in
/-- **`push_back` and `push_heap`**: the element joins the heap. -/
theorem isHeap_push (hh : IsHeap lt a a.size) (x : α) :
    IsHeap lt (pushHeap lt (a.push x)) (pushHeap lt (a.push x)).size ∧
      (pushHeap lt (a.push x)).toList.Perm (x :: a.toList) := by
  constructor
  · rw [size_pushHeap, pushHeap, Array.size_push, Nat.add_sub_cancel]
    have hold : ∀ j, j < a.size → (a.push x)[j]! = a[j]! := by
      intro j hj
      rw [getElem!_pos (a.push x) j (by rw [Array.size_push]; omega), getElem!_pos a j hj, Array.getElem_push_lt]
    apply isHeap_siftUp h
    · constructor
      · intro j hj0 hj hne
        have hp : parent j < j := by unfold parent; omega
        rw [hold j (by omega), hold (parent j) (by omega)]
        exact hh j hj0 (by omega)
      · intro _ j hj0 hj hp
        have hp' : parent j < j := by unfold parent; omega
        omega
    · omega
    · exact Nat.le_of_eq (Array.size_push x).symm
    · omega
  · refine (perm_pushHeap lt _).trans ?_
    rw [Array.toList_push]
    exact List.perm_append_singleton x a.toList

include h in
/-- **`pop_heap` and `pop_back`**: the first element leaves the heap. -/
theorem isHeap_pop (hh : IsHeap lt a a.size) (hpos : 0 < a.size) :
    IsHeap lt (popHeap lt a).pop (popHeap lt a).pop.size ∧ a.toList.Perm (a[0]! :: (popHeap lt a).pop.toList) := by
  have hswap := getElem!_swapIfInBounds (a := a) (i := 0) (j := a.size - 1) hpos (by omega)
  have hbound : a.size - 1 ≤ (a.swapIfInBounds 0 (a.size - 1)).size := by
    rw [size_swapIfInBounds]
    omega
  have hlast : (popHeap lt a)[a.size - 1]! = a[0]! := by
    rw [popHeap, getElem!_siftDown _ _ _ _ hbound _ (Nat.le_refl _), hswap, Equiv.swap_apply_right]
  have hsize := size_popHeap lt a
  constructor
  · rw [Array.size_pop, hsize]
    have hheap : IsHeap lt (popHeap lt a) (a.size - 1) := by
      rw [popHeap]
      apply isHeap_siftDown h
      · constructor
        · intro j hj0 hj hp
          have hp' : parent j < j := by unfold parent; omega
          rw [hswap, hswap, Equiv.swap_apply_of_ne_of_ne (by omega) (by omega),
            Equiv.swap_apply_of_ne_of_ne hp (by omega)]
          exact hh j hj0 (by omega)
        · intro h0
          omega
      · exact hbound
      · omega
    have hold : ∀ j, j < a.size - 1 → (popHeap lt a).pop[j]! = (popHeap lt a)[j]! := by
      intro j hj
      rw [getElem!_pos _ j (by rw [Array.size_pop]; omega), getElem!_pos (popHeap lt a) j (by omega), Array.getElem_pop]
    intro j hj0 hj
    have hp : parent j < j := by unfold parent; omega
    rw [hold j hj, hold (parent j) (by omega)]
    exact hheap j hj0 hj
  · refine (perm_popHeap lt a).symm.trans ?_
    have hne : (popHeap lt a).toList ≠ [] := by
      intro he
      have hlen := congrArg List.length he
      rw [Array.length_toList, hsize, List.length_nil] at hlen
      omega
    have hget : (popHeap lt a).toList.getLast hne = a[0]! := by
      rw [List.getLast_eq_getElem, ← hlast, getElem!_pos (popHeap lt a) (a.size - 1) (by omega)]
      simp [hsize]
    rw [Array.toList_pop, ← hget]
    exact (List.Perm.of_eq (List.dropLast_concat_getLast hne).symm).trans (List.perm_append_singleton _ _)

end BinaryHeap
