import Mathlib.Data.List.FinRange
/-!
# ByteStore — arrays of cells, written in slices

A store is a total function on cell indices.  `slice` reads a run of cells and `patch` writes one, leaving the cells
with no new value as they were.  `lastWritten` reads a cell off a log of writes, newest first.  `lastWritten_entries`
relates the two: logging a slice and patching it are the same.
-/
namespace ByteStore

variable {α : Type}

def slice (m : Nat → α) (o n : Nat) : Fin n → α := fun i => m (o + i)

def patch (m : Nat → α) (o : Nat) {n : Nat} (d : Fin n → Option α) : Nat → α := fun x =>
  if h : o ≤ x ∧ x - o < n then (d ⟨x - o, h.2⟩).getD (m x) else m x

variable {n x : Nat}

section

variable (m : Nat → α) (o : Nat) (d : Fin n → Option α)

theorem patch_of_lt (h : x < o) : patch m o d x = m x := by
  rw [patch, dif_neg (by omega)]

theorem patch_of_ge (h : o + n ≤ x) :
    patch m o d x = m x := by
  rw [patch, dif_neg (by omega)]

theorem patch_add (i : Fin n) :
    patch m o d (o + i) = (d i).getD (m (o + i)) := by
  have h : o ≤ o + i.val ∧ o + i.val - o < n := ⟨by omega, by omega⟩
  rw [patch, dif_pos h]
  congr 2
  exact Fin.ext (by simp)

theorem patch_cases (x : Nat) :
    (∃ i : Fin n, x = o + i ∧ patch m o d x = (d i).getD (m x)) ∨
      ((∀ i : Fin n, x ≠ o + i) ∧ patch m o d x = m x) := by
  by_cases hlt : x < o
  · exact Or.inr ⟨fun i => by omega, patch_of_lt m o d hlt⟩
  · by_cases hge : o + n ≤ x
    · exact Or.inr ⟨fun i => by omega, patch_of_ge m o d hge⟩
    · have hx : x = o + (⟨x - o, by omega⟩ : Fin n) := by
        show x = o + (x - o)
        omega
      refine Or.inl ⟨⟨x - o, by omega⟩, hx, ?_⟩
      have h := patch_add m o d ⟨x - o, by omega⟩
      rwa [← hx] at h

end

theorem patch_none (m : Nat → α) (o n : Nat) : patch m o (fun _ : Fin n => none) = m := by
  funext x
  rcases patch_cases m o (fun _ : Fin n => none) x with ⟨i, -, h⟩ | ⟨-, h⟩ <;> exact h

/-! ## The log of writes -/

def lastWritten (init : Nat → α) : List (Nat × α) → Nat → α
  | [], x => init x
  | (y, v) :: t, x => if x = y then v else lastWritten init t x

/-- What a patch logs: one line for each cell that has a new value. -/
def entries (o : Nat) {n : Nat} (d : Fin n → Option α) : List (Nat × α) :=
  (List.finRange n).filterMap (fun i => (d i).map (fun v => (o + i.val, v)))

theorem lastWritten_append (init : Nat → α) : ∀ (s t : List (Nat × α)) (x : Nat),
    lastWritten init (s ++ t) x = lastWritten (lastWritten init t) s x
  | [], _, _ => rfl
  | (y, v) :: s, t, x => by
    rw [List.cons_append, lastWritten, lastWritten, lastWritten_append init s t x]

theorem lastWritten_of_notMem (init : Nat → α) : ∀ (s : List (Nat × α)) (x : Nat),
    (∀ v, (x, v) ∉ s) → lastWritten init s x = init x
  | [], _, _ => rfl
  | (y, v) :: s, x, h => by
    have hxy : x ≠ y := by
      intro hxy
      subst hxy
      exact h v List.mem_cons_self
    rw [lastWritten, if_neg hxy]
    exact lastWritten_of_notMem init s x (fun w hw => h w (List.mem_cons_of_mem _ hw))

theorem lastWritten_of_mem (init : Nat → α) : ∀ (s : List (Nat × α)) (x : Nat) (v : α),
    (x, v) ∈ s → (∀ w, (x, w) ∈ s → w = v) → lastWritten init s x = v
  | (y, w) :: s, x, v, hm, hu => by
    rw [lastWritten]
    by_cases hxy : x = y
    · subst hxy
      rw [if_pos rfl]
      exact hu w List.mem_cons_self
    · rw [if_neg hxy]
      have hm' : (x, v) ∈ s := by
        rcases List.mem_cons.1 hm with h | h
        · exact absurd (Prod.ext_iff.1 h).1 hxy
        · exact h
      exact lastWritten_of_mem init s x v hm' (fun u hu' => hu u (List.mem_cons_of_mem _ hu'))

theorem mem_entries {o : Nat} {d : Fin n → Option α} {v : α} :
    (x, v) ∈ entries o d ↔ ∃ i : Fin n, d i = some v ∧ x = o + i := by
  simp only [entries, List.mem_filterMap, List.mem_finRange, true_and, Option.map_eq_some_iff, Prod.mk.injEq]
  constructor
  · rintro ⟨i, w, hw, rfl, rfl⟩
    exact ⟨i, hw, rfl⟩
  · rintro ⟨i, hw, rfl⟩
    exact ⟨i, v, hw, rfl, rfl⟩

theorem lastWritten_entries (init : Nat → α) (log : List (Nat × α)) (o : Nat) (d : Fin n → Option α) :
    lastWritten init (entries o d ++ log) = patch (lastWritten init log) o d := by
  funext x
  rw [lastWritten_append]
  rcases patch_cases (lastWritten init log) o d x with ⟨i, hx, hp⟩ | ⟨hx, hp⟩
  · rw [hp]
    cases hd : d i with
    | none =>
      apply lastWritten_of_notMem
      intro v hv
      obtain ⟨j, hj, hxj⟩ := mem_entries.1 hv
      have hij : j = i := Fin.ext (by omega)
      rw [hij, hd] at hj
      cases hj
    | some v =>
      apply lastWritten_of_mem _ _ _ _ (mem_entries.2 ⟨i, hd, hx⟩)
      intro w hw
      obtain ⟨j, hj, hxj⟩ := mem_entries.1 hw
      have hij : j = i := Fin.ext (by omega)
      rw [hij, hd] at hj
      exact (Option.some.inj hj).symm
  · rw [hp]
    apply lastWritten_of_notMem
    intro v hv
    obtain ⟨i, -, hxi⟩ := mem_entries.1 hv
    exact hx i hxi

end ByteStore
