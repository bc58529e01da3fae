import Mathlib.Data.List.Basic
/-!
# TaggedFifo — one tag's messages in a shared queue

A queue carries messages under tags.  The messages of one tag, in their order, are a queue of their own: what is appended
under the tag is appended to it, and the head of the shared queue, if it has the tag, is its head.
-/
namespace TaggedFifo

variable {κ μ : Type} [DecidableEq κ]

def view (k : κ) (l : List (κ × μ)) : List μ := l.filterMap fun p => if p.1 = k then some p.2 else none

@[simp] theorem view_nil (k : κ) : view k ([] : List (κ × μ)) = [] := rfl

@[simp] theorem view_cons_self (k : κ) (m : μ) (l : List (κ × μ)) : view k ((k, m) :: l) = m :: view k l := by
  simp [view]

variable {k k' : κ} {l rest : List (κ × μ)} {m : μ}

theorem view_cons_of_ne (h : k' ≠ k) (m : μ) (l : List (κ × μ)) : view k ((k', m) :: l) = view k l := by
  simp [view, h]

theorem view_append (k : κ) (l l' : List (κ × μ)) : view k (l ++ l') = view k l ++ view k l' := by
  simp [view, List.filterMap_append]

theorem view_append_self (k : κ) (l : List (κ × μ)) (m : μ) : view k (l ++ [(k, m)]) = view k l ++ [m] := by
  rw [view_append, view_cons_self, view_nil]

theorem view_append_of_ne (h : k' ≠ k) (l : List (κ × μ)) (m : μ) : view k (l ++ [(k', m)]) = view k l := by
  rw [view_append, view_cons_of_ne h, view_nil, List.append_nil]

theorem view_ite {P : Prop} [Decidable P] {l' : List (κ × μ)} (h : P → view k l' = view k l) :
    view k (if P then l' else l) = view k l := by
  split
  · exact h ‹P›
  · rfl

def pop {α : Type} (popped : Bool) (l : List α) : List α := if popped then l.tail else l

theorem view_pop_self (h : l = (k, m) :: rest) (popped : Bool) : view k (pop popped l) = pop popped (view k l) := by
  subst h
  cases popped <;> simp [pop]

theorem view_pop_of_ne (hk : k' ≠ k) (h : l = (k', m) :: rest) (popped : Bool) : view k (pop popped l) = view k l := by
  subst h
  cases popped
  · rfl
  · exact (view_cons_of_ne hk m rest).symm

/-- The place, among the messages of its tag, of the message at place `i`. -/
def rank (k : κ) (l : List (κ × μ)) (i : Nat) : Nat := (view k (l.take i)).length

theorem getElem?_rank : ∀ {l : List (κ × μ)} {i : Nat}, l[i]? = some (k, m) →
    (view k l)[rank k l i]? = some m ∧ view k (l.eraseIdx i) = (view k l).eraseIdx (rank k l i)
  | [], _, h => by simp at h
  | p :: l, 0, h => by
    rw [List.getElem?_cons_zero, Option.some.injEq] at h
    subst h
    simp [rank]
  | p :: l, i + 1, h => by
    rw [List.getElem?_cons_succ] at h
    obtain ⟨h1, h2⟩ := getElem?_rank h
    obtain ⟨k', m'⟩ := p
    rw [List.eraseIdx_cons_succ]
    by_cases hk : k' = k
    · subst hk
      rw [view_cons_self, view_cons_self, rank, List.take_succ_cons, view_cons_self, List.length_cons]
      exact ⟨h1, congrArg _ h2⟩
    · rw [view_cons_of_ne hk, view_cons_of_ne hk, rank, List.take_succ_cons, view_cons_of_ne hk]
      exact ⟨h1, h2⟩

theorem view_eraseIdx_of_ne (hk : k' ≠ k) : ∀ {l : List (κ × μ)} {i : Nat}, l[i]? = some (k', m) →
    view k (l.eraseIdx i) = view k l
  | [], _, h => by simp at h
  | p :: l, 0, h => by
    rw [List.getElem?_cons_zero, Option.some.injEq] at h
    subst h
    rw [List.eraseIdx_cons_zero, view_cons_of_ne hk]
  | (k₁, m₁) :: l, i + 1, h => by
    rw [List.getElem?_cons_succ] at h
    have ih := view_eraseIdx_of_ne hk h
    rw [List.eraseIdx_cons_succ]
    by_cases hk₁ : k₁ = k
    · subst hk₁
      rw [view_cons_self, view_cons_self, ih]
    · rw [view_cons_of_ne hk₁, view_cons_of_ne hk₁, ih]

end TaggedFifo
