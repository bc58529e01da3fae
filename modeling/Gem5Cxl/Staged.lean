import Mathlib.Data.List.Basic
import Mathlib.Data.List.Perm.Basic
/-!
# Staged — items that wait in two lists and leave in batches

Items join the current list or the waiting one, move from the head of the waiting list to the end of the current one, and
leave the current list in batches.  A batch is the whole list, or its first item with the ones that need no order.  The
`ordered` items leave in the order they came; an item that is to be served `alone` heads its batch as long as no
promotion puts one behind another.
-/
namespace Staged

open List (append_assoc append_nil cons_append filter_append)

variable {α β : Type}

structure State (α : Type) where
  batches : List (List α)
  current : List α
  waiting : List α
  added : List α

def State.items (s : State α) : List α := s.batches.flatten ++ s.current ++ s.waiting

section Moves

variable (ordered alone : α → Bool)

/-- How a batch leaves the current list: the list, the batch, what stays. -/
inductive Serve : List α → List α → List α → Prop
  | all (l : List α) : Serve l l []
  | first (a : α) (l : List α) : Serve (a :: l) (a :: l.filter fun b => !ordered b) (l.filter ordered)

/-- One move.  With `strict`, a promotion moves no item that is to be served alone, unless it moves just that one to an
empty list. -/
inductive Move (strict : Prop) (s : State α) : State α → Prop
  | stay : Move strict s s
  | join (a : α) (h : ordered a = true → s.waiting = [] ∧ (alone a = true → s.current = [])) :
      Move strict s { s with current := s.current ++ [a], added := s.added ++ [a] }
  | defer (a : α) : Move strict s { s with waiting := s.waiting ++ [a], added := s.added ++ [a] }
  | promote (moved rest : List α) (h : s.waiting = moved ++ rest)
      (apart : strict → (∀ a ∈ moved, alone a = false) ∨ s.current = [] ∧ moved.length ≤ 1) :
      Move strict s { s with current := s.current ++ moved, waiting := rest }
  | serve (batch rest : List α) (h : Serve ordered s.current batch rest) :
      Move strict s { s with batches := s.batches ++ [batch], current := rest }

/-- Nothing is lost or doubled, and the ordered items keep their order. -/
structure Conserved (s : State α) : Prop where
  perm : s.items.Perm s.added
  order : s.items.filter ordered = s.added.filter ordered

/-- An item served alone is the first of its list and of its batch. -/
structure Apart (s : State α) : Prop where
  current : ∀ a ∈ s.current.tail, alone a = false
  batches : ∀ b ∈ s.batches, ∀ a ∈ b.tail, alone a = false

end Moves

variable {ordered alone : α → Bool} {strict : Prop} {s s' : State α}

variable {batch l rest : List α} {a : α}

section

variable (h : Serve ordered l batch rest)
include h

theorem Serve.perm : (batch ++ rest).Perm l := by
  cases h with
  | all => rw [append_nil]
  | first a l =>
    rw [cons_append]
    refine List.Perm.cons a (List.perm_append_comm.trans ?_)
    exact List.filter_append_perm ordered l

theorem Serve.order : (batch ++ rest).filter ordered = l.filter ordered := by
  cases h with
  | all => rw [append_nil]
  | first a l =>
    have hnone : (l.filter fun b => !ordered b).filter ordered = [] := by
      rw [List.filter_filter, List.filter_eq_nil_iff]
      intro b _
      cases ordered b <;> simp
    have hall : (l.filter ordered).filter ordered = l.filter ordered := by rw [List.filter_filter]; simp
    rw [cons_append, List.filter_cons, filter_append, hnone, hall, List.nil_append, List.filter_cons]

theorem Serve.mem_batch_tail (ha : a ∈ batch.tail) : a ∈ l.tail := by
  cases h with
  | all => exact ha
  | first b l => exact (List.mem_filter.1 ha).1

theorem Serve.mem_rest (ha : a ∈ rest) : a ∈ l.tail := by
  cases h with
  | all => cases ha
  | first b l => exact (List.mem_filter.1 ha).1

end

theorem Move.conserved (h : Move ordered alone strict s s') (hs : Conserved ordered s) : Conserved ordered s' := by
  obtain ⟨hperm, horder⟩ := hs
  unfold State.items at hperm horder
  cases h with
  | stay => exact ⟨hperm, horder⟩
  | join a h =>
    have hitems : ((s.batches.flatten ++ (s.current ++ [a])) ++ s.waiting).Perm (s.added ++ [a]) := by
      refine List.Perm.trans ?_ (hperm.append_right [a])
      simp only [append_assoc]
      exact ((List.perm_append_comm.append_left s.current).append_left s.batches.flatten)
    refine ⟨hitems, ?_⟩
    show ((s.batches.flatten ++ (s.current ++ [a])) ++ s.waiting).filter ordered = (s.added ++ [a]).filter ordered
    cases ha : ordered a with
    | false =>
      have hnone : [a].filter ordered = [] := by simp [ha]
      rw [filter_append s.added, hnone, append_nil, ← horder]
      simp only [filter_append, hnone, append_nil]
    | true =>
      rw [(h ha).1, append_nil] at horder ⊢
      rw [← append_assoc, filter_append, horder, filter_append]
  | defer a =>
    refine ⟨?_, ?_⟩
    · show ((s.batches.flatten ++ s.current) ++ (s.waiting ++ [a])).Perm (s.added ++ [a])
      rw [← append_assoc]
      exact hperm.append_right [a]
    · show ((s.batches.flatten ++ s.current) ++ (s.waiting ++ [a])).filter ordered = (s.added ++ [a]).filter ordered
      rw [← append_assoc, filter_append, horder, filter_append]
  | promote moved rest hw _ =>
    have hitems : s.batches.flatten ++ (s.current ++ moved) ++ rest = s.batches.flatten ++ s.current ++ s.waiting := by
      rw [hw]
      simp only [append_assoc]
    refine ⟨?_, ?_⟩
    · show (s.batches.flatten ++ (s.current ++ moved) ++ rest).Perm s.added
      rw [hitems]
      exact hperm
    · show (s.batches.flatten ++ (s.current ++ moved) ++ rest).filter ordered = s.added.filter ordered
      rw [hitems]
      exact horder
  | serve batch rest hserve =>
    have hitems : (s.batches ++ [batch]).flatten ++ rest ++ s.waiting = s.batches.flatten ++ (batch ++ rest) ++ s.waiting := by
      simp only [List.flatten_append, List.flatten_singleton, append_assoc]
    refine ⟨?_, ?_⟩
    · show ((s.batches ++ [batch]).flatten ++ rest ++ s.waiting).Perm s.added
      rw [hitems]
      exact ((hserve.perm.append_left _).append_right _).trans hperm
    · show ((s.batches ++ [batch]).flatten ++ rest ++ s.waiting).filter ordered = s.added.filter ordered
      rw [hitems, filter_append, filter_append, hserve.order, ← horder, filter_append, filter_append]

/-- **A strict move keeps what is to be served alone at the head.** -/
theorem Move.apart (h : Move ordered alone strict s s') (hstrict : strict) (hord : ∀ a, alone a = true → ordered a = true)
    (hs : Apart alone s) : Apart alone s' := by
  cases h with
  | stay => exact hs
  | join a h =>
    refine ⟨fun b hb => ?_, hs.batches⟩
    have hb' : b ∈ (s.current ++ [a]).tail := hb
    cases hcur : s.current with
    | nil =>
      rw [hcur] at hb'
      cases hb'
    | cons c cs =>
      rw [hcur, cons_append, List.tail_cons] at hb'
      rcases List.mem_append.1 hb' with hb' | hb'
      · exact hs.current b (by rw [hcur]; exact hb')
      · obtain rfl := List.mem_singleton.1 hb'
        cases hal : alone b with
        | false => rfl
        | true => exact absurd ((h (hord b hal)).2 hal) (by rw [hcur]; exact List.cons_ne_nil _ _)
  | defer a => exact ⟨hs.current, hs.batches⟩
  | promote moved rest hw apart =>
    refine ⟨fun b hb => ?_, hs.batches⟩
    have hb' : b ∈ (s.current ++ moved).tail := hb
    rcases apart hstrict with hno | ⟨hcur, hlen⟩
    · cases hcur : s.current with
      | nil =>
        rw [hcur, List.nil_append] at hb'
        exact hno b (List.mem_of_mem_tail hb')
      | cons c cs =>
        rw [hcur, cons_append, List.tail_cons] at hb'
        rcases List.mem_append.1 hb' with hb' | hb'
        · exact hs.current b (by rw [hcur]; exact hb')
        · exact hno b hb'
    · rw [hcur, List.nil_append] at hb'
      match moved, hlen with
      | [], _ => cases hb'
      | [a], _ => cases hb'
  | serve batch rest hserve =>
    refine ⟨fun b hb => hs.current b (hserve.mem_rest (List.mem_of_mem_tail hb)), fun l hl b hb => ?_⟩
    rcases List.mem_append.1 hl with hl | hl
    · exact hs.batches l hl b hb
    · obtain rfl := List.mem_singleton.1 hl
      exact hs.current b (hserve.mem_batch_tail hb)

/-- **Within a batch, no ordered item added before it comes with an item that is served alone.**  `key` grows in the order
of addition. -/
theorem first_of_batch (hc : Conserved ordered s) (ha : Apart alone s) (hord : ∀ a, alone a = true → ordered a = true)
    {key : α → Nat} (hkey : s.added.Pairwise fun a b => key a < key b) (hb : batch ∈ s.batches) {m t : α}
    (hm : m ∈ batch) (halone : alone m = true) (ht : t ∈ batch) (hordt : ordered t = true) : key m ≤ key t := by
  obtain ⟨a, l, rfl⟩ := List.exists_cons_of_ne_nil (List.ne_nil_of_mem hm)
  obtain rfl : m = a := by
    rcases List.mem_cons.1 hm with h | h
    · exact h
    · exact absurd halone (by rw [ha.batches _ hb m h]; exact Bool.false_ne_true)
  rcases List.mem_cons.1 ht with rfl | ht
  · exact Nat.le_refl _
  · have hsub : ((m :: l).filter ordered).Sublist s.added := by
      have h1 : (m :: l).Sublist s.items :=
        ((List.sublist_flatten_of_mem hb).trans (List.sublist_append_left _ _)).trans (List.sublist_append_left _ _)
      exact (hc.order ▸ h1.filter ordered).trans List.filter_sublist
    have hpair := hkey.sublist hsub
    rw [List.filter_cons, if_pos (hord m halone), List.pairwise_cons] at hpair
    exact Nat.le_of_lt (hpair.1 t (List.mem_filter.2 ⟨ht, hordt⟩))

end Staged
