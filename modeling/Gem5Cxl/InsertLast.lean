import Mathlib.Data.List.Basic
import Mathlib.Data.List.Pairwise
import Mathlib.Data.List.Perm.Basic
/-!
# InsertLast — insertion behind the last element that passes a test

A search from the end of a list stops at the first element that passes `stop`, and the new element goes right behind it;
if none passes, the search fails.
-/
namespace InsertLast

variable {α : Type}

def insert (stop : α → Bool) (x : α) : List α → Option (List α)
  | [] => none
  | e :: t =>
    match insert stop x t with
    | some t' => some (e :: t')
    | none => if stop e then some (e :: x :: t) else none

theorem insert_eq_none {stop : α → Bool} {x : α} {l : List α} : insert stop x l = none ↔ ∀ e ∈ l, stop e = false := by
  induction l with
  | nil => simp [insert]
  | cons e t ih =>
    rw [insert, List.forall_mem_cons, ← ih]
    cases insert stop x t with
    | none => cases stop e <;> simp
    | some t' => simp

theorem insert_eq_some {stop : α → Bool} {x : α} : ∀ {l l' : List α}, insert stop x l = some l' →
    ∃ pre e post, l = pre ++ e :: post ∧ l' = pre ++ e :: x :: post ∧ stop e = true ∧ ∀ y ∈ post, stop y = false
  | [], l', h => by cases h
  | e :: t, l', h => by
    rw [insert] at h
    cases hi : insert stop x t with
    | some t' =>
      rw [hi] at h
      obtain ⟨pre, y, post, rfl, rfl, hy, hpost⟩ := insert_eq_some hi
      obtain rfl := Option.some.inj h
      exact ⟨e :: pre, y, post, rfl, rfl, hy, hpost⟩
    | none =>
      rw [hi] at h
      simp only at h
      split_ifs at h with he
      obtain rfl := Option.some.inj h
      exact ⟨[], e, t, rfl, rfl, he, insert_eq_none.1 hi⟩

/-- An order is kept by an element that is after all those before it and before all those behind it. -/
theorem pairwise_insert {R : α → α → Prop} {A B : List α} {x : α} (h : (A ++ B).Pairwise R) (hA : ∀ a ∈ A, R a x)
    (hB : ∀ b ∈ B, R x b) : (A ++ x :: B).Pairwise R := by
  rw [List.pairwise_append] at h ⊢
  refine ⟨h.1, List.pairwise_cons.2 ⟨hB, h.2.1⟩, fun a ha b hb => ?_⟩
  rcases List.mem_cons.1 hb with rfl | hb
  · exact hA a ha
  · exact h.2.2 a ha b hb

end InsertLast
