import Mathlib.Algebra.BigOperators.Group.Finset.Piecewise
import Mathlib.Algebra.Order.Group.Multiset
import Mathlib.Tactic.Abel
/-!
# UndoLog — a map, and a log of its changes that can be undone from one end and forgotten from the other

An entry of the log keeps the key it changed, the new value and the value it replaced.  `Leads base log m` says that the
changes of `log`, newest first, lead from `base` to `m`.  The newest entry can be undone, and the oldest forgotten, which
moves the base.  `held` counts the values a map and its log hold on to: a change takes one value in, an undo gives it
back, and to forget an entry gives back the value it replaced.
-/
namespace UndoLog

structure Entry (κ β : Type) where
  key : κ
  new : β
  prev : β

section Leads

variable {κ β : Type} [DecidableEq κ]

inductive Leads (base : κ → β) : List (Entry κ β) → (κ → β) → Prop where
  | nil : Leads base [] base
  | cons {e : Entry κ β} {log : List (Entry κ β)} {m : κ → β} :
      Leads base log m → e.prev = m e.key → Leads base (e :: log) (Function.update m e.key e.new)

variable {base : κ → β}

theorem Leads.undo {m : κ → β} {e : Entry κ β} {log : List (Entry κ β)} (h : Leads base (e :: log) m) :
    m e.key = e.new ∧ Leads base log (Function.update m e.key e.prev) := by
  cases h with
  | cons h hp =>
    refine ⟨Function.update_self _ _ _, ?_⟩
    rw [Function.update_idem, hp, Function.update_eq_self]
    exact h

theorem Leads.det : ∀ {log : List (Entry κ β)} {m m' : κ → β}, Leads base log m → Leads base log m' →
    m = m'
  | [], _, _, .nil, .nil => rfl
  | _ :: _, _, _, .cons h _, .cons h' _ => by rw [Leads.det h h']

/-- **A log in two parts**: the older part leads to the base of the newer one. -/
theorem leads_append : ∀ {log old : List (Entry κ β)} {m : κ → β},
    Leads base (log ++ old) m ↔ ∃ mid, Leads base old mid ∧ Leads mid log m
  | [], old, m => by
    constructor
    · intro h
      exact ⟨m, h, .nil⟩
    · rintro ⟨mid, h, h'⟩
      cases h'
      exact h
  | e :: log, old, m => by
    constructor
    · rintro (_ | ⟨h, hp⟩)
      obtain ⟨mid, h₁, h₂⟩ := leads_append.1 h
      exact ⟨mid, h₁, .cons h₂ hp⟩
    · rintro ⟨mid, h₁, h₂⟩
      cases h₂ with
      | cons h₂ hp => exact .cons (leads_append.2 ⟨mid, h₁, h₂⟩) hp

end Leads

/-! ## What a map and its log hold -/

section Held

variable {κ β : Type} [DecidableEq β]

def remembered (log : List (Entry κ β)) : Multiset β :=
  ((log.filter (fun e => decide (e.new ≠ e.prev))).map Entry.prev : List β)

def held (S : Finset κ) (m : κ → β) (log : List (Entry κ β)) : Multiset β := S.val.map m + remembered log

theorem remembered_nil : remembered ([] : List (Entry κ β)) = 0 := rfl

theorem remembered_cons (e : Entry κ β) (log : List (Entry κ β)) :
    remembered (e :: log) = remembered log + if e.new ≠ e.prev then {e.prev} else 0 := by
  unfold remembered
  by_cases h : e.new ≠ e.prev
  · rw [List.filter_cons_of_pos (by simpa using h), List.map_cons, if_pos h, ← Multiset.cons_coe,
      ← Multiset.singleton_add, add_comm]
  · rw [List.filter_cons_of_neg (by simpa using h), if_neg h, add_zero]

theorem remembered_append (log old : List (Entry κ β)) : remembered (log ++ old) = remembered log + remembered old := by
  unfold remembered
  rw [List.filter_append, List.map_append, Multiset.coe_add]

variable {S : Finset κ} {m : κ → β} {e : Entry κ β} {log : List (Entry κ β)}

theorem held_same (he : e.new = e.prev) : held S m (e :: log) = held S m log := by
  unfold held
  rw [remembered_cons, if_neg (by simp [he]), add_zero]

theorem held_forget (S : Finset κ) (m : κ → β) (log : List (Entry κ β)) (e : Entry κ β) :
    held S m log + (if e.new ≠ e.prev then {e.prev} else 0) = held S m (log ++ [e]) := by
  unfold held
  rw [remembered_append, remembered_cons, remembered_nil, zero_add, add_assoc]

variable [DecidableEq κ]

omit [DecidableEq β] in
theorem map_update {k : κ} (hk : k ∈ S) (m : κ → β) (v : β) :
    S.val.map (Function.update m k v) + {m k} = S.val.map m + {v} := by
  have hrest : (S.erase k).val.map (Function.update m k v) = (S.erase k).val.map m := by
    apply Multiset.map_congr rfl
    intro x hx
    exact Function.update_of_ne (Finset.ne_of_mem_erase hx) v m
  rw [← Finset.insert_erase hk, Finset.insert_val_of_notMem (Finset.notMem_erase k S), Multiset.map_cons,
    Multiset.map_cons, hrest, Function.update_self, ← Multiset.singleton_add, ← Multiset.singleton_add]
  abel

theorem held_change (hk : e.key ∈ S) (hp : e.prev = m e.key) (hne : e.new ≠ e.prev) :
    held S (Function.update m e.key e.new) (e :: log) = held S m log + {e.new} := by
  unfold held
  rw [remembered_cons, if_pos hne, hp]
  calc S.val.map (Function.update m e.key e.new) + (remembered log + {m e.key})
      = (S.val.map (Function.update m e.key e.new) + {m e.key}) + remembered log := by abel
    _ = (S.val.map m + {e.new}) + remembered log := by rw [map_update hk]
    _ = S.val.map m + remembered log + {e.new} := by abel

theorem held_undo {base : κ → β} (h : Leads base (e :: log) m) (hk : e.key ∈ S) (hne : e.new ≠ e.prev) :
    held S (Function.update m e.key e.prev) log + {e.new} = held S m (e :: log) := by
  cases h with
  | cons h hp =>
    rw [Function.update_idem, hp, Function.update_eq_self, held_change hk hp hne]

end Held

theorem sum_update_add {ι M : Type} [Fintype ι] [DecidableEq ι] [AddCommMonoid M] (f : ι → M) (i : ι) (v : M) :
    ∑ x, Function.update f i v x + f i = ∑ x, f x + v := by
  rw [Finset.sum_update_of_mem (Finset.mem_univ i), ← Finset.sum_sdiff (Finset.subset_univ {i}), Finset.sum_singleton]
  abel

end UndoLog
