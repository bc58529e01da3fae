import Mathlib.Tactic.Common
/-!
# Basic — how a simulated call ends, and runs of calls

Every modelled function that can stop the simulator answers in `Except Failure`.  `Failure` keeps apart the ways the
source stops: a failed `assert`, a `panic` with its text, a read through a null pointer, an index past the end of a
vector.  `looping` is the model's own: a loop of the source used up the bound the model gives it.
-/
namespace Gem5

inductive Failure where
  | assertFailed
  | panic (text : String)
  | nullPointer
  | outOfBounds
  | looping
deriving DecidableEq, Repr

def assertThat (b : Bool) : Except Failure Unit := if b then .ok () else .error .assertFailed

@[simp] theorem assertThat_true : assertThat true = .ok () := rfl

@[simp] theorem assertThat_eq_ok {b : Bool} {u : Unit} : assertThat b = .ok u ↔ b = true := by
  cases b <;> simp [assertThat]

def panicIf (b : Bool) (text : String) : Except Failure Unit := if b then .error (.panic text) else .ok ()

theorem panicIf_eq_ok {b : Bool} {text : String} {u : Unit} : panicIf b text = .ok u ↔ b = false := by
  cases b <;> simp [panicIf]

end Gem5

/-! ## Runs of a failing step -/
namespace Run

@[simp] theorem ok_bind {ε α β : Type} (a : α) (f : α → Except ε β) : (Except.ok a >>= f) = f a := rfl

@[simp] theorem error_bind {ε α β : Type} (e : ε) (f : α → Except ε β) : ((Except.error e : Except ε α) >>= f) = .error e :=
  rfl

@[simp] theorem pure_eq_ok {ε α : Type} (a : α) : (pure a : Except ε α) = .ok a := rfl

theorem bind_eq_ok {ε α β : Type} {x : Except ε α} {f : α → Except ε β} {b : β} :
    (x >>= f) = .ok b ↔ ∃ a, x = .ok a ∧ f a = .ok b := by
  cases x with
  | error e => simp [bind, Except.bind]
  | ok a => simp [bind, Except.bind]

theorem map_eq_ok {ε α β : Type} {x : Except ε α} {f : α → β} {b : β} : x.map f = .ok b ↔ ∃ a, x = .ok a ∧ f a = b := by
  cases x with
  | error e => simp [Except.map]
  | ok a => simp [Except.map]

theorem exists_map_eq_ok {ε α β : Type} {x : Except ε α} {f : α → β} : (∃ b, x.map f = .ok b) ↔ ∃ a, x = .ok a := by
  cases x with
  | error e => simp [Except.map]
  | ok a => simp [Except.map]

end Run
