import Gem5Cxl.Basic
/-!
# Slicc — controllers generated from a transition table (`mem/slicc`)

A generated controller looks up the transition of its state and event, runs the actions of the transition in their order,
and then sets the next state.  A pair that has no transition is a panic.  A transition whose only action is a stall runs
no action and leaves the message where it is.
-/
namespace Gem5.Slicc

variable {σ ε α ξ : Type}

def runActions (act : α → ξ → Except Failure ξ) : List α → ξ → Except Failure ξ
  | [], x => .ok x
  | a :: as, x => do
    let x ← act a x
    runActions act as x

def doTransition (table : σ → ε → Option (List α × σ)) (act : α → ξ → Except Failure ξ)
    (setState : σ → ξ → Except Failure ξ) (state : σ) (event : ε) (x : ξ) : Except Failure ξ :=
  match table state event with
  | none => .error (.panic "Invalid transition\n")
  | some (actions, next) => do
    let x ← runActions act actions x
    setState next x

end Gem5.Slicc
