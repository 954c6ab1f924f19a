import Posterior.Evaluation

/-!
An interpreter: a program together with the store its runs build up. The generator is handed from run to
run by whoever drives the interpreter.
-/

set_option autoImplicit false

namespace Posterior

structure Result (α : Type) where
  lastValue : Option (Value α)
  bindings : Bindings α
  totalLogProb : α
  observations : List (Observation α)
  deriving Repr

inductive StartFault where
  | unparsed (message : String)
  | notProgram (type : NodeType)
  deriving DecidableEq, Repr

def StartFault.message : StartFault → String
  | .unparsed message => s!"Cannot interpret a program that failed to parse: {message}"
  | .notProgram type => s!"Expected a Program node, got {type.name}"

structure Interpreter (α : Type) where
  statements : List (Node α)
  store : Store α

namespace Interpreter

variable {α β : Type} [Arithmetic α]

def ofNode : Node α → Except StartFault (Interpreter α)
  | .program statements => .ok ⟨statements, .empty⟩
  | .error message _ => .error (.unparsed message)
  | n => .error (.notProgram n.type)

def reset (i : Interpreter α) : Interpreter α := { i with store := .empty }

/-- Performs a step of evaluation. Store and generator are kept whether or not it ends in a value. -/
def perform (i : Interpreter α) (g : Generator α) (step : Eval α β) :
    Except (Halt α) β × Interpreter α × Generator α :=
  match step ⟨i.store, g⟩ with
  | .ok value m => (.ok value, { i with store := m.store }, m.generator)
  | .error halt m => (.error halt, { i with store := m.store }, m.generator)

def evaluate (i : Interpreter α) (g : Generator α) (n : Node α) :
    Except (Halt α) (Value α) × Interpreter α × Generator α :=
  i.perform g (Posterior.evaluate maxDepth n)

def runProgram (statements : List (Node α)) : Eval α (Result α) := do
  let lastValue ← evaluateAll none statements
  let store := (← get).store
  return ⟨lastValue, store.bindings, store.totalLogProb, store.observations⟩

def run (i : Interpreter α) (g : Generator α) :
    Except (Halt α) (Result α) × Interpreter α × Generator α :=
  i.perform g (runProgram i.statements)

end Interpreter

end Posterior
