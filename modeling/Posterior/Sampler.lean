import Posterior.Interpreter
import Posterior.Statistics

/-!
Samplers repeat the run of a program and store what the runs leave. This module holds what all of them
share: the stored samples, the policy for runs that fail, one attempt, and the summary of a variable.
-/

set_option autoImplicit false

namespace Posterior

inductive Policy where
  | raise
  | skip
  deriving DecidableEq, Repr

inductive Phase where
  | idle
  | sampling
  | converged
  | exhausted
  | completed
  deriving DecidableEq, Repr

def Phase.name : Phase → String
  | .idle => "idle"
  | .sampling => "sampling"
  | .converged => "converged"
  | .exhausted => "exhausted"
  | .completed => "completed"

inductive Event (α : Type) where
  | ran (statements : Nat) (totalLogProb : α)
  | skipped (failure : Failure α)
  | rejectionStarted (wanted : Nat)
  | attempted (attempts accepted : Nat)
  | rejectionCompleted (attempts accepted : Nat) (rate : α)
  | budgetExhausted (budget accepted wanted : Nat)
  | importanceStarted (wanted : Nat)
  | generated (done wanted : Nat)
  | importanceCompleted (samples : Nat) (effectiveSize ratio : α)
  deriving Repr

def progressInterval : Nat := 1000

inductive Argument (α : Type) where
  | missing
  | boolean (value : Bool)
  | integer (value : Int)
  | number (value : α)
  | text (value : String)
  | list (items : List (Argument α))
  | table (entries : List (String × Argument α))
  deriving Repr

/-- The count an argument is: a whole number from one on. A truth value is not a number. -/
def Argument.count? {α : Type} : Argument α → Option Nat
  | .integer n => if 1 ≤ n then some n.toNat else none
  | .missing | .boolean _ | .number _ | .text _ | .list _ | .table _ => none

def Policy.ofArgument? {α : Type} : Argument α → Option Policy
  | .text "raise" => some .raise
  | .text "skip" => some .skip
  | _ => none

/-- The policy followed when any argument at all is put in its place: only one name raises. -/
def Policy.ofAnyArgument {α : Type} (a : Argument α) : Policy :=
  (Policy.ofArgument? a).getD .skip

inductive SamplingFault (α : Type) where
  | badPolicy (got : Argument α)
  | badCount (name : String) (got : Argument α)
  | allFailed (runs : Nat)
  | zeroWeight
  | halted (halt : Halt α)
  deriving Repr

structure Report (α σ β : Type) where
  outcome : Except (SamplingFault α) β
  sampler : σ
  events : List (Event α)

structure Sampler (α : Type) where
  interpreter : Interpreter α
  generator : Generator α
  policy : Policy
  samples : Array (Result α) := #[]
  logProbabilities : Array α := #[]
  failures : Nat := 0
  phase : Phase := .idle

structure Attempt (α : Type) where
  outcome : Except (Halt α) (Option (Result α))
  sampler : Sampler α
  events : List (Event α)

inductive UnbindFault where
  | noSample
  | noVariable (name : String)
  deriving DecidableEq, Repr

namespace Sampler

variable {α : Type} [Arithmetic α]

def create (interpreter : Interpreter α) (generator : Generator α) (policy : Argument α) :
    Except (SamplingFault α) (Sampler α) :=
  match Policy.ofArgument? policy with
  | some policy => .ok { interpreter, generator, policy }
  | none => .error (.badPolicy policy)

def begin (s : Sampler α) : Sampler α :=
  { s with samples := #[], logProbabilities := #[], failures := 0, phase := .sampling }

/-- Runs the program once on an empty store. A failed run ends the sampling or is counted and skipped, as
the policy says; what stops a run for another reason ends the sampling under any policy. -/
def attempt (s : Sampler α) : Attempt α :=
  match s.interpreter.reset.run s.generator with
  | (.ok result, interpreter, generator) =>
    { outcome := .ok (some result)
      sampler := { s with interpreter, generator }
      events := [.ran interpreter.statements.length result.totalLogProb] }
  | (.error (.failure failure), interpreter, generator) =>
    match s.policy with
    | .raise =>
      { outcome := .error (.failure failure)
        sampler := { s with interpreter, generator, phase := .idle }
        events := [] }
    | .skip =>
      { outcome := .ok none
        sampler := { s with interpreter, generator, failures := s.failures + 1 }
        events := [.skipped failure] }
  | (.error halt, interpreter, generator) =>
    { outcome := .error halt
      sampler := { s with interpreter, generator }
      events := [] }

def keep (s : Sampler α) (result : Result α) : Sampler α :=
  { s with
    samples := s.samples.push result
    logProbabilities := s.logProbabilities.push result.totalLogProb }

def values (s : Sampler α) (name : String) : List α :=
  s.samples.toList.filterMap fun r => r.bindings.get? name

def statistics (s : Sampler α) (name : String) : Option (Statistics α) :=
  Statistics.ofValues (s.values name)

def unbind (s : Sampler α) (index : Int) (name : String) : Except UnbindFault (Sampler α) :=
  let place := if index < 0 then index + s.samples.size else index
  match if place < 0 then none else s.samples[place.toNat]? with
  | none => .error .noSample
  | some r =>
    match r.bindings.get? name with
    | none => .error (.noVariable name)
    | some _ =>
      let r := { r with bindings := r.bindings.erase name }
      .ok { s with samples := s.samples.setIfInBounds place.toNat r }

end Sampler

end Posterior
