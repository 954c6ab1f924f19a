import Posterior.Condition
import Posterior.Sampler

/-!
Rejection sampling: runs are repeated until enough of them meet a condition or a budget of attempts is
used up. Without a condition every run is accepted.
-/

set_option autoImplicit false

namespace Posterior

abbrev Criterion (α : Type) := Result α → Bool

def Condition.criterion {α : Type} [Arithmetic α] (c : Condition α) : Criterion α :=
  fun result => c.accepts result.bindings

instance {α : Type} [Arithmetic α] : Coe (Option (Condition α)) (Option (Criterion α)) :=
  ⟨Option.map Condition.criterion⟩

structure Rejection (α : Type) extends Sampler α where
  condition : Option (Criterion α) := none
  attempts : Nat := 0
  accepted : Nat := 0

structure RejectionSummary (α : Type) where
  rate : α
  attempts : Nat
  accepted : Nat
  success : Bool
  phase : Phase
  failures : Nat
  deriving Repr

namespace Rejection

variable {α : Type} [Arithmetic α]

def attemptFactor : Nat := 100

def rate (r : Rejection α) : α :=
  if r.attempts = 0 then Arithmetic.zero
  else Arithmetic.ofNat r.accepted / Arithmetic.ofNat r.attempts

def accepts (r : Rejection α) (result : Result α) : Bool :=
  match r.condition with
  | none => true
  | some criterion => criterion result

def settle (r : Rejection α) (result : Option (Result α)) : Rejection α :=
  let r := { r with attempts := r.attempts + 1 }
  match result with
  | none => r
  | some result =>
    if r.accepts result then
      { r with toSampler := r.toSampler.keep result, accepted := r.accepted + 1 }
    else r

/-- The report due after the coming attempt; it counts the samples accepted before it. -/
def progress (r : Rejection α) : List (Event α) :=
  if (r.attempts + 1) % progressInterval = 0 then [.attempted (r.attempts + 1) r.accepted] else []

def loop (wanted : Nat) : (budget : Nat) → Rejection α → Array (Event α) →
    Except (Halt α) Unit × Rejection α × Array (Event α)
  | 0, r, events => (.ok (), r, events)
  | budget + 1, r, events =>
    if wanted ≤ r.accepted then (.ok (), r, events)
    else
      match r.toSampler.attempt with
      | ⟨.error halt, sampler, more⟩ =>
        (.error halt, { r with toSampler := sampler }, events ++ more)
      | ⟨.ok result, sampler, more⟩ =>
        let events := events ++ more ++ r.progress
        loop wanted budget ({ r with toSampler := sampler }.settle result) events

def restart (r : Rejection α) : Rejection α :=
  { r with toSampler := r.toSampler.begin, attempts := 0, accepted := 0 }

def finish (r : Rejection α) (wanted : Nat) : Rejection α :=
  { r with phase := if wanted ≤ r.accepted then .converged else .exhausted }

def summary (r : Rejection α) (wanted : Nat) : RejectionSummary α :=
  { rate := r.rate
    attempts := r.attempts
    accepted := r.accepted
    success := wanted ≤ r.accepted
    phase := r.phase
    failures := r.failures }

def closing (r : Rejection α) (wanted budget : Nat) : List (Event α) :=
  .rejectionCompleted r.attempts r.accepted r.rate ::
    if wanted ≤ r.accepted then [] else [.budgetExhausted budget r.accepted wanted]

def collect (r : Rejection α) (wanted budget : Nat) :
    Report α (Rejection α) (RejectionSummary α) :=
  match loop wanted budget r.restart #[.rejectionStarted wanted] with
  | (.error halt, r, events) => ⟨.error (.halted halt), r, events.toList⟩
  | (.ok (), r, events) =>
    let r := r.finish wanted
    ⟨.ok (r.summary wanted), r, events.toList ++ r.closing wanted budget⟩

def run (r : Rejection α) (samples : Argument α) (budget : Option (Argument α)) :
    Report α (Rejection α) (RejectionSummary α) :=
  match samples.count? with
  | none => ⟨.error (.badCount "num_samples" samples), r, []⟩
  | some wanted =>
    match budget with
    | none => r.collect wanted (wanted * attemptFactor)
    | some b =>
      match b.count? with
      | none => ⟨.error (.badCount "max_attempts" b), r, []⟩
      | some budget => r.collect wanted budget

end Rejection

end Posterior
