import Posterior.Proofs.Sampling.Loops
import Posterior.Proofs.Sampling.Requests

/-!
The phase a sampler stands in behind a request. A request that returns leaves it at rest, one that fails does
not always: a failure of the program puts the phase back, but weights that are all zero, and what stops a run
under any policy, leave it sampling.
-/

set_option autoImplicit false

namespace Posterior

section Phases

variable {α : Type}

def Halt.phase : Halt α → Phase
  | .failure _ => .idle
  | .overflow | .tooDeep => .sampling

def SamplingFault.phase : SamplingFault α → Phase
  | .badPolicy _ | .badCount .. | .allFailed _ => .idle
  | .zeroWeight => .sampling
  | .halted halt => halt.phase

/-- The phase behind runs that were made while sampling, before the sampling is brought to its end. -/
def phaseBehind {β : Type} : Except (Halt α) β → Phase
  | .ok _ => .sampling
  | .error halt => halt.phase

theorem Rejection.settle_phase (r : Rejection α) (result : Option (Result α)) :
    (r.settle result).phase = r.phase := by
  unfold settle
  cases result with
  | none => rfl
  | some result =>
    dsimp only
    split <;> rfl

end Phases

variable {α : Type} [Arithmetic α]

theorem Sampler.phase_of_attempt {s sampler : Sampler α} {events : List (Event α)}
    {outcome : Except (Halt α) (Option (Result α))} (hs : s.phase = .sampling)
    (h : s.attempt = ⟨outcome, sampler, events⟩) : sampler.phase = phaseBehind outcome := by
  unfold attempt at h
  split at h
  · cases h
    exact hs
  · split at h
    · cases h
      rfl
    · cases h
      exact hs
  · -- What stops a run for another reason than a failure passes through with the phase as it is.
    next halt i g hf hr =>
    cases h
    rcases halt with f | _ | _
    · exact absurd rfl (hf f)
    · exact hs
    · exact hs

namespace Rejection

theorem loop_phase {wanted budget : Nat} {r r' : Rejection α} {events events' : Array (Event α)}
    {outcome : Except (Halt α) Unit} (hr : r.phase = .sampling)
    (h : loop wanted budget r events = (outcome, r', events')) : r'.phase = phaseBehind outcome := by
  -- Between two attempts the sampler is sampling, whatever has been settled so far.
  refine loop_induction (motive := fun outcome r => r.phase = phaseBehind outcome) ?_ ?_ hr h
  · intro r result sampler events ha hr
    rw [settle_phase]
    exact Sampler.phase_of_attempt hr ha
  · exact fun r halt sampler events ha hr => Sampler.phase_of_attempt hr ha

/-- How a request that passes its checks ends: in the phase its summary tells, or in the one of the halt that
it raises. -/
def EndsIn (outcome : Except (SamplingFault α) (RejectionSummary α)) (phase : Phase) : Prop :=
  match outcome with
  | .ok summary => phase = summary.phase ∧ phase = if summary.success then .converged else .exhausted
  | .error fault => ∃ halt, fault = .halted halt ∧ phase = halt.phase

theorem collect_endsIn (r s : Rejection α) (wanted budget : Nat) :
    Answers (fun outcome r => EndsIn outcome r.phase) s (r.collect wanted budget) := by
  unfold collect
  split
  · next halt r' events h => exact answers_of_passed rfl ⟨halt, rfl, loop_phase rfl h⟩
  · next r' events h =>
    refine answers_of_passed rfl ⟨rfl, ?_⟩
    change (if wanted ≤ r'.accepted then Phase.converged else .exhausted) =
      if decide (wanted ≤ r'.accepted) = true then .converged else .exhausted
    split
    · next h => rw [if_pos (decide_eq_true h)]
    · next h => rw [if_neg (fun hd => h (of_decide_eq_true hd))]

theorem run_endsIn (r : Rejection α) (samples : Argument α) (budget : Option (Argument α)) :
    Answers (fun outcome r => EndsIn outcome r.phase) r (r.run samples budget) := by
  unfold run
  split
  · rfl
  · split
    · exact collect_endsIn ..
    · split
      · rfl
      · exact collect_endsIn ..

end Rejection

namespace Importance

theorem loop_phase {wanted left : Nat} {s s' : Importance α} {events events' : Array (Event α)}
    {outcome : Except (Halt α) Unit} (hs : s.phase = .sampling)
    (h : loop wanted left s events = (outcome, s', events')) : s'.phase = phaseBehind outcome := by
  refine loop_induction (motive := fun outcome s => s.phase = phaseBehind outcome) ?_ ?_ hs h
  · intro s result sampler events ha hs
    have hp : sampler.phase = .sampling := Sampler.phase_of_attempt hs ha
    cases result <;> exact hp
  · exact fun s halt sampler events ha hs => Sampler.phase_of_attempt hs ha

def EndsIn (outcome : Except (SamplingFault α) (ImportanceSummary α)) (phase : Phase) : Prop :=
  match outcome with
  | .ok summary => phase = summary.phase ∧ phase = .completed
  | .error fault => phase = fault.phase

theorem conclude_endsIn {s : Importance α} (hs : s.phase = .sampling) (start : Importance α)
    (wanted : Nat) (events : List (Event α)) :
    Answers (fun outcome s => EndsIn outcome s.phase) start (s.conclude wanted events) := by
  unfold conclude
  split
  · exact answers_of_passed rfl rfl
  · split
    · exact answers_of_passed rfl hs
    · exact answers_of_passed rfl ⟨rfl, rfl⟩

theorem run_endsIn (s : Importance α) (samples : Argument α) :
    Answers (fun outcome s => EndsIn outcome s.phase) s (s.run samples) := by
  unfold run
  split
  · rfl
  · unfold collect
    split
    · next halt s' events h => exact answers_of_passed rfl (loop_phase rfl h)
    · next s' events h => exact conclude_endsIn (loop_phase rfl h) ..

end Importance

/-- The phase of a sampler behind any requests made of it since it was new: idle before the first that passes
its checks, and then the one in which the last of these ended. -/
theorem phase_of_requests (interpreter : Interpreter α) (generator : Generator α) (policy : Policy) :
    (∀ (condition : Option (Criterion α)) (requests : List (Argument α × Option (Argument α))),
      let fresh : Rejection α := { interpreter, generator, policy, condition }
      let served := serveAll (fun r q => r.run q.1 q.2) fresh requests
      match lastPassed? served.1 with
      | none => served.2.phase = .idle
      | some outcome => Rejection.EndsIn outcome served.2.phase) ∧
    ∀ requests : List (Argument α),
      let fresh : Importance α := { interpreter, generator, policy, effectiveSize := Arithmetic.zero }
      let served := serveAll Importance.run fresh requests
      match lastPassed? served.1 with
      | none => served.2.phase = .idle
      | some outcome => Importance.EndsIn outcome served.2.phase := by
  constructor
  · intro condition requests fresh served
    obtain ⟨hnone, hsome⟩ := serveAll_of_answers (fun r q => Rejection.run_endsIn r q.1 q.2) fresh requests
    cases hl : lastPassed? served.1 with
    | none => exact congrArg (·.phase) (hnone hl)
    | some outcome => exact hsome outcome hl
  · intro requests fresh served
    obtain ⟨hnone, hsome⟩ := serveAll_of_answers Importance.run_endsIn fresh requests
    cases hl : lastPassed? served.1 with
    | none => exact congrArg (·.phase) (hnone hl)
    | some outcome => exact hsome outcome hl

/-- A program that observes what its distribution excludes leaves the sampler in the middle of sampling. -/
theorem sampling_of_zero_weight :
    let fresh : Importance Float :=
      { interpreter := ⟨[.call "observe" [.number 2, .call "uniform" [.number 0, .number 1]]], .empty⟩
        generator := .cycle 0.5 #[]
        policy := .raise
        effectiveSize := Arithmetic.zero }
    let report := fresh.run (.integer 1)
    report.outcome = .error .zeroWeight ∧ report.sampler.phase = .sampling :=
  ⟨rfl, rfl⟩

end Posterior
