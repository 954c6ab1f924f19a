import Posterior.Sampler

/-!
A program run over and over: each run starts from an empty store and from the generator that the run before
it left, whether or not that run failed.
-/

set_option autoImplicit false

namespace Posterior

variable {α : Type} [Arithmetic α]

def cycle (statements : List (Node α)) (g : Generator α) :
    Except (Halt α) (Result α) × Generator α :=
  let after := (Interpreter.mk statements .empty).run g
  (after.1, after.2.2)

def generatorAt (statements : List (Node α)) (g : Generator α) : Nat → Generator α
  | 0 => g
  | i + 1 => (cycle statements (generatorAt statements g i)).2

def outcomeAt (statements : List (Node α)) (g : Generator α) (i : Nat) :
    Except (Halt α) (Result α) :=
  (cycle statements (generatorAt statements g i)).1

section

variable {α : Type}

/-- The failure an outcome is, if the program itself failed. -/
def failure? : Except (Halt α) (Result α) → Option (Failure α)
  | .error (.failure f) => some f
  | .error .overflow | .error .tooDeep | .ok _ => none

def failuresIn (o : Nat → Except (Halt α) (Result α)) (k : Nat) : Nat :=
  (List.range k).countP fun i => (failure? (o i)).isSome

theorem failuresIn_succ (o : Nat → Except (Halt α) (Result α)) (k : Nat) :
    failuresIn o (k + 1) = failuresIn o k + if (failure? (o k)).isSome then 1 else 0 := by
  simp [failuresIn, List.range_succ, List.countP_append, List.countP_cons]

end

theorem run_statements (i : Interpreter α) (g : Generator α) :
    (i.run g).2.1.statements = i.statements := by
  unfold Interpreter.run Interpreter.perform
  split <;> rfl

/-- A reset run of an interpreter is a cycle of its program, whatever its store held. -/
theorem exists_of_cycle (i : Interpreter α) {g g' : Generator α}
    {outcome : Except (Halt α) (Result α)} (h : cycle i.statements g = (outcome, g')) :
    ∃ j : Interpreter α, j.statements = i.statements ∧ i.reset.run g = (outcome, j, g') := by
  have hj := run_statements i.reset g
  change ((i.reset.run g).1, (i.reset.run g).2.2) = (outcome, g') at h
  rcases hr : i.reset.run g with ⟨outcome', j, g''⟩
  rw [hr] at h hj
  cases h
  exact ⟨j, hj, rfl⟩

namespace Sampler

theorem attempt_stored (s : Sampler α) :
    s.attempt.sampler.samples = s.samples ∧
      s.attempt.sampler.logProbabilities = s.logProbabilities := by
  unfold attempt
  split
  · exact ⟨rfl, rfl⟩
  · split <;> exact ⟨rfl, rfl⟩
  · exact ⟨rfl, rfl⟩

theorem attempt_interpreter (s : Sampler α) :
    s.attempt.sampler.interpreter = (s.interpreter.reset.run s.generator).2.1 := by
  unfold attempt
  split
  · next h => rw [h]
  · next h => split <;> rw [h]
  · next h => rw [h]

theorem run_of_attempt {s : Sampler α} {result : Result α} (h : s.attempt.outcome = .ok (some result)) :
    (s.interpreter.reset.run s.generator).1 = .ok result := by
  unfold attempt at h
  split at h
  · next hr =>
    rw [hr, Option.some.inj (Except.ok.inj h)]
  · split at h <;> cases h
  · cases h

variable (s : Sampler α)

theorem attempt_of_ok {result : Result α} {g : Generator α}
    (h : cycle s.interpreter.statements s.generator = (.ok result, g)) :
    ∃ (i : Interpreter α) (events : List (Event α)),
      i.statements = s.interpreter.statements ∧
      s.attempt = ⟨.ok (some result), { s with interpreter := i, generator := g }, events⟩ := by
  obtain ⟨i, hi, hr⟩ := exists_of_cycle s.interpreter h
  refine ⟨i, [.ran i.statements.length result.totalLogProb], hi, ?_⟩
  rw [attempt, hr]

theorem attempt_of_skipped {f : Failure α} {g : Generator α} (hp : s.policy = .skip)
    (h : cycle s.interpreter.statements s.generator = (.error (.failure f), g)) :
    ∃ i : Interpreter α, i.statements = s.interpreter.statements ∧
      s.attempt = ⟨.ok none,
        { s with interpreter := i, generator := g, failures := s.failures + 1 },
        [.skipped f]⟩ := by
  obtain ⟨i, hi, hr⟩ := exists_of_cycle s.interpreter h
  refine ⟨i, hi, ?_⟩
  rw [attempt, hr]
  simp only [hp]

theorem attempt_of_halted {halt : Halt α} {g : Generator α}
    (hp : ∀ f, halt = .failure f → s.policy = .raise)
    (h : cycle s.interpreter.statements s.generator = (.error halt, g)) :
    ∃ (i : Interpreter α) (phase : Phase), i.statements = s.interpreter.statements ∧
      (∀ f, halt = .failure f → phase = .idle) ∧
      s.attempt = ⟨.error halt, { s with interpreter := i, generator := g, phase }, []⟩ := by
  obtain ⟨i, hi, hr⟩ := exists_of_cycle s.interpreter h
  rcases halt with f | _ | _
  · refine ⟨i, .idle, hi, fun _ _ => rfl, ?_⟩
    rw [attempt, hr]
    simp only [hp f rfl]
  · refine ⟨i, s.phase, hi, nofun, ?_⟩
    rw [attempt, hr]
  · refine ⟨i, s.phase, hi, nofun, ?_⟩
    rw [attempt, hr]

end Sampler

end Posterior
