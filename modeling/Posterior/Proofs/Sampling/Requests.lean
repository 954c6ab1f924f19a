import Posterior.Sampler

set_option autoImplicit false

namespace Posterior

section Requests

variable {α β ρ σ : Type}

theorem Argument.count?_natCast {n : Nat} (h : 1 ≤ n) :
    Argument.count? (.integer (n : Int) : Argument α) = some n := by
  rw [Argument.count?, if_pos (by omega), Int.toNat_natCast]

/-- A request with such an outcome passed the checks of its arguments. -/
def Passed : Except (SamplingFault α) β → Bool
  | .error (.badCount ..) => false
  | _ => true

def serveAll (serve : σ → ρ → Report α σ β) (s : σ) :
    List ρ → List (Except (SamplingFault α) β) × σ
  | [] => ([], s)
  | q :: qs =>
    let report := serve s q
    let later := serveAll serve report.sampler qs
    (report.outcome :: later.1, later.2)

def lastPassed? (outcomes : List (Except (SamplingFault α) β)) : Option (Except (SamplingFault α) β) :=
  (outcomes.filter Passed).getLast?

def lastSummary? (outcomes : List (Except (SamplingFault α) β)) : Option β :=
  (outcomes.filterMap Except.toOption).getLast?

theorem lastPassed?_snoc (outcomes : List (Except (SamplingFault α) β))
    (outcome : Except (SamplingFault α) β) :
    lastPassed? (outcomes ++ [outcome]) =
      if Passed outcome then some outcome else lastPassed? outcomes := by
  unfold lastPassed?
  rw [List.filter_append]
  split
  · next h => rw [List.filter_cons_of_pos h, List.filter_nil, List.getLast?_concat]
  · next h => rw [List.filter_cons_of_neg h, List.filter_nil, List.append_nil]

theorem lastSummary?_snoc (outcomes : List (Except (SamplingFault α) β))
    (outcome : Except (SamplingFault α) β) :
    lastSummary? (outcomes ++ [outcome]) = outcome.toOption.or (lastSummary? outcomes) := by
  unfold lastSummary?
  rw [List.filterMap_append]
  cases outcome with
  | error fault => simp [Except.toOption]
  | ok summary => simp [Except.toOption]

theorem serveAll_induction {serve : σ → ρ → Report α σ β}
    {motive : List (Except (SamplingFault α) β) → σ → Prop}
    (step : ∀ outcomes s q, motive outcomes s →
      motive (outcomes ++ [(serve s q).outcome]) (serve s q).sampler)
    {outcomes : List (Except (SamplingFault α) β)} {s : σ} (h : motive outcomes s) (qs : List ρ) :
    motive (outcomes ++ (serveAll serve s qs).1) (serveAll serve s qs).2 := by
  induction qs generalizing outcomes s with
  | nil => rwa [serveAll, List.append_nil]
  | cons q qs ih =>
    have hq := ih (step outcomes s q h)
    rwa [List.append_assoc] at hq

/-- A request made of `s` that does not pass the checks changes nothing, and `P` holds of what one that passes
them comes to and leaves. -/
def Answers (P : Except (SamplingFault α) β → σ → Prop) (s : σ) (report : Report α σ β) : Prop :=
  if Passed report.outcome then P report.outcome report.sampler else report.sampler = s

theorem answers_of_passed {P : Except (SamplingFault α) β → σ → Prop} {s : σ} {report : Report α σ β}
    (hp : Passed report.outcome) (h : P report.outcome report.sampler) : Answers P s report := by
  rwa [Answers, if_pos hp]

theorem Answers.imp {P Q : Except (SamplingFault α) β → σ → Prop} {s : σ} {report : Report α σ β}
    (h : Answers P s report) (hpq : ∀ outcome t, P outcome t → Q outcome t) : Answers Q s report := by
  unfold Answers at h ⊢
  split at h
  · next hp =>
    rw [if_pos hp]
    exact hpq _ _ h
  · next hp =>
    rw [if_neg hp]
    exact h

/-- Behind any requests the sampler is as the last one left it that passed the checks. -/
theorem serveAll_of_answers {serve : σ → ρ → Report α σ β} {P : Except (SamplingFault α) β → σ → Prop}
    (h : ∀ s q, Answers P s (serve s q)) (s : σ) (qs : List ρ) :
    let served := serveAll serve s qs
    (lastPassed? served.1 = none → served.2 = s) ∧
      ∀ outcome, lastPassed? served.1 = some outcome → P outcome served.2 := by
  let motive (outcomes : List (Except (SamplingFault α) β)) (t : σ) : Prop :=
    (lastPassed? outcomes = none → t = s) ∧ ∀ outcome, lastPassed? outcomes = some outcome → P outcome t
  have start : motive [] s := ⟨fun _ => rfl, nofun⟩
  refine serveAll_induction (motive := motive) ?_ start qs
  intro outcomes t q ht
  have hq := h t q
  rw [Answers] at hq
  dsimp only [motive]
  rw [lastPassed?_snoc]
  split at hq
  · next hp =>
    rw [if_pos hp]
    exact ⟨nofun, fun outcome ho => Option.some.inj ho ▸ hq⟩
  · next hp =>
    rw [if_neg hp, hq]
    exact ht

end Requests

end Posterior
