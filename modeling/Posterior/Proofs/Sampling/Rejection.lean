import Posterior.Proofs.Sampling.Cycles
import Posterior.Proofs.Sampling.Requests
import Posterior.Sampler.Rejection

set_option autoImplicit false

namespace Posterior.Rejection

section Outcomes

variable {α : Type} (accepts : Criterion α) (o : Nat → Except (Halt α) (Result α))

def taken : Except (Halt α) (Result α) → Option (Result α)
  | .ok result => if accepts result then some result else none
  | .error _ => none

def acceptedIn (k : Nat) : List (Result α) :=
  (List.range k).filterMap fun i => taken accepts (o i)

/-- The number of runs up to the one that brings the last result wanted, or `budget` if so many do not
bring it. -/
def stop (wanted budget : Nat) : Nat :=
  match (List.range budget).find? fun i => (acceptedIn accepts o (i + 1)).length = wanted with
  | some i => i + 1
  | none => budget

theorem acceptedIn_succ (k : Nat) :
    acceptedIn accepts o (k + 1) = acceptedIn accepts o k ++ (taken accepts (o k)).toList := by
  unfold acceptedIn
  rw [List.range_succ, List.filterMap_append]
  cases h : taken accepts (o k) <;> simp [h]

theorem length_acceptedIn_succ_le (k : Nat) :
    (acceptedIn accepts o (k + 1)).length ≤ (acceptedIn accepts o k).length + 1 := by
  rw [acceptedIn_succ, List.length_append]
  cases taken accepts (o k) <;> simp

theorem acceptedIn_prefix {k l : Nat} (h : k ≤ l) :
    acceptedIn accepts o k <+: acceptedIn accepts o l := by
  induction h with
  | refl => exact List.prefix_refl _
  | @step l h ih =>
    rw [acceptedIn_succ]
    exact ih.trans (List.prefix_append _ _)

theorem acceptedIn_add_failuresIn_le (k : Nat) :
    (acceptedIn accepts o k).length + failuresIn o k ≤ k := by
  induction k with
  | zero => simp [acceptedIn, failuresIn]
  | succ k ih =>
    rw [acceptedIn_succ, failuresIn_succ, List.length_append]
    rcases h : o k with e | result
    · have ht : taken accepts (.error e) = none := rfl
      simp only [ht, Option.toList_none, List.length_nil]
      split <;> omega
    · have hf : failure? (.ok result : Except (Halt α) (Result α)) = none := rfl
      have ht : (taken accepts (.ok result)).toList.length ≤ 1 := by
        cases taken accepts (.ok result) <;> simp
      simp only [hf, Option.isSome_none, Bool.false_eq_true, if_false]
      omega

/-- As long as no number of runs brings exactly what is wanted, they bring less. -/
theorem length_acceptedIn_lt {wanted k : Nat} (hw : 1 ≤ wanted)
    (h : ∀ i < k, (acceptedIn accepts o (i + 1)).length ≠ wanted) :
    (acceptedIn accepts o k).length < wanted := by
  induction k with
  | zero =>
    simp only [acceptedIn, List.range_zero, List.filterMap_nil, List.length_nil]
    omega
  | succ k ih =>
    have hk := ih fun i hi => h i (by omega)
    have hs := length_acceptedIn_succ_le accepts o k
    have hn := h k (by omega)
    omega

theorem stop_le (wanted budget : Nat) : stop accepts o wanted budget ≤ budget := by
  unfold stop
  split
  · next i h =>
    have hi := List.mem_range.mp (List.mem_of_find?_eq_some h)
    omega
  · exact Nat.le_refl _

theorem stop_cases (wanted budget : Nat) :
    (acceptedIn accepts o (stop accepts o wanted budget)).length = wanted ∨
      stop accepts o wanted budget = budget := by
  unfold stop
  split
  · next i h => exact .inl (by simpa using List.find?_some h)
  · exact .inr rfl

variable {accepts o} {wanted budget : Nat}

theorem length_lt_of_lt_stop (hw : 1 ≤ wanted) {k : Nat} (h : k < stop accepts o wanted budget) :
    (acceptedIn accepts o k).length < wanted := by
  unfold stop at h
  refine length_acceptedIn_lt accepts o hw fun i hi => ?_
  split at h
  · next m hm =>
    have hp := (List.find?_range_eq_some.mp hm).2.2 i (by omega)
    simpa using hp
  · next hn =>
    have hp := List.find?_eq_none.mp hn i (List.mem_range.mpr (by omega))
    simpa using hp

theorem length_acceptedIn_stop_le (hw : 1 ≤ wanted) :
    (acceptedIn accepts o (stop accepts o wanted budget)).length ≤ wanted := by
  cases hs : stop accepts o wanted budget with
  | zero => simp [acceptedIn]
  | succ k =>
    have hk := length_lt_of_lt_stop hw (hs ▸ Nat.lt_succ_self k : k < stop accepts o wanted budget)
    have hl := length_acceptedIn_succ_le accepts o k
    omega

theorem acceptedIn_stop (hw : 1 ≤ wanted) :
    acceptedIn accepts o (stop accepts o wanted budget) =
      (acceptedIn accepts o budget).take wanted := by
  have hp : acceptedIn accepts o (stop accepts o wanted budget) <+: acceptedIn accepts o budget :=
    acceptedIn_prefix accepts o (stop_le accepts o wanted budget)
  have hl : (acceptedIn accepts o (stop accepts o wanted budget)).length ≤ wanted :=
    length_acceptedIn_stop_le hw
  rcases stop_cases accepts o wanted budget with h | h
  · have ht := List.prefix_iff_eq_take.mp hp
    rwa [h] at ht
  · rw [h] at hl ⊢
    exact (List.take_of_length_le hl).symm

end Outcomes

variable {α : Type} {start r : Rejection α} {k : Nat}

theorem settle_of_accepts {result : Result α} (h : r.accepts result = true) :
    r.settle (some result) =
      { r with
        toSampler := r.toSampler.keep result
        attempts := r.attempts + 1
        accepted := r.accepted + 1 } :=
  if_pos h

theorem settle_of_not_accepts {result : Result α} (h : r.accepts result = false) :
    r.settle (some result) = { r with attempts := r.attempts + 1 } :=
  if_neg (Bool.not_eq_true _ ▸ h)

def Passes (policy : Policy) : Except (Halt α) (Result α) → Prop
  | .ok _ => True
  | .error (.failure _) => policy = .skip
  | .error .overflow | .error .tooDeep => False

theorem passes_of {policy : Policy} {outcome : Except (Halt α) (Result α)}
    (h : outcome ≠ .error .overflow ∧ outcome ≠ .error .tooDeep)
    (hf : policy = .skip ∨ failure? outcome = none) : Passes policy outcome := by
  rcases outcome with (f | _ | _) | result
  · exact hf.resolve_right nofun
  · exact h.1 rfl
  · exact h.2 rfl
  · trivial

variable [Arithmetic α]

def outcomes (r : Rejection α) : Nat → Except (Halt α) (Result α) :=
  outcomeAt r.interpreter.statements r.generator

structure Tallies (start r : Rejection α) (k : Nat) : Prop where
  statements : r.interpreter.statements = start.interpreter.statements
  policy : r.policy = start.policy
  condition : r.condition = start.condition
  generator : r.generator = generatorAt start.interpreter.statements start.generator k
  samples : r.samples.toList = acceptedIn start.accepts start.outcomes k
  attempts : r.attempts = k
  accepted : r.accepted = (acceptedIn start.accepts start.outcomes k).length
  failures : r.failures = failuresIn start.outcomes k

theorem tallies_restart (r : Rejection α) : Tallies r r.restart 0 where
  statements := rfl
  policy := rfl
  condition := rfl
  generator := rfl
  samples := rfl
  attempts := rfl
  accepted := rfl
  failures := rfl

theorem Tallies.cycle (h : Tallies start r k) :
    cycle r.interpreter.statements r.generator =
      (start.outcomes k, generatorAt start.interpreter.statements start.generator (k + 1)) := by
  rw [h.statements, h.generator]
  rfl

theorem Tallies.succ {r' : Rejection α} (h : Tallies start r k)
    (hstatements : r'.interpreter.statements = r.interpreter.statements)
    (hpolicy : r'.policy = r.policy) (hcondition : r'.condition = r.condition)
    (hgenerator : r'.generator =
      generatorAt start.interpreter.statements start.generator (k + 1))
    (hsamples : r'.samples.toList =
      r.samples.toList ++ (taken start.accepts (start.outcomes k)).toList)
    (hattempts : r'.attempts = r.attempts + 1)
    (haccepted : r'.accepted =
      r.accepted + (taken start.accepts (start.outcomes k)).toList.length)
    (hfailures : r'.failures =
      r.failures + if (failure? (start.outcomes k)).isSome then 1 else 0) :
    Tallies start r' (k + 1) where
  statements := hstatements.trans h.statements
  policy := hpolicy.trans h.policy
  condition := hcondition.trans h.condition
  generator := hgenerator
  samples := by rw [hsamples, h.samples, acceptedIn_succ]
  attempts := by rw [hattempts, h.attempts]
  accepted := by rw [haccepted, h.accepted, acceptedIn_succ, List.length_append]
  failures := by rw [hfailures, h.failures, failuresIn_succ]

theorem Tallies.step (h : Tallies start r k) (hp : Passes start.policy (start.outcomes k)) :
    ∃ result sampler events, r.toSampler.attempt = ⟨.ok result, sampler, events⟩ ∧
      Tallies start ({ r with toSampler := sampler }.settle result) (k + 1) := by
  have hc := h.cycle
  rcases ho : start.outcomes k with (f | _ | _) | result
  · rw [ho] at hp hc
    have hskip : r.policy = .skip := h.policy.trans hp
    obtain ⟨i, hi, ha⟩ := r.toSampler.attempt_of_skipped hskip hc
    refine ⟨none, _, _, ha, ?_⟩
    exact h.succ hi rfl rfl rfl (by simp [ho, taken, settle]) rfl (by simp [ho, taken, settle])
      (by simp [ho, failure?, settle])
  · rw [ho] at hp
    exact hp.elim
  · rw [ho] at hp
    exact hp.elim
  · rw [ho] at hc
    obtain ⟨i, events, hi, ha⟩ := r.toSampler.attempt_of_ok hc
    refine ⟨some result, _, events, ha, ?_⟩
    -- Acceptance asks for the condition only, which an attempt leaves alone.
    have hacc : r.accepts result = start.accepts result := by
      unfold accepts
      rw [h.condition]
    cases hb : start.accepts result with
    | true =>
      rw [settle_of_accepts]
      · exact h.succ hi rfl rfl rfl (by simp [ho, taken, hb, Sampler.keep]) rfl
          (by simp [ho, taken, hb]) (by simp [ho, failure?, Sampler.keep])
      · exact hacc.trans hb
    | false =>
      rw [settle_of_not_accepts]
      · exact h.succ hi rfl rfl rfl (by simp [ho, taken, hb]) rfl (by simp [ho, taken, hb])
          (by simp [ho, failure?])
      · exact hacc.trans hb

theorem Tallies.not_done {wanted budget : Nat} (h : Tallies start r k) (hw : 1 ≤ wanted)
    (hk : k < stop start.accepts start.outcomes wanted budget) : ¬ wanted ≤ r.accepted := by
  have hlen := length_lt_of_lt_stop hw hk
  rw [h.accepted]
  omega

theorem loop_done {wanted budget left : Nat} (hw : 1 ≤ wanted) (h : Tallies start r k)
    (hl : k + left = budget) (hk : k ≤ stop start.accepts start.outcomes wanted budget)
    (hp : ∀ i < stop start.accepts start.outcomes wanted budget,
      Passes start.policy (start.outcomes i)) (events : Array (Event α)) :
    ∃ r' events', loop wanted left r events = (.ok (), r', events') ∧
      Tallies start r' (stop start.accepts start.outcomes wanted budget) := by
  induction left generalizing k r events with
  | zero =>
    have hs := stop_le start.accepts start.outcomes wanted budget
    obtain rfl : k = stop start.accepts start.outcomes wanted budget := by omega
    exact ⟨r, events, rfl, h⟩
  | succ left ih =>
    rcases Nat.lt_or_eq_of_le hk with hlt | heq
    · have hn := h.not_done hw hlt
      obtain ⟨result, sampler, more, ha, ht⟩ := h.step (hp k hlt)
      obtain ⟨r', events', hr, ht'⟩ := ih ht (by omega) hlt (events ++ more ++ r.progress)
      refine ⟨r', events', ?_, ht'⟩
      rw [loop, if_neg hn, ha]
      exact hr
    · -- Attempts are left, so it is the number wanted that stopped the runs.
      have hc : (acceptedIn start.accepts start.outcomes k).length = wanted := by
        have hs := stop_cases start.accepts start.outcomes wanted budget
        rw [← heq] at hs
        omega
      have hd : wanted ≤ r.accepted := by
        rw [h.accepted]
        omega
      refine ⟨r, events, ?_, heq ▸ h⟩
      rw [loop, if_pos hd]

/-- The first outcome before the stop that does not let the sampling go on ends it. -/
theorem loop_halted {wanted budget left i : Nat} {halt : Halt α} (hw : 1 ≤ wanted)
    (hi : i < stop start.accepts start.outcomes wanted budget) (ho : start.outcomes i = .error halt)
    (hn : ¬ Passes start.policy (.error halt : Except (Halt α) (Result α)))
    (hp : ∀ m < i, Passes start.policy (start.outcomes m))
    (h : Tallies start r k) (hl : k + left = budget) (hk : k ≤ i) (events : Array (Event α)) :
    ∃ r' events', loop wanted left r events = (.error halt, r', events') ∧
      (∀ f, halt = .failure f → r'.phase = .idle) ∧
      r'.generator = generatorAt start.interpreter.statements start.generator (i + 1) ∧
      r'.samples.toList = acceptedIn start.accepts start.outcomes i ∧ r'.attempts = i ∧
      r'.failures = failuresIn start.outcomes i := by
  induction left generalizing k r events with
  | zero =>
    have hs := stop_le start.accepts start.outcomes wanted budget
    omega
  | succ left ih =>
    have hd := h.not_done hw (Nat.lt_of_le_of_lt hk hi)
    rcases Nat.lt_or_eq_of_le hk with hlt | heq
    · obtain ⟨result, sampler, more, ha, ht⟩ := h.step (hp k hlt)
      obtain ⟨r', events', hr', ht'⟩ := ih ht (by omega) hlt (events ++ more ++ r.progress)
      refine ⟨r', events', ?_, ht'⟩
      rw [loop, if_neg hd, ha]
      exact hr'
    · subst heq
      have hc := h.cycle
      rw [ho] at hc
      have hraise (f : Failure α) (hf : halt = .failure f) : r.policy = .raise := by
        rw [h.policy]
        subst hf
        cases hpol : start.policy with
        | raise => rfl
        | skip => exact absurd hpol hn
      obtain ⟨j, phase, -, hphase, ha⟩ := r.toSampler.attempt_of_halted hraise hc
      refine ⟨{ r with
        interpreter := j
        generator := generatorAt start.interpreter.statements start.generator (k + 1)
        phase }, events ++ ([] : List (Event α)), ?_, hphase, rfl, h.samples, h.attempts, h.failures⟩
      rw [loop, if_neg hd, ha]

theorem loop_raised {wanted budget left i : Nat} {f : Failure α} (hw : 1 ≤ wanted)
    (hr : start.policy = .raise) (hi : i < stop start.accepts start.outcomes wanted budget)
    (hf : start.outcomes i = .error (.failure f))
    (hp : ∀ m < i, Passes start.policy (start.outcomes m))
    (h : Tallies start r k) (hl : k + left = budget) (hk : k ≤ i) (events : Array (Event α)) :
    ∃ r' events', loop wanted left r events = (.error (.failure f), r', events') ∧
      r'.phase = .idle ∧ r'.generator = generatorAt start.interpreter.statements start.generator (i + 1) ∧
      r'.samples.toList = acceptedIn start.accepts start.outcomes i ∧ r'.attempts = i := by
  have hn : ¬ Passes start.policy (.error (.failure f) : Except (Halt α) (Result α)) := by
    rw [hr]
    exact nofun
  obtain ⟨r', events', hr', hphase, hg, hs, ha, -⟩ := loop_halted hw hi hf hn hp h hl hk events
  exact ⟨r', events', hr', hphase f rfl, hg, hs, ha⟩

/-- What a request for `wanted` samples with at most `budget` attempts returns and leaves if nothing
interrupts it. -/
structure Fulfils (start : Rejection α) (wanted budget : Nat) (r : Rejection α)
    (summary : RejectionSummary α) : Prop where
  samples : r.samples.toList = (acceptedIn start.accepts start.outcomes budget).take wanted
  attempts : summary.attempts = stop start.accepts start.outcomes wanted budget
  failures : summary.failures = failuresIn start.outcomes summary.attempts
  accepted : summary.accepted = r.samples.size
  accepted_le : summary.accepted ≤ wanted
  accepted_add_failures_le : summary.accepted + summary.failures ≤ summary.attempts
  attempts_le : summary.attempts ≤ budget
  success : summary.success = true ↔ summary.accepted = wanted
  converged : summary.phase = .converged ↔ summary.accepted = wanted
  exhausted : summary.accepted ≠ wanted → summary.phase = .exhausted ∧ summary.attempts = budget
  phase : r.phase = summary.phase

theorem Tallies.fulfils {wanted budget : Nat} (hw : 1 ≤ wanted)
    (h : Tallies start r (stop start.accepts start.outcomes wanted budget)) :
    Fulfils start wanted budget (r.finish wanted) ((r.finish wanted).summary wanted) := by
  have hle : (acceptedIn start.accepts start.outcomes
      (stop start.accepts start.outcomes wanted budget)).length ≤ wanted :=
    length_acceptedIn_stop_le hw
  rw [← h.accepted] at hle
  have hphase : (r.finish wanted).phase = if wanted ≤ r.accepted then .converged else .exhausted := rfl
  have hsuccess : ((r.finish wanted).summary wanted).success = decide (wanted ≤ r.accepted) := rfl
  exact {
    samples := h.samples.trans (acceptedIn_stop hw)
    attempts := h.attempts
    failures := h.failures.trans (congrArg (failuresIn start.outcomes) h.attempts.symm)
    accepted := by
      have hs := congrArg List.length h.samples
      rw [← h.accepted] at hs
      exact hs.symm
    accepted_le := hle
    accepted_add_failures_le := by
      have hadd := acceptedIn_add_failuresIn_le start.accepts start.outcomes
        (stop start.accepts start.outcomes wanted budget)
      rw [← h.accepted, ← h.failures, ← h.attempts] at hadd
      exact hadd
    attempts_le := Nat.le_trans (Nat.le_of_eq h.attempts) (stop_le _ _ _ _)
    success := by
      rw [hsuccess, decide_eq_true_iff]
      exact ⟨fun hd => Nat.le_antisymm hle hd, fun hd => Nat.le_of_eq hd.symm⟩
    converged := by
      change (r.finish wanted).phase = .converged ↔ r.accepted = wanted
      rw [hphase]
      split
      · next hd => exact ⟨fun _ => Nat.le_antisymm hle hd, fun _ => rfl⟩
      · next hd => exact ⟨nofun, fun hc => absurd (Nat.le_of_eq hc.symm) hd⟩
    exhausted := by
      intro hne
      change r.accepted ≠ wanted at hne
      have hd : ¬ wanted ≤ r.accepted := fun hd => hne (Nat.le_antisymm hle hd)
      refine ⟨hphase.trans (if_neg hd), ?_⟩
      have hc := stop_cases start.accepts start.outcomes wanted budget
      rw [← h.accepted] at hc
      exact h.attempts.trans (hc.resolve_left hne)
    phase := rfl }

theorem run_eq_collect (r : Rejection α) {wanted budget : Nat} {limit : Option (Argument α)}
    (hw : 1 ≤ wanted) (hb : 1 ≤ budget)
    (hl : limit = some (.integer budget) ∨ limit = none ∧ budget = 100 * wanted) :
    r.run (.integer wanted) limit = r.collect wanted budget := by
  rcases hl with rfl | ⟨rfl, rfl⟩
  · simp only [run, Argument.count?_natCast hw, Argument.count?_natCast hb]
  · simp only [run, Argument.count?_natCast hw, attemptFactor, Nat.mul_comm wanted]

/-- What a request to sample returns, by the outcomes of the runs up to its stop: the samples and their
counts, unless the policy is to raise and one of these runs fails. Then the first failure is raised. -/
theorem run_of_outcomes (r : Rejection α) {wanted budget : Nat} {limit : Option (Argument α)}
    (hw : 1 ≤ wanted) (hb : 1 ≤ budget)
    (hl : limit = some (.integer budget) ∨ limit = none ∧ budget = 100 * wanted)
    (ho : ∀ i < stop r.accepts r.outcomes wanted budget,
      r.outcomes i ≠ .error .overflow ∧ r.outcomes i ≠ .error .tooDeep) :
    let report := r.run (.integer wanted) limit
    ((r.policy = .skip ∨ ∀ i < stop r.accepts r.outcomes wanted budget, failure? (r.outcomes i) = none) →
      ∃ summary, report.outcome = .ok summary ∧ Fulfils r wanted budget report.sampler summary) ∧
    (r.policy = .raise → ∀ i < stop r.accepts r.outcomes wanted budget, ∀ f,
      failure? (r.outcomes i) = some f → (∀ m < i, failure? (r.outcomes m) = none) →
        report.outcome = .error (.halted (.failure f)) ∧ report.sampler.phase = .idle ∧
        report.sampler.samples.toList = acceptedIn r.accepts r.outcomes i ∧ report.sampler.attempts = i) := by
  dsimp only
  rw [run_eq_collect r hw hb hl, collect]
  constructor
  · intro h
    have hp : ∀ i < stop r.accepts r.outcomes wanted budget, Passes r.policy (r.outcomes i) :=
      fun i hi => passes_of (ho i hi) (h.imp_right fun hn => hn i hi)
    obtain ⟨r', events, hr, ht⟩ :=
      loop_done hw (tallies_restart r) (Nat.zero_add budget) (Nat.zero_le _) hp #[.rejectionStarted wanted]
    rw [hr]
    exact ⟨_, rfl, ht.fulfils hw⟩
  · intro hr i hi f hf hbefore
    have hoi : r.outcomes i = .error (.failure f) := by
      rcases hoi : r.outcomes i with (f | _ | _) | result <;> rw [hoi] at hf <;> cases hf
      rfl
    have hp : ∀ m < i, Passes r.policy (r.outcomes m) :=
      fun m hm => passes_of (ho m (Nat.lt_trans hm hi)) (.inr (hbefore m hm))
    obtain ⟨r', events, hr', hphase, -, hsamples, hattempts⟩ :=
      loop_raised hw hr hi hoi hp (tallies_restart r) (Nat.zero_add budget) (Nat.zero_le _)
        #[.rejectionStarted wanted]
    rw [hr']
    exact ⟨rfl, hphase, hsamples, hattempts⟩

/-- Two samples of a program whose draws meet the condition in every other run. -/
theorem fulfils_of_alternating_draws :
    ∃ (r : Rejection Float) (summary : RejectionSummary Float),
      r.interpreter.statements =
        [.assignment "x" (.call "sample" [.call "exponential" [.number 1]])] ∧
      r.policy = .skip ∧ (r.run (.integer 2) none).outcome = .ok summary ∧
      Fulfils r 2 200 (r.run (.integer 2) none).sampler summary := by
  let r : Rejection Float :=
    { interpreter := ⟨[.assignment "x" (.call "sample" [.call "exponential" [.number 1]])], .empty⟩
      generator := .cycle 0.5 #[1.5]
      policy := .skip
      condition := some fun result => (result.bindings.get? "x").any fun x => decide (1 ≤ x) }
  have ho : ∀ i, ∃ result, r.outcomes i = .ok result := fun i => ⟨_, rfl⟩
  have hn : ∀ i < stop r.accepts r.outcomes 2 200,
      r.outcomes i ≠ .error .overflow ∧ r.outcomes i ≠ .error .tooDeep := by
    intro i _
    obtain ⟨result, h⟩ := ho i
    rw [h]
    exact ⟨nofun, nofun⟩
  have hrun := @run_of_outcomes Float _ r 2 200 none (by decide) (by decide) (.inr ⟨rfl, rfl⟩) hn
  obtain ⟨summary, hs, hf⟩ := hrun.1 (.inl rfl)
  exact ⟨r, summary, rfl, rfl, hs, hf⟩

end Posterior.Rejection
