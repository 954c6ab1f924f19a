import Posterior.Proofs.Sampling.Cycles
import Posterior.Proofs.Sampling.History
import Posterior.Proofs.Sampling.Importance

set_option autoImplicit false

namespace Posterior

variable {α : Type} [Arithmetic α]

theorem Interpreter.reset_of_statements {i j : Interpreter α} (h : j.statements = i.statements) :
    j.reset = i.reset :=
  congrArg (fun statements => Interpreter.mk statements .empty) h

theorem Sampler.attempt_withInterpreter (s : Sampler α) {j : Interpreter α}
    (h : j.statements = s.interpreter.statements) :
    ({ s with interpreter := j } : Sampler α).attempt = s.attempt := by
  unfold attempt
  dsimp only
  rw [Interpreter.reset_of_statements h]

theorem Sampler.survives_statements (statements : List (Node α)) :
    Survives fun s : Sampler α => s.interpreter.statements = statements := by
  have hattempt (s : Sampler α) (h : s.interpreter.statements = statements) :
      s.attempt.sampler.interpreter.statements = statements := by
    rw [attempt_interpreter, run_statements, ← h]
    rfl
  exact {
    attempt := hattempt
    keep := fun s result _ h => hattempt s h
    begin := fun s h => h
    rest := fun s phase h => h }

/-- What the results of all runs have, that has every entry of a list to which one is added for each stored
result. -/
theorem Sampler.survives_stored {β : Type} (list : Sampler α → List β) (entry : Result α → β)
    (same : ∀ s t : Sampler α, t.samples = s.samples → t.logProbabilities = s.logProbabilities → list t = list s)
    (stored : ∀ (s : Sampler α) result, list (s.keep result) = list s ++ [entry result])
    (begun : ∀ s : Sampler α, list s.begin = [])
    {statements : List (Node α)} {P : β → Prop}
    (hP : ∀ g result, ((Interpreter.mk statements .empty).run g).1 = .ok result → P (entry result)) :
    Survives fun s : Sampler α => s.interpreter.statements = statements ∧ ∀ b ∈ list s, P b := by
  have hs := survives_statements statements
  have hattempt (s : Sampler α) : list s.attempt.sampler = list s :=
    same s s.attempt.sampler s.attempt_stored.1 s.attempt_stored.2
  exact {
    attempt := fun s h => ⟨hs.attempt s h.1, by rw [hattempt]; exact h.2⟩
    keep := by
      rintro s result ho ⟨rfl, h⟩
      refine ⟨hs.keep s result ho rfl, ?_⟩
      rw [stored, hattempt]
      exact List.forall_mem_append.mpr
        ⟨h, List.forall_mem_singleton.mpr (hP s.generator result (run_of_attempt ho))⟩
    begin := fun s h => ⟨h.1, by rw [begun]; exact List.forall_mem_nil _⟩
    rest := fun s phase h => ⟨h.1, by rw [same s { s with phase } rfl rfl]; exact h.2⟩ }

namespace Rejection

def fresh (r : Rejection α) : Rejection α :=
  { interpreter := ⟨r.interpreter.statements, .empty⟩
    generator := r.generator
    policy := r.policy
    condition := r.condition }

theorem loop_withInterpreter {wanted budget : Nat} {r : Rejection α} (ha : r.accepted < wanted)
    {j : Interpreter α} (hj : j.statements = r.interpreter.statements) (events : Array (Event α)) :
    loop wanted (budget + 1) { r with interpreter := j } events = loop wanted (budget + 1) r events := by
  have hn : ¬ wanted ≤ r.accepted := Nat.not_le_of_lt ha
  rw [loop, loop, if_neg hn, if_neg hn, Sampler.attempt_withInterpreter r.toSampler hj]
  rfl

/-- A request that makes an attempt is served as by a new sampler. -/
theorem collect_fresh (r : Rejection α) {wanted budget : Nat} (hw : 1 ≤ wanted) (hb : 1 ≤ budget) :
    r.collect wanted budget = r.fresh.collect wanted budget := by
  obtain ⟨budget, rfl⟩ := Nat.exists_eq_add_of_le' hb
  have hloop : loop wanted (budget + 1) r.fresh.restart #[.rejectionStarted wanted] =
      loop wanted (budget + 1) r.restart #[.rejectionStarted wanted] :=
    loop_withInterpreter (r := r.restart) (j := r.fresh.interpreter) hw rfl _
  rw [collect, collect, hloop]

end Rejection

namespace Importance

def fresh (s : Importance α) : Importance α :=
  { interpreter := ⟨s.interpreter.statements, .empty⟩
    generator := s.generator
    policy := s.policy
    effectiveSize := Arithmetic.zero }

theorem loop_withInterpreter {wanted left : Nat} (s : Importance α) {j : Interpreter α}
    (hj : j.statements = s.interpreter.statements) (events : Array (Event α)) :
    loop wanted (left + 1) { s with interpreter := j } events = loop wanted (left + 1) s events := by
  rw [loop, loop, Sampler.attempt_withInterpreter s.toSampler hj]

theorem loop_withSize (s : Importance α) (size : α) (wanted left : Nat) (events : Array (Event α)) :
    loop wanted left { s with effectiveSize := size } events =
      ((loop wanted left s events).1, { (loop wanted left s events).2.1 with effectiveSize := size },
        (loop wanted left s events).2.2) := by
  induction left generalizing s events with
  | zero => rfl
  | succ left ih =>
    rw [loop, loop]
    rcases s.toSampler.attempt with ⟨halt | result, sampler, more⟩
    · rfl
    · have hsettle : settle { s with toSampler := sampler, effectiveSize := size } result =
          { settle { s with toSampler := sampler } result with effectiveSize := size } := by
        cases result <;> rfl
      dsimp only
      rw [hsettle]
      exact ih _ _

/-- A report says what another one says, and its sampler is the other one's but for the effective size. -/
structure Renews (report other : Report α (Importance α) (ImportanceSummary α)) : Prop where
  outcome : report.outcome = other.outcome
  events : report.events = other.events
  sampler : report.sampler = { other.sampler with effectiveSize := report.sampler.effectiveSize }

theorem conclude_withSize (s : Importance α) (size : α) (wanted : Nat) (events : List (Event α)) :
    Renews (conclude { s with effectiveSize := size } wanted events) (s.conclude wanted events) := by
  unfold conclude
  split
  · exact ⟨rfl, rfl, rfl⟩
  · dsimp only
    cases Weights.normalize s.logProbabilities.toList <;> exact ⟨rfl, rfl, rfl⟩

theorem collect_fresh (s : Importance α) {wanted : Nat} (hw : 1 ≤ wanted) :
    Renews (s.collect wanted) (s.fresh.collect wanted) := by
  obtain ⟨left, rfl⟩ := Nat.exists_eq_add_of_le' hw
  let resized : Importance α := { s.fresh.restart with effectiveSize := s.effectiveSize }
  have hloop : loop (left + 1) (left + 1) s.restart #[.importanceStarted (left + 1)] =
      loop (left + 1) (left + 1) resized #[.importanceStarted (left + 1)] :=
    loop_withInterpreter resized (j := s.interpreter) rfl _
  rw [collect, collect, hloop, loop_withSize]
  rcases loop (left + 1) (left + 1) s.fresh.restart #[.importanceStarted (left + 1)] with
    ⟨halt | ⟨⟩, t, events⟩
  · exact ⟨rfl, rfl, rfl⟩
  · exact conclude_withSize t s.effectiveSize (left + 1) events.toList

end Importance

namespace Algorithm

/-- What survives a sampling, and takes no notice of the interpreter, the generator and the policy, survives
every deed but the removal of a variable; that has to be looked at by itself. -/
theorem follow_of_survives {P : Sampler α → Prop} (hP : Sampler.Survives P)
    (driven : ∀ (s : Sampler α) interpreter generator policy,
      interpreter.statements = s.interpreter.statements → P s →
        P { s with interpreter, generator, policy })
    {a : Algorithm α} {d : Deed α}
    (unbound : ∀ index name t, d = .unbind index name → a.sampler.unbind index name = .ok t → P t)
    (h : P a.sampler) : P (a.follow d).sampler := by
  cases d with
  | request samples budget =>
    cases a with
    | plain s => exact h
    | rejection r => exact Rejection.run_of_survives hP h samples budget
    | importance s => exact Importance.run_of_survives hP h samples
  | operate o =>
    change P (a.operate o).sampler
    rw [sampler_operate]
    exact driven _ _ _ _ (Session.perform_statements _ o) h
  | unbind index name =>
    change P (a.unbind index name).sampler
    unfold unbind
    split
    · next t hu =>
      rw [sampler_withSampler]
      exact unbound index name t rfl hu
    · exact h
  | setCondition c =>
    change P (a.withCondition c).sampler
    rw [sampler_withCondition]
    exact h
  | setPolicy p =>
    change P (a.withPolicy p).sampler
    rw [withPolicy, sampler_withSampler]
    exact driven _ _ _ _ rfl h

theorem follow_statements (a : Algorithm α) (d : Deed α) :
    (a.follow d).sampler.interpreter.statements = a.sampler.interpreter.statements := by
  refine follow_of_survives (P := fun s => s.interpreter.statements = a.sampler.interpreter.statements)
    (Sampler.survives_statements _) (fun _ _ _ _ hi h => hi.trans h) (fun index name t _ hu => ?_) rfl
  obtain ⟨_, _, -, rfl⟩ := Sampler.exists_of_unbind hu
  rfl

theorem followAll_statements (a : Algorithm α) (deeds : List (Deed α)) :
    (a.followAll deeds).sampler.interpreter.statements = a.sampler.interpreter.statements :=
  followAll_induction
    (motive := fun b => b.sampler.interpreter.statements = a.sampler.interpreter.statements)
    (fun b d h => (b.follow_statements d).trans h) rfl deeds

theorem exists_follow_rejection (r : Rejection α) (d : Deed α) :
    ∃ r', (Algorithm.rejection r).follow d = .rejection r' := by
  cases d with
  | unbind index name =>
    change ∃ r', (Algorithm.rejection r).unbind index name = .rejection r'
    unfold unbind
    split <;> exact ⟨_, rfl⟩
  | request | operate | setCondition | setPolicy => exact ⟨_, rfl⟩

theorem exists_follow_importance (s : Importance α) (d : Deed α) :
    ∃ s', (Algorithm.importance s).follow d = .importance s' := by
  cases d with
  | unbind index name =>
    change ∃ s', (Algorithm.importance s).unbind index name = .importance s'
    unfold unbind
    split <;> exact ⟨_, rfl⟩
  | request | operate | setCondition | setPolicy => exact ⟨_, rfl⟩

theorem exists_followAll_rejection (r : Rejection α) (deeds : List (Deed α)) :
    ∃ r', (Algorithm.rejection r).followAll deeds = .rejection r' := by
  refine followAll_induction (motive := fun a => ∃ r', a = .rejection r') ?_ ⟨r, rfl⟩ deeds
  rintro _ d ⟨r', rfl⟩
  exact exists_follow_rejection r' d

theorem exists_followAll_importance (s : Importance α) (deeds : List (Deed α)) :
    ∃ s', (Algorithm.importance s).followAll deeds = .importance s' := by
  refine followAll_induction (motive := fun a => ∃ s', a = .importance s') ?_ ⟨s, rfl⟩ deeds
  rintro _ d ⟨s', rfl⟩
  exact exists_follow_importance s' d

end Algorithm

section Positive

variable {wanted : Nat} {limit : Option (Argument α)}

theorem Rejection.run_fresh (r : Rejection α) (hw : 1 ≤ wanted)
    (hl : limit = none ∨ ∃ budget : Nat, 1 ≤ budget ∧ limit = some (.integer budget)) :
    r.run (.integer wanted) limit = r.fresh.run (.integer wanted) limit := by
  rcases hl with rfl | ⟨budget, hb, rfl⟩
  · have hfactor : 1 ≤ 100 * wanted := by omega
    rw [run_eq_collect r hw hfactor (.inr ⟨rfl, rfl⟩), run_eq_collect r.fresh hw hfactor (.inr ⟨rfl, rfl⟩)]
    exact r.collect_fresh hw hfactor
  · rw [run_eq_collect r hw hb (.inl rfl), run_eq_collect r.fresh hw hb (.inl rfl)]
    exact r.collect_fresh hw hb

theorem Importance.run_fresh (s : Importance α) (hw : 1 ≤ wanted) :
    Renews (s.run (.integer wanted)) (s.fresh.run (.integer wanted)) := by
  rw [run_eq_collect s hw, run_eq_collect s.fresh hw]
  exact s.collect_fresh hw

end Positive

/-- Behind any history of a sampler, a request for samples comes to what it comes to on a new sampler for the
same program, and leaves what it leaves there; only the effective size of importance sampling is another one, if
the request raises. And operations on several sessions leave each of them as its own operations do alone. -/
theorem renewal_of_history {wanted : Nat} {limit : Option (Argument α)} (hw : 1 ≤ wanted)
    (hl : limit = none ∨ ∃ budget : Nat, 1 ≤ budget ∧ limit = some (.integer budget)) :
    (∀ (interpreter : Interpreter α) (generator : Generator α) (policy : Policy)
      (condition : Option (Criterion α)) (deeds : List (Deed α)),
      let start : Rejection α := { interpreter, generator, policy, condition }
      ∃ r, (Algorithm.rejection start).followAll deeds = .rejection r ∧
        r.interpreter.statements = interpreter.statements ∧
        r.run (.integer wanted) limit = r.fresh.run (.integer wanted) limit) ∧
    (∀ (interpreter : Interpreter α) (generator : Generator α) (policy : Policy) (deeds : List (Deed α)),
      let start : Importance α := { interpreter, generator, policy, effectiveSize := Arithmetic.zero }
      ∃ s, (Algorithm.importance start).followAll deeds = .importance s ∧
        s.interpreter.statements = interpreter.statements ∧
        Importance.Renews (s.run (.integer wanted)) (s.fresh.run (.integer wanted))) ∧
    ∀ {ι : Type} [DecidableEq ι] (sessions : ι → Session α) (os : List (ι × Operation α)) (i : ι),
      let among := Session.interleave sessions os
      let alone := (sessions i).performAll (Session.own i os)
      Session.own i among.1 = alone.1 ∧ among.2 i = alone.2 := by
  refine ⟨?_, ?_, fun sessions os i => Session.interleave_own sessions os i⟩
  · intro interpreter generator policy condition deeds start
    obtain ⟨r, hr⟩ := Algorithm.exists_followAll_rejection start deeds
    have hstatements := (Algorithm.rejection start).followAll_statements deeds
    rw [hr] at hstatements
    exact ⟨r, hr, hstatements, r.run_fresh hw hl⟩
  · intro interpreter generator policy deeds start
    obtain ⟨s, hs⟩ := Algorithm.exists_followAll_importance start deeds
    have hstatements := (Algorithm.importance start).followAll_statements deeds
    rw [hs] at hstatements
    exact ⟨s, hs, hstatements, s.run_fresh hw⟩

/-- A request that raised, a run of the interpreter on what that left, a request that returned, and a variable
removed from the sample it stored. -/
theorem renewal_of_raised_request :
    let start : Rejection Float :=
      { interpreter :=
          ⟨[.assignment "s" (.call "sample" [.call "bernoulli" [.number 0.5]]),
            .assignment "x" (.call "sample" [.call "uniform" [.number 0, .var "s"]])], .empty⟩
        generator := .cycle 0.75 #[0.25, 0.5, 0.25]
        policy := .raise }
    let once : Deed Float := .request (.integer 1) none
    (start.run (.integer 1) none).outcome.toOption.isNone = true ∧
    ∃ r, (Algorithm.rejection start).followAll [once, .operate .run, once, .unbind 0 "s"] = .rejection r ∧
      r.run (.integer 1) none = r.fresh.run (.integer 1) none := by
  intro start once
  have hraised : (start.run (.integer 1) none).outcome.toOption.isNone = true := by decide +kernel
  obtain ⟨hrejection, -, -⟩ := @renewal_of_history Float _ 1 none (by decide) (.inl rfl)
  obtain ⟨r, hr, -, hrun⟩ :=
    hrejection start.interpreter start.generator .raise none [once, .operate .run, once, .unbind 0 "s"]
  exact ⟨hraised, r, hr, hrun⟩

end Posterior
