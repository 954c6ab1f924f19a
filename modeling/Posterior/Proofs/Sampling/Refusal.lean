import Posterior.Proofs.Sampling.Renewal
import Posterior.Proofs.Sampling.Requests

set_option autoImplicit false

namespace Posterior

namespace Argument

variable {α : Type}

def IsCount (a : Argument α) : Prop := ∃ n : Int, 1 ≤ n ∧ a = .integer n

def given? : Argument α → Option (Argument α)
  | .missing => none
  | a => some a

theorem count?_eq_none_iff {a : Argument α} : a.count? = none ↔ ¬ a.IsCount := by
  constructor
  · rintro h ⟨n, hn, rfl⟩
    rw [count?, if_pos hn] at h
    cases h
  · intro h
    cases a with
    | integer n => exact if_neg fun hn => h ⟨n, hn, rfl⟩
    | missing | boolean | number | text | list | table => rfl

theorem exists_count {a : Argument α} (h : a.IsCount) : ∃ n : Nat, 1 ≤ n ∧ a.count? = some n := by
  obtain ⟨n, hn, rfl⟩ := h
  exact ⟨n.toNat, by omega, if_pos hn⟩

theorem given?_eq_some_iff {a b : Argument α} : a.given? = some b ↔ a ≠ .missing ∧ b = a := by
  cases a <;> simp [given?, eq_comm]

end Argument

theorem ne_badCount_of_passed {α β : Type} {outcome : Except (SamplingFault α) β} (h : Passed outcome = true)
    (name : String) (got : Argument α) : outcome ≠ .error (.badCount name got) := by
  rintro rfl
  cases h

variable {α : Type} [Arithmetic α]

namespace Rejection

theorem passed_collect (r : Rejection α) (wanted budget : Nat) :
    Passed (r.collect wanted budget).outcome = true := by
  unfold collect
  split <;> rfl

theorem run_refusal_cases (r : Rejection α) (samples : Argument α) (budget : Option (Argument α)) :
    (¬ samples.IsCount ∧ r.run samples budget = ⟨.error (.badCount "num_samples" samples), r, []⟩) ∨
    (samples.IsCount ∧ ∃ b, budget = some b ∧ ¬ b.IsCount ∧
      r.run samples budget = ⟨.error (.badCount "max_attempts" b), r, []⟩) ∨
    (samples.IsCount ∧ (∀ b, budget = some b → b.IsCount) ∧
      Passed (r.run samples budget).outcome = true) := by
  unfold run
  by_cases hs : samples.IsCount
  · obtain ⟨wanted, -, hw⟩ := Argument.exists_count hs
    rw [hw]
    cases budget with
    | none => exact .inr (.inr ⟨hs, nofun, r.passed_collect _ _⟩)
    | some b =>
      by_cases hb : b.IsCount
      · obtain ⟨attempts, -, ha⟩ := Argument.exists_count hb
        simp only [ha]
        refine .inr (.inr ⟨hs, ?_, r.passed_collect _ _⟩)
        rintro _ ⟨⟩
        exact hb
      · simp only [Argument.count?_eq_none_iff.mpr hb]
        exact .inr (.inl ⟨hs, b, rfl, hb, rfl⟩)
  · rw [Argument.count?_eq_none_iff.mpr hs]
    exact .inl ⟨hs, rfl⟩

/-- How a request for `samples` within `budget` may be refused: for the number of samples if that is no count, and
else for a budget that is given and is no count. A refused request changes nothing and reports nothing. -/
structure Vets (r : Rejection α) (samples budget : Argument α) : Prop where
  forSamples : (r.run samples budget.given?).outcome = .error (.badCount "num_samples" samples) ↔
    ¬ samples.IsCount
  forBudget : (r.run samples budget.given?).outcome = .error (.badCount "max_attempts" budget) ↔
    samples.IsCount ∧ budget ≠ .missing ∧ ¬ budget.IsCount
  untouched : ∀ name got, (r.run samples budget.given?).outcome = .error (.badCount name got) →
    (name = "num_samples" ∧ got = samples ∨ name = "max_attempts" ∧ got = budget) ∧
      r.run samples budget.given? = ⟨.error (.badCount name got), r, []⟩

theorem run_vets (r : Rejection α) (samples budget : Argument α) : r.Vets samples budget := by
  have hnames : "num_samples" ≠ "max_attempts" := by decide
  rcases r.run_refusal_cases samples budget.given? with ⟨hs, hr⟩ | ⟨hs, b, hb, hn, hr⟩ | ⟨hs, hb, hp⟩
  · refine ⟨iff_of_true (by rw [hr]) hs, iff_of_false (by simp [hr]) fun h => hs h.1, ?_⟩
    rw [hr]
    rintro _ _ ⟨⟩
    exact ⟨.inl ⟨rfl, rfl⟩, rfl⟩
  · obtain ⟨hm, rfl⟩ := Argument.given?_eq_some_iff.mp hb
    refine ⟨iff_of_false (by simp [hr]) (not_not_intro hs), iff_of_true (by rw [hr]) ⟨hs, hm, hn⟩, ?_⟩
    rw [hr]
    rintro _ _ ⟨⟩
    exact ⟨.inr ⟨rfl, rfl⟩, rfl⟩
  · have hne := ne_badCount_of_passed hp
    refine ⟨iff_of_false (hne _ _) (not_not_intro hs), iff_of_false (hne _ _) ?_, fun _ _ h => absurd h (hne _ _)⟩
    rintro ⟨-, hm, hn⟩
    exact hn (hb budget (Argument.given?_eq_some_iff.mpr ⟨hm, rfl⟩))

theorem run_default (r : Rejection α) {n : Int} (hn : 1 ≤ n) :
    r.run (.integer n) none = r.run (.integer n) (some (.integer (100 * n))) := by
  obtain ⟨wanted, rfl⟩ := Int.eq_ofNat_of_zero_le (by omega : 0 ≤ n)
  have hw : 1 ≤ wanted := by omega
  have hb : 1 ≤ 100 * wanted := by omega
  exact (run_eq_collect r hw hb (.inr ⟨rfl, rfl⟩)).trans (run_eq_collect r hw hb (.inl rfl)).symm

theorem passed_run_iff (r : Rejection α) (samples : Argument α) (budget : Option (Argument α)) :
    Passed (r.run samples budget).outcome = true ↔ samples.IsCount ∧ ∀ b, budget = some b → b.IsCount := by
  rcases r.run_refusal_cases samples budget with ⟨hs, hr⟩ | ⟨-, b, hb, hn, hr⟩ | ⟨hs, hb, hp⟩
  · exact iff_of_false (by rw [hr]; exact nofun) fun h => hs h.1
  · exact iff_of_false (by rw [hr]; exact nofun) fun h => hn (h.2 b hb)
  · exact iff_of_true hp ⟨hs, hb⟩

end Rejection

namespace Importance

theorem passed_collect (s : Importance α) (wanted : Nat) : Passed (s.collect wanted).outcome = true := by
  unfold collect conclude
  split
  · rfl
  · split
    · rfl
    · split <;> rfl

theorem run_refusal_cases (s : Importance α) (samples : Argument α) :
    (¬ samples.IsCount ∧ s.run samples = ⟨.error (.badCount "num_samples" samples), s, []⟩) ∨
    (samples.IsCount ∧ Passed (s.run samples).outcome = true) := by
  unfold run
  by_cases hs : samples.IsCount
  · obtain ⟨wanted, -, hw⟩ := Argument.exists_count hs
    rw [hw]
    exact .inr ⟨hs, s.passed_collect wanted⟩
  · rw [Argument.count?_eq_none_iff.mpr hs]
    exact .inl ⟨hs, rfl⟩

structure Vets (s : Importance α) (samples : Argument α) : Prop where
  forSamples : (s.run samples).outcome = .error (.badCount "num_samples" samples) ↔ ¬ samples.IsCount
  untouched : ∀ name got, (s.run samples).outcome = .error (.badCount name got) →
    (name = "num_samples" ∧ got = samples) ∧ s.run samples = ⟨.error (.badCount name got), s, []⟩

theorem run_vets (s : Importance α) (samples : Argument α) : s.Vets samples := by
  rcases s.run_refusal_cases samples with ⟨hs, hr⟩ | ⟨hs, hp⟩
  · refine ⟨iff_of_true (by rw [hr]) hs, ?_⟩
    rw [hr]
    rintro _ _ ⟨⟩
    exact ⟨⟨rfl, rfl⟩, rfl⟩
  · have hne := ne_badCount_of_passed hp
    exact ⟨iff_of_false (hne _ _) (not_not_intro hs), fun _ _ h => absurd h (hne _ _)⟩

theorem passed_run_iff (s : Importance α) (samples : Argument α) :
    Passed (s.run samples).outcome = true ↔ samples.IsCount := by
  rcases s.run_refusal_cases samples with ⟨hs, hr⟩ | ⟨hs, hp⟩
  · exact iff_of_false (by rw [hr]; exact nofun) hs
  · exact iff_of_true hp hs

end Importance

namespace Algorithm

def refuses (a : Algorithm α) : Deed α → Bool
  | .request samples budget =>
    match a with
    | .plain _ => false
    | .rejection r => !Passed (r.run samples budget).outcome
    | .importance s => !Passed (s.run samples).outcome
  | .operate _ | .unbind .. | .setCondition _ | .setPolicy _ => false

theorem follow_of_refuses {a : Algorithm α} {d : Deed α} (h : a.refuses d = true) : a.follow d = a := by
  cases d with
  | operate | unbind | setCondition | setPolicy => cases h
  | request samples budget =>
    cases a with
    | plain s => cases h
    | rejection r =>
      have hp : ¬ Passed (r.run samples budget).outcome = true := by simpa [refuses] using h
      rcases r.run_refusal_cases samples budget with ⟨-, hr⟩ | ⟨-, b, -, -, hr⟩ | ⟨-, -, hr⟩
      · exact congrArg (fun report => Algorithm.rejection report.sampler) hr
      · exact congrArg (fun report => Algorithm.rejection report.sampler) hr
      · exact absurd hr hp
    | importance s =>
      have hp : ¬ Passed (s.run samples).outcome = true := by simpa [refuses] using h
      rcases s.run_refusal_cases samples with ⟨-, hs⟩ | ⟨-, hs⟩
      · exact congrArg (fun report => Algorithm.importance report.sampler) hs
      · exact absurd hs hp

theorem exists_follow_plain (s : Sampler α) (d : Deed α) : ∃ s', (plain s).follow d = .plain s' := by
  cases d with
  | unbind index name =>
    change ∃ s', (plain s).unbind index name = .plain s'
    unfold unbind
    split <;> exact ⟨_, rfl⟩
  | request | operate | setCondition | setPolicy => exact ⟨_, rfl⟩

theorem refuses_follow (a : Algorithm α) (d d' : Deed α) : (a.follow d).refuses d' = a.refuses d' := by
  cases a with
  | plain s =>
    obtain ⟨s', hs⟩ := exists_follow_plain s d
    rw [hs]
    cases d' <;> rfl
  | rejection r =>
    obtain ⟨r', hr⟩ := exists_follow_rejection r d
    rw [hr]
    cases d' with
    | operate | unbind | setCondition | setPolicy => rfl
    | request samples budget =>
      have hpassed := (r'.passed_run_iff samples budget).trans (r.passed_run_iff samples budget).symm
      exact congrArg not (Bool.eq_iff_iff.mpr hpassed)
  | importance s =>
    obtain ⟨s', hs⟩ := exists_follow_importance s d
    rw [hs]
    cases d' with
    | operate | unbind | setCondition | setPolicy => rfl
    | request samples budget =>
      have hpassed := (s'.passed_run_iff samples).trans (s.passed_run_iff samples).symm
      exact congrArg not (Bool.eq_iff_iff.mpr hpassed)

theorem followAll_filter (a : Algorithm α) (deeds : List (Deed α)) :
    a.followAll (deeds.filter fun d => !a.refuses d) = a.followAll deeds := by
  induction deeds generalizing a with
  | nil => rfl
  | cons d deeds ih =>
    have hkept : (deeds.filter fun d' => !(a.follow d).refuses d') = deeds.filter fun d' => !a.refuses d' :=
      List.filter_congr fun d' _ => by rw [refuses_follow]
    change _ = (a.follow d).followAll deeds
    cases hd : a.refuses d with
    | true =>
      rw [List.filter_cons_of_neg (by simp [hd]), follow_of_refuses hd]
      exact ih a
    | false =>
      rw [List.filter_cons_of_pos (by simp [hd]), ← ih (a.follow d), hkept]
      rfl

end Algorithm

/-- Behind any history of a sampler, a request is refused for its first argument that is no count. It then leaves
the sampler, with its interpreter and its generator, as it was, and the history is as good without it. A budget that
is not given is one that is not refused. -/
theorem refusals_of_history (interpreter : Interpreter α) (generator : Generator α) (policy : Policy) :
    (∀ (condition : Option (Criterion α)) (deeds : List (Deed α)),
      let fresh : Algorithm α := .rejection { interpreter, generator, policy, condition }
      ∃ r, fresh.followAll deeds = .rejection r ∧
        (∀ samples budget, r.Vets samples budget) ∧
        (∀ n : Int, 1 ≤ n → (Argument.integer (100 * n) : Argument α).IsCount ∧
          r.run (.integer n) none = r.run (.integer n) (some (.integer (100 * n)))) ∧
        fresh.followAll (deeds.filter fun d => !fresh.refuses d) = .rejection r) ∧
    ∀ deeds : List (Deed α),
      let fresh : Algorithm α :=
        .importance { interpreter, generator, policy, effectiveSize := Arithmetic.zero }
      ∃ s, fresh.followAll deeds = .importance s ∧ (∀ samples, s.Vets samples) ∧
        fresh.followAll (deeds.filter fun d => !fresh.refuses d) = .importance s := by
  constructor
  · intro condition deeds fresh
    obtain ⟨r, hr⟩ :=
      Algorithm.exists_followAll_rejection { interpreter, generator, policy, condition } deeds
    have hdefault (n : Int) (hn : 1 ≤ n) : (Argument.integer (100 * n) : Argument α).IsCount ∧
        r.run (.integer n) none = r.run (.integer n) (some (.integer (100 * n))) :=
      ⟨⟨100 * n, by omega, rfl⟩, r.run_default hn⟩
    exact ⟨r, hr, r.run_vets, hdefault, (fresh.followAll_filter deeds).trans hr⟩
  · intro deeds fresh
    obtain ⟨s, hs⟩ := Algorithm.exists_followAll_importance
      { interpreter, generator, policy, effectiveSize := Arithmetic.zero } deeds
    exact ⟨s, hs, s.run_vets, (fresh.followAll_filter deeds).trans hs⟩

theorem refusals_of_truth_value :
    let draw : Node Float := .call "sample" [.call "bernoulli" [.number 0.5]]
    let interpreter : Interpreter Float := ⟨[.assignment "x" draw], .empty⟩
    let fresh : Algorithm Float := .rejection { interpreter, generator := .cycle 0.25 #[0.75], policy := .raise }
    let one : Argument Float := .integer 1
    ∃ r, fresh.followAll [.request one (some one), .request (.boolean true) none] = .rejection r ∧
      r.run (.boolean true) none = ⟨.error (.badCount "num_samples" (.boolean true)), r, []⟩ ∧
      r.run one (some (.number 2.5)) = ⟨.error (.badCount "max_attempts" (.number 2.5)), r, []⟩ ∧
      r.run one none = r.run one (some (.integer 100)) ∧
      fresh.followAll [.request one (some one)] = .rejection r := by
  intro draw interpreter fresh one
  obtain ⟨hrejection, -⟩ := refusals_of_history interpreter (.cycle 0.25 #[0.75]) .raise
  obtain ⟨r, hr, hvets, hdefault, hfilter⟩ :=
    hrejection none [.request one (some one), .request (.boolean true) none]
  have hone : one.IsCount := ⟨1, by decide, rfl⟩
  have hsamples := hvets (.boolean true) .missing
  have hbudget := hvets one (.number 2.5)
  refine ⟨r, hr, ?_, ?_, (hdefault 1 (by decide)).2, ?_⟩
  · exact (hsamples.untouched _ _ (hsamples.forSamples.mpr nofun)).2
  · exact (hbudget.untouched _ _ (hbudget.forBudget.mpr ⟨hone, nofun, nofun⟩)).2
  · have hkept : fresh.refuses (.request one (some one)) = false := by decide +kernel
    have hleft : fresh.refuses (.request (.boolean true) none) = true := rfl
    rw [List.filter_cons_of_pos (by simpa using hkept), List.filter_cons_of_neg (by simpa using hleft)] at hfilter
    exact hfilter

end Posterior
