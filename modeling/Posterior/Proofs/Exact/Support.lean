import Posterior.Proofs.Exact.Scores
import Posterior.Proofs.Trace.Deals
import Posterior.Statistics

set_option autoImplicit false

namespace Posterior

open Arithmetic Extended

/-- The unit draws that a family turns into samples. -/
def Family.units : Family → Set ℝ
  | .normal => Set.univ
  | .uniform | .bernoulli => Set.Ico 0 1
  | .exponential => Set.Ici 0

namespace Extended

open Arithmetic

section Families

theorem eq_finite {x y : ℝ} : Arithmetic.eq (finite x) (finite y) = true ↔ x = y := by
  rw [eq_iff]
  exact ⟨fun h => Extended.finite.inj h.2, fun h => ⟨nofun, congrArg finite h⟩⟩

theorem logChance_finite {p : ℝ} (hp : 0 < p) : Distribution.logChance (finite p) = finite (Real.log p) := by
  have hlt : lt zero (finite p) = true := by rwa [zero_eq, lt_finite]
  rw [Distribution.logChance, if_pos hlt, log_finite hp]

theorem normal_supports (μ u : ℝ) {σ : ℝ} (hσ : 0 < σ) :
    ∃ score, (Distribution.normal (finite μ) (finite σ)).logProb
      ((Distribution.normal (finite μ) (finite σ)).sample (finite u)) = finite score := by
  have hcircle : (0 : ℝ) < (2 : Nat) * Real.pi := mul_pos (by norm_num) Real.pi_pos
  simp only [Distribution.sample, Distribution.logProb, finite_mul, finite_add, finite_sub, finite_neg, half_eq,
    ofNat_eq, pi_eq, finite_div _ hσ.ne', log_finite hcircle, log_finite hσ]
  exact ⟨_, rfl⟩

theorem uniform_supports {a b u : ℝ} (hab : a < b) (hu : u ∈ Set.Ico (0 : ℝ) 1) :
    ∃ score, (Distribution.uniform (finite a) (finite b)).logProb
      ((Distribution.uniform (finite a) (finite b)).sample (finite u)) = finite score := by
  have hwidth : 0 < b - a := sub_pos.mpr hab
  have hlow : a ≤ a + (b - a) * u := le_add_of_nonneg_right (mul_nonneg hwidth.le hu.1)
  have hhigh : a + (b - a) * u ≤ b := by
    have hle : (b - a) * u ≤ b - a := mul_le_of_le_one_right hwidth.le hu.2.le
    linarith
  have hin : (le (finite a) (finite (a + (b - a) * u)) && le (finite (a + (b - a) * u)) (finite b)) = true :=
    Bool.and_eq_true_iff.mpr ⟨le_finite.mpr hlow, le_finite.mpr hhigh⟩
  rw [Distribution.sample, Distribution.logProb, finite_sub, finite_mul, finite_add, if_pos hin, log_finite hwidth]
  exact ⟨_, rfl⟩

/-- One is given for draws below the chance only, so not where the chance is zero, and zero for the others, so not
where it is one. -/
theorem bernoulli_supports {p u : ℝ} (hu : u ∈ Set.Ico (0 : ℝ) 1) :
    ∃ score, (Distribution.bernoulli (finite p)).logProb
      ((Distribution.bernoulli (finite p)).sample (finite u)) = finite score := by
  rw [Distribution.sample, Distribution.logProb, one_eq, zero_eq]
  by_cases hp : u < p
  · have hone : Arithmetic.eq (finite 1) (finite 1) = true := eq_finite.mpr rfl
    rw [if_pos (lt_finite.mpr hp), if_pos hone, logChance_finite (hu.1.trans_lt hp)]
    exact ⟨_, rfl⟩
  · have hzero : Arithmetic.eq (finite 0) (finite 0) = true := eq_finite.mpr rfl
    have hne : ¬ Arithmetic.eq (finite 0) (finite 1) = true := fun h => zero_ne_one (eq_finite.mp h)
    have hrest : 0 < 1 - p := sub_pos.mpr ((not_lt.mp hp).trans_lt hu.2)
    rw [if_neg fun h => hp (lt_finite.mp h), if_neg hne, if_pos hzero, finite_sub, logChance_finite hrest]
    exact ⟨_, rfl⟩

theorem exponential_supports {r u : ℝ} (hr : 0 < r) (hu : 0 ≤ u) :
    ∃ score, (Distribution.exponential (finite r)).logProb
      ((Distribution.exponential (finite r)).sample (finite u)) = finite score := by
  have hx : ¬ lt (finite (1 / r * u)) (finite 0) = true := fun h =>
    not_lt.mpr (mul_nonneg (one_div_pos.mpr hr).le hu) (lt_finite.mp h)
  rw [Distribution.sample, Distribution.logProb, one_eq, zero_eq, finite_div _ hr.ne', finite_mul, if_neg hx,
    log_finite hr, finite_mul, finite_sub]
  exact ⟨_, rfl⟩

theorem supports_of_fault? {d : Distribution Extended} (h : d.family.fault? d.params = none) {u : ℝ}
    (hu : u ∈ d.family.units) :
    d.canSample = true ∧ ∃ score, d.logProb (d.sample (finite u)) = finite score := by
  obtain ⟨hfinite, hrange⟩ := Distribution.valid_of_fault? h
  cases d with
  | normal mean deviation =>
    obtain ⟨μ, rfl⟩ := isFinite_iff.mp (hfinite mean (by simp [Distribution.params]))
    obtain ⟨σ, rfl⟩ := isFinite_iff.mp (hfinite deviation (by simp [Distribution.params]))
    have hσ : lt zero (finite σ) = true := hrange
    rw [zero_eq, lt_finite] at hσ
    exact ⟨rfl, normal_supports μ u hσ⟩
  | uniform low high =>
    obtain ⟨a, rfl⟩ := isFinite_iff.mp (hfinite low (by simp [Distribution.params]))
    obtain ⟨b, rfl⟩ := isFinite_iff.mp (hfinite high (by simp [Distribution.params]))
    have hab : lt (finite a) (finite b) = true := hrange
    exact ⟨rfl, uniform_supports (lt_finite.mp hab) hu⟩
  | bernoulli chance =>
    obtain ⟨p, rfl⟩ := isFinite_iff.mp (hfinite chance (by simp [Distribution.params]))
    exact ⟨rfl, bernoulli_supports hu⟩
  | exponential rate =>
    obtain ⟨r, rfl⟩ := isFinite_iff.mp (hfinite rate (by simp [Distribution.params]))
    have hr : lt zero (finite r) = true := hrange
    rw [zero_eq, lt_finite] at hr
    exact ⟨rfl, exponential_supports hr hu⟩

end Families

section Sums

variable {x y : Extended} {xs : List Extended}

theorem add_eq_negInf_iff (hx : x ≠ posInf) (hy : y ≠ posInf) :
    x + y = negInf ↔ (x ≠ nan ∧ y ≠ nan) ∧ (x = negInf ∨ y = negInf) := by
  change Extended.add x y = negInf ↔ _
  cases x <;> cases y <;> simp_all [Extended.add]

theorem add_eq_nan_iff (hx : x ≠ posInf) (hy : y ≠ posInf) : x + y = nan ↔ x = nan ∨ y = nan := by
  change Extended.add x y = nan ↔ _
  cases x <;> cases y <;> simp_all [Extended.add]

theorem sum_eq_negInf_iff (h : ∀ x ∈ xs, x ≠ posInf) :
    Arithmetic.sum xs = negInf ↔ nan ∉ xs ∧ negInf ∈ xs := by
  -- What is not a number stays in the sum, and no part leads above the numbers.
  have hfold (a : Extended) (ha : a ≠ posInf) : xs.foldl (· + ·) a = negInf ↔
      (a ≠ nan ∧ nan ∉ xs) ∧ (a = negInf ∨ negInf ∈ xs) := by
    induction xs generalizing a with
    | nil => cases a <;> simp
    | cons x xs ih =>
      obtain ⟨hx, hxs⟩ := List.forall_mem_cons.mp h
      have hsum := add_eq_negInf_iff ha hx
      have hnan := add_eq_nan_iff ha hx
      rw [List.foldl_cons, ih hxs _ (add_ne_posInf ha hx), hsum, ne_eq, hnan]
      simp only [List.mem_cons, not_or, eq_comm]
      tauto
  have hzero : (Arithmetic.zero : Extended) ≠ posInf ∧ (Arithmetic.zero : Extended) ≠ nan ∧
      (Arithmetic.zero : Extended) ≠ negInf := by
    rw [zero_eq]
    exact ⟨nofun, nofun, nofun⟩
  rw [Arithmetic.sum, hfold _ hzero.1]
  tauto

theorem raw_eq_zero_iff : Weights.raw x = Arithmetic.zero ↔ x = negInf := by
  rw [zero_eq]
  cases x with
  | finite x =>
    exact ⟨fun h => absurd (Extended.finite.inj h) (Real.exp_ne_zero x), nofun⟩
  | negInf => exact iff_of_true rfl rfl
  | nan | posInf => exact ⟨nofun, nofun⟩

end Sums

end Extended

section Runs

variable {ns : List (Node Extended)} {m m' : Machine Extended} {ds : List (Deal Extended)}
  {vs : List (Value Extended)}

/-- The value scored is one that the same distribution has given as a sample. -/
def Deal.Returned {α : Type} [Arithmetic α] (ds : List (Deal α)) (deal : Deal α) : Prop :=
  ∃ d u, .draw d u ∈ ds ∧ deal = .score d (d.sample u)

open Classical in
/-- What is dealt apart from the scores of samples by the distributions that gave them. -/
noncomputable def Deal.others (ds : List (Deal Extended)) : List (Deal Extended) :=
  ds.filter fun deal => !decide (Deal.Returned ds deal)

def Deal.InUnits (ds : List (Deal Extended)) : Prop :=
  ∀ d u, .draw d u ∈ ds → ∃ r ∈ d.family.units, u = finite r

theorem Deals.supports (h : Deals ns m ds vs m') (hu : Deal.InUnits ds) {d : Distribution Extended}
    {u : Extended} (hd : .draw d u ∈ ds) : ∃ score, d.logProb (d.sample u) = finite score := by
  obtain ⟨r, hr, rfl⟩ := hu d u hd
  exact (supports_of_fault? (h.fault?_eq_none _ hd) hr).2

theorem Deals.scores_ne_posInf (h : Deals ns m ds vs m') : ∀ x ∈ Deal.scores ds, x ≠ posInf := by
  intro x hx
  obtain ⟨deal, hdeal, hscore⟩ := List.mem_filterMap.mp hx
  cases deal with
  | draw => cases hscore
  | score d value =>
    cases hscore
    exact logProb_ne_posInf (h.fault?_eq_none _ hdeal) value

theorem Deals.mem_scores_others (h : Deals ns m ds vs m') (hu : Deal.InUnits ds) {x : Extended}
    (hx : ∀ r, x ≠ finite r) : x ∈ Deal.scores (Deal.others ds) ↔ x ∈ Deal.scores ds := by
  constructor
  · intro hmem
    exact (List.filter_sublist.filterMap _).subset hmem
  · intro hmem
    obtain ⟨deal, hdeal, hscore⟩ := List.mem_filterMap.mp hmem
    refine List.mem_filterMap.mpr ⟨deal, ?_, hscore⟩
    refine List.mem_filter.mpr ⟨hdeal, ?_⟩
    rw [Bool.not_eq_true', decide_eq_false_iff_not]
    rintro ⟨d, u, hd, rfl⟩
    cases hscore
    obtain ⟨score, hs⟩ := h.supports hu hd
    exact hx score hs

theorem Deals.total_eq_negInf_iff (h : Deals ns m ds vs m') (hu : Deal.InUnits ds) :
    Arithmetic.sum (Deal.scores ds) = negInf ↔ Arithmetic.sum (Deal.scores (Deal.others ds)) = negInf := by
  have hothers : ∀ x ∈ Deal.scores (Deal.others ds), x ≠ posInf := fun x hx =>
    h.scores_ne_posInf x ((List.filter_sublist.filterMap _).subset hx)
  have hnan := h.mem_scores_others hu fun _ (h : nan = _) => Extended.noConfusion h
  have hnegInf := h.mem_scores_others hu fun _ (h : Extended.negInf = _) => Extended.noConfusion h
  rw [sum_eq_negInf_iff h.scores_ne_posInf, sum_eq_negInf_iff hothers, hnan, hnegInf]

end Runs

/-- What a distribution without a fault makes of a draw has a real number for its score. So observing a sample by the
distribution it comes from takes the weight from no run: the weight is zero only if it is so without such scores. -/
theorem support_of_draws :
    (∀ (d : Distribution Extended) (u : ℝ), d.family.fault? d.params = none → u ∈ d.family.units →
      d.canSample = true ∧ ∃ score, d.logProb (d.sample (finite u)) = finite score) ∧
    ∀ (statements : List (Node Extended)) (g : Generator Extended),
      (∀ result, ((Interpreter.mk statements .empty).run g).1 = .ok result →
        ∃ ds vs m', Deals statements ⟨.empty, g⟩ ds vs m' ∧ m'.store.totalLogProb = result.totalLogProb) ∧
      ∀ ds vs m', Deals statements ⟨.empty, g⟩ ds vs m' → Deal.InUnits ds →
        (∀ d u, .draw d u ∈ ds → ∃ score, d.logProb (d.sample u) = finite score) ∧
        (Weights.raw m'.store.totalLogProb = Arithmetic.zero ↔
          Weights.raw (Arithmetic.sum (Deal.scores (Deal.others ds))) = Arithmetic.zero) := by
  refine ⟨fun d u h hu => supports_of_fault? h hu, fun statements g => ⟨fun result h => ?_, ?_⟩⟩
  · obtain ⟨ds, vs, m', hd, htotal⟩ := exists_deals_of_run h
    exact ⟨ds, vs, m', hd, hd.totalLogProb_eq.trans htotal.symm⟩
  · intro ds vs m' h hu
    refine ⟨fun d u hd => h.supports hu hd, ?_⟩
    rw [raw_eq_zero_iff, raw_eq_zero_iff, ← h.total_eq_negInf_iff hu, h.totalLogProb_eq]
    rfl

theorem support_of_observed_draw :
    let d : Distribution Extended := .exponential (finite 2)
    let source : Node Extended := .call "exponential" [.number (finite 2)]
    let statements := [.call "observe" [.call "sample" [source], source]]
    (∃ score, d.logProb (d.sample (finite 1)) = finite score) ∧
      ∃ result, ((Interpreter.mk statements .empty).run (.cycle (finite 1) #[])).1 = .ok result ∧
        Weights.raw result.totalLogProb ≠ Arithmetic.zero := by
  intro d source statements
  have hfault : Family.exponential.fault? [finite 2] = none := by
    simp [Family.fault?, Signature.fault?, Family.signature, Family.rangeFault?]
  have hmake : Family.exponential.make [finite 2] = .ok d := by
    rw [Family.make, hfault]
    rfl
  have hsource (m : Machine Extended) : Deals [source] m [] [.distribution d] m := deals_literal_call hmake m
  let m : Machine Extended := ⟨.empty, .cycle (finite 1) #[]⟩
  have hargs : Deals [.call "sample" [source], source] m [.draw d (finite 1)]
    [.number (d.sample (finite 1)), .distribution d] { m with generator := { m.generator with used := 1 } } :=
    .sample (hsource m) rfl (hsource _)
  let score : Observation Extended := ⟨d.sample (finite 1), .exponential, d.logProb (d.sample (finite 1))⟩
  have hall : Deals statements m [.draw d (finite 1), .score d (d.sample (finite 1))] [.number score.logProb]
    ⟨m.store.observe score, { m.generator with used := 1 }⟩ := .observe hargs (.nil _)
  obtain ⟨es, hperforms⟩ := hall.exists_performs
  have hfits (levels : Nat) : ∀ n ∈ statements, n.FitsIn (levels + 4) := by
    simp [statements, source, Node.FitsIn, Node.children]
  have hrun : (Interpreter.mk statements .empty).run m.generator =
      (.ok (.ofRun _ _), ⟨statements, m.store.observe score⟩, { m.generator with used := 1 }) :=
    run_eq_ok_iff.mpr ⟨hfits 496, rfl, es, _, hperforms, rfl⟩
  have hunits : Deal.InUnits [.draw d (finite 1), .score d (d.sample (finite 1))] := by
    intro d' u hmem
    rcases List.mem_cons.mp hmem with h | h
    · cases h
      exact ⟨1, Set.mem_Ici.mpr zero_le_one, rfl⟩
    · cases List.mem_singleton.mp h
  obtain ⟨hsupport, hruns⟩ := support_of_draws
  obtain ⟨-, hweight⟩ := (hruns statements m.generator).2 _ _ _ hall hunits
  have hothers : Deal.others [.draw d (finite 1), .score d (d.sample (finite 1))] = [.draw d (finite 1)] := by
    simp [Deal.others, Deal.Returned]
  refine ⟨(hsupport d 1 hfault (Set.mem_Ici.mpr zero_le_one)).2, _, congrArg Prod.fst hrun, fun hzero => ?_⟩
  rw [hothers] at hweight
  have hnone : (zero : Extended) = negInf := raw_eq_zero_iff.mp (hweight.mp hzero)
  rw [zero_eq] at hnone
  cases hnone

end Posterior
