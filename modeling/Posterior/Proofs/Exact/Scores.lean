import Posterior.Proofs.Construction
import Posterior.Proofs.Exact

set_option autoImplicit false

namespace Posterior

namespace Extended

section Sums

variable {x y : Extended}

theorem add_ne_posInf (hx : x ≠ posInf) (hy : y ≠ posInf) : x + y ≠ posInf := by
  cases x <;> cases y <;> first | exact absurd rfl hx | exact absurd rfl hy | exact nofun

theorem sum_ne_posInf {xs : List Extended} (h : ∀ x ∈ xs, x ≠ posInf) : Arithmetic.sum xs ≠ posInf := by
  have hfold (a : Extended) (ha : a ≠ posInf) : xs.foldl (· + ·) a ≠ posInf := by
    induction xs generalizing a with
    | nil => exact ha
    | cons x xs ih =>
      obtain ⟨hx, hxs⟩ := List.forall_mem_cons.mp h
      exact ih hxs _ (add_ne_posInf ha hx)
  refine hfold _ ?_
  rw [zero_eq]
  exact nofun

theorem finite_sub_ne_posInf (a : ℝ) (hy : y ≠ negInf) : finite a - y ≠ posInf := by
  cases y with
  | negInf => exact absurd rfl hy
  | nan | finite | posInf => exact nofun

theorem finite_mul_of_pos {a : ℝ} (ha : 0 < a) (hx : ∀ r, x ≠ finite r) : finite a * x = ofSign x.sign := by
  have hmul : finite a * x = ofSign (SignType.sign a * x.sign) := by
    cases x with
    | finite r => exact absurd rfl (hx r)
    | nan | negInf | posInf => rfl
  rw [hmul, sign_pos ha, one_mul]

/-- No square comes to less than zero, also if it is taken of a half first. -/
theorem half_square_ne_negInf (z : Extended) : Arithmetic.half * z * z ≠ negInf := by
  rw [half_eq]
  cases z with
  | finite z => exact nofun
  | nan | negInf | posInf =>
    rw [finite_mul_of_pos one_half_pos fun _ h => Extended.noConfusion h]
    exact nofun

theorem finite_mul_ne_negInf {a : ℝ} (ha : 0 < a) (hx : ¬ Arithmetic.lt x Arithmetic.zero = true) :
    finite a * x ≠ negInf := by
  cases x with
  | finite r => exact nofun
  | nan | posInf =>
    rw [finite_mul_of_pos ha fun _ h => Extended.noConfusion h]
    exact nofun
  | negInf =>
    have hlt : Arithmetic.lt negInf Arithmetic.zero = true := by
      rw [zero_eq]
      exact lt_iff.mpr ⟨_, _, rfl, rfl, EReal.bot_lt_coe 0⟩
    exact absurd hlt hx

end Sums

section Families

open Arithmetic

theorem logChance_ne_posInf (p : ℝ) : Distribution.logChance (finite p) ≠ posInf := by
  unfold Distribution.logChance
  split
  · next hp =>
    rw [zero_eq, lt_finite] at hp
    rw [log_finite hp]
    exact nofun
  · exact nofun

theorem logProb_ne_posInf {d : Distribution Extended} (h : d.family.fault? d.params = none) (x : Extended) :
    d.logProb x ≠ posInf := by
  obtain ⟨hfinite, hrange⟩ := Distribution.valid_of_fault? h
  cases d with
  | normal mean deviation =>
    obtain ⟨σ, rfl⟩ := isFinite_iff.mp (hfinite deviation (by simp [Distribution.params]))
    have hlt : lt zero (finite σ) = true := hrange
    have hσ : 0 < σ := by rwa [zero_eq, lt_finite] at hlt
    have hcircle : (0 : ℝ) < (2 : Nat) * Real.pi := mul_pos (by norm_num) Real.pi_pos
    obtain ⟨peak, hpeak⟩ : ∃ peak, -half * log (ofNat 2 * pi) - log (finite σ) = finite peak := by
      rw [half_eq, ofNat_eq, pi_eq, finite_neg, finite_mul, log_finite hcircle, log_finite hσ, finite_mul,
        finite_sub]
      exact ⟨_, rfl⟩
    rw [Distribution.logProb, hpeak]
    exact finite_sub_ne_posInf peak (half_square_ne_negInf _)
  | uniform low high =>
    obtain ⟨a, rfl⟩ := isFinite_iff.mp (hfinite low (by simp [Distribution.params]))
    obtain ⟨b, rfl⟩ := isFinite_iff.mp (hfinite high (by simp [Distribution.params]))
    have hlt : lt (finite a) (finite b) = true := hrange
    have hab : 0 < b - a := sub_pos.mpr (lt_finite.mp hlt)
    rw [Distribution.logProb]
    split
    · rw [finite_sub, log_finite hab]
      exact nofun
    · exact nofun
  | bernoulli chance =>
    obtain ⟨p, rfl⟩ := isFinite_iff.mp (hfinite chance (by simp [Distribution.params]))
    rw [Distribution.logProb, one_eq, finite_sub]
    split
    · exact logChance_ne_posInf p
    · split
      · exact logChance_ne_posInf (1 - p)
      · exact nofun
  | exponential rate =>
    obtain ⟨r, rfl⟩ := isFinite_iff.mp (hfinite rate (by simp [Distribution.params]))
    have hlt : lt zero (finite r) = true := hrange
    have hr : 0 < r := by rwa [zero_eq, lt_finite] at hlt
    rw [Distribution.logProb]
    split
    · exact nofun
    · next hx =>
      rw [log_finite hr]
      exact finite_sub_ne_posInf _ (finite_mul_ne_negInf hr hx)

end Families

end Extended

end Posterior
