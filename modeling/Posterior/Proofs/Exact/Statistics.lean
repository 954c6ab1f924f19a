import Posterior.Proofs.Exact.Weights
import Posterior.Sampler.Importance

/-!
Summaries with exact numbers. Whatever weights that are not all zero sum to, they are first brought to sum to
one. The mean of the values then lies in their range, and the square of their deviation is the mean of their
squares less the square of their mean.
-/

set_option autoImplicit false

namespace Posterior

def Extended.pair : ℝ × ℝ → Extended × Extended := Prod.map finite finite

namespace Statistics

open Arithmetic Extended

section Pairs

variable (ps : List (ℝ × ℝ))

theorem map_fst_pair : (ps.map pair).map Prod.fst = (ps.map Prod.fst).map finite := by
  rw [List.map_map, List.map_map]
  rfl

theorem map_snd_pair : (ps.map pair).map Prod.snd = (ps.map Prod.snd).map finite := by
  rw [List.map_map, List.map_map]
  rfl

end Pairs

def total (ps : List (ℝ × ℝ)) : ℝ := (ps.map Prod.snd).sum

noncomputable def balanced (ps : List (ℝ × ℝ)) : List (ℝ × ℝ) := ps.map fun p => (p.1, p.2 / total ps)

noncomputable def center (ps : List (ℝ × ℝ)) : ℝ := ((balanced ps).map fun p => p.1 * p.2).sum

noncomputable def variance (ps : List (ℝ × ℝ)) : ℝ :=
  ((balanced ps).map fun p => p.1 ^ 2 * p.2).sum - center ps ^ 2

section Balanced

variable {ps : List (ℝ × ℝ)}

theorem map_fst_balanced (ps : List (ℝ × ℝ)) : (balanced ps).map Prod.fst = ps.map Prod.fst := by
  rw [balanced, List.map_map]
  rfl

theorem total_balanced (h : total ps ≠ 0) : total (balanced ps) = 1 := by
  have hsum : (ps.map fun p => p.2 / total ps).sum = total ps / total ps := by
    simp only [div_eq_mul_inv, List.sum_map_mul_right]
    rfl
  rw [total, balanced, List.map_map]
  exact hsum.trans (div_self h)

theorem balanced_of_total (h : total ps = 1) : balanced ps = ps := by
  have hp (p : ℝ × ℝ) : (p.1, p.2 / total ps) = p := by rw [h, div_one]
  rw [balanced, List.map_congr_left fun p _ => hp p, List.map_id']

theorem balanced_perm {qs : List (ℝ × ℝ)} (h : qs.Perm ps) : (balanced qs).Perm (balanced ps) := by
  have htotal : total qs = total ps := (h.map Prod.snd).sum_eq
  unfold balanced
  rw [htotal]
  exact h.map _

theorem rescale_pair (h : total ps ≠ 0) : Importance.rescale (ps.map pair) = (balanced ps).map pair := by
  rw [Importance.rescale, map_fst_pair, map_snd_pair, Weights.scale_finite h, List.map_map, List.map_map,
    List.map_map, List.zip_map', balanced, List.map_map]
  rfl

theorem weightedMean_pair (ps : List (ℝ × ℝ)) :
    weightedMean (ps.map pair) = finite (ps.map fun p => p.1 * p.2).sum := by
  rw [weightedMean, List.map_map, ← sum_finite, List.map_map]
  rfl

theorem weightedSpread_pair (c : ℝ) (ps : List (ℝ × ℝ)) :
    weightedSpread (finite c) (ps.map pair) =
      finite (ps.map fun p => (p.1 - c) * (p.1 - c) * p.2).sum := by
  rw [weightedSpread, List.map_map, ← sum_finite, List.map_map]
  refine congrArg sum (List.map_congr_left fun p _ => ?_)
  change (finite p.1 - finite c) * (finite p.1 - finite c) * finite p.2 = _
  rw [finite_sub, finite_mul, finite_mul]
  rfl

theorem sum_square_distances (c : ℝ) (ps : List (ℝ × ℝ)) :
    (ps.map fun p => (p.1 - c) * (p.1 - c) * p.2).sum =
      (ps.map fun p => p.1 ^ 2 * p.2).sum - 2 * c * (ps.map fun p => p.1 * p.2).sum + c ^ 2 * total ps := by
  induction ps with
  | nil => simp [total]
  | cons p ps ih =>
    have htotal : total (p :: ps) = p.2 + total ps := List.sum_cons
    rw [List.map_cons, List.sum_cons, ih, htotal, List.map_cons, List.sum_cons, List.map_cons, List.sum_cons]
    ring

theorem sum_square_distances_center (h : total ps ≠ 0) :
    ((balanced ps).map fun p => (p.1 - center ps) * (p.1 - center ps) * p.2).sum = variance ps := by
  have hcenter : ((balanced ps).map fun p => p.1 * p.2).sum = center ps := rfl
  rw [sum_square_distances, total_balanced h, hcenter, variance]
  ring

end Balanced

section Range

variable {ps qs : List (ℝ × ℝ)}

theorem center_mem_Icc {least greatest : ℝ} (hw : ∀ p ∈ ps, 0 ≤ p.2) (h : 0 < total ps)
    (hx : ∀ p ∈ ps, p.1 ∈ Set.Icc least greatest) : center ps ∈ Set.Icc least greatest := by
  have hweight : ∀ p ∈ balanced ps, 0 ≤ p.2 ∧ p.1 ∈ Set.Icc least greatest := by
    intro p hp
    obtain ⟨q, hq, rfl⟩ := List.mem_map.mp hp
    exact ⟨div_nonneg (hw q hq) h.le, hx q hq⟩
  have hbound (b : ℝ) : ((balanced ps).map fun p => b * p.2).sum = b := by
    rw [List.sum_map_mul_left]
    exact (congrArg (b * ·) (total_balanced h.ne')).trans (mul_one b)
  constructor
  · rw [← hbound least]
    exact List.sum_le_sum fun p hp => mul_le_mul_of_nonneg_right (hweight p hp).2.1 (hweight p hp).1
  · rw [← hbound greatest]
    exact List.sum_le_sum fun p hp => mul_le_mul_of_nonneg_right (hweight p hp).2.2 (hweight p hp).1

theorem variance_nonneg (hw : ∀ p ∈ ps, 0 ≤ p.2) (h : 0 < total ps) : 0 ≤ variance ps := by
  rw [← sum_square_distances_center h.ne']
  refine List.sum_nonneg fun r hr => ?_
  obtain ⟨p, hp, rfl⟩ := List.mem_map.mp hr
  obtain ⟨q, hq, rfl⟩ := List.mem_map.mp hp
  exact mul_nonneg (mul_self_nonneg _) (div_nonneg (hw q hq) h.le)

theorem ofWeighted_pair (h : ps ≠ []) :
    ∃ least greatest, IsLeast {x | x ∈ ps.map Prod.fst} least ∧
      IsGreatest {x | x ∈ ps.map Prod.fst} greatest ∧
      ofWeighted (ps.map pair) =
        some ⟨weightedMean (ps.map pair), sqrt (weightedSpread (weightedMean (ps.map pair)) (ps.map pair)),
          finite least, finite greatest⟩ := by
  have hne : ps.map Prod.fst ≠ [] := fun hn => h (List.map_eq_nil_iff.mp hn)
  obtain ⟨least, hmin, hleast⟩ := exists_minimum (fun _ _ => le_finite) hne
  obtain ⟨greatest, hmax, hgreatest⟩ := exists_maximum (fun _ _ => le_finite) hne
  refine ⟨least, greatest, hleast, hgreatest, ?_⟩
  rw [ofWeighted, map_fst_pair, hmin, hmax]

theorem ofWeighted_perm (h : qs.Perm ps) : ofWeighted (qs.map pair) = ofWeighted (ps.map pair) := by
  by_cases hps : ps = []
  · subst hps
    rw [h.eq_nil]
  · have hqs : qs ≠ [] := fun hn => hps (h.symm.trans (.of_eq hn)).eq_nil
    obtain ⟨least, greatest, hleast, hgreatest, hp⟩ := ofWeighted_pair hps
    obtain ⟨least', greatest', hleast', hgreatest', hq⟩ := ofWeighted_pair hqs
    have hvalues : {x | x ∈ qs.map Prod.fst} = {x | x ∈ ps.map Prod.fst} :=
      Set.ext fun x => (h.map Prod.fst).mem_iff
    have hmean : weightedMean (qs.map pair) = weightedMean (ps.map pair) := by
      rw [weightedMean_pair, weightedMean_pair, (h.map _).sum_eq]
    have hspread (c : ℝ) :
        weightedSpread (finite c) (qs.map pair) = weightedSpread (finite c) (ps.map pair) := by
      rw [weightedSpread_pair, weightedSpread_pair, (h.map _).sum_eq]
    rw [hvalues] at hleast' hgreatest'
    rw [hp, hq, hleast'.unique hleast, hgreatest'.unique hgreatest, hmean, weightedMean_pair, hspread]

end Range

section Uniform

noncomputable def uniform (xs : List ℝ) : List (ℝ × ℝ) := xs.map fun x => (x, 1 / xs.length)

theorem uniform_perm {xs ys : List ℝ} (h : xs.Perm ys) : (uniform xs).Perm (uniform ys) := by
  unfold uniform
  rw [h.length_eq]
  exact h.map _

theorem average_finite {xs : List ℝ} (h : xs ≠ []) :
    average (xs.map finite) = finite (xs.sum / xs.length) := by
  have hlength : (xs.length : ℝ) ≠ 0 := Nat.cast_ne_zero.mpr fun h0 => h (List.length_eq_zero_iff.mp h0)
  rw [average, sum_finite, List.length_map, ofNat_eq, finite_div _ hlength]

theorem sum_uniform (f : ℝ → ℝ) (xs : List ℝ) :
    ((uniform xs).map fun p => f p.1 * p.2).sum = (xs.map f).sum / xs.length := by
  rw [uniform, List.map_map, div_eq_mul_one_div (xs.map f).sum, ← List.sum_map_mul_right]
  rfl

theorem ofWeighted_uniform (xs : List ℝ) : ofWeighted ((uniform xs).map pair) = ofValues (xs.map finite) := by
  by_cases hxs : xs = []
  · rw [hxs]
    rfl
  · have hfst : (uniform xs).map Prod.fst = xs := by
      rw [uniform, List.map_map]
      exact List.map_id' xs
    have hmean : weightedMean ((uniform xs).map pair) = average (xs.map finite) := by
      rw [weightedMean_pair, average_finite hxs, sum_uniform fun x => x, List.map_id']
    have hspread (c : ℝ) : weightedSpread (finite c) ((uniform xs).map pair) =
        average ((xs.map finite).map fun x => (x - finite c) * (x - finite c)) := by
      have hsquares : (xs.map finite).map (fun x => (x - finite c) * (x - finite c)) =
          (xs.map fun x => (x - c) * (x - c)).map finite := by
        rw [List.map_map, List.map_map]
        exact List.map_congr_left fun x _ => by rw [Function.comp_apply, finite_sub]; rfl
      have hne : xs.map (fun x => (x - c) * (x - c)) ≠ [] := fun hn => hxs (List.map_eq_nil_iff.mp hn)
      rw [weightedSpread_pair, sum_uniform fun x => (x - c) * (x - c), hsquares, average_finite hne,
        List.length_map]
    simp only [ofWeighted, ofValues, map_fst_pair, hfst, hmean, average_finite hxs, hspread]

theorem total_const (xs : List ℝ) (w : ℝ) : total (xs.map fun x => (x, w)) = xs.length * w := by
  rw [total, List.map_map, ← nsmul_eq_mul, ← List.sum_replicate]
  exact congrArg List.sum List.map_const'

theorem balanced_const (xs : List ℝ) {w : ℝ} (hw : w ≠ 0) :
    balanced (xs.map fun x => (x, w)) = uniform xs := by
  rw [balanced, total_const, List.map_map]
  refine List.map_congr_left fun x _ => ?_
  rw [Function.comp_apply, one_div, ← div_mul_cancel_right₀ hw]

end Uniform

end Statistics

end Posterior
