import Mathlib.Algebra.BigOperators.Fin
import Mathlib.Algebra.Order.BigOperators.Group.List
import Posterior.Proofs.Exact
import Posterior.Statistics

set_option autoImplicit false

namespace Posterior

/-- A log-probability as a number: minus infinity is the one of an impossible run. -/
def Extended.ofLog : WithBot ℝ → Extended :=
  WithBot.recBotCoe negInf finite

namespace Weights

open Arithmetic Extended

noncomputable def mass : WithBot ℝ → ℝ :=
  WithBot.recBotCoe 0 Real.exp

noncomputable def share (lps : List (WithBot ℝ)) (lp : WithBot ℝ) : ℝ :=
  mass lp / (lps.map mass).sum

section Mass

@[simp] theorem mass_bot : mass ⊥ = 0 := rfl

theorem mass_strictMono : StrictMono mass := by
  intro a b h
  cases b with
  | bot => exact absurd h not_lt_bot
  | coe y =>
    cases a with
    | bot => exact Real.exp_pos y
    | coe x => exact Real.exp_lt_exp.mpr (WithBot.coe_lt_coe.mp h)

theorem mass_nonneg (lp : WithBot ℝ) : 0 ≤ mass lp := mass_strictMono.monotone bot_le

theorem mass_add (lp : WithBot ℝ) (c : ℝ) : mass (lp + c) = mass lp * Real.exp c := by
  cases lp with
  | bot => rw [WithBot.bot_add, mass_bot, zero_mul]
  | coe x => exact Real.exp_add x c

theorem le_ofLog {a b : WithBot ℝ} : le (ofLog a) (ofLog b) = true ↔ a ≤ b := by
  cases a with
  | bot => cases b <;> simp [ofLog, le_iff, rank]
  | coe x => cases b <;> simp [ofLog, le_iff, rank]

theorem exp_ofLog_sub (lp : WithBot ℝ) (c : ℝ) :
    exp (ofLog lp - finite c) = finite (mass lp / Real.exp c) := by
  cases lp with
  | bot => exact congrArg finite (zero_div _).symm
  | coe x =>
    change exp (finite x - finite c) = _
    rw [finite_sub, exp_finite, Real.exp_sub]
    rfl

end Mass

variable {lps : List (WithBot ℝ)}

theorem mass_le_total {lp : WithBot ℝ} (h : lp ∈ lps) : mass lp ≤ (lps.map mass).sum := by
  refine List.single_le_sum ?_ _ (List.mem_map_of_mem h)
  intro x hx
  obtain ⟨lq, -, rfl⟩ := List.mem_map.mp hx
  exact mass_nonneg lq

theorem total_pos (h : ∃ lp ∈ lps, lp ≠ ⊥) : 0 < (lps.map mass).sum := by
  obtain ⟨lp, hlp, hne⟩ := h
  have hpos : 0 < mass lp := mass_strictMono (bot_lt_iff_ne_bot.mpr hne)
  exact hpos.trans_le (mass_le_total hlp)

theorem scale_finite {xs : List ℝ} (h : xs.sum ≠ 0) :
    scale (xs.map finite) = (xs.map (· / xs.sum)).map finite := by
  rw [scale, sum_finite, List.map_map, List.map_map]
  exact List.map_congr_left fun x _ => finite_div x h

theorem normalize_eq_none (h : ∀ lp ∈ lps, lp = ⊥) : normalize (lps.map ofLog) = none := by
  by_cases hnil : lps = []
  · rw [hnil]
    rfl
  · obtain ⟨top, hmax, htop, -⟩ := exists_maximum (fun _ _ => le_ofLog) hnil
    have heq : eq (ofLog top) Extended.negInf = true :=
      eq_iff.mpr ⟨h top htop ▸ nofun, congrArg ofLog (h top htop)⟩
    unfold normalize
    rw [hmax]
    exact if_pos heq

/-- The greatest that is taken off cancels from every quotient. -/
theorem normalize_eq_shares (h : ∃ lp ∈ lps, lp ≠ ⊥) :
    normalize (lps.map ofLog) = some (lps.map fun lp => finite (share lps lp)) := by
  obtain ⟨lp, hlp, hne⟩ := h
  obtain ⟨top, hmax, -, hle⟩ := exists_maximum (fun _ _ => le_ofLog) (List.ne_nil_of_mem hlp)
  have htotal : (lps.map mass).sum ≠ 0 := (total_pos ⟨lp, hlp, hne⟩).ne'
  unfold normalize
  rw [hmax]
  cases top with
  | bot => exact absurd (le_bot_iff.mp (hle hlp)) hne
  | coe c =>
    have hshift : (lps.map ofLog).map (fun lp => exp (lp - ofLog c)) =
        (lps.map fun lp => mass lp / Real.exp c).map finite := by
      rw [List.map_map, List.map_map]
      exact List.map_congr_left fun lp _ => exp_ofLog_sub lp c
    have hsum : (lps.map fun lp => mass lp / Real.exp c).sum = (lps.map mass).sum / Real.exp c := by
      simp only [div_eq_mul_inv, List.sum_map_mul_right]
    have hn : ¬ eq (ofLog c) Extended.negInf = true := fun heq => Extended.noConfusion (eq_iff.mp heq).2
    have hquotient : (lps.map mass).sum / Real.exp c ≠ 0 := div_ne_zero htotal (Real.exp_ne_zero c)
    dsimp only
    rw [negInf_eq, if_neg hn, hshift, scale_finite (hsum ▸ hquotient), hsum, List.map_map, List.map_map]
    refine congrArg some (List.map_congr_left fun lp _ => congrArg finite ?_)
    exact div_div_div_cancel_right₀ (Real.exp_ne_zero c) _ _

section Positive

variable {x y : Extended}

theorem ne_of_lt_div (h : lt zero (x / y) = true) : x ≠ nan ∧ x ≠ finite 0 := by
  obtain ⟨a, b, ha, hb, hab⟩ := lt_iff.mp h
  rw [zero_eq] at ha
  constructor
  · rintro rfl
    rw [nan_div] at hb
    cases hb
  · rintro rfl
    have hz : finite 0 / y = nan ∨ finite 0 / y = finite 0 := by
      cases y with
      | nan => exact .inl rfl
      | negInf | posInf => exact .inr rfl
      | finite r =>
        by_cases hr : r = 0
        · exact .inl ((if_pos hr).trans (congrArg ofSign sign_zero))
        · exact .inr ((finite_div 0 hr).trans (congrArg finite (zero_div r)))
    rcases hz with hz | hz <;> rw [hz] at hb
    · cases hb
    · exact hab.ne (Option.some.inj (ha.symm.trans hb))

theorem exists_of_exp_sub (hy : y ≠ Extended.negInf) (hn : exp (x - y) ≠ nan) (hz : exp (x - y) ≠ finite 0) :
    ∃ c, y = finite c := by
  cases y with
  | finite c => exact ⟨c, rfl⟩
  | negInf => exact absurd rfl hy
  | nan => cases x <;> exact absurd rfl hn
  | posInf => cases x <;> first | exact absurd rfl hn | exact absurd rfl hz

theorem exists_logs {lps ws : List Extended} (h : normalize lps = some ws)
    (hpos : ∃ w ∈ ws, lt zero w = true) : ∃ logs : List (WithBot ℝ), lps = logs.map ofLog := by
  unfold normalize at h
  split at h
  · cases h
  · next top htop =>
    split at h
    · cases h
    · next hne =>
      have hbot : top ≠ Extended.negInf := fun hb => hne (eq_iff.mpr ⟨hb ▸ nofun, hb⟩)
      obtain ⟨w, hw, hlt⟩ := hpos
      rw [← Option.some.inj h] at hw
      obtain ⟨u, hu, rfl⟩ := List.mem_map.mp hw
      obtain ⟨lp, -, rfl⟩ := List.mem_map.mp hu
      obtain ⟨hn, hz⟩ := ne_of_lt_div hlt
      obtain ⟨c, rfl⟩ := exists_of_exp_sub hbot hn hz
      have hle := ((mem_of_maximum htop).2 (finite c)).mp (le_finite.mpr le_rfl)
      refine exists_map fun lq hq => ?_
      cases lq with
      | negInf => exact ⟨⊥, rfl⟩
      | finite r => exact ⟨r, rfl⟩
      | nan => exact absurd rfl (ne_nan_of_le (hle nan hq)).1
      | posInf =>
        obtain ⟨a, b, ha, hb, hab⟩ := le_iff.mp (hle posInf hq)
        cases ha
        cases hb
        exact absurd (top_le_iff.mp hab) (EReal.coe_ne_top c)

end Positive

theorem exists_const_logs {lps : List Extended} (hne : lps ≠ []) (hbound : ∀ lp ∈ lps, lp ≠ posInf)
    (heq : ∀ a ∈ lps, ∀ b ∈ lps, eq a b = true) :
    ∃ (l : WithBot ℝ) (logs : List (WithBot ℝ)), lps = logs.map ofLog ∧ ∀ lp ∈ logs, lp = l := by
  obtain ⟨first, hfirst⟩ := List.exists_mem_of_ne_nil lps hne
  obtain ⟨l, rfl⟩ : ∃ l, first = ofLog l := by
    cases first with
    | nan => exact absurd rfl (eq_iff.mp (heq _ hfirst _ hfirst)).1
    | negInf => exact ⟨⊥, rfl⟩
    | finite c => exact ⟨c, rfl⟩
    | posInf => exact absurd rfl (hbound _ hfirst)
  have hconst : ∀ lp ∈ lps, lp = ofLog l := fun lp hlp => (eq_iff.mp (heq lp hlp _ hfirst)).2
  refine ⟨l, lps.map fun _ => l, ?_, fun lp hlp => ?_⟩
  · rw [List.map_map]
    exact (List.map_id' lps).symm.trans (List.map_congr_left hconst)
  · obtain ⟨_, -, rfl⟩ := List.mem_map.mp hlp
    rfl

theorem share_strictMono (h : ∃ lp ∈ lps, lp ≠ ⊥) : StrictMono (share lps) :=
  fun _ _ hlt => div_lt_div_of_pos_right (mass_strictMono hlt) (total_pos h)

theorem share_bot (lps : List (WithBot ℝ)) : share lps ⊥ = 0 := zero_div _

theorem share_nonneg (h : ∃ lp ∈ lps, lp ≠ ⊥) (lp : WithBot ℝ) : 0 ≤ share lps lp :=
  share_bot lps ▸ (share_strictMono h).monotone bot_le

theorem share_eq_zero_iff (h : ∃ lp ∈ lps, lp ≠ ⊥) {lp : WithBot ℝ} : share lps lp = 0 ↔ lp = ⊥ := by
  rw [← share_bot lps]
  exact (share_strictMono h).injective.eq_iff

theorem sum_share (h : ∃ lp ∈ lps, lp ≠ ⊥) : (lps.map (share lps)).sum = 1 := by
  unfold share
  simp only [div_eq_mul_inv, List.sum_map_mul_right]
  exact mul_inv_cancel₀ (total_pos h).ne'

theorem share_perm {lqs : List (WithBot ℝ)} (h : lqs.Perm lps) : share lqs = share lps := by
  funext lp
  rw [share, share, (h.map mass).sum_eq]

theorem share_map_add (lps : List (WithBot ℝ)) (c : ℝ) (lp : WithBot ℝ) :
    share (lps.map (· + (c : WithBot ℝ))) (lp + c) = share lps lp := by
  have htotal : ((lps.map (· + (c : WithBot ℝ))).map mass).sum = (lps.map mass).sum * Real.exp c := by
    rw [List.map_map, ← List.sum_map_mul_right]
    exact congrArg List.sum (List.map_congr_left fun lp _ => mass_add lp c)
  rw [share, share, htotal, mass_add]
  exact mul_div_mul_right _ _ (Real.exp_ne_zero c)

theorem normalize_map_add (lps : List (WithBot ℝ)) (c : ℝ) :
    normalize ((lps.map (· + (c : WithBot ℝ))).map ofLog) = normalize (lps.map ofLog) := by
  have hbot (lp : WithBot ℝ) : lp + c = ⊥ ↔ lp = ⊥ := by
    rw [WithBot.add_eq_bot, or_iff_left (WithBot.coe_ne_bot)]
  by_cases h : ∃ lp ∈ lps, lp ≠ ⊥
  · have hshifted : ∃ lp ∈ lps.map (· + (c : WithBot ℝ)), lp ≠ ⊥ := by
      obtain ⟨lp, hlp, hne⟩ := h
      exact ⟨lp + c, List.mem_map_of_mem hlp, fun hb => hne ((hbot lp).mp hb)⟩
    rw [normalize_eq_shares h, normalize_eq_shares hshifted, List.map_map]
    exact congrArg some (List.map_congr_left fun lp _ => congrArg finite (share_map_add lps c lp))
  · push Not at h
    have hshifted : ∀ lp ∈ lps.map (· + (c : WithBot ℝ)), lp = ⊥ := by
      intro lq hq
      obtain ⟨lp, hlp, rfl⟩ := List.mem_map.mp hq
      exact (hbot lp).mpr (h lp hlp)
    rw [normalize_eq_none h, normalize_eq_none hshifted]

section Squares

variable {n : Nat} {p : Fin n → ℝ}

/-- The squares of shares sum to one if one share is everything, else to less. -/
theorem sum_sq_le_one (hp : ∀ i, 0 ≤ p i) (hs : ∑ i, p i = 1) :
    ∑ i, p i * p i ≤ 1 ∧ (∑ i, p i * p i = 1 ↔ ∃! i, p i ≠ 0) := by
  have hone (i : Fin n) : p i ≤ 1 := hs ▸ Finset.single_le_sum (fun j _ => hp j) (Finset.mem_univ i)
  have hle : ∀ i ∈ Finset.univ, p i * p i ≤ p i := fun i _ => mul_le_of_le_one_left (hp i) (hone i)
  refine ⟨hs ▸ Finset.sum_le_sum hle, ?_⟩
  have hiff : ∑ i, p i * p i = 1 ↔ ∀ i, p i * p i = p i := by
    rw [← hs, Finset.sum_eq_sum_iff_of_le hle]
    simp only [Finset.mem_univ, true_imp_iff]
  rw [hiff]
  constructor
  · intro h
    have hunit {i : Fin n} (hi : p i ≠ 0) : p i = 1 := mul_right_cancel₀ hi ((h i).trans (one_mul _).symm)
    obtain ⟨i, -, hi⟩ := Finset.exists_ne_zero_of_sum_ne_zero (hs ▸ one_ne_zero)
    refine ⟨i, hi, fun j hj => ?_⟩
    by_contra hij
    have hpair : ∑ k ∈ {j, i}, p k ≤ 1 := hs ▸ Finset.sum_le_univ_sum_of_nonneg hp
    rw [Finset.sum_pair hij, hunit hi, hunit hj] at hpair
    norm_num at hpair
  · rintro ⟨i, -, hunique⟩ j
    have hother (k : Fin n) (hk : k ≠ i) : p k = 0 := not_not.mp fun hne => hk (hunique k hne)
    have hi : p i = 1 := (Fintype.sum_eq_single i hother).symm.trans hs
    by_cases hj : j = i
    · rw [hj, hi, one_mul]
    · rw [hother j hj, zero_mul]

/-- The squares of shares sum to the inverse of their number if all are equal, else to more. -/
theorem inv_le_sum_sq (hs : ∑ i, p i = 1) :
    1 / (n : ℝ) ≤ ∑ i, p i * p i ∧ (∑ i, p i * p i = 1 / (n : ℝ) ↔ ∀ i j, p i = p j) := by
  have hn : (n : ℝ) ≠ 0 := by
    rintro h
    obtain rfl : n = 0 := Nat.cast_eq_zero.mp h
    exact zero_ne_one hs
  have hspread : ∑ i, (p i - 1 / n) ^ 2 = ∑ i, p i * p i - 1 / n := by
    calc ∑ i, (p i - 1 / n) ^ 2
        = ∑ i, (p i * p i - 2 / n * p i + (1 / n) ^ 2) := by
          refine Finset.sum_congr rfl fun i _ => ?_
          ring
      _ = ∑ i, p i * p i - 2 / n * ∑ i, p i + n * (1 / n) ^ 2 := by
          rw [Finset.sum_add_distrib, Finset.sum_sub_distrib, ← Finset.mul_sum, Finset.sum_const,
            Finset.card_univ, Fintype.card_fin, nsmul_eq_mul]
      _ = ∑ i, p i * p i - 1 / n := by
          rw [hs]
          field_simp
          ring
  have hnonneg : ∀ i ∈ Finset.univ, 0 ≤ (p i - 1 / n) ^ 2 := fun i _ => sq_nonneg _
  refine ⟨sub_nonneg.mp (hspread ▸ Finset.sum_nonneg hnonneg), ?_⟩
  rw [← sub_eq_zero, ← hspread, Finset.sum_eq_zero_iff_of_nonneg hnonneg]
  constructor
  · intro h i j
    have heq (k : Fin n) : p k = 1 / n :=
      sub_eq_zero.mp (pow_eq_zero_iff two_ne_zero |>.mp (h k (Finset.mem_univ k)))
    rw [heq i, heq j]
  · intro h i _
    have hsum : ∑ j, p j = n * p i := by
      rw [Finset.sum_congr rfl fun j _ => h j i, Finset.sum_const, Finset.card_univ, Fintype.card_fin,
        nsmul_eq_mul]
    have hi : p i = 1 / n := by
      rw [← hs, hsum]
      exact (mul_div_cancel_left₀ _ hn).symm
    rw [hi, sub_self, zero_pow two_ne_zero]

end Squares

theorem effectiveSize_finite {ws : List ℝ} (h : (ws.map fun w => w * w).sum ≠ 0) :
    effectiveSize (ws.map finite) = finite (1 / (ws.map fun w => w * w).sum) := by
  have hsquares : (ws.map finite).map (fun w => w * w) = (ws.map fun w => w * w).map finite := by
    rw [List.map_map, List.map_map]
    rfl
  rw [effectiveSize, hsquares, sum_finite, one_eq, finite_div _ h]

/-- The weights that log-probabilities come to: the shares of their masses. Another common scale changes none,
and in another order they come in that order. -/
structure Normalizes (lps : List (WithBot ℝ)) : Prop where
  entries : normalize (lps.map ofLog) = some (lps.map fun lp => finite (share lps lp))
  nonneg : ∀ lp ∈ lps, 0 ≤ share lps lp
  sum : (lps.map (share lps)).sum = 1
  shifted : ∀ c : ℝ, normalize ((lps.map (· + (c : WithBot ℝ))).map ofLog) = normalize (lps.map ofLog)
  monotone : StrictMono (share lps)
  permuted : ∀ σ : Equiv.Perm (Fin lps.length),
    normalize ((List.ofFn fun i => lps[σ i]).map ofLog) =
      some (List.ofFn fun i => finite (share lps lps[σ i]))

/-- How many runs some log-probabilities are worth. -/
structure Sizes (lps : List (WithBot ℝ)) (size : ℝ) : Prop where
  entries : effectiveSize (lps.map fun lp => finite (share lps lp)) = finite size
  eq : size = 1 / (lps.map fun lp => share lps lp * share lps lp).sum
  one_le : 1 ≤ size
  le_length : size ≤ lps.length
  eq_length_iff : size = lps.length ↔ ∀ a ∈ lps, ∀ b ∈ lps, a = b
  eq_one_iff : size = 1 ↔ ∃! i : Fin lps.length, lps[i] ≠ ⊥

theorem normalizes (h : ∃ lp ∈ lps, lp ≠ ⊥) : Normalizes lps where
  entries := normalize_eq_shares h
  nonneg lp _ := share_nonneg h lp
  sum := sum_share h
  shifted := normalize_map_add lps
  monotone := share_strictMono h
  permuted σ := by
    have hperm : (List.ofFn fun i => lps[σ i]).Perm lps :=
      (Equiv.Perm.ofFn_comp_perm σ fun i : Fin lps.length => lps[i]).trans (.of_eq List.ofFn_getElem)
    have hsome : ∃ lp ∈ List.ofFn fun i => lps[σ i], lp ≠ ⊥ := by
      obtain ⟨lp, hlp, hne⟩ := h
      exact ⟨lp, hperm.mem_iff.mpr hlp, hne⟩
    rw [normalize_eq_shares hsome, share_perm hperm, List.map_ofFn]
    rfl

theorem exists_sizes (h : ∃ lp ∈ lps, lp ≠ ⊥) : ∃ size, Sizes lps size := by
  let p (i : Fin lps.length) : ℝ := share lps lps[i]
  have hp (i : Fin lps.length) : 0 ≤ p i := share_nonneg h _
  have hs : ∑ i, p i = 1 := (Fin.sum_univ_fun_getElem lps (share lps)).trans (sum_share h)
  have hsquares : (lps.map fun lp => share lps lp * share lps lp).sum = ∑ i, p i * p i :=
    (Fin.sum_univ_fun_getElem lps fun lp => share lps lp * share lps lp).symm
  obtain ⟨hle, heqOne⟩ := sum_sq_le_one hp hs
  obtain ⟨hge, heqLength⟩ := inv_le_sum_sq hs
  have hlength : 0 < (lps.length : ℝ) := by
    obtain ⟨lp, hlp, -⟩ := h
    exact Nat.cast_pos.mpr (List.length_pos_of_mem hlp)
  have hpos : 0 < ∑ i, p i * p i := (one_div_pos.mpr hlength).trans_le hge
  refine ⟨1 / ∑ i, p i * p i, ?_, by rw [hsquares], ?_, ?_, ?_, ?_⟩
  · have hentries : ((lps.map (share lps)).map fun w => w * w).sum = ∑ i, p i * p i := by
      rw [List.map_map]
      exact hsquares
    have hsize := effectiveSize_finite (hentries ▸ hpos.ne')
    rwa [hentries, List.map_map] at hsize
  · exact (one_le_div hpos).mpr hle
  · rw [div_le_iff₀ hpos, ← div_le_iff₀' hlength]
    exact hge
  · rw [one_div, inv_eq_iff_eq_inv, ← one_div, heqLength]
    constructor
    · intro heq a ha b hb
      obtain ⟨i, hi, rfl⟩ := List.getElem_of_mem ha
      obtain ⟨j, hj, rfl⟩ := List.getElem_of_mem hb
      exact (share_strictMono h).injective (heq ⟨i, hi⟩ ⟨j, hj⟩)
    · exact fun heq i j => congrArg (share lps) (heq _ (List.getElem_mem _) _ (List.getElem_mem _))
  · rw [one_div, inv_eq_one, heqOne]
    simp only [p, ne_eq, share_eq_zero_iff h]

/-- What the scaled weights of log-probabilities are, and what their effective size tells. There are none
exactly if all the runs are impossible. -/
theorem shares_of_logs (lps : List (WithBot ℝ)) :
    (normalize (lps.map ofLog) = none ↔ ∀ lp ∈ lps, lp = ⊥) ∧
    ((∃ lp ∈ lps, lp ≠ ⊥) → Normalizes lps ∧ ∃ size, Sizes lps size) := by
  refine ⟨⟨fun hn => ?_, normalize_eq_none⟩, fun h => ⟨normalizes h, exists_sizes h⟩⟩
  by_contra h
  push Not at h
  rw [normalize_eq_shares h] at hn
  cases hn

theorem shares_of_possible_run :
    let lps : List (WithBot ℝ) := [(0 : ℝ), ⊥]
    (∃ lp ∈ lps, lp ≠ ⊥) ∧ Normalizes lps ∧ ∃ size, Sizes lps size := by
  intro lps
  have h : ∃ lp ∈ lps, lp ≠ ⊥ := ⟨(0 : ℝ), List.mem_cons_self, WithBot.coe_ne_bot⟩
  exact ⟨h, (shares_of_logs lps).2 h⟩

end Weights

end Posterior
