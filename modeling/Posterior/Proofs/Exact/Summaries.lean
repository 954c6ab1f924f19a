import Posterior.Proofs.Exact.Scores
import Posterior.Proofs.Exact.Statistics
import Posterior.Proofs.Sampling.Alignment
import Posterior.Proofs.Trace.Scores

set_option autoImplicit false

namespace Posterior

open Extended Statistics

namespace Importance

/-- A sample that binds the variable has a weight above zero. -/
def Counts (s : Importance Extended) (name : String) : Prop :=
  ∃ p ∈ s.samples.toList.zip s.normalized.toList,
    (p.1.bindings.get? name).isSome = true ∧ Arithmetic.lt Arithmetic.zero p.2 = true

/-- The values of a variable and their weights as real numbers, each value with the weight of its own sample. If all
samples bind the variable, these are all the weights. -/
structure Reads (s : Importance Extended) (name : String) (ps : List (ℝ × ℝ)) : Prop where
  size : s.normalized.size = s.samples.size
  weighings : s.weighings name = ps.map pair
  full : ps.length = s.samples.size → Statistics.total ps = 1

/-- What the weighted summary of a variable is, by its values and their weights. -/
structure Weighs (s : Importance Extended) (name : String) (ps : List (ℝ × ℝ)) : Prop extends Reads s name ps where
  entries : s.weighted? name = some (ps.map pair)
  balance : (if (ps.map pair).length < s.samples.size then rescale (ps.map pair) else ps.map pair) =
    (balanced ps).map pair
  total : total (balanced ps) = 1
  mean : weightedMean ((balanced ps).map pair) = finite (center ps)
  spread : weightedSpread (finite (center ps)) ((balanced ps).map pair) = finite (variance ps)
  nonneg : 0 ≤ variance ps
  range : ∃ least greatest, IsLeast {x | x ∈ ps.map Prod.fst} least ∧
    IsGreatest {x | x ∈ ps.map Prod.fst} greatest ∧ center ps ∈ Set.Icc least greatest ∧
    s.weightedStatistics? name =
      some (some ⟨finite (center ps), finite (Real.sqrt (variance ps)), finite least, finite greatest⟩)
  permuted : ∀ t : Importance Extended, t.normalized.size = t.samples.size →
    (t.samples.toList.zip t.normalized.toList).Perm (s.samples.toList.zip s.normalized.toList) →
      t.weightedStatistics? name = s.weightedStatistics? name ∧ t.statistics name = s.statistics name

variable {s t : Importance Extended} {name : String} {ps qs : List (ℝ × ℝ)}

namespace Reads

theorem length_le (h : s.Reads name ps) : ps.length ≤ s.samples.size := by
  have hlength := s.length_weighings_le name
  rwa [h.weighings, List.length_map] at hlength

theorem balance (h : s.Reads name ps) (hw : total ps ≠ 0) :
    (if (ps.map pair).length < s.samples.size then rescale (ps.map pair) else ps.map pair) =
      (balanced ps).map pair := by
  rw [List.length_map]
  split
  · exact rescale_pair hw
  · next hlt => rw [balanced_of_total (h.full (Nat.le_antisymm h.length_le (Nat.not_lt.mp hlt)))]

theorem weightedStatistics? (h : s.Reads name ps) (hw : total ps ≠ 0) :
    s.weightedStatistics? name = some (ofWeighted ((balanced ps).map pair)) := by
  rw [Importance.weightedStatistics?, weighted?_of_size h.size, h.weighings]
  exact congrArg (fun qs => some (ofWeighted qs)) (h.balance hw)

theorem statistics (h : s.Reads name ps) :
    s.statistics name = ofWeighted ((uniform (ps.map Prod.fst)).map pair) := by
  have hvalues : s.values name = (ps.map Prod.fst).map finite := by
    rw [← map_fst_weighings h.size, h.weighings, map_fst_pair]
  rw [Sampler.statistics, hvalues, ofWeighted_uniform]

theorem uniform (h : s.Reads name ps) {w : ℝ} (hw : w ≠ 0) (hps : ∀ p ∈ ps, p.2 = w) :
    s.weightedStatistics? name = some (s.statistics name) := by
  have hconst : ((ps.map Prod.fst).map fun x => (x, w)) = ps := by
    have hpair : ∀ p ∈ ps, (p.1, w) = p := fun p hp => Prod.ext rfl (hps p hp).symm
    rw [List.map_map]
    exact (List.map_congr_left hpair).trans (List.map_id' ps)
  by_cases hnil : ps = []
  · -- Without values there are no weights to balance, and no summary.
    subst hnil
    rw [h.statistics, Importance.weightedStatistics?, weighted?_of_size h.size, h.weighings]
    refine congrArg some ?_
    dsimp only
    split <;> rfl
  · have htotal : total ps ≠ 0 := by
      rw [← hconst, total_const, List.length_map]
      exact mul_ne_zero (Nat.cast_ne_zero.mpr fun h0 => hnil (List.length_eq_zero_iff.mp h0)) hw
    have hbalanced : balanced ps = Statistics.uniform (ps.map Prod.fst) := by
      rw [← balanced_const (ps.map Prod.fst) hw, hconst]
    rw [h.weightedStatistics? htotal, h.statistics, hbalanced]

theorem exists_perm (h : s.Reads name ps) (hsize : t.normalized.size = t.samples.size)
    (hp : (t.samples.toList.zip t.normalized.toList).Perm (s.samples.toList.zip s.normalized.toList)) :
    ∃ qs, qs.Perm ps ∧ t.Reads name qs := by
  have hinjective : Function.Injective pair :=
    Prod.map_injective.mpr ⟨fun _ _ => Extended.finite.inj, fun _ _ => Extended.finite.inj⟩
  have hperm : (t.weighings name).Perm (ps.map pair) := h.weighings ▸ weighings_perm hp
  obtain ⟨qs, hqs⟩ : ∃ qs : List (ℝ × ℝ), t.weighings name = qs.map pair := by
    refine exists_map fun q hq => ?_
    obtain ⟨p, -, rfl⟩ := List.mem_map.mp (hperm.mem_iff.mp hq)
    exact ⟨p, rfl⟩
  have hqp : qs.Perm ps := (List.map_perm_map_iff hinjective).mp (hqs ▸ hperm)
  refine ⟨qs, hqp, hsize, hqs, fun hfull => ?_⟩
  have hsamples : t.samples.size = s.samples.size := by
    have hlength := hp.length_eq
    rw [List.length_zip, List.length_zip] at hlength
    have ht : t.normalized.toList.length = t.samples.toList.length := hsize
    have hs : s.normalized.toList.length = s.samples.toList.length := h.size
    rwa [ht, hs, Nat.min_self, Nat.min_self] at hlength
  have htotal : total qs = total ps := (hqp.map Prod.snd).sum_eq
  rw [htotal]
  exact h.full (hqp.length_eq.symm.trans (hfull.trans hsamples))

theorem permuted (h : s.Reads name ps) (hw : total ps ≠ 0) (hsize : t.normalized.size = t.samples.size)
    (hp : (t.samples.toList.zip t.normalized.toList).Perm (s.samples.toList.zip s.normalized.toList)) :
    t.weightedStatistics? name = s.weightedStatistics? name ∧ t.statistics name = s.statistics name := by
  obtain ⟨qs, hqp, hq⟩ := h.exists_perm hsize hp
  have htotal : total qs ≠ 0 := by
    rw [total, (hqp.map Prod.snd).sum_eq]
    exact hw
  constructor
  · rw [hq.weightedStatistics? htotal, h.weightedStatistics? hw, ofWeighted_perm (balanced_perm hqp)]
  · rw [hq.statistics, h.statistics, ofWeighted_perm (uniform_perm (hqp.map Prod.fst))]

theorem weighs (h : s.Reads name ps) (hps : ∀ p ∈ ps, 0 ≤ p.2) (hw : 0 < total ps) : s.Weighs name ps := by
  have hmean : weightedMean ((balanced ps).map pair) = finite (center ps) := weightedMean_pair _
  have hspread : weightedSpread (finite (center ps)) ((balanced ps).map pair) = finite (variance ps) := by
    rw [weightedSpread_pair, sum_square_distances_center hw.ne']
  have hentries : s.weighted? name = some (ps.map pair) := by rw [weighted?_of_size h.size, h.weighings]
  refine ⟨h, hentries, h.balance hw.ne', total_balanced hw.ne', hmean, hspread, variance_nonneg hps hw, ?_,
    fun t => h.permuted hw.ne'⟩
  have hne : balanced ps ≠ [] := by
    rintro hn
    have hnil : ps = [] := List.map_eq_nil_iff.mp hn
    rw [hnil] at hw
    exact hw.ne rfl
  obtain ⟨least, greatest, hleast, hgreatest, hsummary⟩ := ofWeighted_pair hne
  rw [map_fst_balanced] at hleast hgreatest
  rw [hmean, hspread, sqrt_finite (variance_nonneg hps hw)] at hsummary
  refine ⟨least, greatest, hleast, hgreatest, ?_, by rw [h.weightedStatistics? hw.ne', hsummary]⟩
  exact center_mem_Icc hps hw fun p hp =>
    ⟨hleast.2 (List.mem_map_of_mem hp), hgreatest.2 (List.mem_map_of_mem hp)⟩

end Reads

section Completed

variable {logs : List (WithBot ℝ)}

open Weights

/-- Weights that have been scaled are the shares of the log-probabilities. One of these is above minus
infinity. -/
theorem Settled.normalized_eq (h : s.Settled) (hs : s.phase = .completed)
    (hlogs : s.logProbabilities.toList = logs.map ofLog) :
    (∃ lp ∈ logs, lp ≠ ⊥) ∧ s.normalized.toList = (logs.map (share logs)).map finite := by
  have hn := h.normalized hs
  rw [hlogs] at hn
  have hsome : ∃ lp ∈ logs, lp ≠ ⊥ := by
    by_contra hall
    push Not at hall
    rw [normalize_eq_none hall] at hn
    cases hn
  refine ⟨hsome, ?_⟩
  rw [normalize_eq_shares hsome] at hn
  rw [List.map_map]
  exact (Option.some.inj hn).symm

theorem Settled.exists_reads (h : s.Settled) (hs : s.phase = .completed)
    (hlogs : s.logProbabilities.toList = logs.map ofLog) (hfinite : ∀ x ∈ s.values name, ∃ r, x = finite r) :
    ∃ ps, s.Reads name ps ∧ ∀ p ∈ ps, ∃ lp ∈ logs, p.2 = share logs lp := by
  obtain ⟨hsome, hnormalized⟩ := h.normalized_eq hs hlogs
  have hsize := h.size_normalized hs
  have hshare : ∀ q ∈ s.weighings name, ∃ lp ∈ logs, q.2 = finite (share logs lp) := by
    intro q hq
    have hq2 := (of_mem_weighings hsize hq).2
    rw [hnormalized, List.map_map] at hq2
    obtain ⟨lp, hlp, heq⟩ := List.mem_map.mp hq2
    exact ⟨lp, hlp, heq.symm⟩
  obtain ⟨ps, hps⟩ : ∃ ps : List (ℝ × ℝ), s.weighings name = ps.map pair := by
    refine exists_map fun q hq => ?_
    obtain ⟨x, hx⟩ := hfinite q.1 (of_mem_weighings hsize hq).1
    obtain ⟨lp, -, hlp⟩ := hshare q hq
    exact ⟨(x, share logs lp), Prod.ext hx hlp⟩
  refine ⟨ps, ⟨hsize, hps, fun hfull => ?_⟩, fun p hp => ?_⟩
  · have hall : (s.weighings name).map Prod.snd = s.normalized.toList :=
      map_snd_weighings hsize (by rw [hps, List.length_map, hfull])
    rw [hps, hnormalized, map_snd_pair] at hall
    have hweights : ps.map Prod.snd = logs.map (share logs) :=
      List.map_injective_iff.mpr (fun _ _ => Extended.finite.inj) hall
    rw [Statistics.total, hweights, sum_share hsome]
  · obtain ⟨lp, hlp, heq⟩ := hshare (pair p) (hps ▸ List.mem_map_of_mem hp)
    exact ⟨lp, hlp, Extended.finite.inj heq⟩

theorem Settled.exists_weighs (h : s.Settled) (hs : s.phase = .completed)
    (hfinite : ∀ x ∈ s.values name, ∃ r, x = finite r) (hcounts : s.Counts name) :
    ∃ ps, s.Weighs name ps := by
  obtain ⟨p, hp, hbinds, hpos⟩ := hcounts
  obtain ⟨x, hx⟩ := Option.isSome_iff_exists.mp hbinds
  obtain ⟨logs, hlogs⟩ := exists_logs (h.normalized hs) ⟨p.2, (List.of_mem_zip hp).2, hpos⟩
  obtain ⟨ps, hreads, hshare⟩ := h.exists_reads hs hlogs hfinite
  have hsome := (h.normalized_eq hs hlogs).1
  have hnonneg : ∀ q ∈ ps, 0 ≤ q.2 := by
    intro q hq
    obtain ⟨lp, -, heq⟩ := hshare q hq
    exact heq ▸ share_nonneg hsome lp
  have hmem : (x, p.2) ∈ ps.map pair :=
    hreads.weighings ▸ List.mem_filterMap.mpr ⟨p, hp, by rw [hx]; rfl⟩
  obtain ⟨q, hq, heq⟩ := List.mem_map.mp hmem
  have hq2 : finite q.2 = p.2 := congrArg Prod.snd heq
  rw [← hq2, zero_eq, lt_finite] at hpos
  have hle : q.2 ≤ total ps := by
    refine List.single_le_sum (fun w hw => ?_) _ (List.mem_map_of_mem hq)
    obtain ⟨q', hq', rfl⟩ := List.mem_map.mp hw
    exact hnonneg q' hq'
  exact ⟨ps, hreads.weighs hnonneg (hpos.trans_le hle)⟩

theorem Settled.statistics_eq (h : s.Settled) (hs : s.phase = .completed)
    (hfinite : ∀ x ∈ s.values name, ∃ r, x = finite r)
    (hbound : ∀ lp ∈ s.logProbabilities.toList, lp ≠ posInf)
    (heq : ∀ a ∈ s.logProbabilities.toList, ∀ b ∈ s.logProbabilities.toList, Arithmetic.eq a b = true) :
    s.weightedStatistics? name = some (s.statistics name) := by
  have hne : s.logProbabilities.toList ≠ [] := by
    intro hnil
    have hn := h.normalized hs
    rw [hnil] at hn
    cases hn
  obtain ⟨l, logs, hlogs, hconst⟩ := exists_const_logs hne hbound heq
  obtain ⟨ps, hreads, hshare⟩ := h.exists_reads hs hlogs hfinite
  have hsome := (h.normalized_eq hs hlogs).1
  have hl : l ≠ ⊥ := by
    obtain ⟨lp, hlp, hbot⟩ := hsome
    exact hconst lp hlp ▸ hbot
  refine hreads.uniform (mt (share_eq_zero_iff hsome).mp hl) fun p hp => ?_
  obtain ⟨lp, hlp, hp2⟩ := hshare p hp
  rw [hp2, hconst lp hlp]

end Completed

theorem totalLogProb_of_run {statements : List (Node Extended)} {g : Generator Extended}
    {result : Result Extended} (h : ((Interpreter.mk statements .empty).run g).1 = .ok result) :
    result.totalLogProb ≠ posInf ∧
      (Node.observeCalls statements = [] → result.totalLogProb = Arithmetic.zero) := by
  obtain ⟨os, hlength, hsound, htotal⟩ := exists_scores_of_run h
  rw [htotal]
  constructor
  · refine sum_ne_posInf fun lp hlp => ?_
    obtain ⟨o, ho, rfl⟩ := List.mem_map.mp hlp
    obtain ⟨d, hd, hscore⟩ := hsound o ho
    rw [hscore]
    exact logProb_ne_posInf hd o.value
  · intro hnone
    rw [hnone] at hlength
    rw [List.length_eq_zero_iff.mp hlength]
    rfl

/-- The summaries of a variable with finite values in an importance sampler that has completed, behind any
history. If a sample that binds it counts, the weighted summary is that of the balanced weights. Where all
log-probabilities are the same, as they are for a program without calls that score, it is the summary without
weights. -/
theorem summaries_of_history (interpreter : Interpreter Extended) (generator : Generator Extended)
    (policy : Policy) (deeds : List (Deed Extended)) {s : Importance Extended}
    (hs : Algorithm.followAll (.importance
      { interpreter, generator, policy, effectiveSize := Arithmetic.zero }) deeds = .importance s)
    (hphase : s.phase = .completed) {name : String} (hfinite : ∀ x ∈ s.values name, ∃ r, x = finite r) :
    (s.Counts name → ∃ ps, s.Weighs name ps) ∧
    ((∀ a ∈ s.logProbabilities.toList, ∀ b ∈ s.logProbabilities.toList, Arithmetic.eq a b = true) →
      s.weightedStatistics? name = some (s.statistics name)) ∧
    (Node.observeCalls interpreter.statements = [] →
      s.weightedStatistics? name = some (s.statistics name)) := by
  let fresh : Importance Extended := { interpreter, generator, policy, effectiveSize := Arithmetic.zero }
  have hfresh : (Algorithm.importance fresh).Settled := by
    rintro _ ⟨⟩
    exact ⟨rfl, nofun⟩
  have hsettled : s.Settled :=
    Algorithm.followAll_induction (fun _ d h => h.follow d) hfresh deeds s hs
  have hlogs := Algorithm.logProbabilities_of_history (a := .importance fresh)
    (P := fun lp => lp ≠ posInf ∧ (Node.observeCalls interpreter.statements = [] → lp = Arithmetic.zero))
    (fun _ _ h => totalLogProb_of_run h) rfl deeds
  rw [hs] at hlogs
  have hequal := hsettled.statistics_eq hphase hfinite fun lp hlp => (hlogs lp hlp).1
  refine ⟨hsettled.exists_weighs hphase hfinite, hequal, fun hnone => hequal fun a ha b hb => ?_⟩
  rw [(hlogs a ha).2 hnone, (hlogs b hb).2 hnone]
  exact eq_iff.mpr ⟨nofun, rfl⟩

theorem summaries_of_removed_variable :
    let fresh : Importance Extended :=
      { interpreter := ⟨[.assignment "x" (.number (finite 1))], .empty⟩
        generator := .cycle (finite 0) #[]
        policy := .raise
        effectiveSize := Arithmetic.zero }
    ∃ s, (Algorithm.importance fresh).followAll [.request (.integer 2) none, .unbind 0 "x"] = .importance s ∧
      s.phase = .completed ∧ s.samples.size = 2 ∧ s.values "x" = [finite 1] ∧ s.Counts "x" ∧
      (∃ ps, s.Weighs "x" ps) ∧ s.weightedStatistics? "x" = some (s.statistics "x") := by
  intro fresh
  have hnormalize : Weights.normalize [Arithmetic.zero, Arithmetic.zero] =
      some [finite (1 / 2), finite (1 / 2)] := by
    have h : ∃ lp ∈ [((0 : ℝ) : WithBot ℝ), (0 : ℝ)], lp ≠ ⊥ := ⟨_, List.mem_cons_self, WithBot.coe_ne_bot⟩
    have hlogs : [Arithmetic.zero, Arithmetic.zero] = [((0 : ℝ) : WithBot ℝ), (0 : ℝ)].map ofLog := by
      rw [zero_eq]
      rfl
    have hmass : Weights.mass ((0 : ℝ) : WithBot ℝ) = 1 := Real.exp_zero
    have hshare : Weights.share [((0 : ℝ) : WithBot ℝ), (0 : ℝ)] (0 : ℝ) = 1 / 2 := by
      rw [Weights.share, List.map_cons, List.map_cons, List.map_nil, hmass]
      norm_num
    rw [hlogs, Weights.normalize_eq_shares h, List.map_cons, List.map_cons, List.map_nil, hshare]
  let looped := (loop 2 2 fresh.restart #[.importanceStarted 2]).2.1
  let drawn : Importance Extended :=
    { looped with
      normalized := #[finite (1 / 2), finite (1 / 2)]
      effectiveSize := Weights.effectiveSize [finite (1 / 2), finite (1 / 2)]
      phase := .completed }
  have hdrawn : (fresh.run (.integer 2)).sampler = drawn := by
    change (looped.conclude 2 _).sampler = drawn
    unfold conclude
    rw [if_neg (show ¬ looped.samples.isEmpty = true from Bool.false_ne_true)]
    have hlogs : looped.logProbabilities.toList = [Arithmetic.zero, Arithmetic.zero] := rfl
    rw [hlogs, hnormalize]
  have hfollow : (Algorithm.importance fresh).followAll [.request (.integer 2) none, .unbind 0 "x"] =
      (Algorithm.importance drawn).unbind 0 "x" :=
    congrArg (fun i => (Algorithm.importance i).unbind 0 "x") hdrawn
  obtain ⟨s, hs, hphase, hsize, hvalues, hcounts⟩ :
      ∃ s, (Algorithm.importance drawn).unbind 0 "x" = .importance s ∧ s.phase = .completed ∧
        s.samples.size = 2 ∧ s.values "x" = [finite 1] ∧ s.Counts "x" := by
    refine ⟨_, rfl, rfl, rfl, rfl, _, List.mem_cons_of_mem _ List.mem_cons_self, rfl, ?_⟩
    rw [zero_eq]
    exact lt_finite.mpr one_half_pos
  have hfinite : ∀ x ∈ s.values "x", ∃ r, x = finite r := by
    rw [hvalues]
    exact List.forall_mem_singleton.mpr ⟨1, rfl⟩
  obtain ⟨hweighs, -, hequal⟩ :=
    summaries_of_history fresh.interpreter fresh.generator .raise _ (hfollow.trans hs) hphase hfinite
  exact ⟨s, hfollow.trans hs, hphase, hsize, hvalues, hcounts, hweighs hcounts, hequal rfl⟩

end Importance

end Posterior
