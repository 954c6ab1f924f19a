import Posterior.Proofs.Sampling.Cycles
import Posterior.Proofs.Sampling.Loops
import Posterior.Proofs.Sampling.Requests

/-!
How the weights of importance sampling stand to the stored samples. They agree while a sampler is new and
behind a request that returned. A request that raised leaves what it had stored without weights, and the
effective size as it was.
-/

set_option autoImplicit false

namespace Posterior

section Entries

variable {α : Type}

theorem mapM_some {β γ : Type} (ps : List (β × γ)) :
    (ps.map fun p => (p.1, some p.2)).mapM (fun p => p.2.map fun w => (p.1, w)) = some ps := by
  induction ps with
  | nil => rfl
  | cons p ps ih => simp [List.mapM_cons, ih]

theorem zipIdx_eq_zip {β γ : Type} {xs : List β} {ys : List γ} (h : ys.length = xs.length) :
    (xs.zipIdx.map fun p => (p.1, ys[p.2]?)) = (xs.zip ys).map fun p => (p.1, some p.2) := by
  refine List.ext_getElem (by simp [h]) fun i hi hj => ?_
  have hy : i < ys.length := by simpa [h] using hi
  simp [List.getElem?_eq_getElem hy]

def Sampler.Binds (s : Sampler α) (name : String) : Prop :=
  ∃ result ∈ s.samples.toList, (result.bindings.get? name).isSome

namespace Importance

variable {s : Importance α} {name : String}

def entries (s : Importance α) (name : String) : List (α × Option α) :=
  s.samples.toList.zipIdx.filterMap fun p =>
    (p.1.bindings.get? name).map fun x => (x, s.normalized[p.2]?)

theorem entries_eq_nil_iff : s.entries name = [] ↔ ¬ s.Binds name := by
  unfold entries
  rw [List.filterMap_eq_nil_iff]
  constructor
  · rintro h ⟨result, hr, hb⟩
    obtain ⟨i, hi⟩ := List.mem_iff_getElem?.mp hr
    have hn := h (result, i) (List.mk_mem_zipIdx_iff_getElem?.mpr hi)
    rw [Option.map_eq_none_iff] at hn
    rw [hn] at hb
    cases hb
  · intro h p hp
    have hr : p.1 ∈ s.samples.toList := List.mem_of_getElem? (List.mem_zipIdx_iff_getElem?.mp hp)
    rw [Option.map_eq_none_iff]
    exact Option.not_isSome_iff_eq_none.mp fun hb => h ⟨p.1, hr, hb⟩

theorem exists_of_mem_entries {p : α × Option α} (h : p ∈ s.entries name) :
    ∃ i < s.samples.size, p.2 = s.normalized[i]? := by
  obtain ⟨q, hq, hp⟩ := List.mem_filterMap.mp h
  obtain ⟨x, -, rfl⟩ := Option.map_eq_some_iff.mp hp
  have hlt := List.snd_lt_of_mem_zipIdx hq
  exact ⟨q.2, hlt, rfl⟩

/-- The values of a variable, each with the weight that stands beside its sample. -/
def weighings (s : Importance α) (name : String) : List (α × α) :=
  (s.samples.toList.zip s.normalized.toList).filterMap fun p =>
    (p.1.bindings.get? name).map fun x => (x, p.2)

theorem entries_of_size (h : s.normalized.size = s.samples.size) :
    s.entries name = (s.weighings name).map fun p => (p.1, some p.2) := by
  have hplaces : s.entries name =
      (s.samples.toList.zipIdx.map fun p => (p.1, s.normalized.toList[p.2]?)).filterMap
        fun p => (p.1.bindings.get? name).map fun x => (x, p.2) := by
    rw [List.filterMap_map, entries]
    simp only [← Array.getElem?_toList]
    rfl
  have hzip : (s.samples.toList.zipIdx.map fun p => (p.1, s.normalized.toList[p.2]?)) =
      (s.samples.toList.zip s.normalized.toList).map fun p => (p.1, some p.2) := zipIdx_eq_zip h
  rw [hplaces, hzip, weighings, List.filterMap_map, List.map_filterMap]
  refine congrArg (List.filterMap · _) (funext fun p => ?_)
  rw [Function.comp_apply, Option.map_map]
  rfl

theorem weighted?_of_size (h : s.normalized.size = s.samples.size) :
    s.weighted? name = some (s.weighings name) := by
  change (s.entries name).mapM _ = _
  rw [entries_of_size h, mapM_some]

/-- What the runs of a sampling keep: no weight is scaled yet, and every sample has its log-probability. -/
structure Collects (start s : Importance α) : Prop where
  normalized : s.normalized = #[]
  effectiveSize : s.effectiveSize = start.effectiveSize
  logProbabilities : s.logProbabilities.size = s.samples.size

theorem collects_restart (s : Importance α) : Collects s s.restart where
  normalized := rfl
  effectiveSize := rfl
  logProbabilities := rfl

end Importance

end Entries

variable {α : Type} [Arithmetic α]

theorem Statistics.ofWeighted_eq_none_iff {ps : List (α × α)} : ofWeighted ps = none ↔ ps = [] := by
  cases ps with
  | nil => exact ⟨fun _ => rfl, fun _ => rfl⟩
  | cons p ps => exact ⟨nofun, nofun⟩

theorem Weights.length_normalize {logProbs weights : List α} (h : normalize logProbs = some weights) :
    weights.length = logProbs.length := by
  unfold normalize at h
  split at h
  · cases h
  · split at h
    · cases h
    · cases h
      rw [scale, List.length_map, List.length_map]

namespace Importance

variable {start s s' : Importance α} {name : String}

theorem length_rescale (ps : List (α × α)) : (rescale ps).length = ps.length := by
  unfold rescale Weights.scale
  rw [List.length_zip, List.length_map, List.length_map, List.length_map, Nat.min_self]

theorem exists_weightedStatistics {ps : List (α × α)} (h : s.weighted? name = some ps) :
    ∃ summary, s.weightedStatistics? name = some summary ∧ (summary = none ↔ ps = []) := by
  refine ⟨_, congrArg _ h, ?_⟩
  rw [Statistics.ofWeighted_eq_none_iff]
  split
  · rw [← List.length_eq_zero_iff, length_rescale, List.length_eq_zero_iff]
  · rfl

theorem weightedStatistics?_unbound (h : ¬ s.Binds name) :
    s.weightedStatistics? name = some none := by
  have hw : s.weighted? name = some [] := by
    change (s.entries name).mapM _ = some []
    rw [entries_eq_nil_iff.mpr h]
    rfl
  obtain ⟨summary, hs, hnone⟩ := exists_weightedStatistics hw
  rw [hs, hnone.mpr rfl]

structure Coherent (s : Importance α) : Prop where
  size : s.normalized.size = s.samples.size
  effectiveSize : s.effectiveSize =
    if s.normalized.isEmpty then Arithmetic.zero else Weights.effectiveSize s.normalized.toList
  bound : ∀ name, s.Binds name → ∃ summary, s.weightedStatistics? name = some (some summary)
  unbound : ∀ name, ¬ s.Binds name → s.weightedStatistics? name = some none

theorem coherent_of_size (hsize : s.normalized.size = s.samples.size)
    (heffective : s.effectiveSize =
      if s.normalized.isEmpty then Arithmetic.zero else Weights.effectiveSize s.normalized.toList) :
    Coherent s where
  size := hsize
  effectiveSize := heffective
  bound name hb := by
    obtain ⟨summary, hs, hnone⟩ := exists_weightedStatistics (weighted?_of_size hsize)
    cases summary with
    | some summary => exact ⟨summary, hs⟩
    | none =>
      have hnil : s.entries name = [] := by rw [entries_of_size hsize, hnone.mp rfl, List.map_nil]
      exact absurd hb (entries_eq_nil_iff.mp hnil)
  unbound _ := weightedStatistics?_unbound

structure Weightless (s : Importance α) : Prop where
  normalized : s.normalized = #[]
  bound : ∀ name, s.Binds name → s.weightedStatistics? name = none
  unbound : ∀ name, ¬ s.Binds name → s.weightedStatistics? name = some none

theorem weightless_of_normalized (h : s.normalized = #[]) : Weightless s where
  normalized := h
  bound name hb := by
    have hw : s.weighted? name = none := by
      change (s.entries name).mapM _ = none
      cases he : s.entries name with
      | nil => exact absurd hb (entries_eq_nil_iff.mp he)
      | cons p ps =>
        obtain ⟨i, -, hp⟩ := exists_of_mem_entries (he ▸ List.mem_cons_self : p ∈ s.entries name)
        rw [h] at hp
        have hn : p.2 = none := hp
        simp [List.mapM_cons, hn]
    rw [weightedStatistics?, hw]
    rfl
  unbound _ := weightedStatistics?_unbound

theorem Collects.attempt (h : Collects start s) {outcome : Except (Halt α) (Option (Result α))}
    {sampler : Sampler α} {events : List (Event α)}
    (ha : s.toSampler.attempt = ⟨outcome, sampler, events⟩) :
    Collects start { s with toSampler := sampler } := by
  have hs := s.toSampler.attempt_stored
  rw [ha] at hs
  exact ⟨h.normalized, h.effectiveSize, by rw [hs.1, hs.2, h.logProbabilities]⟩

theorem Collects.settle (h : Collects start s) (result : Option (Result α)) :
    Collects start (s.settle result) := by
  cases result with
  | none => exact h
  | some result =>
    refine ⟨h.normalized, h.effectiveSize, ?_⟩
    change (s.logProbabilities.push _).size = (s.samples.push result).size
    rw [Array.size_push, Array.size_push, h.logProbabilities]

theorem Collects.loop {wanted left : Nat} {events events' : Array (Event α)}
    {outcome : Except (Halt α) Unit} (hc : Collects start s)
    (h : loop wanted left s events = (outcome, s', events')) : Collects start s' := by
  refine loop_induction (motive := fun _ s => Collects start s) ?_ ?_ hc h
  · exact fun s result sampler events ha hs => (hs.attempt ha).settle result
  · exact fun s halt sampler events ha hs => hs.attempt ha

def Weighed (outcome : Except (SamplingFault α) (ImportanceSummary α)) (s : Importance α) : Prop :=
  match outcome with
  | .ok _ => Coherent s
  | .error _ => Weightless s

/-- The effective size behind a request: its own if it returned, else the one before it. -/
def sizeBehind (before : α) (outcome : Except (SamplingFault α) (ImportanceSummary α)) : α :=
  (outcome.toOption.map (·.effectiveSize)).getD before

theorem Collects.conclude (h : Collects start s) (wanted : Nat) (events : List (Event α)) :
    Answers (fun outcome t => Weighed outcome t ∧ t.effectiveSize = sizeBehind start.effectiveSize outcome)
      start (s.conclude wanted events) := by
  unfold Importance.conclude
  split
  · exact answers_of_passed rfl ⟨weightless_of_normalized h.normalized, h.effectiveSize⟩
  · next hne =>
    split
    · exact answers_of_passed rfl ⟨weightless_of_normalized h.normalized, h.effectiveSize⟩
    · next weights hw =>
      have hsize : weights.toArray.size = s.samples.size :=
        (Weights.length_normalize hw).trans h.logProbabilities
      have hweights : ¬ weights.toArray.isEmpty = true := by
        rwa [Array.isEmpty_iff_size_eq_zero, hsize, ← Array.isEmpty_iff_size_eq_zero]
      exact answers_of_passed rfl ⟨coherent_of_size hsize (if_neg hweights).symm, rfl⟩

theorem run_weighed (s : Importance α) (samples : Argument α) :
    Answers (fun outcome t => Weighed outcome t ∧ t.effectiveSize = sizeBehind s.effectiveSize outcome)
      s (s.run samples) := by
  unfold run
  split
  · rfl
  · unfold collect
    split
    · next halt s' events h =>
      have hc : Collects s s' := (collects_restart s).loop h
      exact answers_of_passed rfl ⟨weightless_of_normalized hc.normalized, hc.effectiveSize⟩
    · next s' events h => exact ((collects_restart s).loop h).conclude ..

theorem run_effectiveSize (s : Importance α) (samples : Argument α) :
    (s.run samples).sampler.effectiveSize = sizeBehind s.effectiveSize (s.run samples).outcome := by
  have h := s.run_weighed samples
  unfold Answers at h
  split at h
  · exact h.2
  · next hp =>
    rw [h]
    cases ho : (s.run samples).outcome with
    | error fault => rfl
    | ok summary => exact absurd (by rw [ho]; rfl) hp

theorem serveAll_effectiveSize (s : Importance α) (requests : List (Argument α)) :
    (serveAll run s requests).2.effectiveSize =
      ((lastSummary? (serveAll run s requests).1).map (·.effectiveSize)).getD s.effectiveSize := by
  let motive (outcomes : List (Except (SamplingFault α) (ImportanceSummary α))) (t : Importance α) : Prop :=
    t.effectiveSize = ((lastSummary? outcomes).map (·.effectiveSize)).getD s.effectiveSize
  have start : motive [] s := rfl
  refine serveAll_induction (motive := motive) ?_ start requests
  intro outcomes t q ht
  dsimp only [motive] at ht ⊢
  rw [run_effectiveSize, lastSummary?_snoc, ht]
  cases (t.run q).outcome with
  | error fault => rfl
  | ok summary => rfl

/-- The weights behind any requests made of a sampler since it was new. They agree with the samples unless the
last request that passed its checks raised: then no sample has a weight, and the effective size is that of
the last request that returned. -/
theorem weights_of_requests (interpreter : Interpreter α) (generator : Generator α) (policy : Policy)
    (requests : List (Argument α)) :
    let fresh : Importance α := { interpreter, generator, policy, effectiveSize := Arithmetic.zero }
    let served := serveAll run fresh requests
    match lastPassed? served.1 with
    | none | some (.ok _) => Coherent served.2
    | some (.error _) =>
      Weightless served.2 ∧
        served.2.effectiveSize =
          ((lastSummary? served.1).map (·.effectiveSize)).getD Arithmetic.zero := by
  intro fresh served
  have hweighed (s : Importance α) (q : Argument α) : Answers Weighed s (s.run q) :=
    (s.run_weighed q).imp fun _ _ h => h.1
  obtain ⟨hnone, hsome⟩ := serveAll_of_answers hweighed fresh requests
  rcases hl : lastPassed? served.1 with _ | fault | summary
  · have hfresh : Coherent fresh := coherent_of_size rfl rfl
    exact hnone hl ▸ hfresh
  · exact ⟨hsome _ hl, serveAll_effectiveSize fresh requests⟩
  · exact hsome _ hl

/-- A program that observes what its distribution excludes leaves a sample that binds `x`, and no summary of
it. -/
theorem weightless_of_excluded_observation :
    let fresh : Importance Float :=
      { interpreter :=
          ⟨[.assignment "x" (.number 1),
            .call "observe" [.number 2, .call "uniform" [.number 0, .number 1]]], .empty⟩
        generator := .cycle 0.5 #[]
        policy := .raise
        effectiveSize := Arithmetic.zero }
    let report := fresh.run (.integer 1)
    report.outcome = .error .zeroWeight ∧ report.sampler.samples.size = 1 ∧
      report.sampler.normalized.size = 0 ∧ report.sampler.weightedStatistics? "x" = none :=
  ⟨rfl, rfl, rfl, rfl⟩

end Importance

end Posterior
