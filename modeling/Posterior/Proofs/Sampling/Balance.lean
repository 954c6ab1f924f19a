import Posterior.Proofs.Sampling.Cycles
import Posterior.Proofs.Sampling.History
import Posterior.Proofs.Sampling.Loops
import Posterior.Proofs.Session.Balance
import Posterior.Record

set_option autoImplicit false

namespace Posterior

variable {α : Type}

theorem Sampler.prefix_keep (s : Sampler α) (result : Result α) :
    s.samples.toList <+: (s.keep result).samples.toList := by
  rw [Sampler.keep, Array.toList_push]
  exact List.prefix_append _ _

def Sampler.Listed (s : Sampler α) : Prop :=
  s.logProbabilities.toList = s.samples.toList.map (·.totalLogProb)

theorem Sampler.Listed.keep {s : Sampler α} (h : s.Listed) (result : Result α) : (s.keep result).Listed := by
  unfold Listed at h ⊢
  rw [Sampler.keep, Array.toList_push, Array.toList_push, List.map_append, h]
  rfl

variable [Arithmetic α]

theorem Sampler.persists_listed : Persists (Listed : Sampler α → Prop) := by
  have hattempt (s : Sampler α) (h : s.Listed) : s.attempt.sampler.Listed := by
    obtain ⟨hsamples, hlogs⟩ := s.attempt_stored
    unfold Listed at h ⊢
    rw [hsamples, hlogs, h]
  exact ⟨hattempt, fun s result _ h => (hattempt s h).keep result⟩

theorem Sampler.persists_stored (before : List (Result α)) :
    Persists fun s : Sampler α => before <+: s.samples.toList where
  attempt s h := by rwa [s.attempt_stored.1]
  keep s result _ h := by
    rw [← s.attempt_stored.1] at h
    exact h.trans (prefix_keep _ result)

structure Sampler.Balanced (s : Sampler α) : Prop where
  store : s.interpreter.store.Balanced
  samples : ∀ result ∈ s.samples.toList, result.Balanced
  listed : s.Listed

namespace Sampler.Balanced

variable {s : Sampler α}

theorem restored (h : s.interpreter.store.Balanced) (hs : s.samples = #[]) (hl : s.logProbabilities = #[]) :
    s.Balanced where
  store := h
  samples := by
    rw [hs]
    exact List.forall_mem_nil _
  listed := by
    rw [Listed, hs, hl]
    rfl

theorem keep (h : s.Balanced) {result : Result α} (hr : result.Balanced) : (s.keep result).Balanced where
  store := h.store
  samples := by
    rw [Sampler.keep, Array.toList_push]
    exact List.forall_mem_append.mpr ⟨h.samples, List.forall_mem_singleton.mpr hr⟩
  listed := h.listed.keep result

theorem unbind (h : s.Balanced) {t : Sampler α} {index : Int} {name : String}
    (hu : s.unbind index name = .ok t) : t.Balanced := by
  obtain ⟨i, result, hi, rfl⟩ := exists_of_unbind hu
  have hresult : result.Balanced := h.samples result (List.mem_of_getElem? hi)
  refine ⟨h.store, ?_, ?_⟩
  · intro other ho
    rw [Array.toList_setIfInBounds] at ho
    rcases List.mem_or_eq_of_mem_set ho with hm | rfl
    · exact h.samples other hm
    · exact hresult
  · -- The total of the sample stays, so the list of totals has at this place what it had there.
    have hlisted : s.logProbabilities.toList = s.samples.toList.map (·.totalLogProb) := h.listed
    have hlog : s.logProbabilities.toList[i]? = some result.totalLogProb := by
      rw [hlisted, List.getElem?_map, hi]
      rfl
    rw [Sampler.Listed, Array.toList_setIfInBounds, List.map_set, ← hlisted]
    obtain ⟨hlt, hget⟩ := List.getElem?_eq_some_iff.mp hlog
    rw [← hget, List.set_getElem_self]

end Sampler.Balanced

theorem Sampler.survives_balanced : Survives (Balanced : Sampler α → Prop) := by
  have hrun (s : Sampler α) := Interpreter.run_balanced (i := s.interpreter.reset) Store.balanced_empty s.generator
  have hattempt (s : Sampler α) (h : s.Balanced) : s.attempt.sampler.Balanced := by
    refine ⟨?_, ?_, persists_listed.attempt s h.listed⟩
    · rw [attempt_interpreter]
      exact (hrun s).2
    · rw [s.attempt_stored.1]
      exact h.samples
  exact {
    attempt := hattempt
    keep := fun s result ho h => (hattempt s h).keep ((hrun s).1 result (run_of_attempt ho))
    begin := fun s h => .restored h.store rfl rfl
    rest := fun s phase h => ⟨h.store, h.samples, h.listed⟩ }

namespace Importance

variable {s : Importance α}

def Weighted (s : Importance α) : Prop := s.weights.toList = s.logProbabilities.toList.map Weights.raw

theorem loop_weighted (h : s.Weighted) (wanted left : Nat) (events : Array (Event α)) :
    (loop wanted left s events).2.1.Weighted := by
  have hattempt {s : Importance α} {outcome : Except (Halt α) (Option (Result α))} {sampler : Sampler α}
      {events : List (Event α)} (ha : s.toSampler.attempt = ⟨outcome, sampler, events⟩) (hs : s.Weighted) :
      Weighted { s with toSampler := sampler } := by
    have hlogs := s.toSampler.attempt_stored.2
    rw [ha] at hlogs
    exact Eq.trans hs (by rw [hlogs])
  refine loop_induction (motive := fun _ s => s.Weighted) ?_ ?_ h rfl
  · intro s result sampler events ha hs
    have hw := hattempt ha hs
    cases result with
    | none => exact hw
    | some result =>
      unfold Weighted at hw ⊢
      rw [settle, Sampler.keep, Array.toList_push, Array.toList_push, List.map_append]
      exact congrArg (· ++ _) hw
  · exact fun s halt sampler events ha hs => hattempt ha hs

theorem run_weighted (h : s.Weighted) (samples : Argument α) : (s.run samples).sampler.Weighted := by
  have hstart : s.restart.Weighted := rfl
  unfold run
  split
  · exact h
  · next wanted hw =>
    obtain ⟨normalized, effectiveSize, phase, hs⟩ := s.exists_of_collect wanted
    rw [hs]
    exact loop_weighted hstart wanted wanted _

end Importance

namespace Algorithm

variable {a : Algorithm α}

structure Balanced (a : Algorithm α) : Prop where
  sampler : a.sampler.Balanced
  size : a.record.size = a.sampler.logProbabilities.size
  weights : ∀ s, a = .importance s → s.Weighted

theorem balanced_of_weights (h : a.sampler.Balanced)
    (hw : ∀ s, a = .importance s → s.Weighted) : a.Balanced where
  sampler := h
  size := by
    have hlen := congrArg List.length h.listed
    rw [List.length_map] at hlen
    exact hlen.symm
  weights := hw

theorem Balanced.withSampler (h : a.Balanced) {s : Sampler α} (hs : s.Balanced)
    (hl : s.logProbabilities = a.sampler.logProbabilities) : (a.withSampler s).Balanced := by
  refine balanced_of_weights (by rwa [sampler_withSampler]) ?_
  cases a with
  | plain | rejection => exact nofun
  | importance i =>
    rintro _ ⟨⟩
    exact (h.weights i rfl).trans (congrArg (fun l => l.toList.map Weights.raw) hl.symm)

theorem Balanced.request (h : a.Balanced) (samples : Argument α) (budget : Option (Argument α)) :
    (a.request samples budget).Balanced := by
  cases a with
  | plain s => exact h
  | rejection r =>
    exact balanced_of_weights (Rejection.run_of_survives Sampler.survives_balanced h.sampler samples budget) nofun
  | importance i =>
    refine balanced_of_weights (Importance.run_of_survives Sampler.survives_balanced h.sampler samples) ?_
    rintro _ ⟨⟩
    exact Importance.run_weighted (h.weights i rfl) samples

theorem Balanced.follow (h : a.Balanced) (d : Deed α) : (a.follow d).Balanced := by
  cases d with
  | request samples budget => exact h.request samples budget
  | operate o =>
    have hs := (Session.perform_balanced ⟨a.sampler.interpreter, a.sampler.generator⟩ o h.sampler.store).2
    exact h.withSampler ⟨hs, h.sampler.samples, h.sampler.listed⟩ rfl
  | unbind index name =>
    change (a.unbind index name).Balanced
    unfold unbind
    split
    · next s hu =>
      obtain ⟨_, _, -, ht⟩ := Sampler.exists_of_unbind hu
      exact h.withSampler (h.sampler.unbind hu) (by rw [ht])
    · exact h
  | setCondition c =>
    cases a with
    | plain | importance => exact h
    | rejection r => exact balanced_of_weights h.sampler nofun
  | setPolicy p => exact h.withSampler ⟨h.sampler.store, h.sampler.samples, h.sampler.listed⟩ rfl

end Algorithm

/-- The ledger of an interpreter behind any operations, and of any sampler over it behind any history. What is
stored stays as it is under operations, and while a sampling goes on. -/
theorem balance_of_history (statements : List (Node α)) (g : Generator α) (os : List (Operation α)) :
    let behind := Session.performAll ⟨⟨statements, .empty⟩, g⟩ os
    let i := behind.2.interpreter
    (∀ a ∈ behind.1, a.Balanced) ∧ i.store.Balanced ∧
    (∀ (generator : Generator α) (policy : Policy) (condition : Option (Criterion α)) (deeds : List (Deed α)),
      let fresh : Rejection α := { interpreter := i, generator, policy, condition }
      ((Algorithm.rejection fresh).followAll deeds).Balanced) ∧
    (∀ (generator : Generator α) (policy : Policy) (deeds : List (Deed α)),
      let fresh : Importance α := { interpreter := i, generator, policy, effectiveSize := Arithmetic.zero }
      ((Algorithm.importance fresh).followAll deeds).Balanced) ∧
    (∀ (a : Algorithm α) (o : Operation α), (a.follow (.operate o)).sampler.samples = a.sampler.samples) ∧
    (∀ (r : Rejection α) (wanted budget : Nat) (events : Array (Event α)),
      r.samples.toList <+: (Rejection.loop wanted budget r events).2.1.samples.toList) ∧
    ∀ (s : Importance α) (wanted left : Nat) (events : Array (Event α)),
      s.samples.toList <+: (Importance.loop wanted left s events).2.1.samples.toList := by
  intro behind i
  obtain ⟨hanswers, hstore⟩ :=
    Session.performAll_balanced ⟨⟨statements, .empty⟩, g⟩ os Store.balanced_empty
  have hnew (generator : Generator α) (policy : Policy) :
      ({ interpreter := i, generator, policy } : Sampler α).Balanced := .restored hstore rfl rfl
  refine ⟨hanswers, hstore, ?_, ?_, ?_, ?_, ?_⟩
  · intro generator policy condition deeds fresh
    have hfresh : (Algorithm.rejection fresh).Balanced :=
      Algorithm.balanced_of_weights (hnew generator policy) nofun
    exact Algorithm.followAll_induction (fun _ d h => h.follow d) hfresh deeds
  · intro generator policy deeds fresh
    have hfresh : (Algorithm.importance fresh).Balanced := by
      refine Algorithm.balanced_of_weights (hnew generator policy) ?_
      rintro _ ⟨⟩
      rfl
    exact Algorithm.followAll_induction (fun _ d h => h.follow d) hfresh deeds
  · intro a o
    change (a.operate o).sampler.samples = a.sampler.samples
    rw [Algorithm.sampler_operate]
  · intro r wanted budget events
    exact Rejection.loop_of_persists (Sampler.persists_stored _) (List.prefix_refl _) wanted budget events
  · intro s wanted left events
    exact Importance.loop_of_persists (Sampler.persists_stored _) (List.prefix_refl _) wanted left events

end Posterior
