import Posterior.Proofs.Sampling.Coherence
import Posterior.Proofs.Sampling.Renewal
import Posterior.Proofs.Sampling.Rest

/-!
Samples and scaled weights side by side. In a sampler that has completed they are equally many, and the
weights are those of the log-probabilities listed beside the samples; removing variables shifts nothing. The
values of a variable then stand each by the weight of its own sample.
-/

set_option autoImplicit false

namespace Posterior

section Weighings

variable {α : Type}

theorem sublist_map_snd {β γ δ : Type} (f : β → Option δ) (ps : List (β × γ)) :
    ((ps.filterMap fun p => (f p.1).map fun x => (x, p.2)).map Prod.snd).Sublist (ps.map Prod.snd) := by
  induction ps with
  | nil => exact .slnil
  | cons p ps ih =>
    cases h : f p.1 with
    | none =>
      rw [List.filterMap_cons_none (by rw [h]; rfl)]
      exact ih.cons _
    | some x =>
      rw [List.filterMap_cons_some (by rw [h]; rfl)]
      exact ih.cons_cons _

namespace Importance

variable {s t : Importance α} {name : String}

theorem map_fst_weighings (h : s.normalized.size = s.samples.size) :
    (s.weighings name).map Prod.fst = s.values name := by
  have hlength : s.samples.toList.length ≤ s.normalized.toList.length := Nat.le_of_eq h.symm
  have hvalues : s.values name =
      ((s.samples.toList.zip s.normalized.toList).map Prod.fst).filterMap fun r => r.bindings.get? name := by
    rw [List.map_fst_zip hlength]
    rfl
  rw [hvalues, weighings, List.filterMap_map, List.map_filterMap]
  refine congrArg (List.filterMap · _) (funext fun p => ?_)
  rw [Option.map_map]
  exact Option.map_id'

theorem of_mem_weighings (h : s.normalized.size = s.samples.size) {q : α × α} (hq : q ∈ s.weighings name) :
    q.1 ∈ s.values name ∧ q.2 ∈ s.normalized.toList := by
  refine ⟨map_fst_weighings h ▸ List.mem_map_of_mem hq, ?_⟩
  obtain ⟨p, hp, hq⟩ := List.mem_filterMap.mp hq
  obtain ⟨x, -, rfl⟩ := Option.map_eq_some_iff.mp hq
  exact (List.of_mem_zip hp).2

theorem length_weighings_le (s : Importance α) (name : String) :
    (s.weighings name).length ≤ s.samples.size := by
  have hzip : (s.samples.toList.zip s.normalized.toList).length ≤ s.samples.size := by
    rw [List.length_zip]
    exact Nat.min_le_left _ _
  exact Nat.le_trans (List.length_filterMap_le _ _) hzip

theorem map_snd_weighings (h : s.normalized.size = s.samples.size)
    (hall : s.samples.size ≤ (s.weighings name).length) :
    (s.weighings name).map Prod.snd = s.normalized.toList := by
  have hsnd : (s.samples.toList.zip s.normalized.toList).map Prod.snd = s.normalized.toList :=
    List.map_snd_zip (Nat.le_of_eq h)
  have hsub := sublist_map_snd (fun r : Result α => r.bindings.get? name)
    (s.samples.toList.zip s.normalized.toList)
  rw [hsnd] at hsub
  refine hsub.eq_of_length_le ?_
  rw [List.length_map]
  exact Nat.le_trans (Nat.le_of_eq h) hall

theorem weighings_perm (h : (t.samples.toList.zip t.normalized.toList).Perm
    (s.samples.toList.zip s.normalized.toList)) : (t.weighings name).Perm (s.weighings name) :=
  h.filterMap _

end Importance

end Weighings

variable {α : Type} [Arithmetic α]

/-- Every sample has its log-probability, and once a request has completed the weights are those of the
log-probabilities. -/
structure Importance.Settled (s : Importance α) : Prop where
  size : s.logProbabilities.size = s.samples.size
  normalized : s.phase = .completed →
    Weights.normalize s.logProbabilities.toList = some s.normalized.toList

namespace Importance

variable {s : Importance α}

theorem Settled.size_normalized (h : s.Settled) (hs : s.phase = .completed) :
    s.normalized.size = s.samples.size :=
  (Weights.length_normalize (h.normalized hs)).trans h.size

theorem Collects.settled {start : Importance α} (h : Collects start s) (hs : s.phase = .sampling)
    (wanted : Nat) (events : List (Event α)) : (s.conclude wanted events).sampler.Settled := by
  unfold Importance.conclude
  split
  · exact ⟨h.logProbabilities, nofun⟩
  · split
    · exact ⟨h.logProbabilities, fun hc => absurd (hs.symm.trans hc) nofun⟩
    · next weights hw => exact ⟨h.logProbabilities, fun _ => hw⟩

theorem Settled.run (h : s.Settled) (samples : Argument α) : (s.run samples).sampler.Settled := by
  have hstart : s.restart.phase = .sampling := rfl
  unfold Importance.run
  split
  · exact h
  · unfold collect
    split
    · next halt s' events hl =>
      -- What ends the loop leaves no phase in which there are weights.
      have hphase : s'.phase = halt.phase := loop_phase hstart hl
      refine ⟨((collects_restart s).loop hl).logProbabilities, fun hc => ?_⟩
      cases halt <;> exact absurd (hphase.symm.trans hc) nofun
    · next s' events hl => exact ((collects_restart s).loop hl).settled (loop_phase hstart hl) ..

end Importance

namespace Algorithm

variable {a : Algorithm α}

def Settled (a : Algorithm α) : Prop := ∀ s, a = .importance s → s.Settled

theorem Settled.withSampler (h : a.Settled) {s : Sampler α} (hsize : s.samples.size = a.sampler.samples.size)
    (hlogs : s.logProbabilities = a.sampler.logProbabilities) (hphase : s.phase = a.sampler.phase) :
    (a.withSampler s).Settled := by
  cases a with
  | plain | rejection => exact nofun
  | importance i =>
    rintro _ ⟨⟩
    obtain ⟨hi, hn⟩ := h i rfl
    refine ⟨(congrArg Array.size hlogs).trans (hi.trans hsize.symm), fun hc => ?_⟩
    exact (congrArg (fun l => Weights.normalize l.toList) hlogs).trans (hn (hphase.symm.trans hc))

theorem Settled.follow (h : a.Settled) (d : Deed α) : (a.follow d).Settled := by
  cases d with
  | request samples budget =>
    cases a with
    | plain | rejection => exact nofun
    | importance i =>
      rintro _ ⟨⟩
      exact (h i rfl).run samples
  | operate | setPolicy => exact h.withSampler rfl rfl rfl
  | unbind index name =>
    change (a.unbind index name).Settled
    unfold unbind
    split
    · next s hu =>
      obtain ⟨_, _, -, ht⟩ := Sampler.exists_of_unbind hu
      refine h.withSampler ?_ ?_ ?_ <;> rw [ht]
      exact Array.size_setIfInBounds
    · exact h
  | setCondition c =>
    cases a with
    | plain | importance => exact h
    | rejection r => exact nofun

end Algorithm

theorem Sampler.survives_logProbabilities {statements : List (Node α)} {P : α → Prop}
    (hP : ∀ g result, ((Interpreter.mk statements .empty).run g).1 = .ok result → P result.totalLogProb) :
    Survives fun s : Sampler α =>
      s.interpreter.statements = statements ∧ ∀ lp ∈ s.logProbabilities.toList, P lp := by
  refine survives_stored (fun s : Sampler α => s.logProbabilities.toList) (·.totalLogProb) ?_ ?_ ?_ hP
  · exact fun s t _ hlogs => congrArg Array.toList hlogs
  · exact fun s result => Array.toList_push
  · exact fun s => rfl

theorem Algorithm.logProbabilities_of_history {a : Algorithm α} {P : α → Prop}
    (hP : ∀ g result, ((Interpreter.mk a.sampler.interpreter.statements .empty).run g).1 = .ok result →
      P result.totalLogProb)
    (ha : a.sampler.logProbabilities = #[]) (deeds : List (Deed α)) :
    ∀ lp ∈ (a.followAll deeds).sampler.logProbabilities.toList, P lp := by
  have hs := Sampler.survives_logProbabilities hP
  have hempty : ∀ lp ∈ a.sampler.logProbabilities.toList, P lp := by
    rw [ha]
    exact List.forall_mem_nil _
  let Kept (s : Sampler α) : Prop := s.interpreter.statements = a.sampler.interpreter.statements ∧
    ∀ lp ∈ s.logProbabilities.toList, P lp
  refine (followAll_induction (motive := fun b => Kept b.sampler) ?_ ⟨rfl, hempty⟩ deeds).2
  intro b d h
  refine follow_of_survives hs (fun s _ _ _ hi h => ⟨hi.trans h.1, h.2⟩) (fun index name t _ hu => ?_) h
  obtain ⟨_, _, -, rfl⟩ := Sampler.exists_of_unbind hu
  exact h

end Posterior
