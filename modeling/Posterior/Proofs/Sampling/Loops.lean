import Posterior.Sampler.Algorithm

/-!
What holds behind the loop of a sampler, and behind a request. It is enough to look at one attempt that goes on,
and at one that does not.
-/

set_option autoImplicit false

namespace Posterior

variable {α : Type} [Arithmetic α]

theorem Rejection.loop_induction {motive : Except (Halt α) Unit → Rejection α → Prop}
    (goes : ∀ r result sampler events, r.toSampler.attempt = ⟨.ok result, sampler, events⟩ →
      motive (.ok ()) r → motive (.ok ()) ({ r with toSampler := sampler }.settle result))
    (ends : ∀ r halt sampler events, r.toSampler.attempt = ⟨.error halt, sampler, events⟩ →
      motive (.ok ()) r → motive (.error halt) { r with toSampler := sampler })
    {wanted budget : Nat} {r r' : Rejection α} {events events' : Array (Event α)}
    {outcome : Except (Halt α) Unit} (hr : motive (.ok ()) r)
    (h : loop wanted budget r events = (outcome, r', events')) : motive outcome r' := by
  induction budget generalizing r events with
  | zero =>
    cases h
    exact hr
  | succ budget ih =>
    rw [loop] at h
    split at h
    · cases h
      exact hr
    · split at h
      · next halt sampler more ha =>
        cases h
        exact ends r halt sampler more ha hr
      · next result sampler more ha => exact ih (goes r result sampler more ha hr) h

theorem Importance.loop_induction {motive : Except (Halt α) Unit → Importance α → Prop}
    (goes : ∀ s result sampler events, s.toSampler.attempt = ⟨.ok result, sampler, events⟩ →
      motive (.ok ()) s → motive (.ok ()) ({ s with toSampler := sampler }.settle result))
    (ends : ∀ s halt sampler events, s.toSampler.attempt = ⟨.error halt, sampler, events⟩ →
      motive (.ok ()) s → motive (.error halt) { s with toSampler := sampler })
    {wanted left : Nat} {s s' : Importance α} {events events' : Array (Event α)}
    {outcome : Except (Halt α) Unit} (hs : motive (.ok ()) s)
    (h : loop wanted left s events = (outcome, s', events')) : motive outcome s' := by
  induction left generalizing s events with
  | zero =>
    cases h
    exact hs
  | succ left ih =>
    rw [loop] at h
    split at h
    · next halt sampler more ha =>
      cases h
      exact ends s halt sampler more ha hs
    · next result sampler more ha => exact ih (goes s result sampler more ha hs) h

theorem Rejection.exists_of_collect (r : Rejection α) (wanted budget : Nat) :
    ∃ phase, (r.collect wanted budget).sampler =
      { (loop wanted budget r.restart #[.rejectionStarted wanted]).2.1 with phase } := by
  unfold collect
  split
  · next h =>
    rw [h]
    exact ⟨_, rfl⟩
  · next h =>
    rw [h]
    exact ⟨_, rfl⟩

theorem Importance.exists_of_collect (s : Importance α) (wanted : Nat) :
    ∃ normalized effectiveSize phase, (s.collect wanted).sampler =
      { (loop wanted wanted s.restart #[.importanceStarted wanted]).2.1 with
        normalized, effectiveSize, phase } := by
  unfold collect
  split
  · next h =>
    rw [h]
    exact ⟨_, _, _, rfl⟩
  · next h =>
    rw [h]
    unfold conclude
    split
    · exact ⟨_, _, _, rfl⟩
    · split <;> exact ⟨_, _, _, rfl⟩

/-- An attempt keeps `P`, whatever comes of it, and so does storing the result it brings. -/
structure Sampler.Persists (P : Sampler α → Prop) : Prop where
  attempt : ∀ s, P s → P s.attempt.sampler
  keep : ∀ s result, s.attempt.outcome = .ok (some result) → P s → P (s.attempt.sampler.keep result)

structure Sampler.Survives (P : Sampler α → Prop) : Prop extends Persists P where
  begin : ∀ s, P s → P s.begin
  rest : ∀ s phase, P s → P { s with phase }

section Sampler

variable {P : Sampler α → Prop}

theorem Rejection.loop_of_persists (hP : Sampler.Persists P) {r : Rejection α} (h : P r.toSampler)
    (wanted budget : Nat) (events : Array (Event α)) : P (loop wanted budget r events).2.1.toSampler := by
  refine loop_induction (motive := fun _ r => P r.toSampler) ?_ ?_ h rfl
  · intro r result sampler events ha hr
    have hsampler := hP.attempt r.toSampler hr
    rw [ha] at hsampler
    unfold settle
    cases result with
    | none => exact hsampler
    | some result =>
      have hkeep := hP.keep r.toSampler result (congrArg Attempt.outcome ha) hr
      rw [ha] at hkeep
      dsimp only
      split
      · exact hkeep
      · exact hsampler
  · intro r halt sampler events ha hr
    have hsampler := hP.attempt r.toSampler hr
    rwa [ha] at hsampler

theorem Importance.loop_of_persists (hP : Sampler.Persists P) {s : Importance α} (h : P s.toSampler)
    (wanted left : Nat) (events : Array (Event α)) : P (loop wanted left s events).2.1.toSampler := by
  refine loop_induction (motive := fun _ s => P s.toSampler) ?_ ?_ h rfl
  · intro s result sampler events ha hs
    cases result with
    | none =>
      have hsampler := hP.attempt s.toSampler hs
      rwa [ha] at hsampler
    | some result =>
      have hkeep := hP.keep s.toSampler result (congrArg Attempt.outcome ha) hs
      rwa [ha] at hkeep
  · intro s halt sampler events ha hs
    have hsampler := hP.attempt s.toSampler hs
    rwa [ha] at hsampler

theorem Rejection.collect_of_survives (hP : Sampler.Survives P) {r : Rejection α} (h : P r.toSampler.begin)
    (wanted budget : Nat) : P (r.collect wanted budget).sampler.toSampler := by
  obtain ⟨phase, hr⟩ := r.exists_of_collect wanted budget
  rw [hr]
  exact hP.rest _ phase (loop_of_persists hP.toPersists h wanted budget _)

theorem Importance.collect_of_survives (hP : Sampler.Survives P) {s : Importance α} (h : P s.toSampler.begin)
    (wanted : Nat) : P (s.collect wanted).sampler.toSampler := by
  obtain ⟨normalized, effectiveSize, phase, hs⟩ := s.exists_of_collect wanted
  rw [hs]
  exact hP.rest _ phase (loop_of_persists hP.toPersists h wanted wanted _)

theorem Rejection.run_of_survives (hP : Sampler.Survives P) {r : Rejection α} (h : P r.toSampler)
    (samples : Argument α) (budget : Option (Argument α)) : P (r.run samples budget).sampler.toSampler := by
  unfold run
  split
  · exact h
  · split
    · exact collect_of_survives hP (hP.begin _ h) _ _
    · split
      · exact h
      · exact collect_of_survives hP (hP.begin _ h) _ _

theorem Importance.run_of_survives (hP : Sampler.Survives P) {s : Importance α} (h : P s.toSampler)
    (samples : Argument α) : P (s.run samples).sampler.toSampler := by
  unfold run
  split
  · exact h
  · exact collect_of_survives hP (hP.begin _ h) _

end Sampler

end Posterior
