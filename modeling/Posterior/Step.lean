/-!
Steps that change a state and may fail are `EStateM` computations: the state is kept on failure too. Proofs
know their sequencing by the equations of this module only.
-/

set_option autoImplicit false

namespace Posterior.Step

variable {ε σ β γ : Type} {p : EStateM ε σ β} {f : β → EStateM ε σ γ} {s s' : σ}

theorem bind_ok {b : β} (h : p s = .ok b s') : (p >>= f) s = f b s' := by
  change EStateM.bind p f s = _
  rw [EStateM.bind, h]

theorem bind_error {e : ε} (h : p s = .error e s') : (p >>= f) s = .error e s' := by
  change EStateM.bind p f s = _
  rw [EStateM.bind, h]

theorem exists_of_bind_ok {c : γ} (h : (p >>= f) s = .ok c s') :
    ∃ b t, p s = .ok b t ∧ f b t = .ok c s' := by
  cases hp : p s with
  | ok b t =>
    rw [bind_ok hp] at h
    exact ⟨b, t, rfl, h⟩
  | error e t =>
    rw [bind_error hp] at h
    cases h

theorem exists_of_bind_error {e : ε} (h : (p >>= f) s = .error e s') :
    p s = .error e s' ∨ ∃ b t, p s = .ok b t ∧ f b t = .error e s' := by
  cases hp : p s with
  | ok b t =>
    rw [bind_ok hp] at h
    exact .inr ⟨b, t, rfl, h⟩
  | error e' t =>
    rw [bind_error hp] at h
    cases h
    exact .inl rfl

theorem pure_ok {b c : β} (h : (pure b : EStateM ε σ β) s = .ok c s') : b = c ∧ s = s' := by
  cases h
  exact ⟨rfl, rfl⟩

/-- `ok` holds of the value and the state a step ends with, or `bad` of its failure. -/
def Ends (p : EStateM ε σ β) (s : σ) (ok : β → σ → Prop) (bad : ε → Prop) : Prop :=
  match p s with
  | .ok b t => ok b t
  | .error e _ => bad e

theorem Ends.imp {ok ok' : β → σ → Prop} {bad bad' : ε → Prop} (hp : Ends p s ok bad)
    (ho : ∀ b t, ok b t → ok' b t) (hb : ∀ e, bad e → bad' e) : Ends p s ok' bad' := by
  unfold Ends at hp ⊢
  cases h : p s with
  | ok b t =>
    rw [h] at hp
    exact ho b t hp
  | error e t =>
    rw [h] at hp
    exact hb e hp

theorem Ends.bind {ok : β → σ → Prop} {ok' : γ → σ → Prop} {bad bad' : ε → Prop}
    (hp : Ends p s ok bad) (hf : ∀ b t, ok b t → Ends (f b) t ok' bad')
    (hb : ∀ e, bad e → bad' e) : Ends (p >>= f) s ok' bad' := by
  unfold Ends at hp ⊢
  cases h : p s with
  | ok b t =>
    rw [h] at hp
    rw [bind_ok h]
    exact hf b t hp
  | error e t =>
    rw [h] at hp
    rw [bind_error h]
    exact hb e hp

def Leaves (p : EStateM ε σ β) (s : σ) (ok : β → σ → Prop) (bad : σ → Prop) : Prop :=
  match p s with
  | .ok b t => ok b t
  | .error _ t => bad t

theorem Leaves.imp {ok ok' : β → σ → Prop} {bad bad' : σ → Prop} (hp : Leaves p s ok bad)
    (ho : ∀ b t, ok b t → ok' b t) (hb : ∀ t, bad t → bad' t) : Leaves p s ok' bad' := by
  unfold Leaves at hp ⊢
  split at hp
  · exact ho _ _ hp
  · exact hb _ hp

theorem Leaves.bind {ok : β → σ → Prop} {ok' : γ → σ → Prop} {bad : σ → Prop}
    (hp : Leaves p s ok bad) (hf : ∀ b t, ok b t → Leaves (f b) t ok' bad) :
    Leaves (p >>= f) s ok' bad := by
  unfold Leaves at hp ⊢
  cases h : p s with
  | ok b t =>
    rw [h] at hp
    rw [bind_ok h]
    exact hf b t hp
  | error e t =>
    rw [h] at hp
    rw [bind_error h]
    exact hp

end Posterior.Step
