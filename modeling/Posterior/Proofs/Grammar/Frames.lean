import Posterior.Parser.Progress

set_option autoImplicit false

namespace Posterior.Parser

variable {α β γ : Type}

structure Continues (p p' : Parse α β) : Prop where
  drops : Drops p'
  goesOn (ts : List (Token α)) :
    p' ts = p ts ∨ ∃ rest, p ts = .error .tooDeep rest ∧ left (p' ts) <:+ rest

theorem Continues.bind {p p' : Parse α β} {f f' : β → Parse α γ} (hp : Continues p p')
    (hf : ∀ b, Continues (f b) (f' b)) : Continues (p >>= f) (p' >>= f') := by
  refine ⟨hp.drops.bind fun b => (hf b).drops, fun ts => ?_⟩
  rcases hp.goesOn ts with he | ⟨rest, hr, hl⟩
  · cases hr : p ts with
    | ok b mid =>
      rw [hr] at he
      rw [Step.bind_ok hr, Step.bind_ok he]
      exact (hf b).goesOn mid
    | error e mid =>
      rw [hr] at he
      rw [Step.bind_error hr, Step.bind_error he]
      exact .inl rfl
  · refine .inr ⟨rest, Step.bind_error hr, ?_⟩
    cases hr' : p' ts with
    | ok b mid =>
      rw [hr'] at hl
      rw [Step.bind_ok hr']
      exact ((hf b).drops mid).trans hl
    | error e mid =>
      rw [hr'] at hl
      rw [Step.bind_error hr']
      exact hl

/-- The second outcome is the first one, or leaves no more than the first did when the frames ran out. -/
def Further : Relation α := fun _ ts r r' =>
  left r' <:+ ts ∧ (r' = r ∨ ∃ rest, r = .error .tooDeep rest ∧ left r' <:+ rest)

theorem continues_iff_related {p p' : Parse α β} : Continues p p' ↔ Related Further p p' :=
  ⟨fun h ts => ⟨h.drops ts, h.goesOn ts⟩, fun h => ⟨fun ts => (h ts).1, fun ts => (h ts).2⟩⟩

theorem compatible_further : Compatible (Further : Relation α) where
  ok _ ts := ⟨List.suffix_refl ts, .inl rfl⟩
  fail _ ts := ⟨List.suffix_refl ts, .inl rfl⟩
  skip h := ⟨h.1.trans (List.suffix_cons _ _), h.2⟩
  bind h hf :=
    continues_iff_related.mp ((continues_iff_related.mpr h).bind fun b => continues_iff_related.mpr (hf b))

theorem Procedure.continues_of_le [Arithmetic α] (p : Procedure) {frames more : Nat} (h : frames ≤ more) :
    Continues (p.read frames : Parse α (Node α)) (p.read more) := by
  obtain ⟨extra, rfl⟩ := Nat.exists_eq_add_of_le' h
  refine continues_iff_related.mpr (compatible_further.read extra (fun _ _ _ => ?_) (fun q ts => ?_) p frames)
  · exact ⟨List.suffix_refl _, .inl rfl⟩
  · exact ⟨q.drops_read extra ts, .inr ⟨ts, rfl, q.drops_read extra ts⟩⟩

end Posterior.Parser
