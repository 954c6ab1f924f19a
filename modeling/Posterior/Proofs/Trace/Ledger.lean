import Posterior.Proofs.Trace.Run

set_option autoImplicit false

namespace Posterior

open Node Step

variable {α : Type} [Arithmetic α]

def Effect.totalFrom (total : α) (es : List (Effect α)) : α :=
  (scores es).foldl (fun t s => t + s.2.logProb) total

theorem Effect.totalFrom_append (total : α) (es fs : List (Effect α)) :
    totalFrom total (es ++ fs) = totalFrom (totalFrom total es) fs := by
  rw [totalFrom, scores_append, List.foldl_append]
  rfl

variable {n : Node α} {ns : List (Node α)} {m m' : Machine α} {es : List (Effect α)}
  {vs : List (Value α)} {v : Value α}

theorem Acts.totalLogProb_eq (h : Acts n vs m es v m') :
    m'.store.totalLogProb = Effect.totalFrom m.store.totalLogProb es := by
  cases h <;> rfl

theorem Performs.totalLogProb_eq (h : Performs ns m es vs m') :
    m'.store.totalLogProb = Effect.totalFrom m.store.totalLogProb es := by
  induction h with
  | nil => rfl
  | cons _ ha _ ihc ihs =>
    rw [ihs, ha.totalLogProb_eq, ihc, Effect.totalFrom_append, Effect.totalFrom_append]

theorem Stops.totalLogProb_eq (h : Stops ns m es m') :
    m'.store.totalLogProb = Effect.totalFrom m.store.totalLogProb es := by
  induction h with
  | here => rfl
  | within _ ih => exact ih
  | behind hc ha _ ih =>
    rw [ih, ha.totalLogProb_eq, hc.totalLogProb_eq, Effect.totalFrom_append, Effect.totalFrom_append]

/-- However a run ends, its effects come in the order of the calls, and the total has their scores added. -/
theorem exists_effects_of_run (i : Interpreter α) (g : Generator α) :
    ∃ es, Trace i.statements ⟨i.store, g⟩ es ⟨(i.run g).2.1.store, (i.run g).2.2⟩ ∧
      (i.run g).2.1.store.totalLogProb = Effect.totalFrom i.store.totalLogProb es := by
  have hall : Leaves (Interpreter.runProgram i.statements) ⟨i.store, g⟩
      (fun _ m' => ∃ es, Trace i.statements ⟨i.store, g⟩ es m' ∧
        m'.store.totalLogProb = Effect.totalFrom i.store.totalLogProb es)
      (fun m' => ∃ es, Trace i.statements ⟨i.store, g⟩ es m' ∧
        m'.store.totalLogProb = Effect.totalFrom i.store.totalLogProb es) := by
    have ht := traces_evaluateAll none i.statements ⟨i.store, g⟩
    refine (ht.imp (fun _ m' hp => ?_) fun m' hs => ?_).bind fun _ _ hp => hp
    · obtain ⟨es, vs, hp⟩ := hp
      exact ⟨es, hp.trace, hp.totalLogProb_eq⟩
    · obtain ⟨es, hs⟩ := hs
      exact ⟨es, hs.trace, hs.totalLogProb_eq⟩
  unfold Leaves at hall
  unfold Interpreter.run Interpreter.perform
  split at hall
  · next hr => rwa [hr]
  · next hr => rwa [hr]

theorem run_of_observeCalls_eq_nil {i : Interpreter α} (h : observeCalls i.statements = [])
    (g : Generator α) :
    (i.run g).2.1.store.totalLogProb = i.store.totalLogProb ∧
      (i.run g).2.1.store.observations = i.store.observations := by
  obtain ⟨es, ht, htotal⟩ := exists_effects_of_run i g
  have hs : Effect.scores es = [] := by
    have hp := ht.scores
    rw [h, List.prefix_nil, List.map_eq_nil_iff] at hp
    exact hp
  constructor
  · rw [htotal, Effect.totalFrom, hs, List.foldl_nil]
  · have ho := ht.observations
    rwa [hs, List.map_nil, List.append_nil] at ho

end Posterior
