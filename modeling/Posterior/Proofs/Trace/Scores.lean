import Posterior.Proofs.Trace.Adequacy
import Posterior.Proofs.Trace.Ledger

set_option autoImplicit false

namespace Posterior

open Node

variable {α : Type} [Arithmetic α]

def Observation.Sound (o : Observation α) : Prop :=
  ∃ d : Distribution α, d.family.fault? d.params = none ∧ o.logProb = d.logProb o.value

variable {n : Node α} {ns : List (Node α)} {m m₀ m' : Machine α} {es fs : List (Effect α)}
  {vs : List (Value α)} {v : Value α}

theorem Acts.sound (hc : Performs n.children m₀ es vs m) (h : Acts n vs m fs v m') :
    ∀ s ∈ Effect.scores fs, s.2.Sound := by
  cases h with
  | number | var | binary | assignment | sample | family | math => exact List.forall_mem_nil _
  | observe args x d =>
    obtain ⟨-, -, -, hfault⟩ := hc.observed
    exact List.forall_mem_singleton.mpr ⟨d, hfault, rfl⟩

theorem Performs.sound (h : Performs ns m es vs m') : ∀ s ∈ Effect.scores es, s.2.Sound := by
  induction h with
  | nil => exact List.forall_mem_nil _
  | cons hc ha _ ihc ihs =>
    rw [Effect.scores_append, Effect.scores_append]
    exact List.forall_mem_append.mpr ⟨ihc, List.forall_mem_append.mpr ⟨ha.sound hc, ihs⟩⟩

theorem exists_scores_of_run {statements : List (Node α)} {g : Generator α} {result : Result α}
    (h : ((Interpreter.mk statements .empty).run g).1 = .ok result) :
    ∃ os : List (Observation α), os.length = (observeCalls statements).length ∧ (∀ o ∈ os, o.Sound) ∧
      result.totalLogProb = Arithmetic.sum (os.map (·.logProb)) := by
  obtain ⟨-, -, es, vs, hp, rfl⟩ := run_eq_ok_iff.mp (Prod.ext h rfl)
  refine ⟨(Effect.scores es).map Prod.snd, ?_, ?_, ?_⟩
  · rw [← hp.scores_eq, List.length_map, List.length_map]
  · intro o ho
    obtain ⟨s, hs, rfl⟩ := List.mem_map.mp ho
    exact hp.sound s hs
  · have htotal := hp.totalLogProb_eq
    rw [Arithmetic.sum, List.foldl_map, List.foldl_map]
    exact htotal

end Posterior
