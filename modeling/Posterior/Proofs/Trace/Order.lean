import Posterior.Proofs.Trace

set_option autoImplicit false

namespace Posterior

open Node

variable {α : Type}

def Node.hasEffect (n : Node α) : Bool := n.isSampleCall || n.isObserveCall

namespace Effect

@[simp] theorem draws_append (es fs : List (Effect α)) : draws (es ++ fs) = draws es ++ draws fs :=
  List.filterMap_append

@[simp] theorem scores_append (es fs : List (Effect α)) : scores (es ++ fs) = scores es ++ scores fs :=
  List.filterMap_append

theorem map_fst_draws (es : List (Effect α)) :
    (draws es).map Prod.fst = (es.map call).filter isSampleCall := by
  induction es with
  | nil => rfl
  | cons e es ih => cases e <;> simp_all [draws, call, isSampleCall]

theorem map_fst_scores (es : List (Effect α)) :
    (scores es).map Prod.fst = (es.map call).filter isObserveCall := by
  induction es with
  | nil => rfl
  | cons e es ih => cases e <;> simp_all [scores, call, isObserveCall]

end Effect

theorem filter_hasEffect {p : Node α → Bool} (hp : ∀ n, p n = true → n.hasEffect = true)
    (ns : List (Node α)) : (ns.filter hasEffect).filter p = ns.filter p := by
  rw [List.filter_filter]
  refine List.filter_congr fun n _ => ?_
  cases h : p n with
  | false => rfl
  | true => exact hp n h

theorem filter_isSampleCall (ns : List (Node α)) :
    (ns.filter hasEffect).filter isSampleCall = ns.filter isSampleCall :=
  filter_hasEffect (fun n h => by simp [hasEffect, h]) ns

theorem filter_isObserveCall (ns : List (Node α)) :
    (ns.filter hasEffect).filter isObserveCall = ns.filter isObserveCall :=
  filter_hasEffect (fun n h => by simp [hasEffect, h]) ns

theorem Records.of_nil {m m' : Machine α} (hg : m'.generator = m.generator)
    (ho : m'.store.observations = m.store.observations) : Records m [] m' :=
  ⟨rfl, hg, ho.trans (List.append_nil _).symm, nofun⟩

theorem Records.append {m m₁ m₂ : Machine α} {es fs : List (Effect α)} (h : Records m es m₁)
    (h' : Records m₁ fs m₂) : Records m (es ++ fs) m₂ := by
  refine ⟨?_, ?_, ?_, fun s hs => ?_⟩
  · have hd := h'.numbered
    rw [h.generator] at hd
    rw [Effect.draws_append, List.map_append, List.zipIdx_append, ← h.numbered, List.length_map, ← hd]
  · rw [h'.generator, h.generator, Effect.draws_append, List.length_append, Nat.add_assoc]
  · rw [h'.observations, h.observations, Effect.scores_append, List.map_append, List.append_assoc]
  · rw [Effect.scores_append] at hs
    rcases List.mem_append.mp hs with hs | hs
    · exact h.families s hs
    · exact h'.families s hs

theorem Records.trace {ns : List (Node α)} {m m' : Machine α} {es : List (Effect α)} (h : Records m es m')
    (hc : es.map Effect.call <+: (postorderAll ns).filter hasEffect) : Trace ns m es m' := by
  refine ⟨h, ?_, ?_⟩
  · rw [Effect.map_fst_draws, sampleCalls, ← filter_isSampleCall (postorderAll ns)]
    exact hc.filter _
  · rw [Effect.map_fst_scores, observeCalls, ← filter_isObserveCall (postorderAll ns)]
    exact hc.filter _

theorem Trace.used_le {ns : List (Node α)} {m m' : Machine α} {es : List (Effect α)}
    (h : Trace ns m es m') :
    m'.generator.used ≤ m.generator.used + (sampleCalls ns).length := by
  have hl := h.draws.length_le
  rw [List.length_map] at hl
  rw [h.generator]
  exact Nat.add_le_add_left hl _

theorem Trace.length_observations_le {ns : List (Node α)} {m m' : Machine α} {es : List (Effect α)}
    (h : Trace ns m es m') :
    m'.store.observations.length ≤ m.store.observations.length + (observeCalls ns).length := by
  have hl := h.scores.length_le
  rw [List.length_map] at hl
  rw [h.observations, List.length_append, List.length_map]
  exact Nat.add_le_add_left hl _

section Callees

theorem Family.name_ne (f : Family) : f.name ≠ "sample" ∧ f.name ≠ "observe" := by
  cases f <;> decide

theorem Callee.name_ne_of_math {name : String} {f : MathFunction}
    (h : Callee.ofName? name = some (.math f)) : name ≠ "sample" ∧ name ≠ "observe" := by
  constructor
  · rintro rfl
    cases h
  · rintro rfl
    cases h

end Callees

variable [Arithmetic α]

theorem Acts.exists_of_distribution {n : Node α} {vs : List (Value α)} {m m' : Machine α}
    {es : List (Effect α)} {d : Distribution α} (h : Acts n vs m es (.distribution d) m') :
    ∃ args, n = .call d.family.name args ∧ d.family.fault? d.params = none := by
  cases h with
  | @family f args params _ _ hd =>
    rcases f.make_cases params with ⟨d', hd', rfl, rfl, hfault⟩ | ⟨fault, hd', -⟩
    · rw [hd] at hd'
      cases hd'
      exact ⟨args, rfl, hfault⟩
    · rw [hd] at hd'
      cases hd'

theorem Performs.observed {ns : List (Node α)} {m m' : Machine α} {es : List (Effect α)} {v : Value α}
    {d : Distribution α} (h : Performs ns m es [v, .distribution d] m') :
    ∃ point args, ns = [point, .call d.family.name args] ∧ d.family.fault? d.params = none := by
  cases h with
  | @cons point _ _ _ _ _ _ _ _ _ _ _ _ _ hs =>
    cases hs with
    | cons _ ha hs =>
      cases hs
      obtain ⟨args, rfl, hfault⟩ := ha.exists_of_distribution
      exact ⟨point, args, rfl, hfault⟩

variable {n : Node α} {ns : List (Node α)} {m m₀ m₁ m' : Machine α} {es fs : List (Effect α)}
  {vs : List (Value α)} {v : Value α}

theorem Acts.calls (h : Acts n vs m es v m') : es.map Effect.call = [n].filter hasEffect := by
  cases h with
  | number | var | binary | assignment | sample | observe => rfl
  | @family f =>
    obtain ⟨hs, ho⟩ := f.name_ne
    simp [hasEffect, isSampleCall, isObserveCall, hs, ho]
  | math hc =>
    obtain ⟨hs, ho⟩ := Callee.name_ne_of_math hc
    simp [hasEffect, isSampleCall, isObserveCall, hs, ho]

theorem Acts.records (hc : Performs n.children m₀ es vs m) (h : Acts n vs m fs v m') :
    Records m fs m' := by
  cases h with
  | number | var | binary | assignment | family | math => exact .of_nil rfl rfl
  | sample => exact ⟨rfl, rfl, (List.append_nil _).symm, nofun⟩
  | observe args x d =>
    refine ⟨rfl, rfl, rfl, fun s hs => ?_⟩
    obtain rfl := List.mem_singleton.mp hs
    obtain ⟨point, args, hargs, -⟩ := hc.observed
    exact ⟨point, args, by rw [← hargs]; rfl⟩

theorem Performs.records (h : Performs ns m es vs m') : Records m es m' := by
  induction h with
  | nil => exact .of_nil rfl rfl
  | cons hc ha _ ihc ihs => exact ihc.append ((ha.records hc).append ihs)

theorem Performs.calls (h : Performs ns m es vs m') :
    es.map Effect.call = (postorderAll ns).filter hasEffect := by
  induction h with
  | nil => rfl
  | cons _ ha _ ihc ihs =>
    rw [postorderAll, postorder_eq, List.filter_append, List.filter_append, ← ihc, ← ihs, ← ha.calls]
    simp

theorem Stops.records (h : Stops ns m es m') : Records m es m' := by
  induction h with
  | here => exact .of_nil rfl rfl
  | within _ ih => exact ih
  | behind hc ha _ ih => exact hc.records.append ((ha.records hc).append ih)

theorem Stops.calls (h : Stops ns m es m') :
    es.map Effect.call <+: (postorderAll ns).filter hasEffect := by
  induction h with
  | here => exact List.nil_prefix
  | within _ ih =>
    -- The subtrees come first among the nodes that are left.
    rw [postorderAll, postorder_eq, List.append_assoc, List.filter_append]
    exact ih.trans (List.prefix_append _ _)
  | behind hc ha _ ih =>
    rw [postorderAll, postorder_eq, List.filter_append, List.filter_append, ← hc.calls, ← ha.calls,
      List.map_append, List.map_append, List.append_assoc]
    exact (List.prefix_append_right_inj _).mpr ((List.prefix_append_right_inj _).mpr ih)

theorem Performs.trace (h : Performs ns m es vs m') : Trace ns m es m' :=
  h.records.trace ⟨[], by rw [List.append_nil, h.calls]⟩

theorem Stops.trace (h : Stops ns m es m') : Trace ns m es m' := h.records.trace h.calls

theorem Performs.draws_eq (h : Performs ns m es vs m') :
    Effect.draws es = (sampleCalls ns).zipIdx m.generator.used := by
  rw [h.records.numbered, Effect.map_fst_draws, h.calls, filter_isSampleCall, sampleCalls]

theorem Performs.scores_eq (h : Performs ns m es vs m') :
    (Effect.scores es).map Prod.fst = observeCalls ns := by
  rw [Effect.map_fst_scores, h.calls, filter_isObserveCall, observeCalls]

end Posterior
