import Posterior.Proofs.Trace.Scores

set_option autoImplicit false

namespace Posterior

open Node

/-- A draw that a distribution is given, or a value that it scores. -/
inductive Deal (α : Type) where
  | draw (d : Distribution α) (unit : α)
  | score (d : Distribution α) (value : α)

variable {α : Type} [Arithmetic α]

def Deal.scores (ds : List (Deal α)) : List α :=
  ds.filterMap fun deal => match deal with
    | .score d x => some (d.logProb x)
    | .draw .. => none

@[simp] theorem Deal.scores_append (ds es : List (Deal α)) : scores (ds ++ es) = scores ds ++ scores es :=
  List.filterMap_append

inductive Deals : List (Node α) → Machine α → List (Deal α) → List (Value α) → Machine α → Prop where
  | nil (m : Machine α) : Deals [] m [] [] m
  | sample {args ns : List (Node α)} {m m₁ m' : Machine α} {ds es : List (Deal α)} {d : Distribution α}
      {ws : List (Value α)} (hc : Deals args m ds [.distribution d] m₁) (h : d.canSample = true)
      (hs : Deals ns { m₁ with generator := { m₁.generator with used := m₁.generator.used + 1 } } es ws m') :
      Deals (.call "sample" args :: ns) m
        (ds ++ .draw d (m₁.generator.stream m₁.generator.used) :: es)
        (.number (d.sample (m₁.generator.stream m₁.generator.used)) :: ws) m'
  | observe {args ns : List (Node α)} {m m₁ m' : Machine α} {ds es : List (Deal α)} {d : Distribution α} {x : α}
      {ws : List (Value α)} (hc : Deals args m ds [.number x, .distribution d] m₁)
      (hs : Deals ns { m₁ with store := m₁.store.observe ⟨x, d.family, d.logProb x⟩ } es ws m') :
      Deals (.call "observe" args :: ns) m (ds ++ .score d x :: es) (.number (d.logProb x) :: ws) m'
  | silent {n : Node α} {ns : List (Node α)} {m m₁ m₂ m' : Machine α} {ds es : List (Deal α)}
      {vs ws : List (Value α)} {v : Value α} (hc : Deals n.children m ds vs m₁) (ha : Acts n vs m₁ [] v m₂)
      (hs : Deals ns m₂ es ws m') : Deals (n :: ns) m (ds ++ es) (v :: ws) m'

variable {ns : List (Node α)} {m m' : Machine α} {ds : List (Deal α)} {es : List (Effect α)}
  {vs : List (Value α)}

theorem Performs.exists_deals (h : Performs ns m es vs m') : ∃ ds, Deals ns m ds vs m' := by
  induction h with
  | nil m => exact ⟨[], .nil m⟩
  | cons _ ha _ ihc ihs =>
    obtain ⟨ds, hc⟩ := ihc
    obtain ⟨ds', hs⟩ := ihs
    cases ha with
    | sample hd => exact ⟨_, .sample hc hd hs⟩
    | observe => exact ⟨_, .observe hc hs⟩
    | number x => exact ⟨_, .silent hc (.number x _) hs⟩
    | var hx => exact ⟨_, .silent hc (.var hx) hs⟩
    | binary hz => exact ⟨_, .silent hc (.binary hz) hs⟩
    | assignment name expr x => exact ⟨_, .silent hc (.assignment name expr x _) hs⟩
    | family hd => exact ⟨_, .silent hc (.family hd) hs⟩
    | math hf => exact ⟨_, .silent hc (.math hf) hs⟩

theorem deals_literals (ps : List α) (m : Machine α) : Deals (ps.map .number) m [] (ps.map .number) m := by
  induction ps with
  | nil => exact .nil m
  | cons p ps ih =>
    have hleaf : Deals (Node.number p).children m [] [] m := .nil m
    exact .silent hleaf (.number p m) ih

theorem deals_literal_call {f : Family} {ps : List α} {d : Distribution α} (h : f.make ps = .ok d) (m : Machine α) :
    Deals [.call f.name (ps.map .number)] m [] [.distribution d] m := by
  have hargs : Deals (Node.call f.name (ps.map .number)).children m [] (ps.map .number) m := deals_literals ps m
  exact .silent hargs (.family h) (.nil m)

theorem Deals.exists_performs (h : Deals ns m ds vs m') : ∃ es, Performs ns m es vs m' := by
  induction h with
  | nil m => exact ⟨[], .nil m⟩
  | sample _ hd _ ihc ihs =>
    obtain ⟨es, hc⟩ := ihc
    obtain ⟨es', hs⟩ := ihs
    exact ⟨_, .cons hc (.sample hd) hs⟩
  | observe _ _ ihc ihs =>
    obtain ⟨es, hc⟩ := ihc
    obtain ⟨es', hs⟩ := ihs
    exact ⟨_, .cons hc (.observe _ _ _ _) hs⟩
  | silent _ ha _ ihc ihs =>
    obtain ⟨es, hc⟩ := ihc
    obtain ⟨es', hs⟩ := ihs
    exact ⟨_, .cons hc ha hs⟩

theorem Deals.totalLogProb_eq (h : Deals ns m ds vs m') :
    m'.store.totalLogProb = (Deal.scores ds).foldl (· + ·) m.store.totalLogProb := by
  induction h with
  | nil => rfl
  | sample _ _ _ ihc ihs =>
    rw [ihs, Deal.scores_append, List.foldl_append, ← ihc]
    rfl
  | observe _ _ ihc ihs =>
    rw [ihs, Deal.scores_append, List.foldl_append, ← ihc]
    rfl
  | silent _ ha _ ihc ihs =>
    rw [ihs, ha.totalLogProb_eq, ihc, Deal.scores_append, List.foldl_append]
    rfl

def Deal.distribution : Deal α → Distribution α
  | .draw d _ | .score d _ => d

theorem Deals.fault?_eq_none (h : Deals ns m ds vs m') :
    ∀ deal ∈ ds, deal.distribution.family.fault? deal.distribution.params = none := by
  induction h with
  | nil => exact List.forall_mem_nil _
  | sample hc _ _ ihc ihs =>
    obtain ⟨es, hp⟩ := hc.exists_performs
    obtain ⟨n, es₁, rfl, hp⟩ := hp.exists_singleton
    obtain ⟨_, _, _, _, -, ha⟩ := hp.exists_acts
    obtain ⟨-, -, hfault⟩ := ha.exists_of_distribution
    exact List.forall_mem_append.mpr ⟨ihc, List.forall_mem_cons.mpr ⟨hfault, ihs⟩⟩
  | observe hc _ ihc ihs =>
    obtain ⟨es, hp⟩ := hc.exists_performs
    obtain ⟨-, -, -, hfault⟩ := hp.observed
    exact List.forall_mem_append.mpr ⟨ihc, List.forall_mem_cons.mpr ⟨hfault, ihs⟩⟩
  | silent _ _ _ ihc ihs => exact List.forall_mem_append.mpr ⟨ihc, ihs⟩

theorem exists_deals_of_run {statements : List (Node α)} {g : Generator α} {result : Result α}
    (h : ((Interpreter.mk statements .empty).run g).1 = .ok result) :
    ∃ ds vs m', Deals statements ⟨.empty, g⟩ ds vs m' ∧
      result.totalLogProb = Arithmetic.sum (Deal.scores ds) := by
  obtain ⟨-, -, es, vs, hp, rfl⟩ := run_eq_ok_iff.mp (Prod.ext h rfl)
  obtain ⟨ds, hd⟩ := hp.exists_deals
  exact ⟨ds, vs, _, hd, hd.totalLogProb_eq⟩

end Posterior
