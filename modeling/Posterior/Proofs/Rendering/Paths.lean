import Mathlib.Data.List.Forall2
import Posterior.Node

/-!
The order of the nodes of a tree. A path of child numbers leads to each of them, and the walk meets them in the
lexicographic order of their paths: a node before its children, and what hangs from a child before what hangs from the
next one.
-/

set_option autoImplicit false

namespace Posterior.Node

variable {α : Type}

theorem sizeOf_lt_of_child {n c : Node α} (h : c ∈ n.children) : sizeOf c < sizeOf n := by
  cases n with
  | binary op left right =>
    rw [binary.sizeOf_spec]
    rcases List.mem_pair.mp h with rfl | rfl <;> omega
  | assignment name expr =>
    obtain rfl := List.mem_singleton.mp h
    rw [assignment.sizeOf_spec]
    omega
  | call name args =>
    have hc : sizeOf c < sizeOf args := List.sizeOf_lt_of_mem h
    rw [call.sizeOf_spec]
    omega
  | program statements =>
    have hc : sizeOf c < sizeOf statements := List.sizeOf_lt_of_mem h
    rw [program.sizeOf_spec]
    omega
  | number | var | error | stray => cases h

@[elab_as_elim]
theorem induction_children {motive : Node α → Prop}
    (step : ∀ n : Node α, (∀ c ∈ n.children, motive c) → motive n) (n : Node α) : motive n :=
  step n fun c _ => induction_children step c
termination_by sizeOf n
decreasing_by exact sizeOf_lt_of_child ‹_›

/-- The node that a path of child numbers leads to. -/
def at? : List Nat → Node α → Option (Node α)
  | [], n => some n
  | i :: path, n => n.children[i]?.bind (at? path)

mutual

def paths : Node α → List (List Nat)
  | .binary _ left right => [] :: (left.paths.map (0 :: ·) ++ right.paths.map (1 :: ·))
  | .call _ args => [] :: pathsAll 0 args
  | .assignment _ expr => [] :: expr.paths.map (0 :: ·)
  | .program statements => [] :: pathsAll 0 statements
  | .number _ | .var _ | .error .. | .stray _ => [[]]

def pathsAll (first : Nat) : List (Node α) → List (List Nat)
  | [] => []
  | n :: ns => n.paths.map (first :: ·) ++ pathsAll (first + 1) ns

end

theorem paths_eq (n : Node α) : n.paths = [] :: pathsAll 0 n.children := by
  cases n <;> simp [paths, pathsAll, children]

section Children

variable {cs : List (Node α)} {first : Nat}

theorem mem_pathsAll_iff {path : List Nat} :
    path ∈ pathsAll first cs ↔ ∃ i c rest, path = (first + i) :: rest ∧ cs[i]? = some c ∧ rest ∈ c.paths := by
  induction cs generalizing first with
  | nil => simp [pathsAll]
  | cons c cs ih =>
    rw [pathsAll, List.mem_append, List.mem_map, ih]
    constructor
    · rintro (⟨rest, hrest, rfl⟩ | ⟨i, d, rest, rfl, hd, hrest⟩)
      · exact ⟨0, c, rest, rfl, rfl, hrest⟩
      · exact ⟨i + 1, d, rest, by rw [Nat.add_right_comm, Nat.add_assoc], hd, hrest⟩
    · rintro ⟨_ | i, d, rest, rfl, hd, hrest⟩
      · cases hd
        exact .inl ⟨rest, hrest, rfl⟩
      · exact .inr ⟨i, d, rest, by rw [Nat.add_right_comm, Nat.add_assoc], hd, hrest⟩

theorem pairwise_pathsAll (h : ∀ c ∈ cs, c.paths.Pairwise (· < ·)) : (pathsAll first cs).Pairwise (· < ·) := by
  induction cs generalizing first with
  | nil => exact .nil
  | cons c cs ih =>
    obtain ⟨hc, hcs⟩ := List.forall_mem_cons.mp h
    rw [pathsAll, List.pairwise_append, List.pairwise_map]
    refine ⟨hc.imp fun hlt => List.cons_lt_cons_iff.mpr (.inr ⟨rfl, hlt⟩), ih hcs, fun path hpath path' hpath' => ?_⟩
    obtain ⟨rest, -, rfl⟩ := List.mem_map.mp hpath
    obtain ⟨i, d, rest', rfl, -, -⟩ := mem_pathsAll_iff.mp hpath'
    exact List.cons_lt_cons_iff.mpr (.inl (by omega))

end Children

theorem pairwise_paths (n : Node α) : n.paths.Pairwise (· < ·) := by
  induction n using induction_children with
  | step n ih =>
    rw [paths_eq, List.pairwise_cons]
    refine ⟨fun path hpath => ?_, pairwise_pathsAll ih⟩
    obtain ⟨i, c, rest, rfl, -, -⟩ := mem_pathsAll_iff.mp hpath
    exact List.nil_lt_cons _ _

theorem mem_paths_iff {n : Node α} {path : List Nat} : path ∈ n.paths ↔ (n.at? path).isSome := by
  induction path generalizing n with
  | nil => simp [paths_eq n, at?]
  | cons i path ih =>
    rw [paths_eq, List.mem_cons, mem_pathsAll_iff, at?]
    constructor
    · rintro (h | ⟨j, c, rest, h, hc, hrest⟩)
      · cases h
      · obtain ⟨rfl, rfl⟩ := List.cons.inj h
        rw [Nat.zero_add, hc, Option.bind_some]
        exact ih.mp hrest
    · intro h
      obtain ⟨m, hm⟩ := Option.isSome_iff_exists.mp h
      obtain ⟨c, hc, hat⟩ := Option.bind_eq_some_iff.mp hm
      exact .inr ⟨i, c, path, by rw [Nat.zero_add], hc, ih.mpr (by rw [hat]; rfl)⟩

def Leads (n : Node α) (depth : Nat) (path : List Nat) (v : Visit α) : Prop :=
  n.at? path = some v.node ∧ v.depth = depth + path.length

theorem leads_children {cs : List (Node α)} {depth first : Nat}
    (h : ∀ c ∈ cs, List.Forall₂ (Leads c depth) c.paths (c.walk depth)) :
    List.Forall₂ (fun path v => ∃ i c rest, path = (first + i) :: rest ∧ cs[i]? = some c ∧ Leads c depth rest v)
      (pathsAll first cs) (cs.flatMap (walk depth)) := by
  induction cs generalizing first with
  | nil => exact .nil
  | cons c cs ih =>
    obtain ⟨hc, hcs⟩ := List.forall_mem_cons.mp h
    rw [pathsAll, List.flatMap_cons]
    refine List.rel_append (List.forall₂_map_left_iff.mpr ?_) ((ih hcs).imp fun path v => ?_)
    · exact hc.imp fun rest v hv => ⟨0, c, rest, rfl, rfl, hv⟩
    · rintro ⟨i, d, rest, rfl, hd, hv⟩
      exact ⟨i + 1, d, rest, by rw [Nat.add_right_comm, Nat.add_assoc], hd, hv⟩

theorem leads_walk (n : Node α) (depth : Nat) : List.Forall₂ (Leads n depth) n.paths (n.walk depth) := by
  induction n using induction_children generalizing depth with
  | step n ih =>
    rw [paths_eq, walk_eq]
    refine .cons ⟨rfl, rfl⟩ ((leads_children fun c hc => ih c hc (depth + 1)).imp fun path v => ?_)
    rintro ⟨i, c, rest, rfl, hc, hat, hdepth⟩
    refine ⟨?_, ?_⟩
    · rw [Nat.zero_add, at?, hc, Option.bind_some, hat]
    · rw [hdepth, List.length_cons]
      omega

theorem map_at?_paths (n : Node α) (depth : Nat) :
    n.paths.map (fun path => (n.at? path, depth + path.length)) =
      (n.walk depth).map fun v => (some v.node, v.depth) := by
  rw [← List.forall₂_eq_eq_eq, List.forall₂_map_left_iff, List.forall₂_map_right_iff]
  exact (leads_walk n depth).imp fun path v hv => Prod.ext hv.1 hv.2.symm

/-- The walk meets what paths lead to. -/
theorem exists_visit_iff {n : Node α} {q : Node α → Prop} (depth : Nat) :
    (∃ v ∈ n.walk depth, q v.node) ↔ ∃ path m, n.at? path = some m ∧ q m := by
  constructor
  · rintro ⟨v, hv, hq⟩
    have hmem := List.mem_map_of_mem (f := fun v : Visit α => (some v.node, v.depth)) hv
    rw [← map_at?_paths] at hmem
    obtain ⟨path, -, hpath⟩ := List.mem_map.mp hmem
    exact ⟨path, v.node, (Prod.mk.inj hpath).1, hq⟩
  · rintro ⟨path, m, hat, hq⟩
    have hpath : path ∈ n.paths := mem_paths_iff.mpr (by rw [hat]; rfl)
    have hmem := List.mem_map_of_mem (f := fun path => (n.at? path, depth + path.length)) hpath
    rw [map_at?_paths, hat] at hmem
    obtain ⟨v, hv, hnode⟩ := List.mem_map.mp hmem
    exact ⟨v, hv, Option.some.inj (Prod.mk.inj hnode).1 ▸ hq⟩

theorem length_paths (n : Node α) (depth : Nat) : n.paths.length = (n.walk depth).length :=
  (leads_walk n depth).length_eq

end Posterior.Node
