import Mathlib.Data.List.Induction
import Mathlib.Data.List.Nodup
import Posterior.Proofs.Concatenation
import Posterior.Proofs.Footprint.Statement

set_option autoImplicit false

namespace Posterior

open Node

section Lists

variable {α : Type}

theorem eraseDups_concat [DecidableEq α] (xs : List α) (x : α) :
    (xs ++ [x]).eraseDups = if x ∈ xs.eraseDups then xs.eraseDups else xs.eraseDups ++ [x] := by
  rw [List.eraseDups_append]
  by_cases h : x ∈ xs <;> simp [List.removeAll, h, List.mem_eraseDups, List.eraseDups_cons]

theorem nodup_eraseDups [DecidableEq α] (xs : List α) : xs.eraseDups.Nodup := by
  induction xs using List.reverseRecOn with
  | nil => exact .nil
  | append_singleton xs x ih =>
    rw [eraseDups_concat]
    split
    · exact ih
    · next h =>
      rw [← List.concat_eq_append]
      exact List.Nodup.concat h ih

namespace Node

def assigned? : Node α → Option String
  | .assignment name _ => some name
  | _ => none

def assignedNames (ns : List (Node α)) : List String := (ns.filterMap assigned?).eraseDups

theorem mem_assignedNames_cons {n : Node α} {ns : List (Node α)} {name : String} :
    name ∈ assignedNames (n :: ns) ↔ n.assigned? = some name ∨ name ∈ assignedNames ns := by
  rw [assignedNames, assignedNames, List.mem_eraseDups, List.mem_eraseDups]
  cases h : n.assigned? with
  | none => simp [List.filterMap_cons_none h]
  | some key => simp [List.filterMap_cons_some h, eq_comm]

end Node

end Lists

variable {α : Type} [Arithmetic α] {n : Node α} {ns : List (Node α)} {m m' : Machine α} {v : Value α}

theorem bindings_of_evaluate {levels : Nat} (hn : n.IsFlat) (h : evaluate levels n m = .ok v m') :
    (n.assigned? = none ∧ m'.store.bindings = m.store.bindings) ∨
      ∃ name expr x, n = .assignment name expr ∧ v = .number x ∧
        m'.store.bindings = m.store.bindings.set name x := by
  obtain ⟨c, hc, hk⟩ := exists_course_of_statement hn levels m
  have hm := hk m (.refl _ m)
  rw [h, Course.take] at hm
  split at hm
  · next ho =>
    cases hm
    have hframed := hc.framed m
    cases n with
    | call name args => exact .inl ⟨rfl, hframed.unbound (.inl ⟨name, args, rfl⟩)⟩
    | assignment name expr =>
      obtain ⟨x, rfl, hb⟩ := hframed.bound name expr _ rfl ho
      exact .inr ⟨name, expr, x, rfl, rfl, hb⟩
    | number | var | binary | program | error | stray => cases hn
  · cases hm

theorem names_of_evaluateAll (hns : ∀ n ∈ ns, n.IsFlat) {last r : Option (Value α)}
    (h : evaluateAll last ns m = .ok r m') {xs : List String}
    (hm : m.store.bindings.names = xs.eraseDups) :
    m'.store.bindings.names = (xs ++ ns.filterMap assigned?).eraseDups := by
  induction ns generalizing last m xs with
  | nil =>
    cases h
    rwa [List.filterMap_nil, List.append_nil]
  | cons n ns ih =>
    obtain ⟨hn, htail⟩ := List.forall_mem_cons.mp hns
    obtain ⟨v, m₁, hv, hrest⟩ := Step.exists_of_bind_ok h
    rcases bindings_of_evaluate hn hv with ⟨hnone, hb⟩ | ⟨name, expr, x, rfl, -, hb⟩
    · rw [List.filterMap_cons_none hnone]
      exact ih htail hrest (by rw [hb, hm])
    · have hnames : m₁.store.bindings.names = (xs ++ [name]).eraseDups := by
        rw [hb, Bindings.names_set, hm, eraseDups_concat]
      rw [ih htail hrest hnames, List.append_assoc]
      rfl

/-- Evaluated from `m`, the statements assign a name for the last time where `x` is assigned to it. -/
def AssignsLast (ns : List (Node α)) (m : Machine α) (name : String) (x : α) : Prop :=
  ∃ before expr after last m₁ m₂, ns = before ++ .assignment name expr :: after ∧
    name ∉ assignedNames after ∧ evaluateAll none before m = .ok last m₁ ∧
      evaluate maxDepth (.assignment name expr) m₁ = .ok (.number x) m₂

theorem AssignsLast.cons {name : String} {x : α} (hv : evaluate maxDepth n m = .ok v m')
    (h : AssignsLast ns m' name x) : AssignsLast (n :: ns) m name x := by
  obtain ⟨before, expr, after, last, m₁, m₂, rfl, hafter, hbefore, hx⟩ := h
  refine ⟨n :: before, expr, after, last.or (some v), m₁, m₂, rfl, hafter, ?_, hx⟩
  rw [evaluateAll, Step.bind_ok hv, evaluateAll_last, hbefore]

theorem get?_of_evaluateAll (hns : ∀ n ∈ ns, n.IsFlat) {last r : Option (Value α)}
    (h : evaluateAll last ns m = .ok r m') (name : String) :
    (name ∉ assignedNames ns ∧ m'.store.bindings.get? name = m.store.bindings.get? name) ∨
      ∃ x, AssignsLast ns m name x ∧ m'.store.bindings.get? name = some x := by
  induction ns generalizing last m with
  | nil =>
    cases h
    exact .inl ⟨List.not_mem_nil, rfl⟩
  | cons n ns ih =>
    obtain ⟨hn, htail⟩ := List.forall_mem_cons.mp hns
    obtain ⟨v, m₁, hv, hrest⟩ := Step.exists_of_bind_ok h
    rcases ih htail hrest with ⟨hnone, hsame⟩ | ⟨x, hx, hget⟩
    · rcases bindings_of_evaluate hn hv with ⟨hnone', hb⟩ | ⟨key, expr, x, rfl, rfl, hb⟩
      · refine .inl ⟨fun hmem => ?_, hsame.trans (by rw [hb])⟩
        rcases mem_assignedNames_cons.mp hmem with hmem | hmem
        · exact nomatch hnone'.symm.trans hmem
        · exact hnone hmem
      · by_cases hname : name = key
        · subst hname
          refine .inr ⟨x, ⟨[], expr, ns, none, m, m₁, rfl, hnone, rfl, hv⟩, ?_⟩
          rw [hsame, hb, Bindings.get?_set_self]
        · refine .inl ⟨fun hmem => ?_, ?_⟩
          · rcases mem_assignedNames_cons.mp hmem with hmem | hmem
            · exact hname (Option.some.inj hmem).symm
            · exact hnone hmem
          · rw [hsame, hb, Bindings.get?_set_of_ne _ _ hname]
    · exact .inr ⟨x, hx.cons hv, hget⟩

theorem bindings_of_run {i : Interpreter α} (hns : ∀ n ∈ i.statements, n.IsFlat) {g : Generator α}
    {result : Result α} (h : (i.reset.run g).1 = .ok result) :
    result.bindings.names = assignedNames i.statements ∧
      ∀ name ∈ assignedNames i.statements, ∃ x, result.bindings.get? name = some x ∧
        AssignsLast i.statements ⟨.empty, g⟩ name x := by
  rw [run_eq_match] at h
  cases hall : evaluateAll none i.reset.statements ⟨i.reset.store, g⟩ with
  | error halt m =>
    rw [hall] at h
    cases h
  | ok last m =>
    rw [hall] at h
    cases h
    have hempty : i.reset.store.bindings.names = ([] : List String).eraseDups := rfl
    refine ⟨names_of_evaluateAll hns hall hempty, fun name hname => ?_⟩
    rcases get?_of_evaluateAll hns hall name with ⟨hnone, -⟩ | ⟨x, hx, hget⟩
    · exact absurd hname hnone
    · exact ⟨x, hget, hx⟩

end Posterior
