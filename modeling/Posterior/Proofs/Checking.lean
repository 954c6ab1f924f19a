import Posterior.Interpreter
import Posterior.Proofs.Shape

/-!
What evaluation checks as it goes, said of the tree alone: names are bound before they are read, calls have
the arguments they need, and numbers and distributions stand where they belong.
-/

set_option autoImplicit false

namespace Posterior

inductive ValueKind where
  | number
  | distribution
  deriving DecidableEq, Repr

variable {α : Type}

def Value.kind : Value α → ValueKind
  | .number _ => .number
  | .distribution _ => .distribution

def Callee.argumentKinds : Callee → List ValueKind
  | .sample => [.distribution]
  | .observe => [.number, .distribution]
  | .family f => List.replicate f.arity .number
  | .math _ => [.number]

def Callee.valueKind : Callee → ValueKind
  | .family _ => .distribution
  | .sample | .observe | .math _ => .number

namespace Node

def valueKind : Node α → ValueKind
  | .call name _ => ((Callee.ofName? name).map Callee.valueKind).getD .number
  | _ => .number

/-- An expression that may be evaluated where the names `bound` are. -/
inductive Checked (bound : List String) : Node α → Prop where
  | number (value : α) : Checked bound (.number value)
  | var {name : String} (h : name ∈ bound) : Checked bound (.var name)
  | binary {op : String} {left right : Node α} (hl : Checked bound left) (hr : Checked bound right)
      (kl : left.valueKind = .number) (kr : right.valueKind = .number) :
      Checked bound (.binary op left right)
  | call {name : String} {args : List (Node α)} {c : Callee} (hc : Callee.ofName? name = some c)
      (ha : ∀ a ∈ args, Checked bound a) (hk : args.map valueKind = c.argumentKinds) :
      Checked bound (.call name args)

theorem checked_var {bound : List String} {name : String} :
    (Node.var name : Node α).Checked bound ↔ name ∈ bound := by
  constructor
  · intro h
    cases h with
    | var h => exact h
  · exact .var

theorem checked_binary {bound : List String} {op : String} {left right : Node α} :
    (Node.binary op left right).Checked bound ↔
      (left.Checked bound ∧ left.valueKind = .number) ∧
        (right.Checked bound ∧ right.valueKind = .number) := by
  constructor
  · intro h
    cases h with
    | binary hl hr kl kr => exact ⟨⟨hl, kl⟩, ⟨hr, kr⟩⟩
  · rintro ⟨⟨hl, kl⟩, ⟨hr, kr⟩⟩
    exact .binary hl hr kl kr

theorem checked_call {bound : List String} {name : String} {args : List (Node α)} {c : Callee}
    (hc : Callee.ofName? name = some c) :
    (Node.call name args).Checked bound ↔
      (∀ a ∈ args, a.Checked bound) ∧ args.map valueKind = c.argumentKinds := by
  constructor
  · intro h
    cases h with
    | call hc' ha hk =>
      rw [hc] at hc'
      cases hc'
      exact ⟨ha, hk⟩
  · rintro ⟨ha, hk⟩
    exact .call hc ha hk

theorem not_checked_call {bound : List String} {name : String} {args : List (Node α)}
    (hc : Callee.ofName? name = none) : ¬ (Node.call name args).Checked bound := by
  intro h
  cases h with
  | call hc' _ _ =>
    rw [hc] at hc'
    cases hc'

theorem Checked.length_args {bound : List String} {name : String} {args : List (Node α)} {c : Callee}
    (h : (Node.call name args).Checked bound) (hc : Callee.ofName? name = some c) :
    args.length = c.argumentKinds.length := by
  have hk := congrArg List.length ((checked_call hc).mp h).2
  rwa [List.length_map] at hk

theorem valueKind_call {name : String} {args : List (Node α)} {c : Callee}
    (hc : Callee.ofName? name = some c) : (Node.call name args).valueKind = c.valueKind := by
  simp [valueKind, hc]

inductive CheckedAll : List String → List (Node α) → Prop where
  | nil (bound : List String) : CheckedAll bound []
  | assignment {bound : List String} {name : String} {expr : Node α} {ns : List (Node α)}
      (he : Checked bound expr) (hk : expr.valueKind = .number)
      (hs : CheckedAll (name :: bound) ns) : CheckedAll bound (.assignment name expr :: ns)
  | call {bound : List String} {name : String} {args : List (Node α)} {ns : List (Node α)}
      (hc : Checked bound (.call name args)) (hs : CheckedAll bound ns) :
      CheckedAll bound (.call name args :: ns)

def WellFormed (ns : List (Node α)) : Prop := CheckedAll [] ns

end Node

variable [Arithmetic α]

/-- How the numbers a tree computes may stop it: as many parameters as a family asks for that are not
finite or out of its range, or a uniform distribution too wide to be sampled. -/
inductive OutOfRange (n : Node α) : Halt α → Prop where
  | parameters {f : Family} {args : List (Node α)} {params : List α} {fault : ParameterFault α}
      (hw : Node.Within (.call f.name args) n) (hn : args.length = f.arity)
      (hl : params.length = f.arity) (hf : f.fault? params = some fault) :
      OutOfRange n (.failure (.parameters fault))
  | width {args : List (Node α)} {low high : α}
      (hw : Node.Within (.call "sample" [.call "uniform" args]) n)
      (hf : Family.uniform.fault? [low, high] = none)
      (hi : Arithmetic.isFinite (high - low) = false) : OutOfRange n .overflow

theorem OutOfRange.child {c n : Node α} {halt : Halt α} (h : OutOfRange c halt)
    (hc : c ∈ n.children) : OutOfRange n halt := by
  cases h with
  | parameters hw hn hl hf => exact .parameters (.child hc hw) hn hl hf
  | width hw hf hi => exact .width (.child hc hw) hf hi

end Posterior
