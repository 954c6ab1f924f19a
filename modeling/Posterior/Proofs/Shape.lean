import Posterior.Node

/-!
The trees that are written as text: statements over expressions. Which names may stand in them is left
open.
-/

set_option autoImplicit false

namespace Posterior.Node

variable {α : Type}

def operators : List String := ["+", "-", "*", "/"]

inductive IsExpression (valid : String → Prop) : Node α → Prop where
  | number (value : α) : IsExpression valid (.number value)
  | var {name : String} (h : valid name) : IsExpression valid (.var name)
  | binary {op : String} {left right : Node α} (ho : op ∈ operators)
      (hl : IsExpression valid left) (hr : IsExpression valid right) :
      IsExpression valid (.binary op left right)
  | call {name : String} {args : List (Node α)} (h : valid name)
      (ha : ∀ a ∈ args, IsExpression valid a) : IsExpression valid (.call name args)

inductive IsStatement (valid : String → Prop) : Node α → Prop where
  | assignment {name : String} {expr : Node α} (h : valid name) (he : IsExpression valid expr) :
      IsStatement valid (.assignment name expr)
  | call {name : String} {args : List (Node α)} (h : IsExpression valid (.call name args)) :
      IsStatement valid (.call name args)

/-- `m` stands somewhere in a tree; a tree stands in itself. -/
inductive Within (m : Node α) : Node α → Prop where
  | root : Within m m
  | child {c n : Node α} (hc : c ∈ n.children) (h : Within m c) : Within m n

theorem Within.exists_child {n m c : Node α} (h : Within m n) (hc : c ∈ m.children) :
    ∃ b ∈ n.children, Within c b := by
  induction h with
  | root => exact ⟨c, hc, .root⟩
  | child hb _ ih =>
    obtain ⟨b, hb', hw⟩ := ih
    exact ⟨_, hb, .child hb' hw⟩

theorem Within.trans {n m c : Node α} (h : Within c m) (h' : Within m n) : Within c n := by
  induction h' with
  | root => exact h
  | child hb _ ih => exact .child hb ih

theorem Within.exists_visit {n m : Node α} (h : Within m n) (depth : Nat) :
    ∃ v ∈ n.walk depth, v.node = m := by
  induction h generalizing depth with
  | root => exact ⟨_, mem_walk_self depth m, rfl⟩
  | child hc _ ih =>
    obtain ⟨v, hv, hm⟩ := ih (depth + 1)
    exact ⟨v, mem_walk_of_child hc hv, hm⟩

end Posterior.Node
