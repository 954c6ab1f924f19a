import Posterior.Arithmetic

/-!
Trees of the language. One type covers whole programs, statements and expressions, and also what may stand
where a tree belongs without being one: the report of a text that could not be parsed, and stray text.
-/

set_option autoImplicit false

namespace Posterior

inductive Node (α : Type) where
  | number (value : α)
  | var (name : String)
  | binary (op : String) (left right : Node α)
  | call (name : String) (args : List (Node α))
  | assignment (name : String) (expr : Node α)
  | program (statements : List (Node α))
  /-- Stands for a program that could not be parsed; a position of `-1` is unknown. -/
  | error (message : String) (position : Int)
  | stray (text : String)
  deriving Repr

inductive NodeType where
  | number
  | var
  | binary
  | call
  | assignment
  | program
  | error
  | stray
  deriving DecidableEq, Repr

def NodeType.name : NodeType → String
  | .number => "NumberLiteral"
  | .var => "Variable"
  | .binary => "BinaryExpression"
  | .call => "FunctionCall"
  | .assignment => "Assignment"
  | .program => "Program"
  | .error => "Error"
  | .stray => "str"

namespace Node

variable {α : Type}

def type : Node α → NodeType
  | .number _ => .number
  | .var _ => .var
  | .binary .. => .binary
  | .call .. => .call
  | .assignment .. => .assignment
  | .program _ => .program
  | .error .. => .error
  | .stray _ => .stray

def children : Node α → List (Node α)
  | .binary _ left right => [left, right]
  | .call _ args => args
  | .assignment _ expr => [expr]
  | .program statements => statements
  | .number _ | .var _ | .error .. | .stray _ => []

def isError? : Node α → Option Bool
  | .error .. => some true
  | .stray _ => none
  | _ => some false

def isSampleCall : Node α → Bool
  | .call name _ => name == "sample"
  | _ => false

structure Visit (α : Type) where
  depth : Nat
  node : Node α

mutual

def walk (depth : Nat) : Node α → List (Visit α)
  | .binary op left right =>
    ⟨depth, .binary op left right⟩ :: (left.walk (depth + 1) ++ right.walk (depth + 1))
  | .call name args => ⟨depth, .call name args⟩ :: walkAll (depth + 1) args
  | .assignment name expr => ⟨depth, .assignment name expr⟩ :: expr.walk (depth + 1)
  | .program statements => ⟨depth, .program statements⟩ :: walkAll (depth + 1) statements
  | .number value => [⟨depth, .number value⟩]
  | .var name => [⟨depth, .var name⟩]
  | .error message position => [⟨depth, .error message position⟩]
  | .stray text => [⟨depth, .stray text⟩]

def walkAll (depth : Nat) : List (Node α) → List (Visit α)
  | [] => []
  | n :: ns => n.walk depth ++ walkAll depth ns

end

theorem walkAll_eq_flatMap (depth : Nat) (ns : List (Node α)) :
    walkAll depth ns = ns.flatMap (walk depth) := by
  induction ns with
  | nil => rfl
  | cons n ns ih => simp [walkAll, ih]

theorem walk_eq (depth : Nat) (n : Node α) :
    n.walk depth = ⟨depth, n⟩ :: n.children.flatMap (walk (depth + 1)) := by
  cases n <;> simp [walk, children, walkAll_eq_flatMap]

theorem mem_walk_self (depth : Nat) (n : Node α) : ⟨depth, n⟩ ∈ n.walk depth := by
  rw [walk_eq]
  exact List.mem_cons_self

theorem mem_walk_of_child {depth : Nat} {n c : Node α} {v : Visit α} (hc : c ∈ n.children)
    (hv : v ∈ c.walk (depth + 1)) : v ∈ n.walk depth := by
  rw [walk_eq]
  exact List.mem_cons_of_mem _ (List.mem_flatMap.mpr ⟨c, hc, hv⟩)

mutual

def same [Arithmetic α] : Node α → Node α → Bool
  | .number x, .number y => Arithmetic.eq x y
  | .var x, .var y => x == y
  | .binary op left right, .binary op' left' right' =>
    op == op' && left.same left' && right.same right'
  | .call name args, .call name' args' => name == name' && sameAll args args'
  | .assignment name expr, .assignment name' expr' => name == name' && expr.same expr'
  | .program statements, .program statements' => sameAll statements statements'
  | .error message position, .error message' position' =>
    message == message' && position == position'
  | .stray text, .stray text' => text == text'
  | _, _ => false

def sameAll [Arithmetic α] : List (Node α) → List (Node α) → Bool
  | [], [] => true
  | n :: ns, m :: ms => n.same m && sameAll ns ms
  | _, _ => false

end

end Node

end Posterior
