import Posterior.Node
import Posterior.Text.Join
import Posterior.Text.Quoted

/-!
What can be read off a tree without running it: its one-line form, its outline with one line a node, the
number of nodes of each type, and whether it can draw a sample. Trees deeper than a fixed limit are refused,
and so is stray text where a tree is needed.
-/

set_option autoImplicit false

namespace Posterior

def maxDepth : Nat := 500

inductive TreeFault where
  | tooDeep
  | unknownNode (text : String)
  deriving DecidableEq, Repr

def TreeFault.message : TreeFault → String
  | .tooDeep => "Tree nested too deeply"
  | .unknownNode text => "Unknown node type " ++ text

namespace Node

variable {α : Type}

/-- What is wrong with a visited node by itself. The limit is on the levels below the root, so that a program
may be walked wherever its statements may be evaluated. -/
def Visit.fault? (v : Visit α) : Option TreeFault :=
  if maxDepth < v.depth then some .tooDeep
  else match v.node with
    | .stray text => some (.unknownNode text)
    | _ => none

def fault? (n : Node α) : Option TreeFault :=
  (n.walk 0).findSome? Visit.fault?

def isTooDeep (n : Node α) : Bool :=
  (n.walk 0).any fun v => maxDepth ≤ v.depth

mutual

def form (numeral : α → String) : Node α → String
  | .number value => "NumberLiteral(" ++ numeral value ++ ")"
  | .var name => "Variable(" ++ name ++ ")"
  | .binary op left right =>
    "BinaryExpression(" ++ Text.quoted op ++ ", " ++ left.form numeral ++ ", "
      ++ right.form numeral ++ ")"
  | .call name args =>
    "FunctionCall(" ++ name ++ ", [" ++ Text.join ", " (forms numeral args) ++ "])"
  | .assignment name expr => "Assignment(" ++ name ++ ", " ++ expr.form numeral ++ ")"
  | .program statements => "Program([" ++ Text.join ", " (forms numeral statements) ++ "])"
  | .error message _ => "Error(" ++ message ++ ")"
  | .stray text => text

def forms (numeral : α → String) : List (Node α) → List String
  | [] => []
  | n :: ns => n.form numeral :: forms numeral ns

end

def label (numeral : α → String) : Node α → String
  | .number value => "NumberLiteral(" ++ numeral value ++ ")"
  | .var name => "Variable(" ++ name ++ ")"
  | .binary op _ _ => "BinaryExpression(" ++ op ++ ")"
  | .call name _ => "FunctionCall(" ++ name ++ ")"
  | .assignment name _ => "Assignment(" ++ name ++ ")"
  | .program _ => "Program"
  | .error message _ => "Error(" ++ message ++ ")"
  | .stray text => text

/-- Where a node stands in an outline: its level, whether it is the last of its siblings, and the text
that leads its line. The level counts from any number; a node at level zero hangs from nothing. -/
structure Place where
  indent : Int := 0
  isLast : Bool := true
  lead : String := ""

def Place.connector (p : Place) : String :=
  if p.indent = 0 then "" else if p.isLast then "└─ " else "├─ "

def Place.child (p : Place) (isLast : Bool) : Place :=
  { indent := p.indent + 1
    isLast
    lead := if p.indent = 0 then "" else p.lead ++ (if p.isLast then "   " else "│  ") }

def line (numeral : α → String) (p : Place) (n : Node α) : String :=
  p.lead ++ p.connector ++ n.label numeral

mutual

def outline (numeral : α → String) (p : Place) : Node α → List String
  | .binary op left right =>
    line numeral p (.binary op left right) ::
      (left.outline numeral (p.child false) ++ right.outline numeral (p.child true))
  | .call name args => line numeral p (.call name args) :: outlines numeral p args
  | .assignment name expr =>
    line numeral p (.assignment name expr) :: expr.outline numeral (p.child true)
  | .program statements => line numeral p (.program statements) :: outlines numeral p statements
  | .number value => [line numeral p (.number value)]
  | .var name => [line numeral p (.var name)]
  | .error message position => [line numeral p (.error message position)]
  | .stray text => [line numeral p (.stray text)]

def outlines (numeral : α → String) (p : Place) : List (Node α) → List String
  | [] => []
  | n :: ns => n.outline numeral (p.child ns.isEmpty) ++ outlines numeral p ns

end

def render (numeral : α → String) (n : Node α) : Except TreeFault String :=
  if n.isTooDeep then .error .tooDeep else .ok (n.form numeral)

def pretty (numeral : α → String) (p : Place) (n : Node α) : Except TreeFault String :=
  match n.fault? with
  | some f => .error f
  | none => .ok (Text.join "\n" (n.outline numeral p))

def tally (types : List NodeType) : List (NodeType × Nat) :=
  types.eraseDups.map fun t => (t, types.count t)

def summary (n : Node α) : Except TreeFault (List (NodeType × Nat)) :=
  match n.fault? with
  | some f => .error f
  | none => .ok (tally ((n.walk 0).map (·.node.type)))

/-- True if no `sample` call stands in the tree. The walk ends at the first such call or at the first
fault, whichever comes first. -/
def isDeterministic (n : Node α) : Except TreeFault Bool :=
  match (n.walk 0).find? fun v => v.fault?.isSome || v.node.isSampleCall with
  | none => .ok true
  | some v =>
    match v.fault? with
    | some f => .error f
    | none => .ok false

end Node

end Posterior
