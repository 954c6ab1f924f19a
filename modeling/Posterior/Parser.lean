import Posterior.Node
import Posterior.Token.Display

/-!
The grammar, lowest precedence first:

    program    = statement*
    statement  = assignment | call
    assignment = identifier '=' expression
    expression = term (('+' | '-') term)*
    term       = factor (('*' | '/') factor)*
    factor     = number | call | identifier | '(' expression ')' | '-' factor
    call       = identifier '(' (expression (',' expression)*)? ')'

Each nonterminal is a procedure on the tokens still to be read. A procedure that fails leaves them where it
stopped. Procedures call each other within a budget of frames, so the depth of nesting is bounded and the
length of a program is not.
-/

set_option autoImplicit false

namespace Posterior

inductive ParseCause where
  | expected (kind : Kind) (context : String)
  | startOfStatement
  | afterIdentifier (name : String)
  | inExpression
  deriving DecidableEq, Repr

structure ParseFault (α : Type) where
  cause : ParseCause
  found : Option (Token α)
  deriving Repr

inductive ParseStop (α : Type) where
  | fault (fault : ParseFault α)
  | tooDeep
  deriving Repr

namespace Parser

abbrev Parse (α β : Type) := EStateM (ParseStop α) (List (Token α)) β

variable {α β : Type}

/-- The kind of the next token; after the last one comes the end. -/
def nextKind (ts : List (Token α)) : Kind :=
  match ts with
  | [] => .eof
  | t :: _ => t.kind

@[simp] theorem nextKind_nil : nextKind ([] : List (Token α)) = .eof := rfl

@[simp] theorem nextKind_cons (t : Token α) (ts : List (Token α)) :
    nextKind (t :: ts) = t.kind := rfl

def fail (cause : ParseCause) : Parse α β := fun ts =>
  .error (.fault ⟨cause, ts.head?⟩) ts

def expect (kind : Kind) (context : String) : Parse α (Token α)
  | [] => fail (.expected kind context) []
  | t :: ts =>
    if t.kind ≠ kind then fail (.expected kind context) (t :: ts)
    else if kind = .eof then .ok t (t :: ts)
    else .ok t ts

def takeMark? (marks : List Mark) : List (Token α) → Option (String × List (Token α))
  | ⟨.mark m text, _⟩ :: ts => if m ∈ marks then some (text, ts) else none
  | _ => none

/-- The operators and operands that follow `left`, grouped to the left. Each round takes a token, so
`fuel` need not exceed the number of tokens. -/
def chainFuel (marks : List Mark) (operand : Parse α (Node α)) :
    (fuel : Nat) → (left : Node α) → Parse α (Node α)
  | 0, left, ts => .ok left ts
  | fuel + 1, left, ts =>
    match takeMark? marks ts with
    | none => .ok left ts
    | some (op, rest) =>
      (do
        let right ← operand
        chainFuel marks operand fuel (.binary op left right)) rest

def chain (marks : List Mark) (operand : Parse α (Node α)) : Parse α (Node α) := do
  let left ← operand
  fun ts => chainFuel marks operand ts.length left ts

def moreFuel (item : Parse α (Node α)) : (fuel : Nat) → Parse α (List (Node α))
  | 0, ts => .ok [] ts
  | fuel + 1, ts =>
    match takeMark? [.comma] ts with
    | none => .ok [] ts
    | some (_, rest) =>
      (do
        let first ← item
        let others ← moreFuel item fuel
        return first :: others) rest

def arguments (item : Parse α (Node α)) : Parse α (List (Node α)) := fun ts =>
  if nextKind ts = .mark .rightParen then .ok [] ts
  else
    (do
      let first ← item
      let others ← fun ts => moreFuel item ts.length ts
      return first :: others) ts

variable [Arithmetic α]

mutual

def expression : (frames : Nat) → Parse α (Node α)
  | 0 => throw .tooDeep
  | frames + 1 => chain [.plus, .minus] (term frames)

def term : (frames : Nat) → Parse α (Node α)
  | 0 => throw .tooDeep
  | frames + 1 => chain [.star, .slash] (factor frames)

def factor : (frames : Nat) → Parse α (Node α)
  | 0 => throw .tooDeep
  | frames + 1 => fun ts =>
    match ts with
    | ⟨.number value, _⟩ :: rest => .ok (.number value) rest
    | ⟨.mark .identifier name, _⟩ :: rest =>
      if nextKind rest = .mark .leftParen then call frames ts else .ok (.var name) rest
    | ⟨.mark .leftParen _, _⟩ :: rest =>
      (do
        let inner ← expression frames
        let _ ← expect (.mark .rightParen) "to close '('"
        return inner) rest
    | ⟨.mark .minus _, _⟩ :: rest =>
      (do
        let operand ← factor frames
        return Node.binary "-" (.number Arithmetic.zero) operand) rest
    | _ => fail .inExpression ts

def call : (frames : Nat) → Parse α (Node α)
  | 0 => throw .tooDeep
  | frames + 1 => do
    let name ← expect (.mark .identifier) "as function name"
    let _ ← expect (.mark .leftParen) ("after '" ++ name.text ++ "'")
    let args ← arguments (expression frames)
    let _ ← expect (.mark .rightParen) ("to close call to '" ++ name.text ++ "'")
    return Node.call name.text args

end

def assignment : (frames : Nat) → Parse α (Node α)
  | 0 => throw .tooDeep
  | frames + 1 => do
    let name ← expect (.mark .identifier) "as assignment target"
    let _ ← expect (.mark .equal) ("after '" ++ name.text ++ "'")
    let expr ← expression frames
    return Node.assignment name.text expr

/-- A statement is told by its first two tokens; a wrong second one is reported before it is reached. -/
def statement : (frames : Nat) → Parse α (Node α)
  | 0 => throw .tooDeep
  | frames + 1 => fun ts =>
    match ts with
    | ⟨.mark .identifier name, _⟩ :: rest =>
      if nextKind rest = .mark .equal then assignment frames ts
      else if nextKind rest = .mark .leftParen then call frames ts
      else .error (.fault ⟨.afterIdentifier name, rest.head?⟩) ts
    | _ => fail .startOfStatement ts

def statementsFuel (frames : Nat) : (fuel : Nat) → Parse α (List (Node α))
  | 0, ts => .ok [] ts
  | fuel + 1, ts =>
    if nextKind ts = .eof then .ok [] ts
    else
      (do
        let first ← statement frames
        let others ← statementsFuel frames fuel
        return first :: others) ts

def program : (frames : Nat) → Parse α (Node α)
  | 0 => throw .tooDeep
  | frames + 1 => do
    let statements ← fun ts => statementsFuel frames ts.length ts
    return Node.program statements

/-- The number of procedure calls that may be open at once. -/
def frameLimit : Nat := 1000

end Parser

def closeTokens {α : Type} (ts : List (Token α)) : List (Token α) :=
  match ts.getLast? with
  | none => [⟨.eof, 0⟩]
  | some t => if t.kind = .eof then ts else ts ++ [⟨.eof, t.position + 1⟩]

def ParseCause.message (found : String) : ParseCause → String
  | .expected kind context => s!"Expected {kind.name} {context}, got {found}"
  | .startOfStatement => s!"Unexpected {found} at start of statement"
  | .afterIdentifier name => s!"Expected '=' or '(' after identifier '{name}', got {found}"
  | .inExpression => s!"Unexpected {found} in expression"

def ParseFault.message (f : ParseFault Float) : String :=
  f.cause.message ((f.found.map Token.describe).getD "end of input")

def ParseFault.position {α : Type} (f : ParseFault α) : Int :=
  (f.found.map Token.position).getD (-1)

def tooDeepMessage : String := "Expression nested too deeply"

def parse (ts : List (Token Float)) : Node Float :=
  match Parser.program Parser.frameLimit (closeTokens ts) with
  | .ok tree _ => tree
  | .error (.fault f) _ => .error f.message f.position
  | .error .tooDeep rest => .error tooDeepMessage ((rest.head?.map Token.position).getD (-1))

end Posterior
