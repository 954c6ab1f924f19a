import Posterior.Arithmetic
import Posterior.Bindings
import Posterior.Text.Blank
import Posterior.Text.DecimalDigit
import Posterior.Text.WordChar

/-!
Conditions on the variables of a run, such as `height>170`: a name, a comparison and a number, with blanks
around each. A run that does not bind the name does not meet the condition.
-/

set_option autoImplicit false

namespace Posterior

inductive Comparison where
  | greater
  | less
  | atLeast
  | atMost
  | equal
  deriving DecidableEq, Repr

structure Condition (α : Type) where
  name : String
  comparison : Comparison
  threshold : α
  deriving Repr

namespace Condition

open Text

def skipBlanks (cs : List Char) : List Char := cs.dropWhile isBlank

def readName : List Char → Option (List Char × List Char)
  | [] => none
  | c :: cs =>
    if c.isAlpha || c == '_' then some (c :: cs.takeWhile isWordChar, cs.dropWhile isWordChar)
    else none

def readComparison : List Char → Option (Comparison × List Char)
  | '>' :: '=' :: cs => some (.atLeast, cs)
  | '<' :: '=' :: cs => some (.atMost, cs)
  | '=' :: '=' :: cs => some (.equal, cs)
  | '>' :: cs => some (.greater, cs)
  | '<' :: cs => some (.less, cs)
  | '=' :: cs => some (.equal, cs)
  | _ => none

def spanDigits : List Char → List Nat × List Char
  | [] => ([], [])
  | c :: cs =>
    match digitValue? c with
    | some d =>
      let (ds, rest) := spanDigits cs
      (d :: ds, rest)
    | none => ([], c :: cs)

def digitsValue (ds : List Nat) : Nat := ds.foldl (fun n d => 10 * n + d) 0

variable {α : Type} [Arithmetic α]

def readMagnitude (cs : List Char) : Option (α × List Char) :=
  match spanDigits cs with
  | ([], _) => none
  | (whole, '.' :: rest) =>
    match spanDigits rest with
    | ([], _) => none
    | (fraction, rest) =>
      some (Arithmetic.ofDecimal (digitsValue (whole ++ fraction)) fraction.length, rest)
  | (whole, rest) => some (Arithmetic.ofDecimal (digitsValue whole) 0, rest)

def readNumber : List Char → Option (α × List Char)
  | '-' :: cs => (readMagnitude cs).map fun p => (-p.1, p.2)
  | cs => readMagnitude cs

def readChars (cs : List Char) : Option (Condition α) := do
  let (name, rest) ← readName (skipBlanks cs)
  let (comparison, rest) ← readComparison (skipBlanks rest)
  let (threshold, rest) ← readNumber (skipBlanks rest)
  if (skipBlanks rest).isEmpty then some ⟨String.ofList name, comparison, threshold⟩ else none

def read? (text : String) : Option (Condition α) := readChars text.toList

def faultMessage (text : String) : String := s!"Invalid condition format: {text}"

end Condition

variable {α : Type} [Arithmetic α]

def Comparison.holds : Comparison → α → α → Bool
  | .greater, x, y => Arithmetic.lt y x
  | .less, x, y => Arithmetic.lt x y
  | .atLeast, x, y => Arithmetic.le y x
  | .atMost, x, y => Arithmetic.le x y
  | .equal, x, y => Arithmetic.eq x y

def Condition.accepts (c : Condition α) (bindings : Bindings α) : Bool :=
  match bindings.get? c.name with
  | some x => c.comparison.holds x c.threshold
  | none => false

end Posterior
