/-!
The arithmetic of the language. Trees, evaluation and statistics are written once over any number type
with these operations; doubles are what a program computes with.
-/

set_option autoImplicit false

namespace Posterior

/-- The operations a program and the statistics of its runs use. Comparisons answer `false` where one side
is not a number, so they are given apart from any order. -/
class Arithmetic (α : Type) extends Add α, Sub α, Mul α, Div α, Neg α where
  /-- The number nearest to `digits / 10 ^ places`. -/
  ofDecimal : (digits places : Nat) → α
  pi : α
  /-- The logarithm of zero: below every number. -/
  negInf : α
  exp : α → α
  log : α → α
  sqrt : α → α
  abs : α → α
  square : α → α
  lt : α → α → Bool
  le : α → α → Bool
  eq : α → α → Bool
  isFinite : α → Bool

namespace Arithmetic

variable {α : Type} [Arithmetic α]

def ofNat (n : Nat) : α := ofDecimal n 0

def zero : α := ofNat 0

def one : α := ofNat 1

def half : α := ofDecimal 5 1

def isNaN (x : α) : Bool := !eq x x

def sum (xs : List α) : α := xs.foldl (· + ·) zero

def max (x y : α) : α := if isNaN x || le y x then x else y

def min (x y : α) : α := if isNaN x || le x y then x else y

def maximum : List α → Option α
  | [] => none
  | x :: xs => some (xs.foldl max x)

def minimum : List α → Option α
  | [] => none
  | x :: xs => some (xs.foldl min x)

end Arithmetic

instance : Arithmetic Float where
  ofDecimal digits places := Float.ofScientific digits true places
  pi := 3.141592653589793
  negInf := -1 / 0
  exp := Float.exp
  log := Float.log
  sqrt := Float.sqrt
  abs := Float.abs
  square x := x ^ (2 : Float)
  lt x y := decide (x < y)
  le x y := decide (x ≤ y)
  eq x y := x == y
  isFinite := Float.isFinite

end Posterior
