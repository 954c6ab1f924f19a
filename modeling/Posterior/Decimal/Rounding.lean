import Posterior.Decimal.Binary

set_option autoImplicit false

namespace Posterior.Decimal

def roundDiv (num den : Nat) : Nat :=
  let below := num / den
  let twice := 2 * (num % den)
  if twice < den then below
  else if den < twice then below + 1
  else below + below % 2

def digitCount (n : Nat) : Nat :=
  (Nat.toDigits 10 n).length

def leadingExponent (num den : Nat) : Int :=
  if den ≤ num then (digitCount (num / den) : Int) - 1
  else -(digitCount ((den - 1) / num) : Int)

structure Scaled where
  coefficient : Nat
  exponent : Int
  deriving DecidableEq, Repr

def inUnits (num den : Nat) (unit : Int) : Nat × Nat :=
  (num * Nat.pow 10 (-unit).toNat, den * Nat.pow 10 unit.toNat)

def Binary.significant (b : Binary) (count : Nat) : Scaled :=
  let unit := leadingExponent b.numerator b.denominator - ((count : Int) - 1)
  let q := inUnits b.numerator b.denominator unit
  ⟨roundDiv q.1 q.2, unit⟩

def Binary.places (b : Binary) (places : Nat) : Nat :=
  roundDiv (b.numerator * Nat.pow 10 places) b.denominator

def Scaled.trim : (fuel : Nat) → Scaled → Scaled
  | 0, s => s
  | fuel + 1, s =>
    if s.coefficient % 10 = 0 then Scaled.trim fuel ⟨s.coefficient / 10, s.exponent + 1⟩ else s

def Scaled.digits (s : Scaled) : List Char × Int :=
  let t := s.trim (digitCount s.coefficient - 1)
  let ds := Nat.toDigits 10 t.coefficient
  (ds, t.exponent + ds.length - 1)

end Posterior.Decimal
