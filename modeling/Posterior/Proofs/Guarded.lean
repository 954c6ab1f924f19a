import Posterior.Arithmetic

/-!
Numbers of which some are missing: there is no logarithm of what is not above zero and no quotient by zero, and
what is computed from a missing number is missing. All else is as in the arithmetic underneath. That a number is
there tells that its computation came to no such logarithm or quotient.
-/

set_option autoImplicit false

namespace Posterior

inductive Guarded (α : Type) where
  | number (x : α)
  | missing

namespace Guarded

section

variable {α : Type}

def map (f : α → α) : Guarded α → Guarded α
  | number x => number (f x)
  | missing => missing

def map₂ (f : α → α → α) : Guarded α → Guarded α → Guarded α
  | number x, number y => number (f x y)
  | _, _ => missing

def compare (p : α → α → Bool) : Guarded α → Guarded α → Bool
  | number x, number y => p x y
  | _, _ => false

end

variable {α : Type} [Arithmetic α]

open Arithmetic

instance : Arithmetic (Guarded α) where
  add := map₂ (· + ·)
  sub := map₂ (· - ·)
  mul := map₂ (· * ·)
  neg := map (- ·)
  div x y := if compare eq y (number zero) then missing else map₂ (· / ·) x y
  ofDecimal digits places := number (ofDecimal digits places)
  pi := number pi
  negInf := number negInf
  exp := map exp
  log x := if compare lt (number zero) x then map log x else missing
  sqrt := map sqrt
  abs := map abs
  square := map square
  lt := compare lt
  le := compare le
  eq := compare eq
  isFinite
    | number x => isFinite x
    | missing => false

variable {x y : α}

theorem number_div (h : eq y zero = false) : number x / number y = number (x / y) := by
  change (if eq y zero = true then missing else number (x / y)) = _
  rw [h]
  rfl

theorem log_number (h : lt zero x = true) : log (number x) = number (log x) := if_pos h

end Guarded

end Posterior
