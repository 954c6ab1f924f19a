import Posterior.Decimal.Shortest

set_option autoImplicit false

namespace Posterior.Decimal

structure Layout where
  significant : Option Nat
  positionalBelow : Int
  /-- Whether a positional number without a fraction keeps `.0`. -/
  keepsPoint : Bool

def Layout.general : Layout := ⟨some 6, 6, false⟩

def Layout.exact : Layout := ⟨none, 16, true⟩

def exponentText (e : Int) : List Char :=
  let ds := Nat.toDigits 10 e.natAbs
  'e' :: (if e < 0 then '-' else '+') :: (if ds.length < 2 then '0' :: ds else ds)

def positional (keepsPoint : Bool) (digits : List Char) (exponent : Int) : List Char :=
  if exponent < 0 then
    '0' :: '.' :: (List.replicate (-exponent - 1).toNat '0' ++ digits)
  else
    let whole := exponent.toNat + 1
    if digits.length ≤ whole then
      digits ++ List.replicate (whole - digits.length) '0' ++ (if keepsPoint then ['.', '0'] else [])
    else digits.take whole ++ '.' :: digits.drop whole

def scientific (digits : List Char) (exponent : Int) : List Char :=
  match digits with
  | [] => exponentText exponent
  | [d] => d :: exponentText exponent
  | d :: ds => d :: '.' :: ds ++ exponentText exponent

def Layout.magnitude (l : Layout) (b : Binary) : List Char :=
  if b.mantissa = 0 then positional l.keepsPoint ['0'] 0
  else
    let s := match l.significant with
      | some n => b.significant n
      | none => b.shortest
    let (digits, exponent) := s.digits
    if -4 ≤ exponent ∧ exponent < l.positionalBelow then positional l.keepsPoint digits exponent
    else scientific digits exponent

/-- A double under a layout. A NaN has no sign. -/
def Layout.write (l : Layout) (x : Float) : String :=
  match Reading.ofFloat x with
  | .nan => "nan"
  | .infinite negative => if negative then "-inf" else "inf"
  | .finite negative b => String.ofList ((if negative then ['-'] else []) ++ l.magnitude b)

def fixed (places : Nat) (x : Float) : String :=
  match Reading.ofFloat x with
  | .nan => "nan"
  | .infinite negative => if negative then "-inf" else "inf"
  | .finite negative b =>
    let ds := Nat.toDigits 10 (b.places places)
    let padded := List.replicate (places + 1 - ds.length) '0' ++ ds
    let whole := padded.length - places
    String.ofList ((if negative then ['-'] else []) ++ padded.take whole ++
      (if places = 0 then [] else '.' :: padded.drop whole))

end Posterior.Decimal
