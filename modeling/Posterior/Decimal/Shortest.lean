import Posterior.Decimal.Rounding

/-!
The shortest decimal of a double: the fewest significant digits that read back as it, and of those the
nearest to it. A decimal reads back exactly when it lies between the midpoints to the neighbouring doubles;
the midpoints themselves count when the mantissa is even.
-/

set_option autoImplicit false

namespace Posterior.Decimal

/-- Whether `coefficient · 10 ^ exponent` reads back as the magnitude `b`. The bounds are kept in quarters
of a unit in the last place: the gap below a power of two is half as wide as the gap above. -/
def Binary.readsBack (b : Binary) (s : Scaled) : Bool :=
  let low := 4 * b.mantissa - (if b.mantissa = Nat.pow 2 52 ∧ b.exponent ≠ -1074 then 1 else 2)
  let high := 4 * b.mantissa + 2
  let quarter := b.exponent - 2
  let value := s.coefficient * Nat.pow 10 s.exponent.toNat * Nat.pow 2 (-quarter).toNat
  let scale := Nat.pow 2 quarter.toNat * Nat.pow 10 (-s.exponent).toNat
  if b.mantissa % 2 = 0 then low * scale ≤ value && value ≤ high * scale
  else low * scale < value && value < high * scale

/-- The decimals of `count` digits next to the magnitude, the nearer first. -/
def Binary.neighbours (b : Binary) (count : Nat) : List Scaled :=
  let unit := leadingExponent b.numerator b.denominator - ((count : Int) - 1)
  let q := inUnits b.numerator b.denominator unit
  [b.significant count, ⟨q.1 / q.2, unit⟩, ⟨q.1 / q.2 + 1, unit⟩]

def Binary.shortest (b : Binary) : Scaled :=
  ((List.range 17).findSome? fun n => (b.neighbours (n + 1)).find? b.readsBack).getD
    (b.significant 17)

end Posterior.Decimal
