/-!
Sets of code points written as tables of ranges. A table is data of a standard; the rule that reads it
is one membership test.
-/

set_option autoImplicit false

namespace Posterior.Text

structure CodePoints where
  ranges : List (Nat × Nat)

def CodePoints.contains (s : CodePoints) (c : Char) : Bool :=
  s.ranges.any fun r => r.1 ≤ c.toNat && c.toNat ≤ r.2

theorem CodePoints.contains_iff (s : CodePoints) (c : Char) :
    s.contains c = true ↔ ∃ r ∈ s.ranges, r.1 ≤ c.toNat ∧ c.toNat ≤ r.2 := by
  simp [CodePoints.contains]

end Posterior.Text
