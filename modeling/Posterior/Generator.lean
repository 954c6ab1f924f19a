import Posterior.Distribution

/-!
The source of randomness: an endless sequence of unit draws, read one by one. A run is a function of the
sequence it is given.
-/

set_option autoImplicit false

namespace Posterior

structure Generator (α : Type) where
  stream : Nat → α
  used : Nat := 0

namespace Generator

variable {α : Type}

def cycle (first : α) (others : Array α) : Generator α where
  stream n :=
    match n % (others.size + 1) with
    | 0 => first
    | k + 1 => others.getD k first

def next (g : Generator α) : α × Generator α :=
  (g.stream g.used, { g with used := g.used + 1 })

/-- A sample of a distribution. Where the distribution cannot be sampled no draw is taken. -/
def sample [Arithmetic α] (d : Distribution α) (g : Generator α) : Option α × Generator α :=
  if d.canSample then (some (d.sample g.next.1), g.next.2) else (none, g)

end Generator

end Posterior
