import Posterior.Bindings
import Posterior.Distribution

set_option autoImplicit false

namespace Posterior

structure Observation (α : Type) where
  value : α
  family : Family
  logProb : α
  deriving Repr

structure Store (α : Type) where
  bindings : Bindings α
  totalLogProb : α
  observations : List (Observation α)
  deriving Repr

namespace Store

variable {α : Type} [Arithmetic α]

def empty : Store α := ⟨[], Arithmetic.zero, []⟩

def assign (s : Store α) (name : String) (value : α) : Store α :=
  { s with bindings := s.bindings.set name value }

def observe (s : Store α) (o : Observation α) : Store α :=
  { s with
    totalLogProb := s.totalLogProb + o.logProb
    observations := s.observations ++ [o] }

end Store

end Posterior
