import Posterior.Sampler.Importance
import Posterior.Sampler.Rejection

set_option autoImplicit false

namespace Posterior

/-- A sampler with its method. The plain one stores samples but has no way to make them. -/
inductive Algorithm (α : Type) where
  | plain (sampler : Sampler α)
  | rejection (sampler : Rejection α)
  | importance (sampler : Importance α)

namespace Algorithm

variable {α : Type} [Arithmetic α]

def name : Algorithm α → String
  | .plain _ => "InferenceAlgorithm"
  | .rejection _ => "RejectionSampling"
  | .importance _ => "ImportanceSampling"

def sampler : Algorithm α → Sampler α
  | .plain s => s
  | .rejection r => r.toSampler
  | .importance s => s.toSampler

def withSampler (a : Algorithm α) (s : Sampler α) : Algorithm α :=
  match a with
  | .plain _ => .plain s
  | .rejection r => .rejection { r with toSampler := s }
  | .importance i => .importance { i with toSampler := s }

def withCondition (a : Algorithm α) (c : Condition α) : Algorithm α :=
  match a with
  | .rejection r => .rejection { r with condition := some c.criterion }
  | .plain s => .plain s
  | .importance s => .importance s

def withPolicy (a : Algorithm α) (p : Policy) : Algorithm α :=
  a.withSampler { a.sampler with policy := p }

end Algorithm

end Posterior
