import Posterior.Decimal.Layout
import Posterior.Evaluation
import Posterior.Text.Join

set_option autoImplicit false

namespace Posterior

open Decimal

def brief (x : Float) : String := Layout.general.write x

def full (x : Float) : String := Layout.exact.write x

def Distribution.form (d : Distribution Float) : String :=
  d.family.name ++ "(" ++ Text.join ", " (d.params.map brief) ++ ")"

def countMessage (name : String) (expected got : Nat) : String :=
  s!"{name} expects {expected} argument(s), got {got}"

def ParameterFault.message : ParameterFault Float → String
  | .count signature got => countMessage signature.name signature.arity got
  | .notFinite name value => s!"{name} parameters must be finite, got {brief value}"
  | .deviation value => s!"normal stddev must be > 0, got {brief value}"
  | .bounds low high => s!"uniform requires min < max, got min={brief low}, max={brief high}"
  | .chance value => s!"bernoulli p must be in [0, 1], got {brief value}"
  | .rate value => s!"exponential lambda must be > 0, got {brief value}"

def Role.text : Role → String
  | .leftOperand op => s!"left operand of '{op}'"
  | .rightOperand op => s!"right operand of '{op}'"
  | .argument function => s!"argument to {function}"
  | .observed => "observed value"
  | .assigned name => s!"value assigned to '{name}'"

def Failure.message : Failure Float → String
  | .undefinedVariable name => s!"Undefined variable '{name}'"
  | .notNumber role got => s!"Expected a number for {role.text}, got distribution {got.form}"
  | .notDistribution function got => s!"{function} expects a distribution, got {full got}"
  | .argumentCount function expected got => countMessage function expected got
  | .parameters fault => fault.message
  | .unknownOperator op => s!"Unknown operator '{op}'"
  | .unknownFunction name => s!"Unknown function '{name}'"
  | .unknownNode type => s!"Unknown node type {type.name}"

end Posterior
