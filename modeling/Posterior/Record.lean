import Posterior.Evaluation.Message
import Posterior.Sampler.Algorithm
import Posterior.Text.Json

set_option autoImplicit false

namespace Posterior

structure Record (α : Type) where
  algorithm : String
  samples : List (Result α)
  logProbabilities : List α
  deriving Repr

def Record.size {α : Type} (r : Record α) : Nat := r.samples.length

def Algorithm.record {α : Type} (a : Algorithm α) : Record α :=
  { algorithm := a.name
    samples := a.sampler.samples.toList
    logProbabilities := a.sampler.logProbabilities.toList }

namespace Record

open Text

def number (x : Float) : Json :=
  match Decimal.Reading.ofFloat x with
  | .nan => .numeral "NaN"
  | .infinite negative => .numeral (if negative then "-Infinity" else "Infinity")
  | .finite .. => .numeral (full x)

def lastValue : Option (Value Float) → Json
  | none => .null
  | some (.number x) => number x
  | some (.distribution d) => .string d.form

def observation (o : Observation Float) : Json :=
  .object [("value", number o.value), ("distribution", .string o.family.name),
    ("logProb", number o.logProb)]

def sample (r : Result Float) : Json :=
  .object [("lastValue", lastValue r.lastValue),
    ("variables", .object (r.bindings.map fun entry => (entry.1, number entry.2))),
    ("totalLogProb", number r.totalLogProb),
    ("observations", .array (r.observations.map observation))]

def toJson (r : Record Float) : Json :=
  .object [("algorithm", .string r.algorithm), ("numSamples", .numeral (toString r.size)),
    ("samples", .array (r.samples.map sample)),
    ("logProbabilities", .array (r.logProbabilities.map number))]

def text (r : Record Float) : String := r.toJson.write 0

end Record

end Posterior
