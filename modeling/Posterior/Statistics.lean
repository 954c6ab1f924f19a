import Posterior.Arithmetic

set_option autoImplicit false

namespace Posterior

structure Statistics (α : Type) where
  mean : α
  stdDev : α
  min : α
  max : α
  deriving Repr

namespace Weights

variable {α : Type} [Arithmetic α]

open Arithmetic

def raw (logProb : α) : α := exp logProb

def scale (ws : List α) : List α :=
  let total := sum ws
  ws.map (· / total)

/-- The weights of runs with the given log-probabilities, scaled to sum to one. The greatest is taken off
first, which changes no quotient and keeps it from vanishing. There are none if every weight is zero. -/
def normalize (logProbs : List α) : Option (List α) :=
  match maximum logProbs with
  | none => none
  | some top =>
    if eq top negInf then none else some (scale (logProbs.map fun lp => exp (lp - top)))

def effectiveSize (ws : List α) : α := one / sum (ws.map fun w => w * w)

end Weights

namespace Statistics

variable {α : Type} [Arithmetic α]

open Arithmetic

def average (xs : List α) : α := sum xs / ofNat xs.length

def ofValues (xs : List α) : Option (Statistics α) :=
  match minimum xs, maximum xs with
  | some least, some greatest =>
    let mean := average xs
    let variance := average (xs.map fun x => (x - mean) * (x - mean))
    some ⟨mean, sqrt variance, least, greatest⟩
  | _, _ => none

def weightedMean (ps : List (α × α)) : α := sum (ps.map fun p => p.1 * p.2)

def weightedSpread (center : α) (ps : List (α × α)) : α :=
  sum (ps.map fun p => (p.1 - center) * (p.1 - center) * p.2)

/-- The summary of values, each paired with its weight; the range takes no account of weights. -/
def ofWeighted (ps : List (α × α)) : Option (Statistics α) :=
  match minimum (ps.map Prod.fst), maximum (ps.map Prod.fst) with
  | some least, some greatest =>
    let mean := weightedMean ps
    some ⟨mean, sqrt (weightedSpread mean ps), least, greatest⟩
  | _, _ => none

end Statistics

end Posterior
