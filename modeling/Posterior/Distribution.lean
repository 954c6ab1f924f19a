import Posterior.Arithmetic

set_option autoImplicit false

namespace Posterior

inductive Family where
  | normal
  | uniform
  | bernoulli
  | exponential
  deriving DecidableEq, Repr

structure Signature where
  name : String
  arity : Nat
  deriving DecidableEq, Repr

def Signature.abstract : Signature := ⟨"distribution", 0⟩

namespace Family

def signature : Family → Signature
  | .normal => ⟨"normal", 2⟩
  | .uniform => ⟨"uniform", 2⟩
  | .bernoulli => ⟨"bernoulli", 1⟩
  | .exponential => ⟨"exponential", 1⟩

def name (f : Family) : String := f.signature.name

def arity (f : Family) : Nat := f.signature.arity

def all : List Family := [.normal, .uniform, .bernoulli, .exponential]

def ofName? (name : String) : Option Family :=
  all.find? (·.name == name)

theorem ofName?_name (f : Family) : ofName? f.name = some f := by
  cases f <;> decide

theorem name_of_ofName? {name : String} {f : Family} (h : ofName? name = some f) : f.name = name := by
  simpa using List.find?_some h

end Family

inductive ParameterFault (α : Type) where
  | count (signature : Signature) (got : Nat)
  | notFinite (name : String) (value : α)
  | deviation (value : α)
  | bounds (low high : α)
  | chance (value : α)
  | rate (value : α)
  deriving Repr

inductive Distribution (α : Type) where
  | normal (mean deviation : α)
  | uniform (low high : α)
  | bernoulli (chance : α)
  | exponential (rate : α)
  deriving Repr

inductive NumericFault where
  | overflow
  | divisionByZero
  deriving DecidableEq, Repr

variable {α : Type}

def Family.shape? : Family → List α → Option (Distribution α)
  | .normal, [mean, deviation] => some (.normal mean deviation)
  | .uniform, [low, high] => some (.uniform low high)
  | .bernoulli, [chance] => some (.bernoulli chance)
  | .exponential, [rate] => some (.exponential rate)
  | _, _ => none

def Distribution.family : Distribution α → Family
  | .normal .. => .normal
  | .uniform .. => .uniform
  | .bernoulli _ => .bernoulli
  | .exponential _ => .exponential

def Distribution.params : Distribution α → List α
  | .normal mean deviation => [mean, deviation]
  | .uniform low high => [low, high]
  | .bernoulli chance => [chance]
  | .exponential rate => [rate]

theorem Family.shape?_params (d : Distribution α) : d.family.shape? d.params = some d := by
  cases d <;> rfl

theorem Family.exists_shape? {f : Family} {params : List α} (h : params.length = f.arity) :
    ∃ d, f.shape? params = some d ∧ d.family = f ∧ d.params = params := by
  match f, params, h with
  | .normal, [mean, deviation], _ => exact ⟨.normal mean deviation, rfl, rfl, rfl⟩
  | .uniform, [low, high], _ => exact ⟨.uniform low high, rfl, rfl, rfl⟩
  | .bernoulli, [chance], _ => exact ⟨.bernoulli chance, rfl, rfl, rfl⟩
  | .exponential, [rate], _ => exact ⟨.exponential rate, rfl, rfl, rfl⟩

variable [Arithmetic α]

open Arithmetic

def Signature.fault? (s : Signature) (params : List α) : Option (ParameterFault α) :=
  if params.length ≠ s.arity then some (.count s params.length)
  else (params.find? fun p => !isFinite p).map (.notFinite s.name)

namespace Family

def rangeFault? : Family → List α → Option (ParameterFault α)
  | .normal, [_, deviation] => if lt zero deviation then none else some (.deviation deviation)
  | .uniform, [low, high] => if lt low high then none else some (.bounds low high)
  | .bernoulli, [chance] => if le zero chance && le chance one then none else some (.chance chance)
  | .exponential, [rate] => if lt zero rate then none else some (.rate rate)
  | _, _ => none

def fault? (f : Family) (params : List α) : Option (ParameterFault α) :=
  (f.signature.fault? params).or (f.rangeFault? params)

def make (f : Family) (params : List α) : Except (ParameterFault α) (Distribution α) :=
  match f.fault? params with
  | some fault => .error fault
  | none =>
    match f.shape? params with
    | some d => .ok d
    | none => .error (.count f.signature params.length)

theorem length_of_fault? {f : Family} {params : List α} (h : f.fault? params = none) :
    params.length = f.arity := by
  by_cases hl : params.length = f.signature.arity
  · exact hl
  · simp [fault?, Signature.fault?, hl] at h

theorem make_cases (f : Family) (params : List α) :
    (∃ d, f.make params = .ok d ∧ d.family = f ∧ d.params = params ∧ f.fault? params = none) ∨
      ∃ fault, f.make params = .error fault ∧ f.fault? params = some fault := by
  unfold make
  cases h : f.fault? params with
  | some fault => exact .inr ⟨fault, rfl, rfl⟩
  | none =>
    obtain ⟨d, hd, hf, hp⟩ := exists_shape? (length_of_fault? h)
    rw [hd]
    exact .inl ⟨d, rfl, hf, hp, rfl⟩

end Family

namespace Distribution

def checked (d : Distribution α) : Except (ParameterFault α) (Distribution α) :=
  match d.family.fault? d.params with
  | some fault => .error fault
  | none => .ok d

def same (d e : Distribution α) : Bool :=
  d.family == e.family && (d.params.zip e.params).all fun p => eq p.1 p.2

def logChance (p : α) : α := if lt zero p then log p else negInf

def logProb : Distribution α → α → α
  | .normal mean deviation, x =>
    let z := (x - mean) / deviation
    let peak := -half * log (ofNat 2 * pi) - log deviation
    peak - half * z * z
  | .uniform low high, x =>
    if le low x && le x high then -log (high - low) else negInf
  | .bernoulli chance, x =>
    if eq x one then logChance chance
    else if eq x zero then logChance (one - chance)
    else negInf
  | .exponential rate, x =>
    if lt x zero then negInf else log rate - rate * x

def canSample : Distribution α → Bool
  | .uniform low high => isFinite (high - low)
  | .normal .. | .bernoulli _ | .exponential _ => true

/-- The sample that a unit draw gives: a standard normal, a uniform on the unit interval, or an
exponential of rate one. -/
def sample : Distribution α → (draw : α) → α
  | .normal mean deviation, draw => mean + deviation * draw
  | .uniform low high, draw => low + (high - low) * draw
  | .bernoulli chance, draw => if lt draw chance then one else zero
  | .exponential rate, draw => one / rate * draw

def mean : Distribution α → α
  | .normal mean _ => mean
  | .uniform low high => (low + high) / ofNat 2
  | .bernoulli chance => chance
  | .exponential rate => one / rate

/-- The square of a number; a finite one may not leave the finite numbers. -/
def squared (x : α) : Except NumericFault α :=
  if isFinite x && !isFinite (square x) then .error .overflow else .ok (square x)

def variance : Distribution α → Except NumericFault α
  | .normal _ deviation => squared deviation
  | .uniform low high => (squared (high - low)).map (· / ofNat 12)
  | .bernoulli chance => .ok (chance * (one - chance))
  | .exponential rate =>
    match squared rate with
    | .error fault => .error fault
    | .ok s => if eq s zero then .error .divisionByZero else .ok (one / s)

end Distribution

end Posterior
