import Posterior.Sampler

/-!
Importance sampling: every run that does not fail is stored and weighted by its probability. The weights
are scaled to sum to one when the last run is done.
-/

set_option autoImplicit false

namespace Posterior

structure Importance (α : Type) extends Sampler α where
  weights : Array α := #[]
  normalized : Array α := #[]
  effectiveSize : α

structure ImportanceSummary (α : Type) where
  effectiveSize : α
  ratio : α
  phase : Phase
  failures : Nat
  deriving Repr

namespace Importance

variable {α : Type} [Arithmetic α]

def settle (s : Importance α) : Option (Result α) → Importance α
  | none => s
  | some result =>
    { s with
      toSampler := s.toSampler.keep result
      weights := s.weights.push (Weights.raw result.totalLogProb) }

def progress (done wanted : Nat) : List (Event α) :=
  if done % progressInterval = 0 then [.generated done wanted] else []

def loop (wanted : Nat) : (left : Nat) → Importance α → Array (Event α) →
    Except (Halt α) Unit × Importance α × Array (Event α)
  | 0, s, events => (.ok (), s, events)
  | left + 1, s, events =>
    match s.toSampler.attempt with
    | ⟨.error halt, sampler, more⟩ =>
      (.error halt, { s with toSampler := sampler }, events ++ more)
    | ⟨.ok result, sampler, more⟩ =>
      let due : List (Event α) := progress (wanted - left) wanted
      loop wanted left ({ s with toSampler := sampler }.settle result) (events ++ more ++ due)

def restart (s : Importance α) : Importance α :=
  { s with toSampler := s.toSampler.begin, weights := #[], normalized := #[] }

def ratio (s : Importance α) : α := s.effectiveSize / Arithmetic.ofNat s.samples.size

def summary (s : Importance α) : ImportanceSummary α :=
  { effectiveSize := s.effectiveSize
    ratio := s.ratio
    phase := s.phase
    failures := s.failures }

def conclude (s : Importance α) (wanted : Nat) (events : List (Event α)) :
    Report α (Importance α) (ImportanceSummary α) :=
  if s.samples.isEmpty then
    ⟨.error (.allFailed wanted), { s with phase := .idle }, events⟩
  else
    match Weights.normalize s.logProbabilities.toList with
    | none => ⟨.error .zeroWeight, s, events⟩
    | some normalized =>
      let s := { s with
        normalized := normalized.toArray
        effectiveSize := Weights.effectiveSize normalized
        phase := .completed }
      ⟨.ok s.summary, s,
        events ++ [.importanceCompleted s.samples.size s.effectiveSize s.ratio]⟩

def collect (s : Importance α) (wanted : Nat) : Report α (Importance α) (ImportanceSummary α) :=
  match loop wanted wanted s.restart #[.importanceStarted wanted] with
  | (.error halt, s, events) => ⟨.error (.halted halt), s, events.toList⟩
  | (.ok (), s, events) => s.conclude wanted events.toList

def run (s : Importance α) (samples : Argument α) :
    Report α (Importance α) (ImportanceSummary α) :=
  match samples.count? with
  | none => ⟨.error (.badCount "num_samples" samples), s, []⟩
  | some wanted => s.collect wanted

/-- The values of a variable with the normalized weights of their samples; none if a weight is
missing. -/
def weighted? (s : Importance α) (name : String) : Option (List (α × α)) :=
  (s.samples.toList.zipIdx.filterMap fun p =>
      (p.1.bindings.get? name).map fun x => (x, s.normalized[p.2]?)).mapM
    fun p => p.2.map fun w => (p.1, w)

def rescale (ps : List (α × α)) : List (α × α) :=
  (ps.map Prod.fst).zip (Weights.scale (ps.map Prod.snd))

/-- The weighted summary of a variable over the samples that bind it. The outer value is missing if a
sample has no weight, the inner one if no sample binds the variable. -/
def weightedStatistics? (s : Importance α) (name : String) : Option (Option (Statistics α)) :=
  (s.weighted? name).map fun ps =>
    Statistics.ofWeighted (if ps.length < s.samples.size then rescale ps else ps)

end Importance

end Posterior
