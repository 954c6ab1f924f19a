import Posterior.Evaluation.Message
import Posterior.Sampler
import Posterior.Text.Join
import Posterior.Text.Quoted

set_option autoImplicit false

namespace Posterior

inductive Level where
  | debug
  | info
  | warning
  deriving DecidableEq, Repr

def Level.name : Level → String
  | .debug => "DEBUG"
  | .info => "INFO"
  | .warning => "WARNING"

def Event.level {α : Type} : Event α → Level
  | .ran .. => .debug
  | .skipped _ | .budgetExhausted .. => .warning
  | .rejectionStarted _ | .attempted .. | .rejectionCompleted .. | .importanceStarted _
  | .generated .. | .importanceCompleted .. => .info

def percent (share : Float) : String := Decimal.fixed 2 (share * 100) ++ "%"

def Event.text : Event Float → String
  | .ran statements total =>
    s!"Run finished: {statements} statement(s), total log prob {brief total}"
  | .skipped failure => s!"Skipping failed run: {failure.message}"
  | .rejectionStarted wanted => s!"Starting rejection sampling to collect {wanted} samples..."
  | .attempted attempts accepted => s!"Attempts: {attempts}, Accepted: {accepted}"
  | .rejectionCompleted attempts accepted rate =>
    s!"Rejection sampling completed: attempts={attempts} accepted={accepted} "
      ++ s!"acceptance rate={percent rate}"
  | .budgetExhausted budget accepted wanted =>
    s!"Attempt budget of {budget} exhausted with {accepted}/{wanted} samples accepted"
  | .importanceStarted wanted => s!"Starting importance sampling to collect {wanted} samples..."
  | .generated done wanted => s!"Generated {done}/{wanted} samples"
  | .importanceCompleted samples effectiveSize ratio =>
    s!"Importance sampling completed: samples={samples} "
      ++ s!"effective sample size={Decimal.fixed 2 effectiveSize} ESS ratio={percent ratio}"

def Event.line (e : Event Float) : String := e.level.name ++ " " ++ e.text

mutual

def Argument.form : Argument Float → String
  | .missing => "None"
  | .boolean value => if value then "True" else "False"
  | .integer value => toString value
  | .number value => full value
  | .text value => Text.quoted value
  | .list items => "[" ++ Text.join ", " (Argument.forms items) ++ "]"
  | .table entries => "\x7b" ++ Text.join ", " (Argument.entryForms entries) ++ "\x7d"

def Argument.forms : List (Argument Float) → List String
  | [] => []
  | a :: rest => a.form :: Argument.forms rest

def Argument.entryForms : List (String × Argument Float) → List String
  | [] => []
  | (key, a) :: rest => (Text.quoted key ++ ": " ++ a.form) :: Argument.entryForms rest

end

def SamplingFault.message : SamplingFault Float → String
  | .badPolicy got => s!"on_error must be one of ('raise', 'skip'), got {got.form}"
  | .badCount name got => s!"{name} must be a positive integer, got {got.form}"
  | .allFailed runs => s!"All {runs} runs failed"
  | .zeroWeight => "Every sample has zero weight (total log prob is -inf)"
  | .halted (.failure failure) => failure.message
  | .halted .overflow => "Sample out of the range of numbers"
  | .halted .tooDeep => "Tree nested too deeply"

end Posterior
