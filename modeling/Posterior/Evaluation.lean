import Posterior.Generator
import Posterior.Node
import Posterior.Outline
import Posterior.Store

/-!
Evaluation of trees. Expressions yield numbers or distributions; an assignment binds a number; `sample`
takes a draw and `observe` scores a value. What was bound, scored and drawn before a failure stays.
-/

set_option autoImplicit false

namespace Posterior

inductive Value (α : Type) where
  | number (value : α)
  | distribution (distribution : Distribution α)
  deriving Repr

inductive Role where
  | leftOperand (op : String)
  | rightOperand (op : String)
  | argument (function : String)
  | observed
  | assigned (name : String)
  deriving DecidableEq, Repr

inductive Failure (α : Type) where
  | undefinedVariable (name : String)
  | notNumber (role : Role) (got : Distribution α)
  | notDistribution (function : String) (got : α)
  | argumentCount (function : String) (expected got : Nat)
  | parameters (fault : ParameterFault α)
  | unknownOperator (op : String)
  | unknownFunction (name : String)
  | unknownNode (type : NodeType)
  deriving Repr

/-- Why an evaluation ends without a value: the program fails, a sample is out of the range of numbers, or
the tree is too deep. Only the first is the program's own doing. -/
inductive Halt (α : Type) where
  | failure (failure : Failure α)
  | overflow
  | tooDeep
  deriving Repr

inductive MathFunction where
  | exp
  | log
  | sqrt
  | abs
  deriving DecidableEq, Repr

inductive Callee where
  | sample
  | observe
  | family (family : Family)
  | math (function : MathFunction)
  deriving DecidableEq, Repr

def MathFunction.ofName? : String → Option MathFunction
  | "exp" => some .exp
  | "log" => some .log
  | "sqrt" => some .sqrt
  | "abs" => some .abs
  | _ => none

def Callee.ofName? (name : String) : Option Callee :=
  if name = "sample" then some .sample
  else if name = "observe" then some .observe
  else match Family.ofName? name with
    | some f => some (.family f)
    | none => (MathFunction.ofName? name).map .math

theorem Callee.ofName?_cases {name : String} {c : Callee} (h : Callee.ofName? name = some c) :
    (name = "sample" ∧ c = .sample) ∨ (name = "observe" ∧ c = .observe) ∨
      (∃ f, name = Family.name f ∧ c = .family f) ∨
        ∃ f, MathFunction.ofName? name = some f ∧ c = .math f := by
  unfold Callee.ofName? at h
  split at h
  · next hn =>
    cases h
    exact .inl ⟨hn, rfl⟩
  · split at h
    · next hn =>
      cases h
      exact .inr (.inl ⟨hn, rfl⟩)
    · split at h
      · next f hf =>
        cases h
        exact .inr (.inr (.inl ⟨f, (Family.name_of_ofName? hf).symm, rfl⟩))
      · obtain ⟨f, hf, hc⟩ := Option.map_eq_some_iff.mp h
        exact .inr (.inr (.inr ⟨f, hf, hc.symm⟩))

theorem Callee.name_of_family {name : String} {f : Family}
    (h : Callee.ofName? name = some (.family f)) : name = f.name := by
  rcases ofName?_cases h with ⟨-, hc⟩ | ⟨-, hc⟩ | ⟨g, hn, hc⟩ | ⟨g, -, hc⟩ <;> cases hc
  exact hn

theorem Callee.name_of_sample {name : String} (h : Callee.ofName? name = some .sample) :
    name = "sample" := by
  rcases ofName?_cases h with ⟨hn, -⟩ | ⟨-, hc⟩ | ⟨f, -, hc⟩ | ⟨f, -, hc⟩
  · exact hn
  all_goals cases hc

theorem Callee.name_of_observe {name : String} (h : Callee.ofName? name = some .observe) :
    name = "observe" := by
  rcases ofName?_cases h with ⟨-, hc⟩ | ⟨hn, -⟩ | ⟨f, -, hc⟩ | ⟨f, -, hc⟩
  · cases hc
  · exact hn
  all_goals cases hc

structure Machine (α : Type) where
  store : Store α
  generator : Generator α

abbrev Eval (α β : Type) := EStateM (Halt α) (Machine α) β

namespace Eval

variable {α β : Type}

def fail (f : Failure α) : Eval α β := throw (.failure f)

def number (role : Role) : Value α → Eval α α
  | .number x => return x
  | .distribution d => fail (.notNumber role d)

def distribution (function : String) : Value α → Eval α (Distribution α)
  | .number x => fail (.notDistribution function x)
  | .distribution d => return d

def lookup (name : String) : Eval α α := do
  match (← get).store.bindings.get? name with
  | some x => return x
  | none => fail (.undefinedVariable name)

theorem lookup_eq (name : String) (m : Machine α) :
    lookup name m =
      match m.store.bindings.get? name with
      | some x => .ok x m
      | none => .error (.failure (.undefinedVariable name)) m := by
  change (match m.store.bindings.get? name with
    | some x => (pure x : Eval α α)
    | none => fail (.undefinedVariable name)) m = _
  cases m.store.bindings.get? name <;> rfl

variable [Arithmetic α]

def assign (name : String) (value : α) : Eval α Unit :=
  modify fun m => { m with store := m.store.assign name value }

def sample (d : Distribution α) : Eval α α := fun m =>
  match m.generator.sample d with
  | (some x, generator) => .ok x { m with generator }
  | (none, generator) => .error .overflow { m with generator }

def observe (value : α) (d : Distribution α) : Eval α α := do
  let logProb := d.logProb value
  modify fun m => { m with store := m.store.observe ⟨value, d.family, logProb⟩ }
  return logProb

end Eval

variable {α : Type} [Arithmetic α]

def MathFunction.apply : MathFunction → α → α
  | .exp => Arithmetic.exp
  | .log => Arithmetic.log
  | .sqrt => Arithmetic.sqrt
  | .abs => Arithmetic.abs

def operate (op : String) (x y : α) : Eval α α :=
  match op with
  | "+" => return x + y
  | "-" => return x - y
  | "*" => return x * y
  | "/" => return x / y
  | _ => Eval.fail (.unknownOperator op)

/-- The numbers that expressions yield, from left to right; `evaluate` gives their values. -/
def evaluateNumbers (evaluate : Node α → Eval α (Value α)) (role : Role) :
    List (Node α) → Eval α (List α)
  | [] => return []
  | n :: ns => do
    let x ← Eval.number role (← evaluate n)
    let xs ← evaluateNumbers evaluate role ns
    return x :: xs

def evaluateCall (evaluate : Node α → Eval α (Value α)) (name : String) (args : List (Node α)) :
    Eval α (Value α) :=
  match Callee.ofName? name with
  | none => Eval.fail (.unknownFunction name)
  | some .sample =>
    match args with
    | [source] => do
      let d ← Eval.distribution name (← evaluate source)
      return .number (← Eval.sample d)
    | _ => Eval.fail (.argumentCount name 1 args.length)
  | some .observe =>
    match args with
    | [point, source] => do
      let x ← Eval.number .observed (← evaluate point)
      let d ← Eval.distribution name (← evaluate source)
      return .number (← Eval.observe x d)
    | _ => Eval.fail (.argumentCount name 2 args.length)
  | some (.family f) => do
    let params ← evaluateNumbers evaluate (.argument name) args
    match f.make params with
    | .ok d => return .distribution d
    | .error fault => Eval.fail (.parameters fault)
  | some (.math f) =>
    match args with
    | [arg] => do
      let x ← Eval.number (.argument name) (← evaluate arg)
      return .number (f.apply x)
    | _ => Eval.fail (.argumentCount name 1 args.length)

def evaluate : (levels : Nat) → Node α → Eval α (Value α)
  | 0, _ => throw .tooDeep
  | levels + 1, n =>
    match n with
    | .number x => return .number x
    | .var name => return .number (← Eval.lookup name)
    | .binary op left right => do
      let x ← Eval.number (.leftOperand op) (← evaluate levels left)
      let y ← Eval.number (.rightOperand op) (← evaluate levels right)
      return .number (← operate op x y)
    | .call name args => evaluateCall (evaluate levels) name args
    | .assignment name expr => do
      let x ← Eval.number (.assigned name) (← evaluate levels expr)
      Eval.assign name x
      return .number x
    | .program _ | .error .. | .stray _ => Eval.fail (.unknownNode n.type)

def evaluateAll (last : Option (Value α)) : List (Node α) → Eval α (Option (Value α))
  | [] => return last
  | n :: ns => do
    let value ← evaluate maxDepth n
    evaluateAll (some value) ns

end Posterior
