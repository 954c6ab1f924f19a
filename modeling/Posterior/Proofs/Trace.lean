import Posterior.Interpreter

/-!
The draws a run takes and the observations it records, in the order it does so. A node acts once its subtrees
have, from left to right; a run that fails has come so far in this order and no further.
-/

set_option autoImplicit false

namespace Posterior

variable {α : Type}

namespace Node

mutual

def postorder : Node α → List (Node α)
  | .binary op left right => left.postorder ++ right.postorder ++ [.binary op left right]
  | .call name args => postorderAll args ++ [.call name args]
  | .assignment name expr => expr.postorder ++ [.assignment name expr]
  | .program statements => postorderAll statements ++ [.program statements]
  | .number value => [.number value]
  | .var name => [.var name]
  | .error message position => [.error message position]
  | .stray text => [.stray text]

def postorderAll : List (Node α) → List (Node α)
  | [] => []
  | n :: ns => n.postorder ++ postorderAll ns

end

theorem postorder_eq (n : Node α) : n.postorder = postorderAll n.children ++ [n] := by
  cases n <;> simp [postorder, postorderAll, children]

def isObserveCall : Node α → Bool
  | .call name _ => name == "observe"
  | _ => false

def sampleCalls (ns : List (Node α)) : List (Node α) := (postorderAll ns).filter isSampleCall

def observeCalls (ns : List (Node α)) : List (Node α) := (postorderAll ns).filter isObserveCall

end Node

/-- What the rest of a run can see of a call: a draw it takes, by number, or an observation it records. -/
inductive Effect (α : Type) where
  | draw (args : List (Node α)) (index : Nat)
  | score (args : List (Node α)) (observation : Observation α)

namespace Effect

def call : Effect α → Node α
  | .draw args _ => .call "sample" args
  | .score args _ => .call "observe" args

def draws (es : List (Effect α)) : List (Node α × Nat) :=
  es.filterMap fun e => match e with
    | .draw args index => some (.call "sample" args, index)
    | .score .. => none

def scores (es : List (Effect α)) : List (Node α × Observation α) :=
  es.filterMap fun e => match e with
    | .score args o => some (.call "observe" args, o)
    | .draw .. => none

end Effect

variable [Arithmetic α]

inductive Acts :
    Node α → List (Value α) → Machine α → List (Effect α) → Value α → Machine α → Prop where
  | number (x : α) (m : Machine α) : Acts (.number x) [] m [] (.number x) m
  | var {name : String} {x : α} {m : Machine α} (h : m.store.bindings.get? name = some x) :
      Acts (.var name) [] m [] (.number x) m
  | binary {op : String} {left right : Node α} {x y z : α} {m : Machine α}
      (h : operate op x y m = .ok z m) :
      Acts (.binary op left right) [.number x, .number y] m [] (.number z) m
  | assignment (name : String) (expr : Node α) (x : α) (m : Machine α) :
      Acts (.assignment name expr) [.number x] m [] (.number x)
        { m with store := m.store.assign name x }
  | sample {args : List (Node α)} {d : Distribution α} {m : Machine α} (h : d.canSample = true) :
      Acts (.call "sample" args) [.distribution d] m [.draw args m.generator.used]
        (.number (d.sample (m.generator.stream m.generator.used)))
        { m with generator := { m.generator with used := m.generator.used + 1 } }
  | observe (args : List (Node α)) (x : α) (d : Distribution α) (m : Machine α) :
      Acts (.call "observe" args) [.number x, .distribution d] m
        [.score args ⟨x, d.family, d.logProb x⟩] (.number (d.logProb x))
        { m with store := m.store.observe ⟨x, d.family, d.logProb x⟩ }
  | family {f : Family} {args : List (Node α)} {params : List α} {d : Distribution α} {m : Machine α}
      (h : f.make params = .ok d) :
      Acts (.call f.name args) (params.map .number) m [] (.distribution d) m
  | math {name : String} {f : MathFunction} {args : List (Node α)} {x : α} {m : Machine α}
      (h : Callee.ofName? name = some (.math f)) :
      Acts (.call name args) [.number x] m [] (.number (f.apply x)) m

/-- Trees that are evaluated one after the other, with the values they yield. -/
inductive Performs :
    List (Node α) → Machine α → List (Effect α) → List (Value α) → Machine α → Prop where
  | nil (m : Machine α) : Performs [] m [] [] m
  | cons {n : Node α} {ns : List (Node α)} {m m₁ m₂ m' : Machine α} {es fs gs : List (Effect α)}
      {vs ws : List (Value α)} {v : Value α} (hc : Performs n.children m es vs m₁)
      (ha : Acts n vs m₁ fs v m₂) (hs : Performs ns m₂ gs ws m') :
      Performs (n :: ns) m (es ++ (fs ++ gs)) (v :: ws) m'

/-- Trees whose evaluation goes no further than it is: none has been begun, or it stands within the first one
or behind it. -/
inductive Stops : List (Node α) → Machine α → List (Effect α) → Machine α → Prop where
  | here (ns : List (Node α)) (m : Machine α) : Stops ns m [] m
  | within {n : Node α} {ns : List (Node α)} {m m' : Machine α} {es : List (Effect α)}
      (hc : Stops n.children m es m') : Stops (n :: ns) m es m'
  | behind {n : Node α} {ns : List (Node α)} {m m₁ m₂ m' : Machine α} {es fs gs : List (Effect α)}
      {vs : List (Value α)} {v : Value α} (hc : Performs n.children m es vs m₁)
      (ha : Acts n vs m₁ fs v m₂) (hs : Stops ns m₂ gs m') : Stops (n :: ns) m (es ++ (fs ++ gs)) m'

/-- What effects make of a machine. Draws are numbered one after the other, and an observation is of the
family that its call names. -/
structure Records (m : Machine α) (es : List (Effect α)) (m' : Machine α) : Prop where
  numbered : Effect.draws es = ((Effect.draws es).map Prod.fst).zipIdx m.generator.used
  generator :
    m'.generator = { m.generator with used := m.generator.used + (Effect.draws es).length }
  observations : m'.store.observations = m.store.observations ++ (Effect.scores es).map Prod.snd
  families : ∀ s ∈ Effect.scores es,
    ∃ point args, s.1 = .call "observe" [point, .call s.2.family.name args]

structure Trace (ns : List (Node α)) (m : Machine α) (es : List (Effect α)) (m' : Machine α) : Prop
    extends Records m es m' where
  draws : (Effect.draws es).map Prod.fst <+: Node.sampleCalls ns
  scores : (Effect.scores es).map Prod.fst <+: Node.observeCalls ns

end Posterior
