import Posterior.Proofs.Shape
import Posterior.Proofs.Trace

/-!
A run replayed without draws. The program of a replay is the one that was run, with each outermost call that
takes a draw replaced by the number it yielded; what stood in the arguments of such a call is gone with it.
-/

set_option autoImplicit false

namespace Posterior

variable {α : Type}

namespace Node

def withChildren : Node α → List (Node α) → Node α
  | .binary op _ _, [left, right] => .binary op left right
  | .call name _, args => .call name args
  | .assignment name _, [expr] => .assignment name expr
  | .program _, statements => .program statements
  | n, _ => n

theorem children_withChildren {n : Node α} {cs : List (Node α)}
    (h : cs.length = n.children.length) : (n.withChildren cs).children = cs := by
  cases n with
  | number | var | error | stray =>
    obtain rfl := List.length_eq_zero_iff.mp h
    rfl
  | binary op left right =>
    match cs, h with
    | [_, _], _ => rfl
  | assignment name expr =>
    match cs, h with
    | [_], _ => rfl
  | call | program => rfl

theorem type_withChildren (n : Node α) (cs : List (Node α)) : (n.withChildren cs).type = n.type := by
  unfold withChildren
  split <;> rfl

theorem isSampleCall_withChildren (n : Node α) (cs : List (Node α)) :
    (n.withChildren cs).isSampleCall = n.isSampleCall := by
  unfold withChildren
  split <;> rfl

def isAssignment : Node α → Bool
  | .assignment .. => true
  | _ => false

/-- No node of some sort stands within an argument of a call that takes a draw. -/
def DrawsApartFrom (sort : Node α → Bool) (ns : List (Node α)) : Prop :=
  ∀ n ∈ ns, ∀ args, Within (.call "sample" args) n → ∀ a ∈ args, ∀ c, Within c a → sort c = false

end Node

variable [Arithmetic α]

/-- Trees that are evaluated one after the other, and the trees of their replay: an outermost call that takes
a draw becomes the number it yields where evaluation comes to it, and all else stays. -/
inductive Replays :
    List (Node α) → Machine α → List (Node α) → List (Value α) → Machine α → Prop where
  | nil (m : Machine α) : Replays [] m [] [] m
  | draw {args ns ns' : List (Node α)} {m m₁ m' : Machine α} {es : List (Effect α)} {x : α}
      {vs : List (Value α)} (hd : Performs [.call "sample" args] m es [.number x] m₁)
      (hs : Replays ns m₁ ns' vs m') :
      Replays (.call "sample" args :: ns) m (.number x :: ns') (.number x :: vs) m'
  | keep {n : Node α} {ns cs ns' : List (Node α)} {m m₁ m₂ m' : Machine α} {fs : List (Effect α)}
      {vs ws : List (Value α)} {v : Value α} (hn : n.isSampleCall = false)
      (hc : Replays n.children m cs vs m₁) (ha : Acts n vs m₁ fs v m₂) (hs : Replays ns m₂ ns' ws m') :
      Replays (n :: ns) m (n.withChildren cs :: ns') (v :: ws) m'

def ReplayOf (ns : List (Node α)) (g : Generator α) (ms : List (Node α)) : Prop :=
  ∃ vs m, Replays ns ⟨.empty, g⟩ ms vs m

end Posterior
