import Posterior.Parser
import Posterior.Step

/-!
Two procedures on the same tokens. A relation of their outcomes that the ways to put procedures together preserve
holds of each procedure of the grammar with fewer and with more frames, as soon as it does where the first has none.
-/

set_option autoImplicit false

namespace Posterior.Parser

variable {α β γ : Type}

inductive Procedure where
  | program
  | statement
  | assignment
  | expression
  | term
  | factor
  | call
  deriving DecidableEq, Repr

def Procedure.read [Arithmetic α] (frames : Nat) : Procedure → Parse α (Node α)
  | .program => Parser.program frames
  | .statement => Parser.statement frames
  | .assignment => Parser.assignment frames
  | .expression => Parser.expression frames
  | .term => Parser.term frames
  | .factor => Parser.factor frames
  | .call => Parser.call frames

abbrev Relation (α : Type) : Type 1 :=
  ∀ β : Type, List (Token α) → EStateM.Result (ParseStop α) (List (Token α)) β →
    EStateM.Result (ParseStop α) (List (Token α)) β → Prop

variable {R : Relation α}

def Related (R : Relation α) (p q : Parse α β) : Prop := ∀ ts, R β ts (p ts) (q ts)

/-- A relation of outcomes that the ways to put procedures together preserve. -/
structure Compatible (R : Relation α) : Prop where
  ok {β : Type} (b : β) (ts : List (Token α)) : R β ts (.ok b ts) (.ok b ts)
  fail {β : Type} {cause : ParseCause} (hc : ∀ name, cause ≠ .afterIdentifier name) (ts : List (Token α)) :
    R β ts (fail cause ts) (fail cause ts)
  skip {β : Type} {t : Token α} {ts : List (Token α)} {r s : EStateM.Result (ParseStop α) (List (Token α)) β}
    (h : R β ts r s) : R β (t :: ts) r s
  bind {β γ : Type} {p q : Parse α β} {f g : β → Parse α γ} (h : Related R p q) (hf : ∀ b, Related R (f b) (g b)) :
    Related R (p >>= f) (q >>= g)

/-- The relation holds of the one failure that is not at the token in the way: an identifier that begins no statement
is left before it. -/
def AtNames (R : Relation α) : Prop :=
  ∀ name i rest, R (Node α) (⟨.mark .identifier name, i⟩ :: rest)
    (.error (.fault ⟨.afterIdentifier name, rest.head?⟩) (⟨.mark .identifier name, i⟩ :: rest))
    (.error (.fault ⟨.afterIdentifier name, rest.head?⟩) (⟨.mark .identifier name, i⟩ :: rest))

theorem takeMark?_eq_some {marks : List Mark} {ts rest : List (Token α)} {text : String}
    (h : takeMark? marks ts = some (text, rest)) :
    ∃ m ∈ marks, ∃ position, ts = ⟨.mark m text, position⟩ :: rest := by
  unfold takeMark? at h
  split at h
  · next m text' position ts' =>
    split at h
    · next hm =>
      simp only [Option.some.injEq, Prod.mk.injEq] at h
      obtain ⟨rfl, rfl⟩ := h
      exact ⟨m, hm, position, rfl⟩
    · simp at h
  · simp at h

namespace Compatible

theorem pure (hR : Compatible R) (b : β) : Related R (pure b) (pure b) := hR.ok b

theorem expect (hR : Compatible R) (kind : Kind) (context : String) :
    Related R (expect kind context) (expect kind context) := by
  intro ts
  cases ts with
  | nil => exact hR.fail (by simp) []
  | cons t ts =>
    rw [Parser.expect]
    split
    · exact hR.fail (by simp) _
    · split
      · exact hR.ok t _
      · exact hR.skip (hR.ok t ts)

section Loops

variable {marks : List Mark} {p q : Parse α (Node α)}

theorem chainFuel (hR : Compatible R) (h : Related R p q) (fuel : Nat) (n : Node α) :
    Related R (chainFuel marks p fuel n) (chainFuel marks q fuel n) := by
  induction fuel generalizing n with
  | zero => exact hR.ok n
  | succ fuel ih =>
    intro ts
    rw [Parser.chainFuel, Parser.chainFuel]
    split
    · exact hR.ok n ts
    · next op rest hm =>
      obtain ⟨m, -, position, rfl⟩ := takeMark?_eq_some hm
      exact hR.skip (hR.bind h (fun right => ih (.binary op n right)) rest)

theorem chain (hR : Compatible R) (h : Related R p q) : Related R (chain marks p) (chain marks q) :=
  hR.bind h fun n ts => hR.chainFuel h ts.length n ts

theorem moreFuel (hR : Compatible R) (h : Related R p q) (fuel : Nat) :
    Related R (moreFuel p fuel) (moreFuel q fuel) := by
  induction fuel with
  | zero => exact hR.ok []
  | succ fuel ih =>
    intro ts
    rw [Parser.moreFuel, Parser.moreFuel]
    split
    · exact hR.ok [] ts
    · next text rest hm =>
      obtain ⟨m, -, position, rfl⟩ := takeMark?_eq_some hm
      exact hR.skip (hR.bind h (fun first => hR.bind ih fun others => hR.pure (first :: others)) rest)

theorem arguments (hR : Compatible R) (h : Related R p q) : Related R (arguments p) (arguments q) := by
  have hmore : Related R (fun ts => Parser.moreFuel p ts.length ts) fun ts => Parser.moreFuel q ts.length ts :=
    fun ts => hR.moreFuel h ts.length ts
  intro ts
  rw [Parser.arguments, Parser.arguments]
  split
  · exact hR.ok [] ts
  · exact hR.bind h (fun first => hR.bind hmore fun others => hR.pure (first :: others)) ts

end Loops

variable [Arithmetic α] (more : Nat)

theorem expressions (hR : Compatible R) (h : ∀ p : Procedure, Related R (throw .tooDeep) (p.read more))
    (frames : Nat) :
    Related R (expression frames) (expression (more + frames)) ∧
      Related R (term frames) (term (more + frames)) ∧
      Related R (factor frames) (factor (more + frames)) ∧
      Related R (call frames) (call (more + frames)) := by
  induction frames with
  | zero => exact ⟨h .expression, h .term, h .factor, h .call⟩
  | succ frames ih =>
    obtain ⟨he, ht, hf, hc⟩ := ih
    rw [← Nat.add_assoc]
    refine ⟨hR.chain ht, hR.chain hf, fun ts => ?_, ?_⟩
    · rw [factor, factor]
      dsimp only
      split
      · exact hR.skip (hR.ok _ _)
      · split
        · exact hc _
        · exact hR.skip (hR.ok _ _)
      · exact hR.skip (hR.bind he (fun inner => hR.bind (hR.expect _ _) fun _ => hR.pure inner) _)
      · exact hR.skip (hR.bind hf
          (fun operand => hR.pure (Node.binary "-" (.number Arithmetic.zero) operand)) _)
      · exact hR.fail (by simp) _
    · rw [call, call]
      exact hR.bind (hR.expect _ _) fun name => hR.bind (hR.expect _ _) fun _ =>
        hR.bind (hR.arguments he) fun args => hR.bind (hR.expect _ _) fun _ =>
          hR.pure (Node.call name.text args)

theorem assignment (hR : Compatible R) (h : ∀ p : Procedure, Related R (throw .tooDeep) (p.read more))
    (frames : Nat) : Related R (assignment frames) (assignment (more + frames)) := by
  cases frames with
  | zero => exact h .assignment
  | succ frames =>
    rw [← Nat.add_assoc, Parser.assignment, Parser.assignment]
    exact hR.bind (hR.expect _ _) fun name => hR.bind (hR.expect _ _) fun _ =>
      hR.bind (hR.expressions more h frames).1 fun expr => hR.pure (Node.assignment name.text expr)

theorem statement (hR : Compatible R) (hn : AtNames R)
    (h : ∀ p : Procedure, Related R (throw .tooDeep) (p.read more)) (frames : Nat) :
    Related R (statement frames) (statement (more + frames)) := by
  cases frames with
  | zero => exact h .statement
  | succ frames =>
    intro ts
    rw [← Nat.add_assoc, Parser.statement, Parser.statement]
    dsimp only
    split
    · split
      · exact hR.assignment more h frames _
      · split
        · exact (hR.expressions more h frames).2.2.2 _
        · exact hn _ _ _
    · exact hR.fail (by simp) _

theorem statementsFuel (hR : Compatible R) (hn : AtNames R)
    (h : ∀ p : Procedure, Related R (throw .tooDeep) (p.read more)) (frames fuel : Nat) :
    Related R (statementsFuel frames fuel) (statementsFuel (more + frames) fuel) := by
  induction fuel with
  | zero => exact hR.ok []
  | succ fuel ih =>
    intro ts
    rw [Parser.statementsFuel, Parser.statementsFuel]
    split
    · exact hR.ok [] ts
    · exact hR.bind (hR.statement more hn h frames)
        (fun first => hR.bind ih fun others => hR.pure (first :: others)) ts

theorem program (hR : Compatible R) (hn : AtNames R)
    (h : ∀ p : Procedure, Related R (throw .tooDeep) (p.read more)) (frames : Nat) :
    Related R (program frames) (program (more + frames)) := by
  cases frames with
  | zero => exact h .program
  | succ frames =>
    have hs : Related R (fun ts => Parser.statementsFuel frames ts.length ts)
        fun ts => Parser.statementsFuel (more + frames) ts.length ts :=
      fun ts => hR.statementsFuel more hn h frames ts.length ts
    rw [← Nat.add_assoc, Parser.program, Parser.program]
    exact hR.bind hs fun ns => hR.pure (Node.program ns)

/-- Each procedure of the grammar, with fewer and with more frames. -/
theorem read (hR : Compatible R) (hn : AtNames R)
    (h : ∀ p : Procedure, Related R (throw .tooDeep) (p.read more)) (p : Procedure) (frames : Nat) :
    Related R (p.read frames) (p.read (more + frames)) := by
  obtain ⟨he, ht, hf, hc⟩ := hR.expressions more h frames
  cases p with
  | program => exact hR.program more hn h frames
  | statement => exact hR.statement more hn h frames
  | assignment => exact hR.assignment more h frames
  | expression => exact he
  | term => exact ht
  | factor => exact hf
  | call => exact hc

end Compatible

end Posterior.Parser
