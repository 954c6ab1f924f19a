import Posterior.Proofs.FrontEnd
import Posterior.Proofs.Grammar.Concatenation
import Posterior.Proofs.Lexing.Concatenation

set_option autoImplicit false

namespace Posterior

open Posterior.Parser

section Runs

variable {α : Type} [Arithmetic α]

theorem evaluateAll_append (last : Option (Value α)) (ns ms : List (Node α)) (m : Machine α) :
    evaluateAll last (ns ++ ms) m =
      match evaluateAll last ns m with
      | .ok last' m' => evaluateAll last' ms m'
      | .error halt m' => .error halt m' := by
  induction ns generalizing last m with
  | nil => rfl
  | cons n ns ih =>
    rw [List.cons_append, evaluateAll, evaluateAll]
    cases hn : evaluate maxDepth n m with
    | ok value m' => rw [Step.bind_ok hn, Step.bind_ok hn, ih]
    | error halt m' => rw [Step.bind_error hn, Step.bind_error hn]

theorem evaluateAll_last (last : Option (Value α)) (ns : List (Node α)) (m : Machine α) :
    evaluateAll last ns m =
      match evaluateAll none ns m with
      | .ok last' m' => .ok (last'.or last) m'
      | .error halt m' => .error halt m' := by
  induction ns generalizing last m with
  | nil => rfl
  | cons n ns ih =>
    rw [evaluateAll, evaluateAll]
    cases hn : evaluate maxDepth n m with
    | error halt m' => rw [Step.bind_error hn]
    | ok value m' =>
      rw [Step.bind_ok hn, ih]
      cases evaluateAll none ns m' with
      | error halt m'' => rfl
      | ok last' m'' => cases last' <;> rfl

/-- Runs one program and, if it returns, another one on what the first one leaves. -/
def runInTurn (first second : List (Node α)) (store : Store α) (g : Generator α) :
    Except (Halt α) (Result α) × Store α × Generator α :=
  match (Interpreter.mk first store).run g with
  | (.error halt, i, g') => (.error halt, i.store, g')
  | (.ok result, i, g') =>
    match (Interpreter.mk second i.store).run g' with
    | (.error halt, j, g'') => (.error halt, j.store, g'')
    | (.ok result', j, g'') =>
      (.ok { result' with lastValue := result'.lastValue.or result.lastValue }, j.store, g'')

theorem run_eq_match (i : Interpreter α) (g : Generator α) :
    i.run g =
      match evaluateAll none i.statements ⟨i.store, g⟩ with
      | .ok last m =>
        (.ok ⟨last, m.store.bindings, m.store.totalLogProb, m.store.observations⟩,
          { i with store := m.store }, m.generator)
      | .error halt m => (.error halt, { i with store := m.store }, m.generator) := by
  unfold Interpreter.run Interpreter.perform Interpreter.runProgram
  cases h : evaluateAll none i.statements ⟨i.store, g⟩ with
  | ok last m =>
    rw [Step.bind_ok h]
    rfl
  | error halt m => rw [Step.bind_error h]

theorem run_append (ns ms : List (Node α)) (store : Store α) (g : Generator α) :
    (Interpreter.mk (ns ++ ms) store).run g =
      let (outcome, store', g') := runInTurn ns ms store g
      (outcome, ⟨ns ++ ms, store'⟩, g') := by
  unfold runInTurn
  rw [run_eq_match, run_eq_match, evaluateAll_append]
  dsimp only
  cases evaluateAll none ns ⟨store, g⟩ with
  | error halt m => rfl
  | ok last m =>
    dsimp only
    rw [run_eq_match, evaluateAll_last]
    dsimp only
    cases evaluateAll none ms m with
    | error halt m' => rfl
    | ok last' m' => rfl

end Runs

theorem compile_break {first second : String} {p q : Node Float} (hp : compile first = .ok p)
    (hq : compile second = .ok q) :
    ∃ ns ms, p = .program ns ∧ q = .program ms ∧
      compile (first ++ "\n" ++ second) = .ok (.program (ns ++ ms)) := by
  obtain ⟨ts, ns, ht, hn, rfl⟩ := compile_eq_ok_iff.mp hp
  obtain ⟨us, ms, hu, hm, rfl⟩ := compile_eq_ok_iff.mp hq
  refine ⟨ns, ms, rfl, rfl,
    compile_eq_ok_iff.mpr ⟨visible ts ++ us.map (Token.behind first), _, ?_, ?_, rfl⟩⟩
  · rw [tokenize_break, ht, hu]
    rfl
  · have hcarries : Carries (us.map (Token.behind first)) (us.map Token.symbol) := by
      simp [Carries, Function.comp_def, Token.behind]
    obtain ⟨ps, last, hcuts, hus⟩ := tokenize_eq_ok_iff.mp hu
    obtain ⟨front, hfront, -⟩ := @Cuts.exists_front Float _ _ _ _ hcuts 0
    exact parse_visible_append hn hm hcarries ⟨front, _, hus.trans hfront, rfl⟩

/-- Putting one source behind another, with a line break between them, puts the programs in sequence. The
lexer stops where it stops in the first text, or else where it stops in the second one, moved by the first;
otherwise it gives the tokens of both, with one end. If both texts compile, the whole compiles to the
statements of both, and a run of it, from any store, is a run of the first program and then of the second one
on what the first one left, whether they return or fail. -/
theorem sequence_of_break (first second : String) :
    (tokenize (first ++ "\n" ++ second) : Except LexFault (List (Token Float))) =
      readInTurn first (tokenize first) (tokenize second) ∧
    ∀ p q, compile first = .ok p → compile second = .ok q →
      ∃ ns ms, p = .program ns ∧ q = .program ms ∧
        compile (first ++ "\n" ++ second) = .ok (.program (ns ++ ms)) ∧
        ∀ (store : Store Float) (g : Generator Float),
          (Interpreter.mk (ns ++ ms) store).run g =
            let (outcome, store', g') := runInTurn ns ms store g
            (outcome, ⟨ns ++ ms, store'⟩, g') := by
  refine ⟨tokenize_break first second, fun p q hp hq => ?_⟩
  obtain ⟨ns, ms, rfl, rfl, h⟩ := compile_break hp hq
  exact ⟨ns, ms, rfl, rfl, h, run_append ns ms⟩

/-- A name at the end of the first text and one at the start of the second, and a comment that ends with the
first. -/
theorem sequence_of_name_and_comment :
    compile "x = y # 2" = .ok (.program [.assignment "x" (.var "y")]) ∧
      compile "z = x" = .ok (.program [.assignment "z" (.var "x")]) ∧
      compile ("x = y # 2" ++ "\n" ++ "z = x") =
        .ok (.program [.assignment "x" (.var "y"), .assignment "z" (.var "x")]) := by
  have hfirst : tokenize "x = y # 2" = .ok
      [(⟨.mark .identifier "x", 0⟩ : Token Float), ⟨.mark .equal "=", 2⟩, ⟨.mark .identifier "y", 4⟩,
        ⟨.eof, 9⟩] := by
    simp only [tokenize, String.reduceToList]
    rfl
  have hsecond : tokenize "z = x" = .ok
      [(⟨.mark .identifier "z", 0⟩ : Token Float), ⟨.mark .equal "=", 2⟩, ⟨.mark .identifier "x", 4⟩,
        ⟨.eof, 5⟩] := by
    simp only [tokenize, String.reduceToList]
    rfl
  have hp : compile "x = y # 2" = .ok (.program [.assignment "x" (.var "y")]) :=
    compile_eq_ok_iff.mpr ⟨_, _, hfirst, rfl, rfl⟩
  have hq : compile "z = x" = .ok (.program [.assignment "z" (.var "x")]) :=
    compile_eq_ok_iff.mpr ⟨_, _, hsecond, rfl, rfl⟩
  obtain ⟨ns, ms, hns, hms, h, -⟩ := (sequence_of_break "x = y # 2" "z = x").2 _ _ hp hq
  cases hns
  cases hms
  exact ⟨hp, hq, h⟩

end Posterior
