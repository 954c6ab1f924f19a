import Posterior.Outline
import Posterior.Proofs.Footprint
import Posterior.Proofs.Sampling.Cycles
import Posterior.Proofs.Trace.Adequacy
import Posterior.Proofs.Trace.Ledger

set_option autoImplicit false

namespace Posterior

open Node Step

/-- A tree is deterministic if a walk meets no fault in it and no call that takes a draw. -/
theorem Node.isDeterministic_eq_true_iff {α : Type} {n : Node α} :
    n.isDeterministic = .ok true ↔
      ∀ v ∈ n.walk 0, v.fault? = none ∧ v.node.isSampleCall = false := by
  unfold isDeterministic
  split
  · next hf =>
    refine ⟨fun _ v hv => ?_, fun _ => rfl⟩
    have hn := List.find?_eq_none.mp hf v hv
    rwa [Bool.or_eq_true, not_or, Option.not_isSome_iff_eq_none, Bool.not_eq_true] at hn
  · next v hf =>
    have hv := List.find?_some hf
    constructor
    · intro h
      split at h <;> cases h
    · intro h
      obtain ⟨hfault, hs⟩ := h v (List.mem_of_find?_eq_some hf)
      rw [hfault, hs] at hv
      cases hv

theorem Node.isDeterministic_eq_false_iff {α : Type} {n : Node α} (hf : ∀ v ∈ n.walk 0, v.fault? = none) :
    n.isDeterministic = .ok false ↔ ∃ v ∈ n.walk 0, v.node.isSampleCall = true := by
  unfold isDeterministic
  split
  · next hnone =>
    refine iff_of_false nofun ?_
    rintro ⟨v, hv, hs⟩
    exact List.find?_eq_none.mp hnone v hv (by rw [hs, Bool.or_true])
  · next v hfind =>
    have hmem := List.mem_of_find?_eq_some hfind
    have hv := List.find?_some hfind
    rw [hf v hmem] at hv ⊢
    exact iff_of_true rfl ⟨v, hmem, hv⟩

variable {α : Type} [Arithmetic α]

/-- Statements with no call that takes a draw do the same under every generator, and leave it as it is. -/
theorem exists_course_of_quiet {ns : List (Node α)} {depth : Nat}
    (hn : ∀ n ∈ ns, ∀ v ∈ n.walk depth, v.node.isSampleCall = false) (s : Store α) :
    ∃ (c : Course α (Option (Value α))) (s' : Store α),
      ∀ g, evaluateAll none ns ⟨s, g⟩ = c.take ⟨s, g⟩ ∧ c.leave ⟨s, g⟩ = ⟨s', g⟩ := by
  let quiet : Footprint := ⟨fun _ => True, True, True, False⟩
  have hcovers : ∀ n ∈ ns, quiet.Covers n := fun n hmem =>
    ⟨fun _ _ => trivial, fun _ _ _ => trivial, fun _ _ _ => trivial, fun c hw hc => by
      obtain ⟨v, hv, rfl⟩ := hw.exists_visit depth
      rw [hn n hmem v hv] at hc
      cases hc⟩
  let g₀ : Generator α := .cycle Arithmetic.zero #[]
  obtain ⟨c, hc, hk⟩ := keepsTo_evaluateAll none hcovers ⟨s, g₀⟩
  refine ⟨c, (c.leave ⟨s, g₀⟩).store, fun g => ⟨hk ⟨s, g⟩ ⟨fun _ _ => rfl, False.elim⟩, ?_⟩⟩
  rw [Course.leave, Course.leave, hc.drawn id]
  rfl

theorem exists_run_eq {i : Interpreter α}
    (h : (Node.program i.statements).isDeterministic = .ok true) :
    ∃ outcome j, ∀ g, i.run g = (outcome, j, g) := by
  have hs : ∀ n ∈ i.statements, ∀ v ∈ n.walk 1, v.node.isSampleCall = false :=
    fun n hn v hv => (isDeterministic_eq_true_iff.mp h v (mem_walk_of_child hn hv)).2
  obtain ⟨c, s', hc⟩ := exists_course_of_quiet hs i.store
  unfold Interpreter.run Interpreter.perform Interpreter.runProgram
  cases ho : c.outcome with
  | ok last =>
    refine ⟨.ok ⟨last, s'.bindings, s'.totalLogProb, s'.observations⟩, { i with store := s' }, fun g => ?_⟩
    obtain ⟨htake, hleave⟩ := hc g
    rw [Course.take, ho, hleave] at htake
    rw [bind_ok htake]
    rfl
  | error halt =>
    refine ⟨.error halt, { i with store := s' }, fun g => ?_⟩
    obtain ⟨htake, hleave⟩ := hc g
    rw [Course.take, ho, hleave] at htake
    rw [bind_error htake]

theorem outcomeAt_eq {statements : List (Node α)} {outcome : Except (Halt α) (Result α)}
    {j : Interpreter α} (h : ∀ g, (Interpreter.mk statements .empty).run g = (outcome, j, g))
    (g : Generator α) (k : Nat) : outcomeAt statements g k = outcome := by
  have hg : generatorAt statements g k = g := by
    induction k with
    | zero => rfl
    | succ k ih => rw [generatorAt, ih, cycle, h]
  rw [outcomeAt, hg, cycle, h]

/-- What passes for deterministic is so, from any store and under any two generators: the runs end in the
same and leave the same, and no draw is taken. Without a call that scores, the total and the observations
stay as they are. -/
theorem run_of_isDeterministic {i : Interpreter α}
    (h : (Node.program i.statements).isDeterministic = .ok true) (g g' : Generator α) :
    (i.run g').1 = (i.run g).1 ∧ (i.run g').2.1 = (i.run g).2.1 ∧
    (i.run g).2.2 = g ∧ (i.run g').2.2 = g' ∧
    (∀ k, outcomeAt i.statements g' k = (i.reset.run g).1) ∧
    (observeCalls i.statements = [] →
      (i.run g).2.1.store.totalLogProb = i.store.totalLogProb ∧
      (i.run g).2.1.store.observations = i.store.observations ∧
      (i.reset.run g).2.1.store.totalLogProb = Arithmetic.zero ∧
      ∀ result, (i.reset.run g).1 = .ok result → result.totalLogProb = Arithmetic.zero) := by
  obtain ⟨outcome, j, hi⟩ := exists_run_eq h
  obtain ⟨outcome₀, j₀, hreset⟩ := exists_run_eq (i := i.reset) h
  refine ⟨by rw [hi, hi], by rw [hi, hi], by rw [hi], by rw [hi], fun k => ?_, fun ho => ?_⟩
  · rw [hreset g]
    exact outcomeAt_eq hreset g' k
  · obtain ⟨htotal, hobs⟩ := run_of_observeCalls_eq_nil ho g
    have hzero : (i.reset.run g).2.1.store.totalLogProb = Arithmetic.zero :=
      (run_of_observeCalls_eq_nil (i := i.reset) ho g).1
    refine ⟨htotal, hobs, hzero, fun result hr => ?_⟩
    obtain ⟨-, -, es, vs, -, rfl⟩ := run_eq_ok_iff.mp (Prod.ext hr rfl)
    exact hzero

/-- A quotient by zero, run from a store that holds an earlier total. -/
theorem run_of_quotient_by_zero :
    ∃ i : Interpreter Float,
      i.statements = [.assignment "x" (.binary "*" (.number 6) (.number 7)),
        .assignment "y" (.binary "/" (.var "x") (.number 0))] ∧
      i.store.totalLogProb = 2 ∧ (Node.program i.statements).isDeterministic = .ok true ∧
      ∀ g g', (i.run g').1 = (i.run g).1 ∧ (i.run g').2.2 = g' ∧
        (i.run g).2.1.store.totalLogProb = 2 ∧
        ∀ k, outcomeAt i.statements g' k = (i.reset.run g).1 := by
  let i : Interpreter Float :=
    ⟨[.assignment "x" (.binary "*" (.number 6) (.number 7)),
      .assignment "y" (.binary "/" (.var "x") (.number 0))], ⟨[("z", 1)], 2, []⟩⟩
  have h : (Node.program i.statements).isDeterministic = .ok true := rfl
  refine ⟨i, rfl, rfl, h, fun g g' => ?_⟩
  obtain ⟨hout, -, -, hg, hagain, hquiet⟩ := run_of_isDeterministic h g g'
  exact ⟨hout, hg, (hquiet rfl).1, hagain⟩

end Posterior
