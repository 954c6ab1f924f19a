import Posterior.Proofs.Checking.Evaluation
import Posterior.Proofs.Grammar.Shape

set_option autoImplicit false

namespace Posterior

open Node Step

section

variable {α : Type} {bound : List String}

theorem Machine.Binds.assign {m : Machine α} (hm : m.Binds bound) (name : String) (value : α) :
    Machine.Binds { m with store := m.store.assign name value } (name :: bound) := by
  intro other
  rw [List.mem_cons, ← hm other]
  exact Bindings.mem_names_set _ _ _ _

theorem lt_of_isTooDeep {n : Node α} (h : n.isTooDeep = false) :
    ∀ v ∈ n.walk 0, v.depth < 0 + maxDepth := by
  intro v hv
  have hd := List.any_eq_false.mp h v hv
  simp only [decide_eq_true_eq] at hd
  omega

variable [Arithmetic α] {valid : String → Prop}

theorem ends_assignment {levels depth : Nat} {name : String} {expr : Node α} {m : Machine α}
    (he : expr.IsExpression valid)
    (hd : ∀ v ∈ (Node.assignment name expr).walk depth, v.depth < depth + (levels + 1))
    (hm : m.Binds bound) :
    Ends (evaluate (levels + 1) (.assignment name expr)) m
      (fun _ m' => expr.Checked bound ∧ expr.valueKind = .number ∧ m'.Binds (name :: bound))
      (fun halt => expr.Checked bound → expr.valueKind = .number → OutOfRange expr halt) := by
  have hexpr : ∀ v ∈ expr.walk (depth + 1), v.depth < depth + 1 + levels := by
    intro v hv
    have hlt := hd v (by simp [walk, hv])
    omega
  have hc : Checks bound (evaluate levels expr) expr := checks_evaluate he hexpr
  exact hc.bind_number hm (fun x m' hx hk hm' => ⟨hx, hk, hm'.assign name x⟩) fun halt hh => hh

theorem ends_evaluateAll {ns : List (Node α)} {last : Option (Value α)} {m : Machine α}
    (hn : ∀ n ∈ ns, n.IsStatement valid) (hd : ∀ n ∈ ns, n.isTooDeep = false) (hm : m.Binds bound) :
    Ends (evaluateAll last ns) m (fun _ _ => CheckedAll bound ns)
      (fun halt => CheckedAll bound ns → ∃ n ∈ ns, OutOfRange n halt) := by
  induction ns generalizing last m bound with
  | nil => exact .nil bound
  | cons n ns ih =>
    have hdepth := lt_of_isTooDeep (hd n List.mem_cons_self)
    have hs := hn n List.mem_cons_self
    replace hn := fun a ha => hn a (List.mem_cons_of_mem n ha)
    replace hd := fun a ha => hd a (List.mem_cons_of_mem n ha)
    rw [evaluateAll]
    cases hs with
    | @assignment name expr _ he =>
      refine (ends_assignment he hdepth hm).bind (fun v m' hv => ?_) fun halt hh hc => ?_
      · obtain ⟨hx, hk, hm'⟩ := hv
        refine (ih hn hd hm').imp (fun _ _ hall => .assignment hx hk hall) fun halt hh hc => ?_
        cases hc with
        | assignment _ _ hall =>
          obtain ⟨a, ha, hr⟩ := hh hall
          exact ⟨a, List.mem_cons_of_mem _ ha, hr⟩
      · cases hc with
        | assignment hx hk _ => exact ⟨_, List.mem_cons_self, (hh hx hk).child (by simp [children])⟩
    | call he =>
      refine (checks_evaluate he hdepth m hm).bind (fun v m' hv => ?_) fun halt hh hc => ?_
      · obtain ⟨hx, -, hm'⟩ := hv
        refine (ih hn hd hm').imp (fun _ _ hall => .call hx hall) fun halt hh hc => ?_
        cases hc with
        | call _ hall =>
          obtain ⟨a, ha, hr⟩ := hh hall
          exact ⟨a, List.mem_cons_of_mem _ ha, hr⟩
      · cases hc with
        | call hx _ => exact ⟨_, List.mem_cons_self, hh hx⟩

theorem run_cases {i : Interpreter α} (hn : ∀ n ∈ i.statements, n.IsStatement valid)
    (hd : ∀ n ∈ i.statements, n.isTooDeep = false) (g : Generator α) :
    (∃ result, (i.reset.run g).1 = .ok result ∧ WellFormed i.statements) ∨
      ∃ halt, (i.reset.run g).1 = .error halt ∧
        (WellFormed i.statements → OutOfRange (.program i.statements) halt) := by
  have hm : Machine.Binds ⟨(Store.empty : Store α), g⟩ [] := fun name => by
    simp [Store.empty, Bindings.names]
  have hall : Ends (Interpreter.runProgram i.statements) ⟨.empty, g⟩
      (fun _ _ => WellFormed i.statements)
      (fun halt => WellFormed i.statements → ∃ n ∈ i.statements, OutOfRange n halt) :=
    (ends_evaluateAll hn hd hm).bind (fun _ _ hw => hw) fun _ hh => hh
  unfold Ends at hall
  unfold Interpreter.run Interpreter.perform Interpreter.reset
  split at hall
  · next result m' hr =>
    rw [hr]
    exact .inl ⟨result, rfl, hall⟩
  · next halt m' hr =>
    rw [hr]
    refine .inr ⟨halt, rfl, fun hw => ?_⟩
    obtain ⟨n, hn', hh⟩ := hall hw
    exact hh.child hn'

end

/-- The checks of a run are those of well-formedness, for every parsed program that is not nested too
deeply: what returns is well formed, and what is well formed fails for its numbers at most. -/
theorem wellFormed_of_run {ts : List (Token Float)} {ns : List (Node Float)}
    (hp : parse ts = .program ns) (hg : ∀ t ∈ ts, t.Genuine) (hd : ∀ n ∈ ns, n.isTooDeep = false)
    (i : Interpreter Float) (hi : i.statements = ns) (g : Generator Float) :
    ((∃ result, (i.reset.run g).1 = .ok result) → WellFormed ns) ∧
      (WellFormed ns → (∃ result, (i.reset.run g).1 = .ok result) ∨
        ∃ halt, (i.reset.run g).1 = .error halt ∧ OutOfRange (.program ns) halt) := by
  subst hi
  have hc := run_cases (shape_of_parse hp hg) hd g
  constructor
  · rintro ⟨result, hr⟩
    rcases hc with ⟨-, -, hw⟩ | ⟨halt, he, -⟩
    · exact hw
    · rw [hr] at he
      cases he
  · intro hw
    rcases hc with ⟨result, hr, -⟩ | ⟨halt, he, hh⟩
    · exact .inl ⟨result, hr⟩
    · exact .inr ⟨halt, he, hh hw⟩

theorem wellFormed_of_scored_draw :
    ∃ (ts : List (Token Float)) (ns : List (Node Float)),
      tokenize "x = sample(exponential(1)) observe(x, normal(0, 2))" = .ok ts ∧
      parse ts = .program ns ∧ WellFormed ns ∧
      ∀ g, (∃ result, ((Interpreter.mk ns .empty).reset.run g).1 = .ok result) ∨
        ∃ halt, ((Interpreter.mk ns .empty).reset.run g).1 = .error halt ∧
          OutOfRange (.program ns) halt := by
  let number (n : Nat) : Symbol Float := .number (Arithmetic.ofDecimal n 0)
  let ts : List (Token Float) :=
    [⟨.mark .identifier "x", 0⟩, ⟨.mark .equal "=", 2⟩, ⟨.mark .identifier "sample", 4⟩,
      ⟨.mark .leftParen "(", 10⟩, ⟨.mark .identifier "exponential", 11⟩, ⟨.mark .leftParen "(", 22⟩,
      ⟨number 1, 23⟩, ⟨.mark .rightParen ")", 24⟩, ⟨.mark .rightParen ")", 25⟩,
      ⟨.mark .identifier "observe", 27⟩, ⟨.mark .leftParen "(", 34⟩, ⟨.mark .identifier "x", 35⟩,
      ⟨.mark .comma ",", 36⟩, ⟨.mark .identifier "normal", 38⟩, ⟨.mark .leftParen "(", 44⟩,
      ⟨number 0, 45⟩, ⟨.mark .comma ",", 46⟩, ⟨number 2, 48⟩, ⟨.mark .rightParen ")", 49⟩,
      ⟨.mark .rightParen ")", 50⟩, ⟨.eof, 51⟩]
  have ht : tokenize "x = sample(exponential(1)) observe(x, normal(0, 2))" = .ok ts := by
    simp only [tokenize, String.reduceToList]
    rfl
  obtain ⟨ns, hp, hd, g, result, hr⟩ : ∃ ns, parse ts = .program ns ∧
      (∀ n ∈ ns, n.isTooDeep = false) ∧
        ∃ g result, ((Interpreter.mk ns .empty).reset.run g).1 = .ok result :=
    ⟨_, rfl, by decide, .cycle 1 #[], _, rfl⟩
  have hrun := wellFormed_of_run hp (genuine_of_tokenize ht) hd ⟨ns, .empty⟩ rfl
  have hw := (hrun g).1 ⟨result, hr⟩
  exact ⟨ts, ns, ht, hp, hw, fun g => (hrun g).2 hw⟩

end Posterior
