import Posterior.Parser.Progress
import Posterior.Proofs.Grammar.Completeness

set_option autoImplicit false

namespace Posterior.Parser

variable {α β γ : Type}

def HasEnd (ts : List (Token α)) : Prop := ∃ t ∈ ts, t.kind = .eof

theorem HasEnd.tail {t : Token α} {ts : List (Token α)} (h : HasEnd (t :: ts))
    (ht : t.kind ≠ .eof) : HasEnd ts := by
  obtain ⟨u, hu, hk⟩ := h
  rcases List.mem_cons.mp hu with rfl | hu
  · exact absurd hk ht
  · exact ⟨u, hu, hk⟩

theorem HasEnd.exists_cons {ts : List (Token α)} (h : HasEnd ts) : ∃ t us, ts = t :: us := by
  obtain ⟨t, ht, -⟩ := h
  exact List.exists_cons_of_ne_nil (List.ne_nil_of_mem ht)

theorem nextKind_append {ts : List (Token α)} (h : HasEnd ts) (more : List (Token α)) :
    nextKind (ts ++ more) = nextKind ts := by
  obtain ⟨t, us, rfl⟩ := h.exists_cons
  rfl

/-- An outcome with tokens put behind those it leaves. -/
def lengthen (more : List (Token α)) :
    EStateM.Result (ParseStop α) (List (Token α)) β →
      EStateM.Result (ParseStop α) (List (Token α)) β
  | .ok b rest => .ok b (rest ++ more)
  | .error e rest => .error e (rest ++ more)

def Blind (p : Parse α β) : Prop :=
  ∀ ts more, HasEnd ts → p (ts ++ more) = lengthen more (p ts) ∧ HasEnd (left (p ts))

theorem blind_pure (b : β) : Blind (pure b : Parse α β) := fun _ _ h => ⟨rfl, h⟩

theorem blind_throw (stop : ParseStop α) : Blind (throw stop : Parse α β) :=
  fun _ _ h => ⟨rfl, h⟩

theorem Blind.bind {p : Parse α β} {f : β → Parse α γ} (hp : Blind p) (hf : ∀ b, Blind (f b)) :
    Blind (p >>= f) := by
  intro ts more h
  obtain ⟨he, hl⟩ := hp ts more h
  cases hr : p ts with
  | ok b rest =>
    rw [hr] at he hl
    rw [Step.bind_ok he, Step.bind_ok hr]
    exact hf b rest more hl
  | error e rest =>
    rw [hr] at he hl
    rw [Step.bind_error he, Step.bind_error hr]
    exact ⟨rfl, hl⟩

theorem blind_expect {k : Kind} (hk : k ≠ .eof) (context : String) :
    Blind (expect k context : Parse α (Token α)) := by
  intro ts more h
  obtain ⟨t, us, rfl⟩ := h.exists_cons
  by_cases ht : t.kind = k
  · have hu := h.tail (ht ▸ hk)
    simp only [List.cons_append, expect, ht, ne_eq, not_true_eq_false, if_false, hk]
    exact ⟨rfl, hu⟩
  · simp only [List.cons_append, expect, ht, ne_eq, not_false_eq_true, if_true]
    exact ⟨rfl, h⟩

theorem takeMark?_append {marks : List Mark} {ts : List (Token α)} (h : HasEnd ts)
    (more : List (Token α)) :
    takeMark? marks (ts ++ more) = (takeMark? marks ts).map fun p => (p.1, p.2 ++ more) := by
  obtain ⟨⟨symbol, position⟩, us, rfl⟩ := h.exists_cons
  cases symbol with
  | mark m text =>
    by_cases hm : m ∈ marks <;> simp [takeMark?, hm]
  | number value => rfl
  | eof => rfl

theorem HasEnd.of_takeMark? {marks : List Mark} {ts rest : List (Token α)} {text : String}
    (h : HasEnd ts) (hm : takeMark? marks ts = some (text, rest)) : HasEnd rest := by
  obtain ⟨m, -, position, rfl⟩ := takeMark?_eq_some hm
  exact h.tail (by simp)

theorem blind_chainFuel {marks : List Mark} {operand : Parse α (Node α)} (h : Blind operand)
    (fuel : Nat) (n : Node α) : Blind (chainFuel marks operand fuel n) := by
  induction fuel generalizing n with
  | zero => exact fun ts more he => ⟨rfl, he⟩
  | succ fuel ih =>
    intro ts more he
    rw [chainFuel, chainFuel, takeMark?_append he]
    cases hm : takeMark? marks ts with
    | none => exact ⟨rfl, he⟩
    | some p => exact (h.bind fun right => ih _) p.2 more (he.of_takeMark? hm)

/-- A loop with as much fuel as there are tokens is blind if it is with any fuel and needs no more. -/
theorem blind_of_fuel {loop : Nat → Parse α β} (h : ∀ fuel, Blind (loop fuel))
    (hl : ∀ fuel ts, ts.length ≤ fuel → loop fuel ts = loop ts.length ts) :
    Blind fun ts => loop ts.length ts := by
  intro ts more he
  have hb := h (ts ++ more).length ts more he
  rw [hl (ts ++ more).length ts (by simp)] at hb
  exact hb

theorem blind_chain {marks : List Mark} {operand : Parse α (Node α)} (h : Blind operand)
    (hd : Drops operand) : Blind (chain marks operand) :=
  h.bind fun n => blind_of_fuel (fun fuel => blind_chainFuel h fuel n)
    fun _ _ hf => chainFuel_of_le hd n hf

theorem blind_moreFuel {item : Parse α (Node α)} (h : Blind item) (fuel : Nat) :
    Blind (moreFuel item fuel) := by
  induction fuel with
  | zero => exact fun ts more he => ⟨rfl, he⟩
  | succ fuel ih =>
    intro ts more he
    rw [moreFuel, moreFuel, takeMark?_append he]
    cases hm : takeMark? [.comma] ts with
    | none => exact ⟨rfl, he⟩
    | some p =>
      exact (h.bind fun first => ih.bind fun others => blind_pure (first :: others)) p.2 more
        (he.of_takeMark? hm)

theorem moreFuel_of_le {item : Parse α (Node α)} (h : Drops item) {fuel : Nat}
    {ts : List (Token α)} (hf : ts.length ≤ fuel) :
    moreFuel item fuel ts = moreFuel item ts.length ts := by
  induction hf with
  | refl => rfl
  | @step fuel hf ih => rw [moreFuel_succ h fuel ts hf, ih]

theorem blind_arguments {item : Parse α (Node α)} (h : Blind item) (hd : Drops item) :
    Blind (arguments item) := by
  intro ts more he
  rw [arguments, arguments, nextKind_append he]
  split
  · exact ⟨rfl, he⟩
  · exact (h.bind fun first => (blind_of_fuel (blind_moreFuel h)
      fun _ _ hf => moreFuel_of_le hd hf).bind fun others => blind_pure (first :: others))
        ts more he

variable [Arithmetic α]

theorem blind_factor {frames : Nat} (he : Blind (expression frames : Parse α (Node α)))
    (hf : Blind (factor frames : Parse α (Node α))) (hc : Blind (call frames : Parse α (Node α))) :
    Blind (factor (frames + 1) : Parse α (Node α)) := by
  intro ts more h
  obtain ⟨⟨symbol, position⟩, us, rfl⟩ := h.exists_cons
  cases symbol with
  | number value => exact ⟨rfl, h.tail (by simp)⟩
  | eof => exact ⟨rfl, h⟩
  | mark m text =>
    have hu : HasEnd us := h.tail (by simp)
    cases m with
    | identifier =>
      rw [List.cons_append, factor]
      dsimp only
      rw [nextKind_append hu]
      split
      · exact hc _ more h
      · exact ⟨rfl, hu⟩
    | leftParen =>
      exact (he.bind fun inner => (blind_expect (by simp) "to close '('").bind
        fun _ => blind_pure inner) us more hu
    | minus =>
      exact (hf.bind fun operand =>
        blind_pure (Node.binary "-" (.number Arithmetic.zero) operand)) us more hu
    | plus | star | slash | equal | rightParen | comma => exact ⟨rfl, h⟩

theorem blind_call {frames : Nat} (he : Blind (expression frames : Parse α (Node α))) :
    Blind (call (frames + 1) : Parse α (Node α)) := by
  rw [call]
  exact (blind_expect (by simp) _).bind fun name => (blind_expect (by simp) _).bind fun _ =>
    (blind_arguments he (Procedure.expression.drops_read frames)).bind fun args =>
      (blind_expect (by simp) _).bind fun _ => blind_pure (Node.call name.text args)

theorem blind_procedures (frames : Nat) :
    Blind (expression frames : Parse α (Node α)) ∧ Blind (term frames : Parse α (Node α)) ∧
      Blind (factor frames : Parse α (Node α)) ∧ Blind (call frames : Parse α (Node α)) := by
  induction frames with
  | zero => exact ⟨blind_throw _, blind_throw _, blind_throw _, blind_throw _⟩
  | succ frames ih =>
    obtain ⟨he, ht, hf, hc⟩ := ih
    exact ⟨blind_chain ht (Procedure.term.drops_read frames), blind_chain hf (Procedure.factor.drops_read frames),
      blind_factor he hf hc, blind_call he⟩

theorem blind_assignment (frames : Nat) : Blind (assignment frames : Parse α (Node α)) := by
  cases frames with
  | zero => exact blind_throw _
  | succ frames =>
    exact (blind_expect (by simp) _).bind fun name => (blind_expect (by simp) _).bind fun _ =>
      (blind_procedures frames).1.bind fun expr => blind_pure (Node.assignment name.text expr)

theorem blind_statement (frames : Nat) : Blind (statement frames : Parse α (Node α)) := by
  cases frames with
  | zero => exact blind_throw _
  | succ frames =>
    intro ts more h
    obtain ⟨⟨symbol, position⟩, us, rfl⟩ := h.exists_cons
    cases symbol with
    | number value => exact ⟨rfl, h⟩
    | eof => exact ⟨rfl, h⟩
    | mark m text =>
      cases m with
      | identifier =>
        have hu : HasEnd us := h.tail (by simp)
        rw [List.cons_append, statement]
        dsimp only
        rw [nextKind_append hu]
        split
        · exact blind_assignment frames _ more h
        · split
          · exact (blind_procedures frames).2.2.2 _ more h
          · obtain ⟨t, vs, rfl⟩ := hu.exists_cons
            exact ⟨rfl, h⟩
      | leftParen | minus | plus | star | slash | equal | rightParen | comma => exact ⟨rfl, h⟩

theorem blind_statementsFuel (frames fuel : Nat) :
    Blind (statementsFuel frames fuel : Parse α (List (Node α))) := by
  induction fuel with
  | zero => exact fun ts more he => ⟨rfl, he⟩
  | succ fuel ih =>
    intro ts more he
    rw [statementsFuel, statementsFuel, nextKind_append he]
    split
    · exact ⟨rfl, he⟩
    · exact ((blind_statement frames).bind fun first => ih.bind fun others =>
        blind_pure (first :: others)) ts more he

theorem statementsFuel_of_le {frames fuel : Nat} {ts : List (Token α)} (hf : ts.length ≤ fuel) :
    statementsFuel frames fuel ts = statementsFuel frames ts.length ts := by
  induction hf with
  | refl => rfl
  | @step fuel hf ih => rw [statementsFuel_succ frames fuel ts hf, ih]

theorem blind_program (frames : Nat) : Blind (program frames : Parse α (Node α)) := by
  cases frames with
  | zero => exact blind_throw _
  | succ frames =>
    exact (blind_of_fuel (blind_statementsFuel frames)
      fun _ _ hf => statementsFuel_of_le hf).bind fun ns => blind_pure (Node.program ns)

end Posterior.Parser
