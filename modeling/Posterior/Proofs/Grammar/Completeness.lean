import Posterior.Parser.Progress
import Posterior.Proofs.Grammar

set_option autoImplicit false

namespace Posterior.Grammar

variable {α : Type}

theorem Led.eq_nil_or_comma {runs : List (List (Token α))} {ts : List (Token α)}
    (h : Led runs ts) :
    ts = [] ∨ ∃ text position us, ts = ⟨.mark .comma text, position⟩ :: us := by
  cases h with
  | nil => exact .inl rfl
  | cons text position => exact .inr ⟨text, position, _, rfl⟩

variable [Arithmetic α]

theorem Derives.call_head {ts : List (Token α)} {n : Node α} (h : Derives .call ts n) :
    ∃ name i left j us, ts = ⟨.mark .identifier name, i⟩ :: ⟨.mark .leftParen left, j⟩ :: us := by
  cases h
  exact ⟨_, _, _, _, _, rfl⟩

theorem Derives.statement_head {ts : List (Token α)} {n : Node α} (h : Derives .statement ts n) :
    ∃ name position us, ts = ⟨.mark .identifier name, position⟩ :: us := by
  cases h with
  | callStatement h =>
    obtain ⟨name, i, left, j, us, rfl⟩ := h.call_head
    exact ⟨name, i, _, rfl⟩
  | assignment => exact ⟨_, _, _, rfl⟩

theorem Derives.starts {p : Phrase} {ts : List (Token α)} {n : Node α} (h : Derives p ts n) :
    ∃ t us, ts = t :: us ∧ t.kind ≠ .mark .rightParen := by
  induction h with
  | term _ ih | factor _ ih | application _ ih | callStatement _ ih => exact ih
  | sum _ _ _ ihl | product _ _ _ ihl =>
    obtain ⟨t, us, rfl, ht⟩ := ihl
    exact ⟨t, _, rfl, ht⟩
  | number | name | group | negation | call | assignment => exact ⟨_, _, rfl, by simp⟩

end Posterior.Grammar

namespace Posterior.Parser

open Grammar

variable {α β γ : Type}

/-- The first outcome is the second one, or the frames ran out. -/
def Agrees (r r' : EStateM.Result (ParseStop α) (List (Token α)) β) : Prop :=
  r = r' ∨ ∃ rest, r = .error .tooDeep rest

theorem Agrees.of_eq {r r' : EStateM.Result (ParseStop α) (List (Token α)) β} (h : r = r') :
    Agrees r r' := .inl h

theorem Agrees.trans {r r' r'' : EStateM.Result (ParseStop α) (List (Token α)) β} (h : Agrees r r')
    (h' : Agrees r' r'') : Agrees r r'' := by
  rcases h with rfl | h
  · exact h'
  · exact .inr h

theorem agrees_throw (ts : List (Token α))
    (r : EStateM.Result (ParseStop α) (List (Token α)) β) :
    Agrees ((throw .tooDeep : Parse α β) ts) r := .inr ⟨ts, rfl⟩

theorem Agrees.bind {p : Parse α β} {f : β → Parse α γ} {ts mid : List (Token α)} {b : β}
    {r : EStateM.Result (ParseStop α) (List (Token α)) γ} (hp : Agrees (p ts) (.ok b mid))
    (hf : Agrees (f b mid) r) : Agrees ((p >>= f) ts) r := by
  rcases hp with hp | ⟨rest, hp⟩
  · rwa [Step.bind_ok hp]
  · exact .inr ⟨rest, Step.bind_error hp⟩

theorem takeMark?_mark {marks : List Mark} {m : Mark} {text : String} {position : Int}
    {ts : List (Token α)} (h : m ∈ marks) :
    takeMark? marks (⟨.mark m text, position⟩ :: ts) = some (text, ts) := by
  simp [takeMark?, h]

theorem takeMark?_eq_none {marks : List Mark} {ts : List (Token α)}
    (h : ∀ m ∈ marks, nextKind ts ≠ .mark m) : takeMark? marks ts = none := by
  cases hm : takeMark? marks ts with
  | none => rfl
  | some p =>
    obtain ⟨text, rest⟩ := p
    obtain ⟨m, hmem, position, rfl⟩ := takeMark?_eq_some hm
    exact absurd rfl (h m hmem)

theorem chainFuel_stop {marks : List Mark} {operand : Parse α (Node α)} {fuel : Nat} {n : Node α}
    {ts : List (Token α)} (h : ∀ m ∈ marks, nextKind ts ≠ .mark m) :
    chainFuel marks operand fuel n ts = .ok n ts := by
  cases fuel with
  | zero => rfl
  | succ fuel => rw [chainFuel, takeMark?_eq_none h]

theorem chainFuel_of_le {marks : List Mark} {operand : Parse α (Node α)} (h : Drops operand)
    {fuel : Nat} (n : Node α) {ts : List (Token α)} (hf : ts.length ≤ fuel) :
    chainFuel marks operand fuel n ts = chainFuel marks operand ts.length n ts := by
  induction hf with
  | refl => rfl
  | @step fuel hf ih => rw [chainFuel_succ h fuel n ts hf, ih]

theorem agrees_chainFuel (marks : List Mark) {operand : Parse α (Node α)} (h : Drops operand)
    {m : Mark} (hm : m ∈ marks) (op : String) (position : Int) (l : Node α) {r : Node α}
    {ts rest : List (Token α)} (hr : Agrees (operand ts) (.ok r rest)) :
    Agrees
      (chainFuel marks operand (⟨.mark m op, position⟩ :: ts : List (Token α)).length l
        (⟨.mark m op, position⟩ :: ts))
      (chainFuel marks operand rest.length (.binary op l r) rest) := by
  rw [List.length_cons, chainFuel, takeMark?_mark hm]
  rcases hr with hr | ⟨left, hr⟩
  · have hl := h.length_le_of_ok hr
    exact .of_eq ((Step.bind_ok hr).trans (chainFuel_of_le h _ hl))
  · exact .inr ⟨left, Step.bind_error hr⟩

/-- The kinds of token that cannot stand behind a whole expression. -/
def goesOn : List Kind :=
  [.mark .plus, .mark .minus, .mark .star, .mark .slash, .mark .leftParen]

theorem nextKind_notMem_goesOn {runs : List (List (Token α))} {ts rest : List (Token α)}
    (h : Led runs ts) (hr : nextKind rest = .mark .rightParen) :
    nextKind (ts ++ rest) ∉ goesOn := by
  rcases h.eq_nil_or_comma with rfl | ⟨text, position, us, rfl⟩
  · simp [goesOn, hr]
  · simp [goesOn]

variable [Arithmetic α]

/-- What the procedures make of the tokens of a phrase. Expressions and terms may still be the left operand
of an operator behind them, so they are followed into the chain they start. -/
def Reads : Phrase → List (Token α) → Node α → Prop
  | .expression, ts, n => ∀ frames rest,
    nextKind rest ∉ [.mark .star, .mark .slash, .mark .leftParen] →
      Agrees (chain [.plus, .minus] (term frames) (ts ++ rest))
        (chainFuel [.plus, .minus] (term frames) rest.length n rest)
  | .term, ts, n => ∀ frames rest, nextKind rest ≠ .mark .leftParen →
      Agrees (chain [.star, .slash] (factor frames) (ts ++ rest))
        (chainFuel [.star, .slash] (factor frames) rest.length n rest)
  | .factor, ts, n => ∀ frames rest, nextKind rest ≠ .mark .leftParen →
      Agrees (factor frames (ts ++ rest)) (.ok n rest)
  | .call, ts, n => ∀ frames rest, Agrees (call frames (ts ++ rest)) (.ok n rest)
  | .statement, ts, n => ∀ frames rest, nextKind rest ∉ goesOn →
      Agrees (statement frames (ts ++ rest)) (.ok n rest)

theorem Reads.term {ts : List (Token α)} {n : Node α} (h : Reads .term ts n) (frames : Nat)
    {rest : List (Token α)}
    (hr : nextKind rest ∉ [.mark .star, .mark .slash, .mark .leftParen]) :
    Agrees (Parser.term frames (ts ++ rest)) (.ok n rest) := by
  simp only [List.mem_cons, List.not_mem_nil, or_false, not_or] at hr
  cases frames with
  | zero => exact agrees_throw _ _
  | succ frames =>
    have hc := h frames rest hr.2.2
    rwa [chainFuel_stop (by simpa using ⟨hr.1, hr.2.1⟩)] at hc

theorem Reads.expression {ts : List (Token α)} {n : Node α} (h : Reads .expression ts n)
    (frames : Nat) {rest : List (Token α)} (hr : nextKind rest ∉ goesOn) :
    Agrees (Parser.expression frames (ts ++ rest)) (.ok n rest) := by
  simp only [goesOn, List.mem_cons, List.not_mem_nil, or_false, not_or] at hr
  cases frames with
  | zero => exact agrees_throw _ _
  | succ frames =>
    have hc := h frames rest (by simpa using hr.2.2)
    rwa [chainFuel_stop (by simpa using ⟨hr.1, hr.2.1⟩)] at hc

theorem agrees_moreFuel (frames : Nat) {args : List (List (Token α) × Node α)}
    {ts rest : List (Token α)} (hs : Led (args.map Prod.fst) ts)
    (ha : ∀ a ∈ args, Reads .expression a.1 a.2) (hr : nextKind rest = .mark .rightParen)
    (fuel : Nat) (hf : ts.length ≤ fuel) :
    Agrees (moreFuel (expression frames) fuel (ts ++ rest)) (.ok (args.map Prod.snd) rest) := by
  induction args generalizing ts fuel with
  | nil =>
    cases hs
    refine .of_eq ?_
    cases fuel with
    | zero => rfl
    | succ fuel => rw [List.nil_append, moreFuel, takeMark?_eq_none (by simp [hr])]; rfl
  | cons a args ih =>
    cases hs with
    | @cons _ us _ text position hs =>
      cases fuel with
      | zero => simp at hf
      | succ fuel =>
        rw [List.cons_append, moreFuel, takeMark?_mark (List.mem_singleton_self _)]
        have hfirst := (ha a List.mem_cons_self).expression frames (nextKind_notMem_goesOn hs hr)
        have hmore := ih hs (fun b hb => ha b (List.mem_cons_of_mem _ hb)) fuel
          (by simp only [List.length_cons, List.length_append] at hf; omega)
        rw [← List.append_assoc] at hfirst
        exact hfirst.bind (hmore.bind (.of_eq rfl))

theorem agrees_arguments (frames : Nat) {args : List (List (Token α) × Node α)}
    {ts rest : List (Token α)} (hs : Separated (args.map Prod.fst) ts)
    (hd : ∀ a ∈ args, Derives .expression a.1 a.2)
    (ha : ∀ a ∈ args, Reads .expression a.1 a.2) (hr : nextKind rest = .mark .rightParen) :
    Agrees (arguments (expression frames) (ts ++ rest)) (.ok (args.map Prod.snd) rest) := by
  cases args with
  | nil =>
    cases hs
    exact .of_eq (if_pos hr)
  | cons a args =>
    cases hs with
    | @some _ us _ hs =>
      obtain ⟨t, vs, hvs, ht⟩ := (hd a List.mem_cons_self).starts
      have hne : nextKind (a.1 ++ us ++ rest) ≠ .mark .rightParen := by
        rw [hvs]
        exact ht
      rw [arguments, if_neg hne]
      have hfirst := (ha a List.mem_cons_self).expression frames (nextKind_notMem_goesOn hs hr)
      have hmore := agrees_moreFuel frames hs (fun b hb => ha b (List.mem_cons_of_mem _ hb)) hr
        (us ++ rest).length (by simp)
      rw [← List.append_assoc] at hfirst
      exact hfirst.bind (Agrees.bind hmore (.of_eq rfl))

theorem agrees_call (frames : Nat) {name left right : String} {i j k : Int}
    {args : List (List (Token α) × Node α)} {ts : List (Token α)}
    (hs : Separated (args.map Prod.fst) ts) (hd : ∀ a ∈ args, Derives .expression a.1 a.2)
    (ha : ∀ a ∈ args, Reads .expression a.1 a.2) (rest : List (Token α)) :
    Agrees
      (call frames (⟨.mark .identifier name, i⟩ :: ⟨.mark .leftParen left, j⟩ ::
        (ts ++ ⟨.mark .rightParen right, k⟩ :: rest)))
      (.ok (.call name (args.map Prod.snd)) rest) := by
  cases frames with
  | zero => exact agrees_throw _ _
  | succ frames =>
    rw [call]
    refine Agrees.bind (.of_eq expect_mark_ok) (Agrees.bind (.of_eq expect_mark_ok) ?_)
    exact (agrees_arguments frames hs hd ha rfl).bind
      (Agrees.bind (.of_eq expect_mark_ok) (.of_eq rfl))

theorem agrees_assignment (frames : Nat) {name text : String} {i j : Int} {ts rest : List (Token α)} {n : Node α}
    (h : Reads .expression ts n) (hr : nextKind rest ∉ goesOn) :
    Agrees (assignment frames (⟨.mark .identifier name, i⟩ :: ⟨.mark .equal text, j⟩ :: (ts ++ rest)))
      (.ok (.assignment name n) rest) := by
  cases frames with
  | zero => exact agrees_throw _ _
  | succ frames =>
    rw [assignment]
    exact Agrees.bind (.of_eq expect_mark_ok) (Agrees.bind (.of_eq expect_mark_ok)
      ((h.expression frames hr).bind (.of_eq rfl)))

/-- A name with a bracket behind it is a call, where an operand as well as where a statement is to begin. -/
theorem factor_eq_call (frames : Nat) (name left : String) (i j : Int) (us : List (Token α)) :
    factor (frames + 1) (⟨.mark .identifier name, i⟩ :: ⟨.mark .leftParen left, j⟩ :: us) =
      call frames (⟨.mark .identifier name, i⟩ :: ⟨.mark .leftParen left, j⟩ :: us) := by
  rw [factor]
  exact if_pos rfl

theorem statement_eq_call (frames : Nat) (name left : String) (i j : Int) (us : List (Token α)) :
    statement (frames + 1) (⟨.mark .identifier name, i⟩ :: ⟨.mark .leftParen left, j⟩ :: us) =
      call frames (⟨.mark .identifier name, i⟩ :: ⟨.mark .leftParen left, j⟩ :: us) := by
  rw [statement]
  exact (if_neg (by simp)).trans (if_pos rfl)

theorem statement_eq_assignment (frames : Nat) (name text : String) (i j : Int) (us : List (Token α)) :
    statement (frames + 1) (⟨.mark .identifier name, i⟩ :: ⟨.mark .equal text, j⟩ :: us) =
      assignment frames (⟨.mark .identifier name, i⟩ :: ⟨.mark .equal text, j⟩ :: us) := by
  rw [statement]
  exact if_pos rfl

/-- The procedures read what the grammar derives. -/
theorem reads_of_derives {p : Phrase} {ts : List (Token α)} {n : Node α} (h : Derives p ts n) :
    Reads p ts n := by
  induction h with
  | term _ ih =>
    intro frames rest hr
    exact (ih.term frames hr).bind (.of_eq rfl)
  | @sum m op position ls rs l r hm _ _ ihl ihr =>
    intro frames rest hr
    have hop : nextKind (⟨.mark m op, position⟩ :: (rs ++ rest) : List (Token α)) ∉
        [.mark .star, .mark .slash, .mark .leftParen] := by
      simp only [List.mem_cons, List.not_mem_nil, or_false] at hm
      rcases hm with rfl | rfl <;> simp
    rw [List.append_assoc, List.cons_append]
    exact (ihl frames _ hop).trans
      (agrees_chainFuel _ (Procedure.term.drops_read frames) hm op position l (ihr.term frames hr))
  | factor _ ih =>
    intro frames rest hr
    exact (ih frames rest hr).bind (.of_eq rfl)
  | @product m op position ls rs l r hm _ _ ihl ihr =>
    intro frames rest hr
    have hop : nextKind (⟨.mark m op, position⟩ :: (rs ++ rest) : List (Token α)) ≠ .mark .leftParen := by
      simp only [List.mem_cons, List.not_mem_nil, or_false] at hm
      rcases hm with rfl | rfl <;> simp
    rw [List.append_assoc, List.cons_append]
    exact (ihl frames _ hop).trans
      (agrees_chainFuel _ (Procedure.factor.drops_read frames) hm op position l (ihr frames rest hr))
  | number value position =>
    intro frames rest hr
    cases frames with
    | zero => exact agrees_throw _ _
    | succ frames => exact .of_eq rfl
  | name name position =>
    intro frames rest hr
    cases frames with
    | zero => exact agrees_throw _ _
    | succ frames => exact .of_eq (if_neg hr)
  | application h ih =>
    intro frames rest hr
    obtain ⟨name, i, left, j, us, rfl⟩ := h.call_head
    cases frames with
    | zero => exact agrees_throw _ _
    | succ frames =>
      rw [List.cons_append, List.cons_append, factor_eq_call]
      exact ih frames rest
  | group _ ih =>
    intro frames rest hr
    cases frames with
    | zero => exact agrees_throw _ _
    | succ frames =>
      rw [List.cons_append, List.append_assoc, factor]
      exact (ih.expression frames (by simp [goesOn])).bind
        (Agrees.bind (.of_eq expect_mark_ok) (.of_eq rfl))
  | negation _ ih =>
    intro frames rest hr
    cases frames with
    | zero => exact agrees_throw _ _
    | succ frames => exact (ih frames rest hr).bind (.of_eq rfl)
  | call args hs hd ih =>
    intro frames rest
    simpa using agrees_call frames hs hd ih rest
  | callStatement h ih =>
    intro frames rest hr
    obtain ⟨name, i, left, j, us, rfl⟩ := h.call_head
    cases frames with
    | zero => exact agrees_throw _ _
    | succ frames =>
      rw [List.cons_append, List.cons_append, statement_eq_call]
      exact ih frames rest
  | assignment _ ih =>
    intro frames rest hr
    cases frames with
    | zero => exact agrees_throw _ _
    | succ frames =>
      rw [List.cons_append, List.cons_append, statement_eq_assignment]
      exact agrees_assignment frames ih hr

theorem agrees_statementsFuel (frames : Nat) {ts rest : List (Token α)} {ns : List (Node α)}
    (h : Program ts ns) (hr : nextKind rest = .eof) (fuel : Nat) (hf : ts.length ≤ fuel) :
    Agrees (statementsFuel frames fuel (ts ++ rest)) (.ok ns rest) := by
  induction h generalizing fuel with
  | nil =>
    refine .of_eq ?_
    cases fuel with
    | zero => rfl
    | succ fuel => exact if_pos hr
  | @cons ts us n ns h hs ih =>
    obtain ⟨name, position, vs, rfl⟩ := h.statement_head
    cases fuel with
    | zero => simp at hf
    | succ fuel =>
      have hnext : nextKind (us ++ rest) ∉ goesOn := by
        cases hs with
        | nil => simp [goesOn, hr]
        | cons h' =>
          obtain ⟨name', position', vs', rfl⟩ := h'.statement_head
          simp [goesOn]
      have hfirst := reads_of_derives h frames (us ++ rest) hnext
      have hmore := ih fuel
        (by simp only [List.length_cons, List.length_append, List.cons_append] at hf; omega)
      rw [statementsFuel, if_neg (by simp), List.append_assoc]
      exact hfirst.bind (hmore.bind (.of_eq rfl))

theorem agrees_program (frames : Nat) {ts rest : List (Token α)} {ns : List (Node α)}
    (h : Program ts ns) (hr : nextKind rest = .eof) :
    Agrees (program frames (ts ++ rest)) (.ok (.program ns) rest) := by
  cases frames with
  | zero => exact agrees_throw _ _
  | succ frames =>
    have hs := agrees_statementsFuel frames h hr (ts ++ rest).length (by simp)
    exact Agrees.bind hs (.of_eq rfl)

end Posterior.Parser
