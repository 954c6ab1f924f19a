import Posterior.Proofs.Grammar.Recognition
import Posterior.Proofs.Spelling.Derivation

/-!
Programs one behind the other. A procedure takes the same from the same symbols wherever they stand, before
an end as well as before another statement, and within the same frames.
-/

set_option autoImplicit false

namespace Posterior.Parser

open Grammar

variable {α β γ : Type}

def Parts (back : List (Token α)) : Prop :=
  nextKind back = .eof ∨ nextKind back = .mark .identifier

theorem Parts.nextKind_ne {back : List (Token α)} (h : Parts back) {m : Mark} (hm : m ≠ .identifier) :
    nextKind back ≠ .mark m := by
  rintro he
  rcases h with h | h <;> rw [he] at h <;> cases h
  exact hm rfl

/-- What `p` takes off some tokens before `back` it takes off the same symbols before `back'`. -/
structure Repeats (p : Parse α β) : Prop where
  drops : Drops p
  repeats {us us' vs back back' : List (Token α)} {b : β} (hs : Carries us' (us.map Token.symbol))
    (hb : Parts back) (hb' : Parts back') (h : p (us ++ back) = .ok b (vs ++ back)) :
    ∃ vs', Carries vs' (vs.map Token.symbol) ∧ p (us' ++ back') = .ok b (vs' ++ back')

section Symbols

variable {us us' back back' : List (Token α)}

theorem nextKind_iff (hs : Carries us' (us.map Token.symbol)) (hb : Parts back) (hb' : Parts back')
    {m : Mark} (hm : m ≠ .identifier) :
    nextKind (us ++ back) = .mark m ↔ nextKind (us' ++ back') = .mark m := by
  cases us with
  | nil =>
    rw [hs.eq_nil]
    exact iff_of_false (hb.nextKind_ne hm) (hb'.nextKind_ne hm)
  | cons u us =>
    obtain ⟨i, ws, rfl, -⟩ := hs.exists_cons
    exact Iff.rfl

theorem takeMark?_repeats (hs : Carries us' (us.map Token.symbol)) (hb : Parts back)
    (hb' : Parts back') {marks : List Mark} (hm : .identifier ∉ marks) :
    (takeMark? marks (us ++ back) = none ∧ takeMark? marks (us' ++ back') = none) ∨
      ∃ text ws ws', Carries ws' (ws.map Token.symbol) ∧
        takeMark? marks (us ++ back) = some (text, ws ++ back) ∧
        takeMark? marks (us' ++ back') = some (text, ws' ++ back') := by
  have hnone {front : List (Token α)} (h : Parts front) : takeMark? marks front = none :=
    takeMark?_eq_none fun m hmem => h.nextKind_ne fun he => hm (he ▸ hmem)
  cases us with
  | nil =>
    rw [hs.eq_nil]
    exact .inl ⟨hnone hb, hnone hb'⟩
  | cons u us =>
    obtain ⟨symbol, i⟩ := u
    obtain ⟨i', ws, rfl, hw⟩ := hs.exists_cons
    cases symbol with
    | number | eof => exact .inl ⟨rfl, rfl⟩
    | mark m text =>
      by_cases hmem : m ∈ marks
      · exact .inr ⟨text, us, ws, hw, by simp [takeMark?, hmem], by simp [takeMark?, hmem]⟩
      · exact .inl ⟨by simp [takeMark?, hmem], by simp [takeMark?, hmem]⟩

end Symbols

section Closure

theorem repeats_pure (b : β) : Repeats (pure b : Parse α β) := by
  refine ⟨drops_pure b, fun {us us' vs back back' c} hs _ _ h => ?_⟩
  obtain ⟨rfl, he⟩ := Step.pure_ok h
  obtain rfl := List.append_cancel_right he
  exact ⟨us', hs, rfl⟩

theorem repeats_throw : Repeats (throw .tooDeep : Parse α β) :=
  ⟨drops_throw _, fun _ _ _ h => by cases h⟩

theorem Repeats.bind {p : Parse α β} {f : β → Parse α γ} (hp : Repeats p) (hf : ∀ b, Repeats (f b)) :
    Repeats (p >>= f) := by
  refine ⟨hp.drops.bind fun b => (hf b).drops, fun {us us' vs back back' c} hs hb hb' h => ?_⟩
  obtain ⟨b, mid, hmid, hend⟩ := Step.exists_of_bind_ok h
  -- The second procedure leaves `back` whole, so the first one does.
  have hdrop := (hf b).drops mid
  rw [hend] at hdrop
  obtain ⟨ws, rfl⟩ := hdrop
  rw [left, ← List.append_assoc] at hmid hend
  obtain ⟨ws', hw, hmid'⟩ := hp.repeats hs hb hb' hmid
  obtain ⟨vs', hv, hend'⟩ := (hf b).repeats hw hb hb' hend
  exact ⟨vs', hv, (Step.bind_ok hmid').trans hend'⟩

/-- A token that is asked for is taken before `back`, or less than `back` is left. -/
theorem repeats_expect {m : Mark} {context : String} {f : Token α → Parse α γ}
    (hf : ∀ t, Repeats (f t)) (he : ∀ text i i', f ⟨.mark m text, i⟩ = f ⟨.mark m text, i'⟩) :
    Repeats (expect (.mark m) context >>= f) := by
  refine ⟨(drops_expect _ _).bind fun t => (hf t).drops,
    fun {us us' vs back back' c} hs hb hb' h => ?_⟩
  obtain ⟨t, mid, ht, hend⟩ := Step.exists_of_bind_ok h
  obtain ⟨text, i, rfl, hts⟩ := exists_of_expect_ok ht
  cases us with
  | nil =>
    have hlen := (hf _).drops.length_le_of_ok hend
    rw [List.nil_append] at hts
    simp only [hts, List.length_append, List.length_cons] at hlen
    omega
  | cons u us =>
    cases hts
    obtain ⟨i', ws, rfl, hw⟩ := hs.exists_cons
    obtain ⟨vs', hv, hend'⟩ := (hf _).repeats hw hb hb' hend
    refine ⟨vs', hv, ?_⟩
    rw [List.cons_append, Step.bind_ok expect_mark_ok, he text i' i]
    exact hend'

/-- A loop with as much fuel as there are tokens repeats what it does with any fuel, if it needs no more. -/
theorem repeats_of_fuel {loop : Nat → Parse α β} (h : ∀ fuel, Repeats (loop fuel))
    (hl : ∀ fuel ts, ts.length ≤ fuel → loop fuel ts = loop ts.length ts) :
    Repeats fun ts => loop ts.length ts := by
  refine ⟨fun ts => (h ts.length).drops ts, fun {us us' vs back back' b} hs hb hb' he => ?_⟩
  have hfuel := hl (max (us ++ back).length (us' ++ back').length)
  rw [← hfuel _ (Nat.le_max_left _ _)] at he
  obtain ⟨vs', hv, he'⟩ := (h _).repeats hs hb hb' he
  rw [hfuel _ (Nat.le_max_right _ _)] at he'
  exact ⟨vs', hv, he'⟩

theorem ne_ok_of_yields {p : Parse α β} {P : List (Token α) → β → Prop} (hy : Yields p P)
    (hn : ∀ {ts b}, P ts b → ts ≠ []) (back vs : List (Token α)) (b : β) :
    p back ≠ .ok b (vs ++ back) := by
  intro h
  obtain ⟨us, hus, hP⟩ := hy _ _ _ h
  have hlen := congrArg List.length hus
  have hpos := List.length_pos_iff.mpr (hn hP)
  simp only [List.length_append] at hlen
  omega

variable {operand item : Parse α (Node α)}

theorem repeats_chainFuel {marks : List Mark} (hm : .identifier ∉ marks) (h : Repeats operand)
    (fuel : Nat) (n : Node α) : Repeats (chainFuel marks operand fuel n) := by
  induction fuel generalizing n with
  | zero => exact repeats_pure n
  | succ fuel ih =>
    refine ⟨drops_chainFuel h.drops _ n, fun {us us' vs back back' b} hs hb hb' he => ?_⟩
    rw [chainFuel] at he
    rw [chainFuel]
    rcases takeMark?_repeats hs hb hb' hm with ⟨hnone, hnone'⟩ | ⟨text, ws, ws', hw, hsome, hsome'⟩
    · rw [hnone] at he
      rw [hnone']
      exact (repeats_pure n).repeats hs hb hb' he
    · rw [hsome] at he
      rw [hsome']
      exact (h.bind fun right => ih _).repeats hw hb hb' he

theorem repeats_chain {marks : List Mark} (hm : .identifier ∉ marks) (h : Repeats operand) :
    Repeats (chain marks operand) :=
  h.bind fun n => repeats_of_fuel (fun fuel => repeats_chainFuel hm h fuel n)
    fun _ _ hf => chainFuel_of_le h.drops n hf

theorem repeats_moreFuel (h : Repeats item) (fuel : Nat) : Repeats (moreFuel item fuel) := by
  induction fuel with
  | zero => exact repeats_pure []
  | succ fuel ih =>
    refine ⟨drops_moreFuel h.drops _, fun {us us' vs back back' b} hs hb hb' he => ?_⟩
    rw [moreFuel] at he
    rw [moreFuel]
    rcases takeMark?_repeats hs hb hb' (show Mark.identifier ∉ [.comma] by decide) with
      ⟨hnone, hnone'⟩ | ⟨text, ws, ws', hw, hsome, hsome'⟩
    · rw [hnone] at he
      rw [hnone']
      exact (repeats_pure []).repeats hs hb hb' he
    · rw [hsome] at he
      rw [hsome']
      exact (h.bind fun first => ih.bind fun others => repeats_pure (first :: others)).repeats hw hb hb' he

theorem repeats_arguments (h : Repeats item) : Repeats (arguments item) := by
  refine ⟨drops_arguments h.drops, fun {us us' vs back back' b} hs hb hb' he => ?_⟩
  have hnext := nextKind_iff hs hb hb' (show Mark.rightParen ≠ .identifier by decide)
  rw [arguments] at he
  rw [arguments]
  split at he
  · next hk =>
    rw [if_pos (hnext.mp hk)]
    exact (repeats_pure []).repeats hs hb hb' he
  · next hk =>
    rw [if_neg (mt hnext.mpr hk)]
    exact (h.bind fun first => (repeats_of_fuel (repeats_moreFuel h)
      fun _ _ hf => moreFuel_of_le h.drops hf).bind fun others =>
        repeats_pure (first :: others)).repeats hs hb hb' he

end Closure

variable [Arithmetic α]

theorem ne_nil_of_derives {p : Phrase} {ts : List (Token α)} {n : Node α} (h : Derives p ts n) :
    ts ≠ [] := by
  obtain ⟨t, us, rfl, -⟩ := h.starts
  exact List.cons_ne_nil t us

theorem repeats_factor {frames : Nat} (he : Repeats (expression frames : Parse α (Node α)))
    (hf : Repeats (factor frames : Parse α (Node α))) (hc : Repeats (call frames : Parse α (Node α))) :
    Repeats (factor (frames + 1) : Parse α (Node α)) := by
  refine ⟨Procedure.factor.drops_read (frames + 1), fun {us us' vs back back' b} hs hb hb' h => ?_⟩
  cases us with
  | nil => exact absurd h (ne_ok_of_yields (yields_procedures _).2.2.1 ne_nil_of_derives back vs b)
  | cons u us =>
    obtain ⟨symbol, i⟩ := u
    obtain ⟨i', ws, rfl, hw⟩ := hs.exists_cons
    cases symbol with
    | number value => exact (repeats_pure (Node.number value)).repeats hw hb hb' h
    | eof => cases h
    | mark m name =>
      cases m with
      | identifier =>
        have hnext := nextKind_iff hw hb hb' (show Mark.leftParen ≠ .identifier by decide)
        rw [List.cons_append, factor] at h ⊢
        dsimp only at h ⊢
        split at h
        · next hk =>
          rw [if_pos (hnext.mp hk)]
          exact hc.repeats hs hb hb' h
        · next hk =>
          rw [if_neg (mt hnext.mpr hk)]
          exact (repeats_pure (Node.var name)).repeats hw hb hb' h
      | leftParen =>
        exact (he.bind fun inner => repeats_expect (fun _ => repeats_pure inner)
          fun _ _ _ => rfl).repeats hw hb hb' h
      | minus =>
        exact (hf.bind fun operand => repeats_pure
          (Node.binary "-" (.number Arithmetic.zero) operand)).repeats hw hb hb' h
      | plus | star | slash | equal | rightParen | comma => cases h

theorem repeats_call {frames : Nat} (he : Repeats (expression frames : Parse α (Node α))) :
    Repeats (call (frames + 1) : Parse α (Node α)) := by
  rw [call]
  exact repeats_expect (fun name => repeats_expect (fun _ => (repeats_arguments he).bind fun args =>
    repeats_expect (fun _ => repeats_pure (Node.call name.text args)) fun _ _ _ => rfl)
      fun _ _ _ => rfl) fun _ _ _ => rfl

theorem repeats_procedures (frames : Nat) :
    Repeats (expression frames : Parse α (Node α)) ∧ Repeats (term frames : Parse α (Node α)) ∧
      Repeats (factor frames : Parse α (Node α)) ∧ Repeats (call frames : Parse α (Node α)) := by
  induction frames with
  | zero => exact ⟨repeats_throw, repeats_throw, repeats_throw, repeats_throw⟩
  | succ frames ih =>
    obtain ⟨he, ht, hf, hc⟩ := ih
    exact ⟨repeats_chain (by decide) ht, repeats_chain (by decide) hf, repeats_factor he hf hc, repeats_call he⟩

theorem repeats_assignment (frames : Nat) : Repeats (assignment frames : Parse α (Node α)) := by
  cases frames with
  | zero => exact repeats_throw
  | succ frames =>
    exact repeats_expect (fun name => repeats_expect (fun _ => (repeats_procedures frames).1.bind
      fun expr => repeats_pure (Node.assignment name.text expr)) fun _ _ _ => rfl) fun _ _ _ => rfl

theorem repeats_statement (frames : Nat) : Repeats (statement frames : Parse α (Node α)) := by
  cases frames with
  | zero => exact repeats_throw
  | succ frames =>
    refine ⟨Procedure.statement.drops_read (frames + 1), fun {us us' vs back back' b} hs hb hb' h => ?_⟩
    cases us with
    | nil => exact absurd h (ne_ok_of_yields (yields_statement _) ne_nil_of_derives back vs b)
    | cons u us =>
      obtain ⟨symbol, i⟩ := u
      obtain ⟨i', ws, rfl, hw⟩ := hs.exists_cons
      cases symbol with
      | number | eof => cases h
      | mark m name =>
        cases m with
        | identifier =>
          have hequal := nextKind_iff hw hb hb' (show Mark.equal ≠ .identifier by decide)
          have hparen := nextKind_iff hw hb hb' (show Mark.leftParen ≠ .identifier by decide)
          rw [List.cons_append, statement] at h ⊢
          dsimp only at h ⊢
          split at h
          · next hk =>
            rw [if_pos (hequal.mp hk)]
            exact (repeats_assignment frames).repeats hs hb hb' h
          · next hk =>
            rw [if_neg (mt hequal.mpr hk)]
            split at h
            · next hk' =>
              rw [if_pos (hparen.mp hk')]
              exact (repeats_procedures frames).2.2.2.repeats hs hb hb' h
            · cases h
        | leftParen | minus | plus | star | slash | equal | rightParen | comma => cases h

theorem statements_ok_iff {frames : Nat} {ts rest : List (Token α)} {ns : List (Node α)} :
    statementsFuel frames ts.length ts = .ok ns rest ↔
      (nextKind ts = .eof ∧ ns = [] ∧ rest = ts) ∨
        (nextKind ts ≠ .eof ∧ ∃ n ms mid, statement frames ts = .ok n mid ∧
          statementsFuel frames mid.length mid = .ok ms rest ∧ ns = n :: ms) := by
  cases ts with
  | nil => simp [statementsFuel, eq_comm]
  | cons t ts =>
    rw [List.length_cons, statementsFuel]
    by_cases hk : nextKind (t :: ts) = .eof
    · simp [hk, eq_comm]
    · rw [if_neg hk]
      constructor
      · intro h
        obtain ⟨n, mid, hn, hmore⟩ := Step.exists_of_bind_ok h
        obtain ⟨ms, last, hm, hend⟩ := Step.exists_of_bind_ok hmore
        obtain ⟨rfl, rfl⟩ := Step.pure_ok hend
        rw [statementsFuel_of_le (Nat.le_of_lt_succ (length_lt_of_statement hn))] at hm
        exact .inr ⟨hk, n, ms, mid, hn, hm, rfl⟩
      · rintro (⟨he, -⟩ | ⟨-, n, ms, mid, hn, hm, rfl⟩)
        · exact absurd he hk
        · rw [← statementsFuel_of_le (Nat.le_of_lt_succ (length_lt_of_statement hn))] at hm
          rw [Step.bind_ok hn, Step.bind_ok hm]
          rfl

/-- Statements read up to an end are read before other statements too, which are read next. -/
theorem statements_append {frames : Nat} {us us' back back' rest : List (Token α)}
    {ns ms : List (Node α)} (hs : Carries us' (us.map Token.symbol)) (hb : nextKind back = .eof)
    (hb' : Parts back')
    (h : statementsFuel frames (us ++ back).length (us ++ back) = .ok ns back)
    (h' : statementsFuel frames back'.length back' = .ok ms rest) :
    statementsFuel frames (us' ++ back').length (us' ++ back') = .ok (ns ++ ms) rest := by
  induction ns generalizing us us' with
  | nil =>
    rcases statements_ok_iff.mp h with ⟨-, -, hrest⟩ | ⟨-, n, others, mid, -, -, hcons⟩
    · obtain rfl : us = [] := List.self_eq_append_left.mp hrest
      rw [hs.eq_nil]
      exact h'
    · cases hcons
  | cons n ns ih =>
    rcases statements_ok_iff.mp h with ⟨-, hnil, -⟩ | ⟨hk, n', others, mid, hn, hmore, hcons⟩
    · cases hnil
    cases hcons
    obtain ⟨ws, rfl⟩ : back <:+ mid := by
      have hdrop := drops_statementsFuel frames mid.length mid
      rwa [hmore] at hdrop
    obtain ⟨ws', hw, hn'⟩ := (repeats_statement frames).repeats hs (.inl hb) hb' hn
    refine statements_ok_iff.mpr (.inr ⟨?_, n, ns ++ ms, ws' ++ back', hn', ih hw hmore, rfl⟩)
    cases us with
    | nil => exact absurd hb hk
    | cons u us =>
      obtain ⟨i', vs, rfl, -⟩ := hs.exists_cons
      exact hk

theorem program_end (frames : Nat) {ts : List (Token α)} (h : nextKind ts = .eof) :
    program (frames + 1) ts = .ok (.program []) ts := by
  rw [program_succ]
  cases ts with
  | nil => rfl
  | cons t ts => rw [List.length_cons, statementsFuel, if_pos h]

theorem program_append {frames : Nat} {us us' back back' rest : List (Token α)}
    {ns ms : List (Node α)} (hs : Carries us' (us.map Token.symbol)) (hb : nextKind back = .eof)
    (h : program frames (us ++ back) = .ok (.program ns) back)
    (h' : program frames back' = .ok (.program ms) rest) :
    program frames (us' ++ back') = .ok (.program (ns ++ ms)) rest := by
  have hparts : Parts back' := by
    obtain ⟨vs, ks, rfl, hp, he, -⟩ := program_sound h'
    cases hp with
    | nil => exact .inl he
    | cons hd _ =>
      obtain ⟨name, i, ws, rfl⟩ := hd.statement_head
      exact .inr rfl
  cases frames with
  | zero => cases h
  | succ frames =>
    rw [program_succ] at h h' ⊢
    split at h
    · next hread =>
      cases h
      split at h'
      · next hread' =>
        cases h'
        rw [statements_append hs hb hparts hread hread']
      · cases h'
    · cases h

end Posterior.Parser

namespace Posterior

open Grammar Posterior.Parser

theorem closeTokens_append {α : Type} (front : List (Token α)) {ts : List (Token α)} (h : ts ≠ []) :
    closeTokens (front ++ ts) = front ++ closeTokens ts := by
  obtain ⟨init, t, rfl⟩ := (List.eq_nil_or_concat ts).resolve_left h
  rw [List.concat_eq_append, ← List.append_assoc]
  simp only [closeTokens, List.getLast?_concat]
  split <;> simp

theorem program_of_parse {ts : List (Token Float)} {ns : List (Node Float)}
    (h : parse ts = .program ns) :
    ∃ back, closeTokens ts = visible ts ++ back ∧ nextKind back = .eof ∧
      program frameLimit (visible ts ++ back) = .ok (.program ns) back := by
  obtain ⟨rest, hclose, hrest⟩ := exists_closeTokens ts
  unfold parse at h
  split at h
  · next tree left hr =>
    subst h
    obtain ⟨us, ms, hts, hp, hleft, hms⟩ := program_sound hr
    cases hms
    have hu := visible_append (fun t => hp.kind_ne_eof) hleft
    have hv := visible_append (fun t => @kind_ne_eof_of_visible _ ts t) hrest
    rw [← hts, hclose, hv] at hu
    subst hu
    exact ⟨left, hts, hleft, hts ▸ hr⟩
  · cases h
  · cases h

theorem nextKind_of_carries {α : Type} {ts ts' : List (Token α)}
    (h : Carries ts' (ts.map Token.symbol)) : nextKind ts' = nextKind ts := by
  cases ts with
  | nil => rw [h.eq_nil]
  | cons t ts =>
    obtain ⟨i, us, rfl, -⟩ := h.exists_cons
    rfl

theorem closeTokens_of_carries {α : Type} {front ts : List (Token α)} {e : Token α}
    (he : e.kind = .eof) (h : Carries ts ((front ++ [e]).map Token.symbol)) : closeTokens ts = ts := by
  rw [List.map_append, List.map_singleton] at h
  obtain ⟨us, vs, rfl, -, hv⟩ := h.exists_append
  obtain ⟨i, ws, rfl, hw⟩ := hv.exists_cons
  rw [hw.eq_nil]
  have hk : (⟨e.symbol, i⟩ : Token α).kind = .eof := he
  simp [closeTokens, hk]

/-- The tokens of two programs, one behind the other, are a program: the second one may stand anywhere. -/
theorem parse_visible_append {ts us us' : List (Token Float)} {ns ms : List (Node Float)}
    (hn : parse ts = .program ns) (hm : parse us = .program ms) (hs : Carries us' (us.map Token.symbol))
    (he : ∃ front e, us = front ++ [e] ∧ e.kind = .eof) :
    parse (visible ts ++ us') = .program (ns ++ ms) := by
  obtain ⟨back, -, hb, hread⟩ := program_of_parse hn
  obtain ⟨back', hclose', hb', hread'⟩ := program_of_parse hm
  obtain ⟨front, e, rfl, hk⟩ := he
  have hclosed : closeTokens us' = us' := closeTokens_of_carries hk hs
  have hne : us' ≠ [] := by
    rintro rfl
    simp [Carries] at hs
  rw [closeTokens_of_carries hk rfl] at hclose'
  rw [hclose', List.map_append] at hs
  obtain ⟨ws, tail, rfl, hw, ht⟩ := hs.exists_append
  have hend : program frameLimit tail = .ok (.program []) tail :=
    program_end 999 ((nextKind_of_carries ht).trans hb')
  have hsecond := program_append hw hb' hread' hend
  have hself : Carries (visible ts) ((visible ts).map Token.symbol) := rfl
  have hboth := program_append hself hb hread hsecond
  rw [List.append_nil] at hboth
  unfold parse
  rw [closeTokens_append _ hne, hclosed, hboth]

end Posterior
