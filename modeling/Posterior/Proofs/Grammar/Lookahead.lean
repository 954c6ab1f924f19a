import Posterior.Proofs.Grammar.Locality
import Posterior.Proofs.Grammar.Prefix

/-!
How far the procedures look. As long as a procedure has not come to the end of some tokens, what it does
depends on their kinds and on nothing behind them.
-/

set_option autoImplicit false

namespace Posterior.Parser

variable {α β γ : Type}

inductive SameKinds : List (Token α) → List (Token α) → Prop where
  | nil : SameKinds [] []
  | number {us us' : List (Token α)} (value value' : α) (i i' : Int) (h : SameKinds us us') :
      SameKinds (⟨.number value, i⟩ :: us) (⟨.number value', i'⟩ :: us')
  | mark {us us' : List (Token α)} (m : Mark) (text text' : String) (i i' : Int)
      (h : SameKinds us us') : SameKinds (⟨.mark m text, i⟩ :: us) (⟨.mark m text', i'⟩ :: us')
  | eof {us us' : List (Token α)} (i i' : Int) (h : SameKinds us us') :
      SameKinds (⟨.eof, i⟩ :: us) (⟨.eof, i'⟩ :: us')

theorem sameKinds_of_map {us us' : List (Token α)} (h : us.map Token.kind = us'.map Token.kind) :
    SameKinds us us' := by
  induction us generalizing us' with
  | nil =>
    cases us' with
    | nil => exact .nil
    | cons => cases h
  | cons t us ih =>
    cases us' with
    | nil => cases h
    | cons t' us' =>
      simp only [List.map_cons, List.cons.injEq] at h
      have hs := ih h.2
      obtain ⟨symbol, i⟩ := t
      obtain ⟨symbol', i'⟩ := t'
      cases symbol <;> cases symbol' <;> cases h.1
      · exact .number _ _ _ _ hs
      · exact .mark _ _ _ _ _ hs
      · exact .eof _ _ hs

theorem SameKinds.refl (us : List (Token α)) : SameKinds us us := sameKinds_of_map rfl

theorem SameKinds.nextKind_eq {us us' : List (Token α)} (h : SameKinds us us') (hn : us ≠ [])
    (back back' : List (Token α)) : nextKind (us' ++ back') = nextKind (us ++ back) := by
  cases h with
  | nil => exact absurd rfl hn
  | number | mark | eof => rfl

/-- The tokens an outcome leaves or is stuck at. Where the frames ran out the next token may have been looked
at, as the call of a name is told by what stands behind the name. -/
def place : EStateM.Result (ParseStop α) (List (Token α)) β → List (Token α)
  | .ok _ rest => rest
  | .error (.fault f) rest => stuck f rest
  | .error .tooDeep rest => rest.tail

theorem length_place_le (r : EStateM.Result (ParseStop α) (List (Token α)) β) :
    (place r).length ≤ (left r).length := by
  unfold place
  split
  · exact Nat.le_refl _
  · next f rest => exact (stuck_suffix f rest).length_le
  · next rest => simp [left]

/-- Of two outcomes before `back` and `back'`, the first one has come that far, or both leave, are stuck at or
have no frames left before tokens of the same kinds before it. -/
inductive Foreseen (back back' : List (Token α)) :
    EStateM.Result (ParseStop α) (List (Token α)) β →
      EStateM.Result (ParseStop α) (List (Token α)) β → Prop where
  | past {r r' : EStateM.Result (ParseStop α) (List (Token α)) β}
      (h : (place r).length ≤ back.length) : Foreseen back back' r r'
  | ok {us us' : List (Token α)} (b b' : β) (h : SameKinds us us') (hn : us ≠ []) :
      Foreseen back back' (.ok b (us ++ back)) (.ok b' (us' ++ back'))
  | fault {us us' rest rest' : List (Token α)} {f f' : ParseFault α} (h : SameKinds us us')
      (hn : us ≠ []) (hs : stuck f rest = us ++ back) (hs' : stuck f' rest' = us' ++ back') :
      Foreseen back back' (.error (.fault f) rest) (.error (.fault f') rest')
  | deep {us us' : List (Token α)} (h : SameKinds us us') (hn : us ≠ []) :
      Foreseen back back' (.error .tooDeep (us ++ back)) (.error .tooDeep (us' ++ back'))

structure Foresees (p p' : Parse α β) : Prop where
  drops : Drops p
  foreseen {us us' : List (Token α)} (h : SameKinds us us') (back back' : List (Token α)) :
    Foreseen back back' (p (us ++ back)) (p' (us' ++ back'))

section Outcomes

variable {back back' us us' : List (Token α)}

theorem foreseen_ok (h : SameKinds us us') (b b' : β) :
    Foreseen back back' (.ok b (us ++ back)) (.ok b' (us' ++ back')) := by
  by_cases hn : us = []
  · subst hn
    exact .past (Nat.le_refl _)
  · exact .ok b b' h hn

theorem foreseen_fail (h : SameKinds us us') {cause cause' : ParseCause}
    (hc : ∀ name, cause ≠ .afterIdentifier name) (hc' : ∀ name, cause' ≠ .afterIdentifier name) :
    Foreseen back back' ((fail cause : Parse α β) (us ++ back)) (fail cause' (us' ++ back')) := by
  have hs {cause : ParseCause} (hc : ∀ name, cause ≠ .afterIdentifier name)
      (found : Option (Token α)) (rest : List (Token α)) : stuck ⟨cause, found⟩ rest = rest := by
    unfold stuck
    split
    · next name h => exact absurd h (hc name)
    · rfl
  by_cases hn : us = []
  · subst hn
    refine .past ?_
    rw [fail, place, hs hc]
    exact Nat.le_refl _
  · exact .fault h hn (hs hc _ _) (hs hc' _ _)

theorem Foreseen.of_drops {p : Parse α β} (hd : Drops p) {ts : List (Token α)}
    (ht : ts.length ≤ back.length) {r' : EStateM.Result (ParseStop α) (List (Token α)) β} :
    Foreseen back back' (p ts) r' := by
  have hp := length_place_le (p ts)
  have hl := (hd ts).length_le
  exact .past (by omega)

end Outcomes

theorem foresees_pure (b b' : β) : Foresees (pure b : Parse α β) (pure b') :=
  ⟨drops_pure b, fun h _ _ => foreseen_ok h b b'⟩

theorem foresees_throw : Foresees (throw .tooDeep : Parse α β) (throw .tooDeep) := by
  refine ⟨drops_throw _, @fun us us' h back back' => ?_⟩
  by_cases hn : us = []
  · subst hn
    exact .of_drops (drops_throw _) (Nat.le_refl _)
  · exact .deep h hn

theorem Foresees.bind {p p' : Parse α β} {f f' : β → Parse α γ} (hp : Foresees p p')
    (hf : ∀ b b', Foresees (f b) (f' b')) : Foresees (p >>= f) (p' >>= f') := by
  refine ⟨hp.drops.bind fun b => (hf b b).drops, @fun us us' h back back' => ?_⟩
  have hout := hp.foreseen h back back'
  generalize hr : p (us ++ back) = r at hout
  generalize hr' : p' (us' ++ back') = r' at hout
  cases hout with
  | past hl =>
    -- What comes next only moves further on.
    cases r with
    | ok b rest =>
      rw [Step.bind_ok hr]
      exact .of_drops (hf b b).drops hl
    | error stop rest =>
      rw [Step.bind_error hr]
      cases stop <;> exact .past hl
  | ok b b' hs hn =>
    rw [Step.bind_ok hr, Step.bind_ok hr']
    exact (hf b b').foreseen hs back back'
  | fault hs hn hst hst' =>
    rw [Step.bind_error hr, Step.bind_error hr']
    exact .fault hs hn hst hst'
  | deep hs hn =>
    rw [Step.bind_error hr, Step.bind_error hr']
    exact .deep hs hn

theorem foresees_expect (m : Mark) (context context' : String) :
    Foresees (expect (.mark m) context : Parse α (Token α)) (expect (.mark m) context') := by
  refine ⟨drops_expect _ _, @fun us us' h back back' => ?_⟩
  cases h with
  | nil => exact .of_drops (drops_expect _ _) (Nat.le_refl _)
  | number _ _ _ _ h => exact foreseen_fail (.number _ _ _ _ h) nofun nofun
  | eof _ _ h => exact foreseen_fail (.eof _ _ h) nofun nofun
  | mark m' text text' i i' h =>
    by_cases hm : m' = m
    · subst hm
      rw [List.cons_append, List.cons_append, expect_mark_ok, expect_mark_ok]
      exact foreseen_ok h _ _
    · have hk : Kind.mark m' ≠ Kind.mark m := fun hk => hm (Kind.mark.inj hk)
      simp only [List.cons_append, expect, Token.kind_mark, hk, ne_eq, not_false_eq_true, if_true]
      exact foreseen_fail (.mark m' text text' i i' h) nofun nofun

theorem SameKinds.takeMark? {us us' : List (Token α)} (h : SameKinds us us') (hn : us ≠ [])
    (marks : List Mark) (back back' : List (Token α)) :
    (takeMark? marks (us ++ back) = none ∧ takeMark? marks (us' ++ back') = none) ∨
      ∃ text text' vs vs', SameKinds vs vs' ∧
        takeMark? marks (us ++ back) = some (text, vs ++ back) ∧
        takeMark? marks (us' ++ back') = some (text', vs' ++ back') := by
  cases h with
  | nil => exact absurd rfl hn
  | number | eof => exact .inl ⟨rfl, rfl⟩
  | mark m text text' i i' h =>
    by_cases hm : m ∈ marks
    · exact .inr ⟨text, text', _, _, h, takeMark?_mark hm, takeMark?_mark hm⟩
    · simp [Parser.takeMark?, hm]

theorem foresees_of_fuel {loop loop' : Nat → Parse α β}
    (h : ∀ fuel, Foresees (loop fuel) (loop' fuel))
    (hl : ∀ fuel ts, ts.length ≤ fuel → loop fuel ts = loop ts.length ts)
    (hl' : ∀ fuel ts, ts.length ≤ fuel → loop' fuel ts = loop' ts.length ts) :
    Foresees (fun ts => loop ts.length ts) (fun ts => loop' ts.length ts) := by
  refine ⟨fun ts => (h ts.length).drops ts, @fun us us' hs back back' => ?_⟩
  have hf := (h ((us ++ back).length + (us' ++ back').length)).foreseen hs back back'
  rwa [hl _ _ (Nat.le_add_right _ _), hl' _ _ (Nat.le_add_left _ _)] at hf

section Loops

variable {marks : List Mark} {p : Parse α (Node α)}

theorem foresees_chainFuel (h : Foresees p p) (fuel : Nat) (n n' : Node α) :
    Foresees (chainFuel marks p fuel n) (chainFuel marks p fuel n') := by
  induction fuel generalizing n n' with
  | zero => exact ⟨drops_chainFuel h.drops 0 n, fun hs _ _ => foreseen_ok hs n n'⟩
  | succ fuel ih =>
    refine ⟨drops_chainFuel h.drops _ n, @fun us us' hs back back' => ?_⟩
    by_cases hn : us = []
    · subst hn
      exact .of_drops (drops_chainFuel h.drops _ n) (Nat.le_refl _)
    · rw [chainFuel, chainFuel]
      rcases hs.takeMark? hn marks back back' with ⟨hm, hm'⟩ | ⟨op, op', vs, vs', hv, hm, hm'⟩
      · rw [hm, hm']
        exact foreseen_ok hs n n'
      · rw [hm, hm']
        exact (h.bind fun r r' => ih _ _).foreseen hv back back'

theorem foresees_chain (h : Foresees p p) : Foresees (chain marks p) (chain marks p) :=
  h.bind fun n n' => foresees_of_fuel (fun fuel => foresees_chainFuel h fuel n n')
    (fun _ _ hf => chainFuel_of_le h.drops n hf) fun _ _ hf => chainFuel_of_le h.drops n' hf

theorem foresees_moreFuel (h : Foresees p p) (fuel : Nat) :
    Foresees (moreFuel p fuel) (moreFuel p fuel) := by
  induction fuel with
  | zero => exact ⟨drops_moreFuel h.drops 0, fun hs _ _ => foreseen_ok hs [] []⟩
  | succ fuel ih =>
    refine ⟨drops_moreFuel h.drops _, @fun us us' hs back back' => ?_⟩
    by_cases hn : us = []
    · subst hn
      exact .of_drops (drops_moreFuel h.drops _) (Nat.le_refl _)
    · rw [moreFuel, moreFuel]
      rcases hs.takeMark? hn [.comma] back back' with ⟨hm, hm'⟩ | ⟨op, op', vs, vs', hv, hm, hm'⟩
      · rw [hm, hm']
        exact foreseen_ok hs [] []
      · rw [hm, hm']
        exact (h.bind fun n n' => ih.bind fun ns ns' =>
          foresees_pure (n :: ns) (n' :: ns')).foreseen hv back back'

theorem foresees_arguments (h : Foresees p p) : Foresees (arguments p) (arguments p) := by
  refine ⟨drops_arguments h.drops, @fun us us' hs back back' => ?_⟩
  by_cases hn : us = []
  · subst hn
    exact .of_drops (drops_arguments h.drops) (Nat.le_refl _)
  · rw [arguments, arguments, hs.nextKind_eq hn back back']
    split
    · exact foreseen_ok hs [] []
    · have hmore := foresees_of_fuel (foresees_moreFuel h) (fun _ _ hf => moreFuel_of_le h.drops hf)
        fun _ _ hf => moreFuel_of_le h.drops hf
      exact (h.bind fun n n' => hmore.bind fun ns ns' =>
        foresees_pure (n :: ns) (n' :: ns')).foreseen hs back back'

end Loops

theorem foreseen_taken {m : Mark} {context : String} {f : Token α → Parse α β}
    (hd : ∀ t, Drops (f t)) {back back' : List (Token α)} (text : String) (i : Int)
    {r' : EStateM.Result (ParseStop α) (List (Token α)) β} :
    Foreseen back back' ((expect (.mark m) context >>= f) (⟨.mark m text, i⟩ :: back)) r' := by
  rw [Step.bind_ok expect_mark_ok]
  exact .of_drops (hd _) (Nat.le_refl _)

section Names

variable [Arithmetic α] {back back' : List (Token α)}
  {r' : EStateM.Result (ParseStop α) (List (Token α)) (Node α)}

theorem foreseen_call (frames : Nat) (name : String) (i : Int) :
    Foreseen back back' (call frames (⟨.mark .identifier name, i⟩ :: back)) r' := by
  cases frames with
  | zero => exact .past (Nat.le_refl _)
  | succ frames =>
    exact foreseen_taken (fun t => (drops_expect _ _).bind fun _ =>
      (drops_arguments (Procedure.expression.drops_read frames)).bind fun args => (drops_expect _ _).bind fun _ =>
        drops_pure (Node.call t.text args)) name i

theorem foreseen_assignment (frames : Nat) (name : String) (i : Int) :
    Foreseen back back' (assignment frames (⟨.mark .identifier name, i⟩ :: back)) r' := by
  cases frames with
  | zero => exact .past (Nat.le_refl _)
  | succ frames =>
    exact foreseen_taken (fun t => (drops_expect _ _).bind fun _ => (Procedure.expression.drops_read frames).bind
      fun expr => drops_pure (Node.assignment t.text expr)) name i

end Names

variable [Arithmetic α]

theorem foresees_factor {frames : Nat} (he : Foresees (expression frames : Parse α (Node α)) (expression frames))
    (hf : Foresees (factor frames : Parse α (Node α)) (factor frames))
    (hc : Foresees (call frames : Parse α (Node α)) (call frames)) :
    Foresees (factor (frames + 1) : Parse α (Node α)) (factor (frames + 1)) := by
  have hd := @Procedure.drops_read α _ .factor (frames + 1)
  refine ⟨hd, @fun us us' hs back back' => ?_⟩
  have hshape := hs
  cases hshape with
  | nil => exact .of_drops hd (Nat.le_refl _)
  | number _ _ _ _ h => exact foreseen_ok h _ _
  | eof => exact foreseen_fail hs nofun nofun
  | @mark vs vs' m name name' i i' h =>
    cases m with
    | identifier =>
      -- Whether this is a call is told by the token behind the name, which may be the first of `back`.
      by_cases hn : vs = []
      · subst hn
        rw [List.cons_append, List.nil_append, factor]
        dsimp only
        split
        · exact foreseen_call frames name i
        · exact .past (Nat.le_refl _)
      · rw [List.cons_append, List.cons_append, factor]
        dsimp only
        rw [h.nextKind_eq hn back back']
        split
        · exact hc.foreseen hs back back'
        · exact foreseen_ok h _ _
    | leftParen =>
      exact (he.bind fun n n' => (foresees_expect _ _ _).bind fun _ _ =>
        foresees_pure n n').foreseen h back back'
    | minus =>
      exact (hf.bind fun n n' => foresees_pure (Node.binary "-" (.number Arithmetic.zero) n)
        (Node.binary "-" (.number Arithmetic.zero) n')).foreseen h back back'
    | plus | star | slash | equal | rightParen | comma => exact foreseen_fail hs nofun nofun

theorem foresees_call {frames : Nat} (he : Foresees (expression frames : Parse α (Node α)) (expression frames)) :
    Foresees (call (frames + 1) : Parse α (Node α)) (call (frames + 1)) := by
  rw [call]
  exact (foresees_expect _ _ _).bind fun t t' => (foresees_expect _ _ _).bind fun _ _ =>
    (foresees_arguments he).bind fun ns ns' => (foresees_expect _ _ _).bind fun _ _ =>
      foresees_pure (Node.call t.text ns) (Node.call t'.text ns')

theorem foresees_procedures (frames : Nat) :
    Foresees (expression frames : Parse α (Node α)) (expression frames) ∧
      Foresees (term frames : Parse α (Node α)) (term frames) ∧
      Foresees (factor frames : Parse α (Node α)) (factor frames) ∧
      Foresees (call frames : Parse α (Node α)) (call frames) := by
  induction frames with
  | zero => exact ⟨foresees_throw, foresees_throw, foresees_throw, foresees_throw⟩
  | succ frames ih =>
    obtain ⟨he, ht, hf, hc⟩ := ih
    exact ⟨foresees_chain ht, foresees_chain hf, foresees_factor he hf hc, foresees_call he⟩

theorem foresees_assignment (frames : Nat) :
    Foresees (assignment frames : Parse α (Node α)) (assignment frames) := by
  cases frames with
  | zero => exact foresees_throw
  | succ frames =>
    exact (foresees_expect _ _ _).bind fun t t' => (foresees_expect _ _ _).bind fun _ _ =>
      (foresees_procedures frames).1.bind fun n n' =>
        foresees_pure (Node.assignment t.text n) (Node.assignment t'.text n')

theorem foresees_statement (frames : Nat) :
    Foresees (statement frames : Parse α (Node α)) (statement frames) := by
  cases frames with
  | zero => exact foresees_throw
  | succ frames =>
    have hd := @Procedure.drops_read α _ .statement (frames + 1)
    refine ⟨hd, @fun us us' hs back back' => ?_⟩
    have hshape := hs
    cases hshape with
    | nil => exact .of_drops hd (Nat.le_refl _)
    | number | eof => exact foreseen_fail hs nofun nofun
    | @mark vs vs' m name name' i i' h =>
      cases m with
      | identifier =>
        by_cases hn : vs = []
        · subst hn
          rw [List.cons_append, List.nil_append, statement]
          dsimp only
          split
          · exact foreseen_assignment frames name i
          · split
            · exact foreseen_call frames name i
            · exact .past (Nat.le_refl _)
        · rw [List.cons_append, List.cons_append, statement]
          dsimp only
          rw [h.nextKind_eq hn back back']
          split
          · exact (foresees_assignment frames).foreseen hs back back'
          · split
            · exact (foresees_procedures frames).2.2.2.foreseen hs back back'
            · exact .fault h hn rfl rfl
      | leftParen | minus | plus | star | slash | equal | rightParen | comma =>
        exact foreseen_fail hs nofun nofun

theorem foresees_statementsFuel (frames fuel : Nat) :
    Foresees (statementsFuel frames fuel : Parse α (List (Node α))) (statementsFuel frames fuel) := by
  induction fuel with
  | zero => exact ⟨drops_statementsFuel frames 0, fun hs _ _ => foreseen_ok hs [] []⟩
  | succ fuel ih =>
    have hd := @drops_statementsFuel α _ frames (fuel + 1)
    refine ⟨hd, @fun us us' hs back back' => ?_⟩
    by_cases hn : us = []
    · subst hn
      exact .of_drops hd (Nat.le_refl _)
    · rw [statementsFuel, statementsFuel, hs.nextKind_eq hn back back']
      split
      · exact foreseen_ok hs [] []
      · exact ((foresees_statement frames).bind fun n n' => ih.bind fun ns ns' =>
          foresees_pure (n :: ns) (n' :: ns')).foreseen hs back back'

theorem foresees_program (frames : Nat) :
    Foresees (program frames : Parse α (Node α)) (program frames) := by
  cases frames with
  | zero => exact foresees_throw
  | succ frames =>
    exact (foresees_of_fuel (foresees_statementsFuel frames) (fun _ _ hf => statementsFuel_of_le hf)
      fun _ _ hf => statementsFuel_of_le hf).bind fun ns ns' =>
        foresees_pure (Node.program ns) (Node.program ns')

end Posterior.Parser
