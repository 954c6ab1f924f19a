import Posterior.Proofs.Grammar.Faults
import Posterior.Proofs.Grammar.Frames

/-!
Each procedure of the grammar by itself, on any tokens. It reads the longest phrase of its own that they start with,
or stops at the first token with which no such phrase can go on, and what it has read begins one in any case. It
comes to an end as soon as it has frames for what is nested.
-/

set_option autoImplicit false

namespace Posterior.Parser

open Grammar

variable {α β γ : Type}

section Faults

def Pointing (allowed : Prop) : Relation α := fun _ _ r _ => ∀ f rest, r = .error (.fault f) rest →
  stuck f rest = rest ∨
    allowed ∧ ∃ name i, f.cause = .afterIdentifier name ∧ rest = ⟨.mark .identifier name, i⟩ :: stuck f rest

theorem compatible_pointing (allowed : Prop) : Compatible (Pointing allowed : Relation α) where
  ok := by
    intro β b ts f rest h
    cases h
  fail := by
    intro β cause hc ts f rest h
    cases h
    refine .inl ?_
    unfold stuck
    split
    · next name h => exact absurd h (hc name)
    · rfl
  skip h := h
  bind := by
    intro β γ p q g g' hp hg ts f rest h
    rcases Step.exists_of_bind_error h with he | ⟨b, mid, -, hm⟩
    · exact hp _ _ _ he
    · exact hg b _ _ _ hm

variable [Arithmetic α]

/-- Only where a statement is to begin may an identifier be left before the token in the way. -/
theorem Procedure.stuck_of_read (p : Procedure) {frames : Nat} {ts rest : List (Token α)} {f : ParseFault α}
    (h : p.read frames ts = .error (.fault f) rest) :
    stuck f rest = rest ∨ (p = .statement ∨ p = .program) ∧
      ∃ name i, f.cause = .afterIdentifier name ∧ rest = ⟨.mark .identifier name, i⟩ :: stuck f rest := by
  have hthrow {allowed : Prop} (q : Procedure) :
      Related (Pointing allowed) (throw .tooDeep : Parse α (Node α)) (q.read 0) := by
    intro us f last h
    cases h
  have hnames : AtNames (Pointing True : Relation α) := by
    intro name i us f last h
    cases h
    exact .inr ⟨trivial, name, i, rfl, rfl⟩
  have hread := (compatible_pointing True).read 0 hnames hthrow p frames ts f rest h
  have hat {q : Parse α (Node α)} (hq : Related (Pointing False) (p.read frames) q) : stuck f rest = rest :=
    (hq ts f rest h).resolve_right And.left
  obtain ⟨he, ht, hf, hc⟩ := (compatible_pointing False).expressions 0 hthrow frames
  cases p with
  | program => exact hread.imp_right (And.imp_left fun _ => .inr rfl)
  | statement => exact hread.imp_right (And.imp_left fun _ => .inl rfl)
  | assignment => exact .inl (hat ((compatible_pointing False).assignment 0 hthrow frames))
  | expression => exact .inl (hat he)
  | term => exact .inl (hat ht)
  | factor => exact .inl (hat hf)
  | call => exact .inl (hat hc)

end Faults

section Loops

variable {marks : List Mark} {operand : Parse α (Node α)}

def Past (marks : List Mark) (ts : List (Token α)) : Prop := ∀ m ∈ marks, nextKind ts ≠ .mark m

theorem past_of_takeMark? {ts : List (Token α)} (h : takeMark? marks ts = none) : Past marks ts := by
  intro m hm hk
  obtain ⟨text, position, rest, rfl⟩ := exists_of_nextKind hk
  rw [takeMark?_mark hm] at h
  cases h

/-- A chain goes on up to a token that is no operator of it, behind an operand. -/
theorem past_of_chainFuel {inner : List Mark} (hd : Drops operand)
    (ho : ∀ ts n rest, operand ts = .ok n rest → Past inner rest) (fuel : Nat) {n n' : Node α}
    {ts rest : List (Token α)} (hf : ts.length ≤ fuel) (hs : Past inner ts)
    (h : chainFuel marks operand fuel n ts = .ok n' rest) : Past marks rest ∧ Past inner rest := by
  induction fuel generalizing n ts with
  | zero =>
    have ht : ts = [] := List.eq_nil_of_length_eq_zero (by omega)
    subst ht
    cases h
    exact ⟨fun _ _ => nofun, hs⟩
  | succ fuel ih =>
    rw [chainFuel] at h
    split at h
    · next hm =>
      cases h
      exact ⟨past_of_takeMark? hm, hs⟩
    · next op mid hm =>
      obtain ⟨m, -, position, rfl⟩ := takeMark?_eq_some hm
      obtain ⟨r, mid', hr, hmore⟩ := Step.exists_of_bind_ok h
      have hl := hd.length_le_of_ok hr
      rw [List.length_cons] at hf
      exact ih (by omega) (ho _ _ _ hr) hmore

theorem past_of_chain {inner : List Mark} (hd : Drops operand)
    (ho : ∀ ts n rest, operand ts = .ok n rest → Past inner rest) {n : Node α} {ts rest : List (Token α)}
    (h : chain marks operand ts = .ok n rest) : Past marks rest ∧ Past inner rest := by
  obtain ⟨l, mid, hl, hmore⟩ := Step.exists_of_bind_ok h
  exact past_of_chainFuel hd ho mid.length (Nat.le_refl _) (ho _ _ _ hl) hmore

variable [Arithmetic α]

theorem past_of_term {frames : Nat} {n : Node α} {ts rest : List (Token α)}
    (h : term frames ts = .ok n rest) : Past [.star, .slash] rest := by
  cases frames with
  | zero => cases h
  | succ frames =>
    have hfactor : ∀ (us : List (Token α)) (m : Node α) (last : List (Token α)),
        factor frames us = .ok m last → Past [] last := fun _ _ _ _ _ => nofun
    exact (past_of_chain (Procedure.factor.drops_read frames) hfactor h).1

theorem past_of_expression {frames : Nat} {n : Node α} {ts rest : List (Token α)}
    (h : expression frames ts = .ok n rest) : Past [.plus, .minus] rest ∧ Past [.star, .slash] rest := by
  cases frames with
  | zero => cases h
  | succ frames => exact past_of_chain (Procedure.term.drops_read frames) (fun _ _ _ => past_of_term) h

end Loops

theorem exists_of_expect_tooDeep {m : Mark} {context : String} {f : Token α → Parse α β} {ts rest : List (Token α)}
    (h : (expect (.mark m) context >>= f) ts = .error .tooDeep rest) :
    ∃ text position us, ts = ⟨.mark m text, position⟩ :: us ∧
      f ⟨.mark m text, position⟩ us = .error .tooDeep rest := by
  rcases Step.exists_of_bind_error h with he | ⟨t, us, ht, hf⟩
  · obtain ⟨-, hstop⟩ := expect_mark_error he
    cases hstop
  · obtain ⟨text, position, rfl, rfl⟩ := exists_of_expect_ok ht
    exact ⟨text, position, us, rfl, hf⟩

variable [Arithmetic α]

namespace Procedure

theorem nesting_of_read {p : Procedure} {frames : Nat} {ts rest : List (Token α)}
    (h : p.read frames ts = .error .tooDeep rest) : frames ≤ 4 * nesting (ts.map Token.kind) + 5 := by
  by_cases hf : frames ≤ 5
  · omega
  obtain ⟨spent, rfl⟩ : ∃ spent, frames = spent + 4 + 1 := ⟨frames - 5, by omega⟩
  have hdeep : ∀ {s : List Opening} {b : Bool}, Spends spent (height [] false ts) s b (p.read (spent + 4 + 1) ts) →
      spent + 4 + 1 ≤ 4 * nesting (ts.map Token.kind) + 5 := by
    intro s b hs
    rw [h] at hs
    have hs : spent ≤ 4 * nesting (ts.map Token.kind) := hs
    omega
  have ha := @affords α _ (spent + 4 + 1) spent (height [] false ts)
  cases p with
  | program => exact nesting_of_tooDeep h
  | statement => exact hdeep (spends_statement (spent + 4 + 1) (by omega) (Nat.le_refl _))
  | assignment =>
    obtain ⟨name, i, vs, hts, hequal⟩ := exists_of_expect_tooDeep h
    obtain ⟨text, j, us, rfl, -⟩ := exists_of_expect_tooDeep hequal
    subst hts
    exact hdeep (spends_assignment (spent + 4 + 1) (by omega) (Nat.le_refl _))
  | expression => exact hdeep (ha.expression (s := []) rfl (by omega) (Nat.le_refl _))
  | term => exact hdeep (ha.term (s := []) rfl (by omega) (Nat.le_refl _))
  | factor => exact hdeep (ha.factor (s := []) (by omega) (Nat.le_refl _))
  | call =>
    obtain ⟨name, i, vs, hts, hleft⟩ := exists_of_expect_tooDeep h
    obtain ⟨left, j, us, rfl, -⟩ := exists_of_expect_tooDeep hleft
    subst hts
    exact hdeep (ha.call (s := []) (by omega) (Nat.le_refl _))

theorem read_eq_of_le (p : Procedure) {frames more : Nat} {ts : List (Token α)}
    (h : ∀ rest, p.read frames ts ≠ .error .tooDeep rest) (hm : frames ≤ more) :
    p.read more ts = p.read frames ts := by
  rcases (p.continues_of_le hm).goesOn ts with he | ⟨rest, hr, -⟩
  · exact he
  · exact absurd hr (h rest)

theorem read_ne_tooDeep (p : Procedure) {frames : Nat} {ts : List (Token α)}
    (h : 4 * nesting (ts.map Token.kind) + 5 < frames) (rest : List (Token α)) :
    p.read frames ts ≠ .error .tooDeep rest := by
  intro hr
  have hn := nesting_of_read hr
  omega

/-- The phrases that a procedure reads. An assignment is a statement that assigns. -/
def Derives : Procedure → List (Token α) → Node α → Prop
  | .program, us, n => ∃ ns, Program us ns ∧ n = .program ns
  | .statement, us, n => Grammar.Derives .statement us n
  | .assignment, us, n => Grammar.Derives .statement us n ∧ n.type = .assignment
  | .expression, us, n => Grammar.Derives .expression us n
  | .term, us, n => Grammar.Derives .term us n
  | .factor, us, n => Grammar.Derives .factor us n
  | .call, us, n => Grammar.Derives .call us n

def operators : Procedure → List Mark
  | .assignment | .expression => [.plus, .minus, .star, .slash]
  | .term => [.star, .slash]
  | .program | .statement | .factor | .call => []

theorem kind_ne_eof_of_derives {p : Procedure} {us : List (Token α)} {n : Node α} (h : p.Derives us n) :
    ∀ t ∈ us, t.kind ≠ .eof := by
  intro t ht
  cases p with
  | program =>
    obtain ⟨ns, hp, -⟩ := h
    exact hp.kind_ne_eof ht
  | assignment => exact h.1.kind_ne_eof ht
  | statement | expression | term | factor | call => exact Grammar.Derives.kind_ne_eof h ht

theorem ne_nil_of_derives {p : Procedure} (hp : p ≠ .program) {us : List (Token α)} {n : Node α}
    (h : p.Derives us n) : us ≠ [] := by
  have hstarts : ∃ t vs, us = t :: vs ∧ t.kind ≠ .mark .rightParen := by
    cases p with
    | program => exact absurd rfl hp
    | assignment => exact h.1.starts
    | statement | expression | term | factor | call => exact Grammar.Derives.starts h
  obtain ⟨t, vs, rfl, -⟩ := hstarts
  exact List.cons_ne_nil t vs

theorem yields_read (p : Procedure) (frames : Nat) : Yields (p.read frames : Parse α (Node α)) p.Derives := by
  obtain ⟨he, ht, hf, hc⟩ := @yields_procedures α _ frames
  cases p with
  | program =>
    intro ts n rest h
    obtain ⟨us, ns, hts, hp, -, hn⟩ := program_sound h
    exact ⟨us, hts, ns, hp, hn⟩
  | statement => exact yields_statement frames
  | assignment => exact yields_assignment frames
  | expression => exact he
  | term => exact ht
  | factor => exact hf
  | call => exact hc

theorem breaks_read (p : Procedure) (frames : Nat) : Breaks (p.read frames : Parse α (Node α)) p.Derives := by
  obtain ⟨he, ht, hf, hc⟩ := @breaks_procedures α _ frames
  cases p with
  | program => exact breaks_program frames
  | statement => exact breaks_statement frames
  | assignment => exact breaks_assignment frames
  | expression => exact he
  | term => exact ht
  | factor => exact hf
  | call => exact hc

theorem foresees_read (p : Procedure) (frames : Nat) :
    Foresees (p.read frames : Parse α (Node α)) (p.read frames) := by
  obtain ⟨he, ht, hf, hc⟩ := @foresees_procedures α _ frames
  cases p with
  | program => exact foresees_program frames
  | statement => exact foresees_statement frames
  | assignment => exact foresees_assignment frames
  | expression => exact he
  | term => exact ht
  | factor => exact hf
  | call => exact hc

theorem agrees_read {p : Procedure} {us : List (Token α)} {n : Node α} (h : p.Derives us n) (frames : Nat) :
    Agrees (p.read frames us) (.ok n []) := by
  have hend : nextKind ([] : List (Token α)) ∉ goesOn := by simp [goesOn]
  rw [← List.append_nil us]
  cases p with
  | program =>
    obtain ⟨ns, hp, rfl⟩ := h
    exact agrees_program frames hp rfl
  | statement => exact reads_of_derives h frames [] hend
  | assignment =>
    obtain ⟨hd, ht⟩ := h
    have hs := reads_of_derives hd (frames + 1) [] hend
    cases hd with
    | callStatement hc =>
      cases hc
      cases ht
    | assignment => exact hs
  | expression => exact (reads_of_derives h).expression frames hend
  | term => exact (reads_of_derives h).term frames (by simp)
  | factor => exact reads_of_derives h frames [] (by simp)
  | call => exact reads_of_derives h frames []

theorem past_of_read {p : Procedure} {frames : Nat} {n : Node α} {ts rest : List (Token α)}
    (h : p.read frames ts = .ok n rest) : Past p.operators rest ∧ (p = .program → nextKind rest = .eof) := by
  have hexpression {frames : Nat} {n : Node α} {us : List (Token α)} (he : Parser.expression frames us = .ok n rest) :
      Past [.plus, .minus, .star, .slash] rest := by
    obtain ⟨hsum, hproduct⟩ := past_of_expression he
    exact List.forall_mem_append.mpr ⟨hsum, hproduct⟩
  cases p with
  | program =>
    obtain ⟨us, ns, -, -, hend, -⟩ := program_sound h
    exact ⟨fun _ => nofun, fun _ => hend⟩
  | assignment =>
    refine ⟨?_, nofun⟩
    cases frames with
    | zero => cases h
    | succ frames =>
      obtain ⟨name, mid, -, hequal⟩ := Step.exists_of_bind_ok h
      obtain ⟨equal, mid', -, hexpr⟩ := Step.exists_of_bind_ok hequal
      obtain ⟨expr, last, he, hend⟩ := Step.exists_of_bind_ok hexpr
      obtain ⟨-, rfl⟩ := Step.pure_ok hend
      exact hexpression he
  | expression => exact ⟨hexpression h, nofun⟩
  | term => exact ⟨past_of_term h, nofun⟩
  | statement | factor | call => exact ⟨fun _ => nofun, nofun⟩

def Begins (p : Procedure) (us : List (Token α)) : Prop := ∃ more n, p.Derives (us ++ more) n

theorem Begins.left {p : Procedure} {us vs : List (Token α)} (h : p.Begins (us ++ vs)) : p.Begins us := by
  obtain ⟨more, n, hd⟩ := h
  exact ⟨vs ++ more, n, by rwa [← List.append_assoc]⟩

theorem Begins.kind_ne_eof {p : Procedure} {us : List (Token α)} (h : p.Begins us) :
    ∀ t ∈ us, t.kind ≠ .eof := by
  obtain ⟨more, n, hd⟩ := h
  exact fun t ht => kind_ne_eof_of_derives hd t (List.mem_append_left more ht)

theorem begins_of_suffix {p : Procedure} {us vs rest rest' : List (Token α)} (hb : p.Begins vs)
    (h : us ++ rest = vs ++ rest') (hs : rest' <:+ rest) : p.Begins us := by
  obtain ⟨mid, rfl⟩ := hs
  rw [← List.append_assoc] at h
  obtain rfl := List.append_cancel_right h
  exact hb.left

/-- What a procedure has taken begins a phrase of it, however it ends. Where the frames ran out, it is read on with
more of them. -/
theorem begins_of_read (p : Procedure) (frames : Nat) {ts us : List (Token α)}
    (hts : ts = us ++ left (p.read frames ts)) : p.Begins us := by
  let enough := max frames (4 * nesting (ts.map Token.kind) + 6)
  have henough : 4 * nesting (ts.map Token.kind) + 5 < enough := by omega
  have hdeep := p.read_ne_tooDeep henough
  have hleft : left (p.read enough ts) <:+ left (p.read frames ts) := by
    rcases (p.continues_of_le (Nat.le_max_left frames _)).goesOn ts with he | ⟨rest, hr, hl⟩
    · exact he ▸ List.suffix_refl _
    · rwa [hr]
  cases hr : p.read enough ts with
  | ok n rest =>
    obtain ⟨vs, hvs, hd⟩ := p.yields_read enough _ _ _ hr
    rw [hr] at hleft
    exact begins_of_suffix ⟨[], n, by rwa [List.append_nil]⟩ (hts.symm.trans hvs) hleft
  | error stop rest =>
    cases stop with
    | tooDeep => exact absurd hr (hdeep rest)
    | fault f =>
      obtain ⟨-, vs, more, n, hvs, hd⟩ := p.breaks_read enough _ _ _ hr
      rw [hr] at hleft
      exact begins_of_suffix ⟨more, n, hd⟩ (hts.symm.trans hvs) ((stuck_suffix f rest).trans hleft)

/-- No phrase of a procedure that the tokens start with goes beyond the one that is read. -/
theorem longest_of_read {p : Procedure} {frames : Nat} {n m : Node α} {ts rest us back : List (Token α)}
    (h : p.read frames ts = .ok n rest) (hts : ts = us ++ back) (hd : p.Derives us m) :
    rest.length ≤ back.length := by
  have hf := (p.foresees_read frames).foreseen (.refl us) back []
  have ha := agrees_read hd frames
  rw [← hts, h, List.append_nil] at hf
  generalize p.read frames us = r at hf ha
  cases hf with
  | past hl => exact hl
  | @ok vs vs' _ n' hs hn =>
    -- Something would be left of a phrase that is read to its end.
    rw [List.append_nil] at ha
    rcases ha with ha | ⟨last, ha⟩
    · cases ha
      cases hs
      exact absurd rfl hn
    · cases ha

theorem not_begins_of_fault {p : Procedure} {frames : Nat} {f : ParseFault α} {front rest back : List (Token α)}
    {t : Token α} (h : p.read frames (front ++ t :: back) = .error (.fault f) rest)
    (hs : stuck f rest = t :: back) : ¬ p.Begins (front ++ [t]) := by
  rintro ⟨more, n, hd⟩
  obtain ⟨f', rest', t', hf', -⟩ := fault_of_sameKinds (p.foresees_read frames) h hs (.refl _) more
  have ha := agrees_read hd frames
  rw [hf'] at ha
  rcases ha with ha | ⟨last, ha⟩ <;> cases ha

end Procedure

end Posterior.Parser
