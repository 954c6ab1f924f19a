import Posterior.Proofs.Grammar.Recognition
import Posterior.Proofs.Lexing.Faults

set_option autoImplicit false

namespace Posterior

open Lexer Text

def Token.behind {α : Type} (first : String) (t : Token α) : Token α :=
  { t with position := t.position + (first.length + 1) }

def LexFault.behind (first : String) (f : LexFault) : LexFault :=
  { f with
    position := first.length + 1 + f.position
    line := f.line + 1 + first.toList.count '\n' }

/-- What the lexer gives for a text and for one behind it gives what it gives for both: the first fault, or
all tokens with one end. -/
def readInTurn {α : Type} (first : String) :
    Except LexFault (List (Token α)) → Except LexFault (List (Token α)) → Except LexFault (List (Token α))
  | .error f, _ => .error f
  | .ok _, .error f => .error (f.behind first)
  | .ok ts, .ok us => .ok (visible ts ++ us.map (Token.behind first))

section Faults

/-- What a line break ends goes on in no state: neither a comment nor a name is open behind it. -/
theorem firstUnreadable_break (comment named : Bool) (text more : List Char) :
    firstUnreadable comment named (text ++ '\n' :: more) =
      (firstUnreadable comment named text).or
        ((firstUnreadable false false more).map (· + (text.length + 1))) := by
  induction text generalizing comment named with
  | nil =>
    have hn : isNameChar '\n' = false := by decide
    simp [firstUnreadable, isReadable, isBlank_newline, hn]
  | cons c text ih =>
    have hread : isReadable named c (text ++ '\n' :: more) = isReadable named c text := by
      cases text with
      | nil => rfl
      | cons => rfl
    rw [List.cons_append, firstUnreadable, firstUnreadable, hread]
    split
    · rw [ih, Option.map_or, map_add_map_add, List.length_cons]
    · rfl

theorem at_append {text : List Char} {position : Nat} (h : position < text.length)
    (more : List Char) : LexFault.at (text ++ more) position = LexFault.at text position := by
  have hle := Nat.le_of_lt h
  rw [LexFault.at, LexFault.at, List.take_append_of_le_length hle, List.drop_append_of_le_length hle,
    List.drop_eq_getElem_cons h]
  rfl

theorem takeWhile_reverse_break (text more : List Char) :
    (text ++ '\n' :: more).reverse.takeWhile (· != '\n') =
      more.reverse.takeWhile (· != '\n') := by
  rw [List.reverse_append, List.reverse_cons, List.append_assoc, List.singleton_append]
  induction more.reverse with
  | nil => rfl
  | cons c cs ih =>
    rw [List.cons_append, List.takeWhile_cons, List.takeWhile_cons, ih]

theorem at_break (first : String) (more : List Char) (position : Nat) :
    LexFault.at (first.toList ++ '\n' :: more) (position + (first.toList.length + 1)) =
      (LexFault.at more position).behind first := by
  have hsum : position + (first.toList.length + 1) = first.toList.length + (position + 1) := by omega
  have htake : (first.toList ++ '\n' :: more).take (position + (first.toList.length + 1)) =
      first.toList ++ '\n' :: more.take position := by
    rw [hsum, List.take_length_add_append, List.take_succ_cons]
  have hdrop : (first.toList ++ '\n' :: more).drop (position + (first.toList.length + 1)) =
      more.drop position := by
    rw [hsum, List.drop_length_add_append, List.drop_succ_cons]
  rw [LexFault.at, htake, hdrop, takeWhile_reverse_break, List.count_append, List.count_cons_self,
    LexFault.behind, LexFault.at, LexFault.mk.injEq]
  refine ⟨rfl, ?_, ?_, rfl⟩
  · rw [← String.length_toList]
    dsimp only
    omega
  · dsimp only
    omega

end Faults

section Tokens

variable {α : Type} [Arithmetic α]

theorem IgnoredBefore.of_head? {rest rest' gap : List Char} (h : IgnoredBefore rest gap)
    (hr : rest'.head? = rest.head?) : IgnoredBefore rest' gap := by
  induction h with
  | nil => exact .nil
  | blank hc _ ih => exact .blank hc ih
  | comment hb hs _ ih =>
    refine .comment hb ?_ ih
    rwa [List.head?_append, hr, ← List.head?_append]

theorem IgnoredBefore.append {rest gap gap' : List Char} (h : IgnoredBefore (gap' ++ rest) gap)
    (h' : IgnoredBefore rest gap') : IgnoredBefore rest (gap ++ gap') := by
  induction h with
  | nil => exact h'
  | blank hc _ ih => exact .blank hc ih
  | @comment body cs hb hs _ ih =>
    rw [List.cons_append, List.append_assoc]
    exact .comment hb (by rwa [List.append_assoc]) ih

theorem IgnoredBefore.join {rest gap gap' : List Char} (h : IgnoredBefore [] gap)
    (h' : IgnoredBefore rest gap') : IgnoredBefore rest (gap ++ '\n' :: gap') := by
  refine IgnoredBefore.append ?_ (.blank isBlank_newline h')
  -- A comment may go on to the end of a text, or else up to the line break.
  induction h with
  | nil => exact .nil
  | blank hc _ ih => exact .blank hc ih
  | @comment body cs hb hs _ ih =>
    refine .comment hb (fun c hc => ?_) ih
    cases cs with
    | nil =>
      cases hc
      rfl
    | cons d cs => exact hs c hc

theorem Symbol.Stops.join {s : Symbol Numeral} {rest : List Char} (h : s.Stops rest)
    (more : List Char) : s.Stops (rest ++ '\n' :: more) := by
  cases rest with
  | nil =>
    have hn : isNameChar '\n' = false := by decide
    rcases s with n | ⟨_ | _, text⟩ | _
    · simp only [Stops, List.nil_append, List.head?_cons, Option.mem_some, forall_eq']
      exact ⟨isDigit_of_not_isNameChar hn, fun _ => by decide⟩
    · simpa [Stops] using hn
    all_goals trivial
  | cons c rest => rcases s with n | ⟨_ | _, text⟩ | _ <;> exact h

theorem tokensFrom_add (position behind : Nat) (last : List Char) (ps : List Piece) :
    (tokensFrom (position + behind) last ps : List (Token α)) =
      (tokensFrom position last ps).map fun t => { t with position := t.position + behind } := by
  induction ps generalizing position with
  | nil =>
    simp only [tokensFrom, List.map_cons, List.map_nil, List.cons.injEq, Token.mk.injEq, true_and, and_true]
    omega
  | cons p ps ih =>
    have hhead : position + behind + p.gap.length + p.symbol.lexeme.length =
        position + p.gap.length + p.symbol.lexeme.length + behind := by omega
    simp only [tokensFrom, List.map_cons, List.cons.injEq, Token.mk.injEq, true_and, hhead, ih, and_true]
    omega

/-- Two texts are cut where each is cut by itself. What is ignored at the end of the first one and at the
start of the second one becomes one gap. -/
theorem Cuts.join {ps ps' : List Piece} {last last' text text' : List Char} (h : Cuts ps last text)
    (h' : Cuts ps' last' text') :
    ∃ qs last'', Cuts qs last'' (text ++ '\n' :: text') ∧ ∀ position,
      (tokensFrom position last'' qs : List (Token α)) = visible (tokensFrom position last ps) ++
        tokensFrom (position + (text.length + 1)) last' ps' := by
  induction h with
  | @last gap hg =>
    cases h' with
    | last hg' =>
      refine ⟨[], _, .last (hg.join hg'), fun position => ?_⟩
      simp only [tokensFrom, List.length_append, List.length_cons]
      simp [visible]
      omega
    | @piece gap' s ps' _ rest hg' hs hr hrest =>
      refine ⟨⟨gap ++ '\n' :: gap', s⟩ :: ps', last', ?_, fun position => ?_⟩
      · have hc := Cuts.piece (hg.join hg') hs hr hrest
        rwa [List.append_assoc, List.cons_append] at hc
      · have hstart : position + (gap ++ '\n' :: gap').length =
            position + (gap.length + 1) + gap'.length := by
          simp only [List.length_append, List.length_cons]
          omega
        have hv : visible (tokensFrom position gap [] : List (Token α)) = [] := by
          simp [tokensFrom, visible]
        rw [hv, List.nil_append, tokensFrom, tokensFrom, hstart]
  | @piece gap s ps last rest hg hs hr _ ih =>
    obtain ⟨qs, last'', hc, ht⟩ := ih
    refine ⟨⟨gap, s⟩ :: qs, last'', ?_, fun position => ?_⟩
    · have hlexeme := (startsLexeme_lexeme hs rest).1
      have hg' : IgnoredBefore (s.lexeme ++ (rest ++ '\n' :: text')) gap :=
        hg.of_head? (by
          obtain ⟨c, cs, hcs⟩ := List.exists_cons_of_ne_nil hlexeme
          rw [hcs]
          rfl)
      have hc' := Cuts.piece hg' hs (hr.join text') hc
      simpa using hc'
    · have hv : ∀ us : List (Token α),
          visible (⟨s.map Numeral.value, (position + gap.length : Nat)⟩ :: us) =
            ⟨s.map Numeral.value, (position + gap.length : Nat)⟩ :: visible us := by
        intro us
        simp [visible, kind_map_value hs]
      have hlen : position + gap.length + s.lexeme.length + (rest.length + 1) =
          position + ((gap ++ (s.lexeme ++ rest)).length + 1) := by
        simp only [List.length_append]
        omega
      rw [tokensFrom, ht, hlen, tokensFrom, hv, List.cons_append]

theorem tokenize_break (first second : String) :
    (tokenize (first ++ "\n" ++ second) : Except LexFault (List (Token α))) =
      readInTurn first (tokenize first) (tokenize second) := by
  have htext : (first ++ "\n" ++ second).toList = first.toList ++ '\n' :: second.toList := by simp
  rcases @tokenize_firstUnreadable α _ (first ++ "\n" ++ second) with ⟨ts, hts, hnone⟩ | ⟨k, hk, hsome⟩
  · -- Then each of the two texts can be read, and the three ways to cut them fit.
    rw [htext, firstUnreadable_break, Option.or_eq_none_iff, Option.map_eq_none_iff] at hnone
    rcases @tokenize_firstUnreadable α _ first with ⟨us, hus, -⟩ | ⟨k, -, hk⟩
    · rcases @tokenize_firstUnreadable α _ second with ⟨vs, hvs, -⟩ | ⟨k, -, hk⟩
      · obtain ⟨ps, last, hc, rfl⟩ := tokenize_eq_ok_iff.mp hus
        obtain ⟨ps', last', hc', rfl⟩ := tokenize_eq_ok_iff.mp hvs
        obtain ⟨qs, last'', hcut, htokens⟩ := @Cuts.join α _ _ _ _ _ _ _ hc hc'
        rw [← htext] at hcut
        rw [hus, hvs, tokenize_eq_ok_iff.mpr ⟨qs, last'', hcut, rfl⟩, htokens 0, tokensFrom_add,
          String.length_toList]
        rfl
      · rw [hnone.2] at hk
        cases hk
    · rw [hnone.1] at hk
      cases hk
  · rw [hk]
    rw [htext, firstUnreadable_break] at hsome
    rcases @tokenize_firstUnreadable α _ first with ⟨us, hus, hnone'⟩ | ⟨j, hj, hsome'⟩
    · rw [hnone', Option.none_or, Option.map_eq_some_iff] at hsome
      obtain ⟨j, hj, rfl⟩ := hsome
      rcases @tokenize_firstUnreadable α _ second with ⟨vs, -, hnone''⟩ | ⟨i, hi, hsome''⟩
      · rw [hnone''] at hj
        cases hj
      · rw [hsome''] at hj
        cases hj
        rw [hus, hi, htext, at_break, readInTurn]
    · rw [hsome', Option.some_or, Option.some.injEq] at hsome
      subst hsome
      have hlt := ((firstUnreadable_start _).1 _ hsome').lt_length
      rw [hj, htext, at_append hlt, readInTurn]

end Tokens

end Posterior
