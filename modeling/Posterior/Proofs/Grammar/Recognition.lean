import Posterior.Proofs.Grammar.Completeness
import Posterior.Proofs.Grammar.Locality
import Posterior.Proofs.Grammar.Nesting
import Posterior.Proofs.Grammar.Soundness

set_option autoImplicit false

namespace Posterior

open Grammar Posterior.Parser

variable {α : Type}

def visible (ts : List (Token α)) : List (Token α) := ts.takeWhile (·.kind ≠ .eof)

theorem kind_ne_eof_of_visible {ts : List (Token α)} {t : Token α} (h : t ∈ visible ts) :
    t.kind ≠ .eof := by
  simpa using List.all_eq_true.mp List.all_takeWhile t h

theorem visible_append {us rest : List (Token α)} (hu : ∀ t ∈ us, t.kind ≠ .eof)
    (hr : nextKind rest = .eof) : visible (us ++ rest) = us := by
  rw [visible, List.takeWhile_append_of_pos (by simpa using hu)]
  cases rest with
  | nil => simp
  | cons e more =>
    have he : e.kind = .eof := hr
    simp [he]

theorem exists_visible (ts : List (Token α)) :
    ∃ rest, ts = visible ts ++ rest ∧ nextKind rest = .eof := by
  induction ts with
  | nil => exact ⟨[], rfl, rfl⟩
  | cons t ts ih =>
    by_cases ht : t.kind = .eof
    · exact ⟨t :: ts, by simp [visible, ht], ht⟩
    · obtain ⟨rest, h, hr⟩ := ih
      have hv : visible (t :: ts) = t :: visible ts := by simp [visible, ht]
      exact ⟨rest, by rw [hv, List.cons_append, ← h], hr⟩

theorem closeTokens_eq (ts : List (Token α)) :
    closeTokens ts = ts ∨ ∃ position, closeTokens ts = ts ++ [⟨.eof, position⟩] := by
  unfold closeTokens
  split
  · next h =>
    rw [List.getLast?_eq_none_iff.mp h]
    exact .inr ⟨0, rfl⟩
  · next t h =>
    split
    · exact .inl rfl
    · exact .inr ⟨_, rfl⟩

theorem exists_closeTokens (ts : List (Token α)) :
    ∃ rest, closeTokens ts = visible ts ++ rest ∧ nextKind rest = .eof := by
  obtain ⟨rest, h, hr⟩ := exists_visible ts
  rcases closeTokens_eq ts with hc | ⟨position, hc⟩
  · exact ⟨rest, hc.trans h, hr⟩
  · refine ⟨rest ++ [⟨.eof, position⟩], ?_, ?_⟩
    · rw [hc, ← List.append_assoc, ← h]
    · cases rest with
      | nil => rfl
      | cons t rest => exact hr

/-- Whether and how tokens are read depends on those up to the first end only. -/
theorem parse_append (front : List (Token Float)) {e : Token Float} (he : e.kind = .eof)
    (more : List (Token Float)) : parse (front ++ e :: more) = parse (front ++ [e]) := by
  have hend : HasEnd (front ++ [e]) := ⟨e, by simp, he⟩
  have hclosed : closeTokens (front ++ [e]) = front ++ [e] := by simp [closeTokens, he]
  obtain ⟨tail, htail⟩ : ∃ tail, closeTokens (front ++ e :: more) = front ++ [e] ++ tail := by
    rcases closeTokens_eq (front ++ e :: more) with hc | ⟨position, hc⟩
    · exact ⟨more, by simp [hc]⟩
    · exact ⟨more ++ [⟨.eof, position⟩], by simp [hc]⟩
  obtain ⟨hp, hl⟩ := blind_program frameLimit (front ++ [e]) tail hend
  unfold parse
  rw [hclosed, htail, hp]
  cases hr : program frameLimit (front ++ [e]) with
  | ok n rest => rfl
  | error stop rest =>
    cases stop with
    | fault f => rfl
    | tooDeep =>
      rw [hr] at hl
      obtain ⟨t, us, rfl⟩ := hl.exists_cons
      rfl

theorem parse_cases (ts : List (Token Float)) :
    (∃ ns, parse ts = .program ns ∧ Program (visible ts) ns) ∨
      (∃ message position, parse ts = .error message position) := by
  unfold parse
  split
  · next tree rest hr =>
    obtain ⟨us, ns, hts, hp, hrest, rfl⟩ := program_sound hr
    obtain ⟨rest', hclose, hrest'⟩ := exists_closeTokens ts
    have hu := visible_append (fun t => hp.kind_ne_eof) hrest
    have hv := visible_append (fun t => @kind_ne_eof_of_visible _ ts t) hrest'
    rw [← hts, hclose, hv] at hu
    exact .inl ⟨ns, rfl, hu ▸ hp⟩
  · exact .inr ⟨_, _, rfl⟩
  · exact .inr ⟨_, _, rfl⟩

theorem parse_of_program {ts : List (Token Float)} {ns : List (Node Float)}
    (h : Program (visible ts) ns) :
    parse ts = .program ns ∨ ∃ position, parse ts = .error tooDeepMessage position := by
  obtain ⟨rest, hclose, hrest⟩ := exists_closeTokens ts
  unfold parse
  rw [hclose]
  rcases agrees_program frameLimit h hrest with hr | ⟨left, hr⟩
  · rw [hr]
    exact .inl rfl
  · rw [hr]
    exact .inr ⟨_, rfl⟩

theorem eq_program_of_parse {ts : List (Token Float)} {ns : List (Node Float)}
    (h : parse ts = .program ns) : Program (visible ts) ns := by
  rcases parse_cases ts with ⟨ms, hm, hp⟩ | ⟨message, position, he⟩
  · rw [h] at hm
    cases hm
    exact hp
  · rw [h] at he
    cases he

theorem parse_of_nesting {ts : List (Token Float)} {ns : List (Node Float)} (h : Program ts ns)
    (hd : nesting (ts.map Token.kind) ≤ 100) (position : Int) :
    parse (ts ++ [⟨.eof, position⟩]) = .program ns := by
  have hclosed : closeTokens (ts ++ [⟨.eof, position⟩]) = ts ++ [⟨.eof, position⟩] := by
    simp [closeTokens]
  have hend : nextKind [(⟨.eof, position⟩ : Token Float)] = .eof := rfl
  unfold parse
  rw [hclosed]
  rcases agrees_program frameLimit h hend with hr | ⟨left, hr⟩
  · rw [hr]
  · have hn := nesting_of_tooDeep hr
    rw [List.map_append, List.map_singleton, Token.kind_eof, nesting, Nesting.reach_append_eof,
      ← nesting] at hn
    simp only [frameLimit] at hn
    omega

/-- With frames enough the parser returns every program the tokens derive, so there is but one. -/
theorem Grammar.Program.unique [Arithmetic α] {ts : List (Token α)} {ns ms : List (Node α)}
    (hn : Program ts ns) (hm : Program ts ms) : ns = ms := by
  have hread : ∀ {ks : List (Node α)}, Program ts ks →
      program (4 * nesting (ts.map Token.kind) + 6) ts = .ok (.program ks) [] := by
    intro ks hk
    have ha := agrees_program (4 * nesting (ts.map Token.kind) + 6) hk nextKind_nil
    rw [List.append_nil] at ha
    rcases ha with ha | ⟨left, ha⟩
    · exact ha
    · have hb := nesting_of_tooDeep ha
      omega
  have h := (hread hn).symm.trans (hread hm)
  cases h
  rfl

/-- The parser recognizes the grammar. Where the frames do not run out it returns a program exactly for
the tokens that derive it, which derive no other; tokens behind an end are nothing to it. -/
theorem parse_eq_program_iff (ts : List (Token Float)) :
    ((∀ position, parse ts ≠ .error tooDeepMessage position) →
      ∀ ns, parse ts = .program ns ↔ Program (visible ts) ns) ∧
    ((∀ ns, parse ts ≠ .program ns) → ∃ message position, parse ts = .error message position) ∧
    (∀ ns ms, Program (visible ts) ns → Program (visible ts) ms → ns = ms) ∧
    (∀ front e behind behind', ts = front ++ e :: behind → e.kind = .eof →
      parse (front ++ e :: behind') = parse ts) := by
  refine ⟨fun hd ns => ⟨eq_program_of_parse, fun hp => ?_⟩, fun hn => ?_,
    fun ns ms hn hm => hn.unique hm, fun front e behind behind' hts he => ?_⟩
  · rcases parse_of_program hp with h | ⟨position, h⟩
    · exact h
    · exact absurd h (hd position)
  · rcases parse_cases ts with ⟨ns, h, -⟩ | h
    · exact absurd h (hn ns)
    · exact h
  · rw [hts]
    exact (parse_append front he behind').trans (parse_append front he behind).symm

/-- A sign, a group and a call among operators, with a comma behind the end. -/
theorem program_of_sign_and_call :
    ∃ (ts : List (Token Float)) (ns : List (Node Float)),
      ts = [⟨.mark .identifier "x", 0⟩, ⟨.mark .equal "=", 1⟩, ⟨.number 1, 2⟩,
        ⟨.mark .minus "-", 3⟩, ⟨.mark .minus "-", 4⟩, ⟨.mark .leftParen "(", 5⟩, ⟨.number 2, 6⟩,
        ⟨.mark .star "*", 7⟩, ⟨.mark .identifier "f", 8⟩, ⟨.mark .leftParen "(", 9⟩,
        ⟨.mark .rightParen ")", 10⟩, ⟨.mark .rightParen ")", 11⟩, ⟨.eof, 12⟩,
        ⟨.mark .comma ",", 13⟩] ∧
      ns = [.assignment "x" (.binary "-" (.number 1)
        (.binary "-" (.number Arithmetic.zero) (.binary "*" (.number 2) (.call "f" []))))] ∧
      (∀ position, parse ts ≠ .error tooDeepMessage position) ∧ Program (visible ts) ns := by
  have hread : ∀ {ts : List (Token Float)} {ns : List (Node Float)}, parse ts = .program ns →
      (∀ position, parse ts ≠ .error tooDeepMessage position) ∧ Program (visible ts) ns := by
    intro ts ns h
    have hd : ∀ position, parse ts ≠ .error tooDeepMessage position := by
      intro position he
      rw [h] at he
      cases he
    exact ⟨hd, ((parse_eq_program_iff ts).1 hd ns).mp h⟩
  exact ⟨_, _, rfl, rfl, hread rfl⟩

end Posterior
