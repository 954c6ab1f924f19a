import Posterior.Proofs.Lexing.Munch

set_option autoImplicit false

namespace Posterior

open Lexer

def Lexer.pull {α : Type} [Arithmetic α] : (n : Nat) → Lexer → List (Except LexFault (Token α))
  | 0, _ => []
  | n + 1, l =>
    let (outcome, behind) : Except LexFault (Token α) × Lexer := l.next
    outcome :: pull n behind

theorem Cuts.text_eq {ps : List Piece} {last text : List Char} (h : Cuts ps last text) :
    text = ps.flatMap (fun p => p.gap ++ p.symbol.lexeme) ++ last := by
  induction h with
  | last => rfl
  | piece _ _ _ _ ih => simp [ih]

theorem Cuts.length_le {ps : List Piece} {last text : List Char} (h : Cuts ps last text) :
    ps.length + last.length ≤ text.length := by
  induction h with
  | last => simp
  | @piece gap s ps last rest _ hs _ _ ih =>
    have hpos := List.length_pos_iff.mpr (startsLexeme_lexeme hs rest).1
    simp only [List.length_cons, List.length_append]
    omega

variable {α : Type} [Arithmetic α]

theorem scan_piece {gap rest : List Char} {s : Symbol Numeral}
    (hg : IgnoredBefore (s.lexeme ++ rest) gap) (hs : s.Legible) (hr : s.Stops rest)
    (position : Nat) :
    scan position (gap ++ (s.lexeme ++ rest)) =
      .ok ((⟨s.map Numeral.value, (position + gap.length : Nat)⟩ : Token α),
        position + gap.length + s.lexeme.length) := by
  have hl := gapLength_of_ignored hg (startsLexeme_lexeme hs rest).2
  have hm : munch (s.lexeme ++ rest) = .ok (s.map (Numeral.value : Numeral → α), s.lexeme.length) :=
    munch_lexeme hs hr
  simp only [scan, hl, List.drop_left, hm]

theorem scan_last {gap : List Char} (hg : IgnoredBefore [] gap) (position : Nat) :
    scan position gap =
      .ok ((⟨.eof, (position + gap.length : Nat)⟩ : Token α), position + gap.length) := by
  have hl := gapLength_of_ignored hg (show StartsLexeme [] from nofun)
  rw [List.append_nil] at hl
  simp only [scan, hl, List.drop_length, munch, Nat.add_zero]

theorem scan_cases {position stop : Nat} {text : List Char} {t : Token α}
    (h : scan position text = .ok (t, stop)) :
    (IgnoredBefore [] text ∧ t = ⟨.eof, (position + text.length : Nat)⟩) ∨
      ∃ (gap : List Char) (s : Symbol Numeral) (rest : List Char), text = gap ++ (s.lexeme ++ rest) ∧
        IgnoredBefore (s.lexeme ++ rest) gap ∧
        s.Legible ∧ s.Stops rest ∧ t = ⟨s.map Numeral.value, (position + gap.length : Nat)⟩ ∧
        stop = position + gap.length + s.lexeme.length := by
  obtain ⟨⟨gap, behind, rfl, hl, hg, -⟩, -⟩ := exists_ignored text
  simp only [scan, ← hl, List.drop_left] at h
  split at h
  · next symbol k hm =>
    cases h
    by_cases hb : behind = []
    · subst hb
      cases hm
      exact .inl ⟨by simpa using hg, by simp⟩
    · obtain ⟨s, rest, hs, rfl, rfl, rfl, hr⟩ := exists_lexeme hb hm
      exact .inr ⟨gap, s, rest, rfl, hg, hs, hr, rfl, rfl⟩
  · cases h

theorem drop_piece (gap : List Char) (s : Symbol Numeral) (rest : List Char) (position : Nat) :
    (gap ++ (s.lexeme ++ rest)).drop (position + gap.length + s.lexeme.length - position) = rest := by
  rw [← List.append_assoc]
  refine List.drop_left' ?_
  simp only [List.length_append]
  omega

theorem exists_cuts {fuel position : Nat} {text : List Char} {ts : List (Token α)}
    (hf : text.length < fuel) (h : scanAll fuel position text = .ok ts) :
    ∃ ps last, Cuts ps last text ∧ ts = tokensFrom position last ps := by
  induction fuel generalizing position text ts with
  | zero => omega
  | succ fuel ih =>
    rw [scanAll] at h
    split at h
    · cases h
    · next t stop hscan =>
      rcases scan_cases hscan with ⟨hg, rfl⟩ | ⟨gap, s, rest, rfl, hg, hs, hr, rfl, rfl⟩
      · cases h
        exact ⟨[], text, .last hg, rfl⟩
      · have hpos := List.length_pos_iff.mpr (startsLexeme_lexeme hs rest).1
        rw [if_neg (kind_map_value hs _), drop_piece] at h
        split at h
        · next tokens hall =>
          cases h
          simp only [List.length_append] at hf
          obtain ⟨ps, last, hc, rfl⟩ := ih (by omega) hall
          exact ⟨⟨gap, s⟩ :: ps, last, .piece hg hs hr hc, rfl⟩
        · cases h

theorem Cuts.scanAll_eq {ps : List Piece} {last text : List Char} (h : Cuts ps last text)
    {fuel : Nat} (hf : text.length < fuel) (position : Nat) :
    scanAll fuel position text = .ok (tokensFrom position last ps : List (Token α)) := by
  induction h generalizing fuel position with
  | @last gap hg =>
    obtain ⟨fuel, rfl⟩ : ∃ k, fuel = k + 1 := ⟨fuel - 1, by omega⟩
    simp [scanAll, scan_last hg, tokensFrom]
  | @piece gap s ps last rest hg hs hr h ih =>
    obtain ⟨fuel, rfl⟩ : ∃ k, fuel = k + 1 := ⟨fuel - 1, by omega⟩
    have hpos := List.length_pos_iff.mpr (startsLexeme_lexeme hs rest).1
    simp only [List.length_append] at hf
    have hrest := @ih fuel (by omega) (position + gap.length + s.lexeme.length)
    rw [scanAll, scan_piece hg hs hr]
    dsimp only
    rw [if_neg (kind_map_value hs _), drop_piece, hrest]
    rfl

/-- The first piece is what the lexer takes, so a text can be cut in but one way. -/
theorem Cuts.unique {ps ps' : List Piece} {last last' text : List Char} (h : Cuts ps last text)
    (h' : Cuts ps' last' text) : ps = ps' ∧ last = last' := by
  induction h generalizing ps' last' with
  | @last text hg =>
    cases h' with
    | last => exact ⟨rfl, rfl⟩
    | @piece gap s ps' _ rest hg' hs hr _ =>
      have hscan := (@scan_last Float _ _ hg 0).symm.trans (scan_piece hg' hs hr 0)
      simp only [Except.ok.injEq, Prod.mk.injEq] at hscan
      exact absurd (congrArg Token.kind hscan.1).symm (kind_map_value hs _)
  | @piece gap s ps last rest hg hs hr _ ih =>
    generalize htext : gap ++ (s.lexeme ++ rest) = text at h'
    have hscan := @scan_piece Float _ _ _ _ hg hs hr 0
    rw [htext] at hscan
    cases h' with
    | last hg' =>
      rw [scan_last hg'] at hscan
      simp only [Except.ok.injEq, Prod.mk.injEq] at hscan
      exact absurd (congrArg Token.kind hscan.1).symm (kind_map_value hs _)
    | @piece gap' s' ps' _ rest' hg' hs' hr' h' =>
      rw [scan_piece hg' hs' hr'] at hscan
      simp only [Except.ok.injEq, Prod.mk.injEq, Token.mk.injEq] at hscan
      obtain ⟨⟨-, hgap⟩, hstop⟩ := hscan
      obtain ⟨rfl, hbehind⟩ := List.append_inj htext (by omega)
      obtain ⟨hl, rfl⟩ := List.append_inj hbehind (by omega)
      obtain rfl := hs.eq_of_lexeme hs' hl
      obtain ⟨rfl, rfl⟩ := ih h'
      exact ⟨rfl, rfl⟩

section Tokens

variable {position : Nat} {last text : List Char} {ps : List Piece}

theorem le_position_of_mem {t : Token α} (h : t ∈ tokensFrom position last ps) :
    (position : Int) ≤ t.position := by
  induction ps generalizing position with
  | nil =>
    obtain rfl := List.mem_singleton.mp h
    dsimp only
    omega
  | cons p ps ih =>
    rcases List.mem_cons.mp h with rfl | h
    · dsimp only
      omega
    · have hp := ih h
      omega

theorem Cuts.pairwise_tokens (h : Cuts ps last text) (position : Nat) :
    (tokensFrom position last ps : List (Token α)).Pairwise fun t u => t.position < u.position := by
  induction h generalizing position with
  | last => exact List.pairwise_singleton _ _
  | @piece gap s ps last rest _ hs _ _ ih =>
    refine List.pairwise_cons.mpr ⟨fun u hu => ?_, ih _⟩
    have hpos := List.length_pos_iff.mpr (startsLexeme_lexeme hs rest).1
    have hle := le_position_of_mem hu
    dsimp only at hle ⊢
    omega

theorem Cuts.exists_front (h : Cuts ps last text) (position : Nat) :
    ∃ front : List (Token α),
      tokensFrom position last ps = front ++ [⟨.eof, (position + text.length : Nat)⟩] ∧
        ∀ t ∈ front, t.kind ≠ .eof := by
  induction h generalizing position with
  | last => exact ⟨[], rfl, nofun⟩
  | @piece gap s ps last rest _ hs _ _ ih =>
    obtain ⟨front, hfront, hk⟩ := ih (position + gap.length + s.lexeme.length)
    refine ⟨⟨s.map Numeral.value, (position + gap.length : Nat)⟩ :: front, ?_,
      List.forall_mem_cons.mpr ⟨kind_map_value hs _, hk⟩⟩
    have hl : position + gap.length + s.lexeme.length + rest.length =
        position + (gap ++ (s.lexeme ++ rest)).length := by
      simp only [List.length_append]
      omega
    simp only [tokensFrom, hfront, hl, List.cons_append]

theorem length_tokensFrom :
    (tokensFrom position last ps : List (Token α)).length = ps.length + 1 := by
  induction ps generalizing position with
  | nil => rfl
  | cons p ps ih => simp [tokensFrom, ih]

theorem symbols_tokensFrom :
    (tokensFrom position last ps : List (Token α)).map Token.symbol =
      (ps.map Piece.symbol).map (Symbol.map Numeral.value) ++ [.eof] := by
  induction ps generalizing position with
  | nil => rfl
  | cons p ps ih => simp [tokensFrom, ih]

theorem Cuts.pull_eq (h : Cuts ps last text) {l : Lexer} (hl : l.source.drop l.position = text) :
    l.pull (ps.length + 1) = (tokensFrom l.position last ps : List (Token α)).map .ok := by
  induction h generalizing l with
  | last hg => simp [Lexer.pull, Lexer.next, hl, scan_last hg, tokensFrom]
  | @piece gap s ps last rest hg hs hr _ ih =>
    have hnext : l.next = (.ok (⟨s.map Numeral.value, (l.position + gap.length : Nat)⟩ : Token α),
        { l with position := l.position + gap.length + s.lexeme.length }) := by
      simp only [Lexer.next, hl, scan_piece hg hs hr]
    have hrest := @ih { l with position := l.position + gap.length + s.lexeme.length } (by
      have hd := drop_piece gap s rest l.position
      rw [← hl, List.drop_drop] at hd
      dsimp only
      rw [← hd]
      congr 1
      omega)
    rw [List.length_cons, Lexer.pull, hnext]
    simp only [hrest, tokensFrom, List.map_cons]

end Tokens

theorem tokenize_eq_ok_iff {source : String} {ts : List (Token α)} :
    tokenize source = .ok ts ↔ ∃ ps last, Cuts ps last source.toList ∧ ts = tokensFrom 0 last ps := by
  constructor
  · intro h
    unfold tokenize tokens at h
    split at h
    · next hall =>
      cases h
      exact exists_cuts (Nat.lt_succ_self _) hall
    · cases h
  · rintro ⟨ps, last, hc, rfl⟩
    rw [tokenize, tokens, hc.scanAll_eq (Nat.lt_succ_self _)]

/-- Where the lexer reads a text to its end, the tokens are those of the one way to cut it; they stand in
ascending order before an end, and as many calls as there are tokens give them one by one. -/
theorem partition_of_tokenize {source : String} {ts : List (Token α)}
    (h : tokenize source = .ok ts) :
    (∃ ps last, Cuts ps last source.toList ∧ ts = tokensFrom 0 last ps ∧
      source.toList = ps.flatMap (fun p => p.gap ++ p.symbol.lexeme) ++ last ∧
      ∀ ps' last', Cuts ps' last' source.toList → ps' = ps ∧ last' = last) ∧
    ts.Pairwise (fun t u => t.position < u.position) ∧
    (∃ front, ts = front ++ [⟨.eof, source.length⟩] ∧ ∀ t ∈ front, t.kind ≠ .eof) ∧
    (Lexer.ofString source).pull ts.length = ts.map .ok ∧ ts.length ≤ source.length + 1 := by
  obtain ⟨ps, last, hc, rfl⟩ := tokenize_eq_ok_iff.mp h
  have hfront := @Cuts.exists_front α _ _ _ _ hc 0
  have hpull := @Cuts.pull_eq α _ _ _ _ hc (Lexer.ofString source) rfl
  have hlength := hc.length_le
  rw [Nat.zero_add, String.length_toList] at hfront
  rw [String.length_toList] at hlength
  refine ⟨⟨ps, last, hc, rfl, hc.text_eq, fun ps' last' hc' => hc'.unique hc⟩, hc.pairwise_tokens 0,
    hfront, ?_, ?_⟩
  · rw [length_tokensFrom]
    exact hpull
  · rw [length_tokensFrom]
    omega

theorem partition_of_points :
    ∃ ts : List (Token Float), tokenize "a1=.5#b\n1.5.5" = .ok ts ∧
      ts.map Token.position = [0, 2, 3, 8, 11, 13] ∧
      ∃ ps last, Cuts ps last "a1=.5#b\n1.5.5".toList ∧ ts = tokensFrom 0 last ps ∧
        ∀ ps' last', Cuts ps' last' "a1=.5#b\n1.5.5".toList → ps' = ps ∧ last' = last := by
  let half : Symbol Float := .number (Arithmetic.ofDecimal 5 1)
  let ts : List (Token Float) :=
    [⟨.mark .identifier "a1", 0⟩, ⟨.mark .equal "=", 2⟩, ⟨half, 3⟩,
      ⟨.number (Arithmetic.ofDecimal 15 1), 8⟩, ⟨half, 11⟩, ⟨.eof, 13⟩]
  have ht : tokenize "a1=.5#b\n1.5.5" = .ok ts := by
    simp only [tokenize, String.reduceToList]
    rfl
  obtain ⟨⟨ps, last, hc, hts, -, hunique⟩, -⟩ := partition_of_tokenize ht
  exact ⟨ts, ht, rfl, ps, last, hc, hts, hunique⟩

end Posterior
