import Posterior.Proofs.Lexing.Partition

set_option autoImplicit false

namespace Posterior

open Lexer Text

variable {α : Type} [Arithmetic α]

def StartsGap (cs : List Char) : Prop := ∀ c ∈ cs.head?, isBlank c = true ∨ c = '#'

theorem IsGap.startsGap {gap : List Char} (hg : IsGap gap) : StartsGap gap := by
  cases hg with
  | nil => simp [StartsGap]
  | blank hc _ => simp [StartsGap, hc]
  | comment _ _ => simp [StartsGap]

theorem StartsGap.append {gap : List Char} (hg : StartsGap gap) (hn : gap ≠ []) (rest : List Char) :
    StartsGap (gap ++ rest) := by
  cases gap with
  | nil => exact absurd rfl hn
  | cons c gap => exact hg

theorem IsGap.ignoredBefore {gap : List Char} (hg : IsGap gap) (rest : List Char) :
    IgnoredBefore rest gap := by
  induction hg with
  | nil => exact .nil
  | blank hc _ ih => exact .blank hc ih
  | comment hb _ ih => exact .comment hb (by simp) (.blank isBlank_newline ih)

theorem StartsGap.not_isNameChar {rest : List Char} (hr : StartsGap rest) :
    ∀ c ∈ rest.head?, isNameChar c = false := by
  intro c hc
  rcases hr c hc with h | rfl
  · exact isNameChar_of_isBlank h
  · decide

theorem StartsGap.stops {rest : List Char} (hr : StartsGap rest) (s : Symbol Numeral) :
    s.Stops rest := by
  have hn := hr.not_isNameChar
  rcases s with n | ⟨_ | _, text⟩ | _
  · refine fun c hc => ⟨isDigit_of_not_isNameChar (hn c hc), ?_⟩
    rintro - rfl
    exact absurd (hr '.' hc) (by decide)
  · exact hn
  all_goals trivial

theorem startsGap_layOut {gap : Nat → List Char} (hg : ∀ i, IsGap (gap i)) {ls : List (List Char)}
    (hn : ls ≠ [] → gap 0 ≠ []) : StartsGap (layOut gap ls) := by
  cases ls with
  | nil => exact (hg 0).startsGap
  | cons l ls => exact (hg 0).startsGap.append (hn (by simp)) _

theorem exists_cuts_layOut {ss : List (Symbol Numeral)} (hs : ∀ s ∈ ss, s.Legible)
    {gap : Nat → List Char} (hg : ∀ i, IsGap (gap i))
    (hn : ∀ i, 0 < i → i < ss.length → gap i ≠ []) :
    ∃ ps last, Cuts ps last (layOut gap (ss.map Symbol.lexeme)) ∧ ps.map Piece.symbol = ss := by
  induction ss generalizing gap with
  | nil => exact ⟨[], gap 0, .last ((hg 0).ignoredBefore []), rfl⟩
  | cons s ss ih =>
    have hstart : StartsGap (layOut (fun i => gap (i + 1)) (ss.map Symbol.lexeme)) := by
      refine startsGap_layOut (fun i => hg (i + 1)) fun hne => hn 1 (by omega) ?_
      have hpos := List.length_pos_iff.mpr hne
      simpa using hpos
    obtain ⟨ps, last, hc, rfl⟩ := ih (fun a ha => hs a (List.mem_cons_of_mem s ha))
      (fun i => hg (i + 1)) (fun i hi hl => hn (i + 1) (by omega) (by simpa using hl))
    exact ⟨⟨gap 0, s⟩ :: ps, last,
      .piece ((hg 0).ignoredBefore _) (hs s List.mem_cons_self) (hstart.stops s) hc, rfl⟩

/-- However tokens are laid out, the lexer reads them back, with an end behind the last. -/
theorem tokenize_layOut {ss : List (Symbol Numeral)} (hs : ∀ s ∈ ss, s.Legible)
    {gap : Nat → List Char} (hg : ∀ i, IsGap (gap i))
    (hn : ∀ i, 0 < i → i < ss.length → gap i ≠ []) :
    ∃ ts : List (Token α), tokenize (String.ofList (layOut gap (ss.map Symbol.lexeme))) = .ok ts ∧
      ts.map Token.symbol = ss.map (Symbol.map Numeral.value) ++ [.eof] := by
  obtain ⟨ps, last, hc, rfl⟩ := exists_cuts_layOut hs hg hn
  refine ⟨tokensFrom 0 last ps, tokenize_eq_ok_iff.mpr ⟨ps, last, ?_, rfl⟩, symbols_tokensFrom⟩
  rwa [String.toList_ofList]

end Posterior
