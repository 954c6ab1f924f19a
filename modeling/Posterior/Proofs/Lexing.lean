import Posterior.Proofs.Spelling

/-!
How a text falls into tokens. Every character belongs to one lexeme or to the ignored text between two of
them, and a lexeme or a comment goes on as long as it can.
-/

set_option autoImplicit false

namespace Posterior

open Lexer Text

inductive Symbol.Legible : Symbol Numeral → Prop where
  | number (n : Numeral) : Legible (.number n)
  | name {name : String} (h : IsName name) : Legible (.mark .identifier name)
  | punctuation {c : Char} {m : Mark} (h : punctuation? c = some m) :
      Legible (.mark m (String.singleton c))

/-- What may stand behind a token: a name goes on with letters, digits and underscores, a number with
digits, and with a point unless it has one. -/
def Symbol.Stops (rest : List Char) : Symbol Numeral → Prop
  | .number n => ∀ c ∈ rest.head?, c.isDigit = false ∧ ('.' ∉ n.lexeme → c ≠ '.')
  | .mark .identifier _ => ∀ c ∈ rest.head?, isNameChar c = false
  | .mark .. | .eof => True

inductive IgnoredBefore (rest : List Char) : List Char → Prop where
  | nil : IgnoredBefore rest []
  | blank {c : Char} {cs : List Char} (hc : isBlank c = true) (h : IgnoredBefore rest cs) :
      IgnoredBefore rest (c :: cs)
  | comment {body cs : List Char} (hb : '\n' ∉ body) (hs : ∀ c ∈ (cs ++ rest).head?, c = '\n')
      (h : IgnoredBefore rest cs) : IgnoredBefore rest ('#' :: (body ++ cs))

structure Piece where
  gap : List Char
  symbol : Symbol Numeral

/-- A text is the pieces it is cut into, one behind the other, and then ignored text. -/
inductive Cuts : List Piece → (last : List Char) → (text : List Char) → Prop where
  | last {gap : List Char} (h : IgnoredBefore [] gap) : Cuts [] gap gap
  | piece {gap : List Char} {s : Symbol Numeral} {ps : List Piece} {last rest : List Char}
      (hg : IgnoredBefore (s.lexeme ++ rest) gap) (hs : s.Legible) (hr : s.Stops rest)
      (h : Cuts ps last rest) : Cuts (⟨gap, s⟩ :: ps) last (gap ++ (s.lexeme ++ rest))

variable {α : Type} [Arithmetic α]

/-- The tokens of pieces that start at an offset of the text. A token stands where its lexeme starts, and
the end behind everything. -/
def tokensFrom (position : Nat) (last : List Char) : List Piece → List (Token α)
  | [] => [⟨.eof, (position + last.length : Nat)⟩]
  | p :: ps =>
    ⟨p.symbol.map Numeral.value, (position + p.gap.length : Nat)⟩ ::
      tokensFrom (position + p.gap.length + p.symbol.lexeme.length) last ps

end Posterior
