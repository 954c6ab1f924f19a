import Posterior.Arithmetic
import Posterior.Text.Blank
import Posterior.Token

/-!
From text to tokens. Between tokens stand blanks and comments; a token is the longest piece of text of its
class. A text that is neither stops the lexer at the character in the way.
-/

set_option autoImplicit false

namespace Posterior.Lexer

open Text

/-- The length of the blanks and comments at the head of a text. A comment runs up to a line break, which
is itself blank; `inComment` says whether one is open. -/
def gapLength (inComment : Bool) : List Char → Nat
  | [] => 0
  | c :: cs =>
    if inComment then 1 + gapLength (c != '\n') cs
    else if isBlank c then 1 + gapLength false cs
    else if c == '#' then 1 + gapLength true cs
    else 0

def isNameChar (c : Char) : Bool := c.isAlphanum || c == '_'

def punctuation? : Char → Option Mark
  | '+' => some .plus
  | '-' => some .minus
  | '*' => some .star
  | '/' => some .slash
  | '=' => some .equal
  | '(' => some .leftParen
  | ')' => some .rightParen
  | ',' => some .comma
  | _ => none

variable {α : Type} [Arithmetic α]

def digitsValue (ds : List Char) : Nat :=
  ds.foldl (fun n c => 10 * n + (c.toNat - 48)) 0

def literalValue (whole fraction : List Char) : α :=
  Arithmetic.ofDecimal (digitsValue (whole ++ fraction)) fraction.length

def munchNumber (cs : List Char) : Except Nat (Symbol α × Nat) :=
  let whole := cs.takeWhile Char.isDigit
  match cs.drop whole.length with
  | '.' :: more =>
    let fraction := more.takeWhile Char.isDigit
    if fraction.isEmpty then .error whole.length
    else .ok (.number (literalValue whole fraction), whole.length + 1 + fraction.length)
  | _ => .ok (.number (literalValue whole []), whole.length)

def startsWithDigit : List Char → Bool
  | [] => false
  | c :: _ => c.isDigit

/-- The token at the head of a text that starts with no gap, and its length; or the offset of the
character that cannot be read. -/
def munch : List Char → Except Nat (Symbol α × Nat)
  | [] => .ok (.eof, 0)
  | c :: cs =>
    if c.isAlpha then
      let name := (c :: cs).takeWhile isNameChar
      .ok (.mark .identifier (String.ofList name), name.length)
    else if c.isDigit || (c == '.' && startsWithDigit cs) then munchNumber (c :: cs)
    else match punctuation? c with
      | some m => .ok (.mark m (String.singleton c), 1)
      | none => .error 0

end Posterior.Lexer

namespace Posterior

/-- A character that cannot be read, and where it stands: its offset, and its line and column, both
counted from one. -/
structure LexFault where
  char : Char
  position : Nat
  line : Nat
  column : Nat
  deriving DecidableEq, Repr

def LexFault.at (source : List Char) (position : Nat) : LexFault :=
  let before := source.take position
  { char := (source.drop position).headD ' '
    position
    line := before.count '\n' + 1
    column := (before.reverse.takeWhile (· != '\n')).length + 1 }

def LexFault.message (f : LexFault) : String :=
  s!"Unexpected character '{f.char}' at line {f.line}, column {f.column}"

structure Lexer where
  source : List Char
  position : Nat := 0

namespace Lexer

variable {α : Type} [Arithmetic α]

def ofString (source : String) : Lexer := { source := source.toList }

/-- Reads one token at offset `position`, where `rest` is what is left of the source: the token and the
offset behind it, or the offset of the character in the way. -/
def scan (position : Nat) (rest : List Char) : Except Nat (Token α × Nat) :=
  let start := position + gapLength false rest
  match munch (rest.drop (gapLength false rest)) with
  | .ok (symbol, length) => .ok (⟨symbol, start⟩, start + length)
  | .error offset => .error (start + offset)

def next (l : Lexer) : Except LexFault (Token α) × Lexer :=
  match scan l.position (l.source.drop l.position) with
  | .ok (token, position) => (.ok token, { l with position })
  | .error position => (.error (.at l.source position), { l with position })

def scanAll : (fuel position : Nat) → (rest : List Char) → Except Nat (List (Token α))
  | 0, _, _ => .ok []
  | fuel + 1, position, rest =>
    match scan position rest with
    | .error offset => .error offset
    | .ok (token, stop) =>
      if token.kind = .eof then .ok [token]
      else match scanAll fuel stop (rest.drop (stop - position)) with
        | .ok tokens => .ok (token :: tokens)
        | .error offset => .error offset

def tokens (source : List Char) : Except LexFault (List (Token α)) :=
  match scanAll (source.length + 1) 0 source with
  | .ok tokens => .ok tokens
  | .error position => .error (.at source position)

def all (l : Lexer) : Except LexFault (List (Token α)) × Lexer :=
  match tokens l.source with
  | .ok ts => (.ok ts, { l with position := l.source.length })
  | .error f => (.error f, { l with position := f.position })

end Lexer

def tokenize {α : Type} [Arithmetic α] (source : String) : Except LexFault (List (Token α)) :=
  Lexer.tokens source.toList

end Posterior
