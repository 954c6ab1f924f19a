/-!
Tokens of the language: numbers, names, operators and punctuation, and the end of the text. A token knows
where it starts in the text, counted in code points.
-/

set_option autoImplicit false

namespace Posterior

inductive Mark where
  | identifier
  | plus
  | minus
  | star
  | slash
  | equal
  | leftParen
  | rightParen
  | comma
  deriving DecidableEq, Repr

inductive Kind where
  | number
  | mark (mark : Mark)
  | eof
  deriving DecidableEq, Repr

inductive Symbol (α : Type) where
  | number (value : α)
  | mark (mark : Mark) (text : String)
  | eof
  deriving Repr

structure Token (α : Type) where
  symbol : Symbol α
  position : Int
  deriving Repr

variable {α : Type}

def Symbol.kind : Symbol α → Kind
  | .number _ => .number
  | .mark m _ => .mark m
  | .eof => .eof

def Token.kind (t : Token α) : Kind := t.symbol.kind

@[simp] theorem Token.kind_number (value : α) (position : Int) :
    (⟨.number value, position⟩ : Token α).kind = .number := rfl

@[simp] theorem Token.kind_mark (m : Mark) (text : String) (position : Int) :
    (⟨.mark m text, position⟩ : Token α).kind = .mark m := rfl

@[simp] theorem Token.kind_eof (position : Int) :
    (⟨.eof, position⟩ : Token α).kind = .eof := rfl

def Mark.name : Mark → String
  | .identifier => "IDENTIFIER"
  | .plus => "PLUS"
  | .minus => "MINUS"
  | .star => "STAR"
  | .slash => "SLASH"
  | .equal => "EQUAL"
  | .leftParen => "LPAREN"
  | .rightParen => "RPAREN"
  | .comma => "COMMA"

def Kind.name : Kind → String
  | .number => "NUMBER"
  | .mark m => m.name
  | .eof => "EOF"

end Posterior
