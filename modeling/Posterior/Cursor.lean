import Posterior.Parser

set_option autoImplicit false

namespace Posterior

structure Cursor (α : Type) where
  tokens : List (Token α)
  index : Nat

namespace Cursor

variable {α β : Type}

def ofTokens (ts : List (Token α)) : Cursor α := ⟨closeTokens ts, 0⟩

def rest (c : Cursor α) : List (Token α) := c.tokens.drop c.index

def current? (c : Cursor α) : Option (Token α) := c.tokens[c.index]?

/-- The token `offset` places on, or the last one if there are fewer. A place before the first token
counts from the end of the list, once. -/
def peek? (c : Cursor α) (offset : Int) : Option (Token α) :=
  let size : Int := c.tokens.length
  let place := min (c.index + offset) (size - 1)
  let place := if place < 0 then place + size else place
  if place < 0 then none else c.tokens[place.toNat]?

def run (c : Cursor α) (p : Parser.Parse α β) : Except (ParseStop α) β × Cursor α :=
  match p c.rest with
  | .ok value rest => (.ok value, { c with index := c.tokens.length - rest.length })
  | .error stop rest => (.error stop, { c with index := c.tokens.length - rest.length })

def advance (c : Cursor α) : Option (Token α) × Cursor α :=
  match c.current? with
  | none => (none, c)
  | some t => (some t, if t.kind = .eof then c else { c with index := c.index + 1 })

end Cursor

end Posterior
