import Posterior.Text.Hex
import Posterior.Text.Join

set_option autoImplicit false

namespace Posterior.Text

inductive Json where
  | null
  | numeral (text : String)
  | string (text : String)
  | array (items : List Json)
  | object (fields : List (String × Json))
  deriving Repr

namespace Json

def unitEscape (n : Nat) : List Char := '\\' :: 'u' :: hex 4 n

def escapeChar (c : Char) : List Char :=
  if c == '"' || c == '\\' then ['\\', c]
  else if c == '\n' then ['\\', 'n']
  else if c == '\r' then ['\\', 'r']
  else if c == '\t' then ['\\', 't']
  else if c == '\x08' then ['\\', 'b']
  else if c == '\x0c' then ['\\', 'f']
  else if ' ' ≤ c && c ≤ '~' then [c]
  else if c.toNat < 0x10000 then unitEscape c.toNat
  else
    let n := c.toNat - 0x10000
    unitEscape (0xd800 + n / 0x400) ++ unitEscape (0xdc00 + n % 0x400)

def quote (s : String) : String :=
  String.ofList ('"' :: s.toList.flatMap escapeChar ++ ['"'])

def newline (level : Nat) : String := String.ofList ('\n' :: List.replicate (2 * level) ' ')

def block (left right : String) (level : Nat) (items : List String) : String :=
  if items.isEmpty then left ++ right
  else
    left ++ newline (level + 1) ++ join ("," ++ newline (level + 1)) items ++ newline level ++ right

mutual

def write (level : Nat) : Json → String
  | .null => "null"
  | .numeral text => text
  | .string text => quote text
  | .array items => block "[" "]" level (writeItems (level + 1) items)
  | .object fields => block "\x7b" "\x7d" level (writeFields (level + 1) fields)

def writeItems (level : Nat) : List Json → List String
  | [] => []
  | item :: items => item.write level :: writeItems level items

def writeFields (level : Nat) : List (String × Json) → List String
  | [] => []
  | (key, value) :: fields => (quote key ++ ": " ++ value.write level) :: writeFields level fields

end

end Json

end Posterior.Text
