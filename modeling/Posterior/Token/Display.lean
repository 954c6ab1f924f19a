import Posterior.Decimal.Layout
import Posterior.Text.Quoted
import Posterior.Token

set_option autoImplicit false

namespace Posterior

def Token.text {α : Type} (t : Token α) : String :=
  match t.symbol with
  | .mark _ text => text
  | .number _ | .eof => ""

def Token.form (t : Token Float) : String :=
  match t.symbol with
  | .number value => "NUMBER(" ++ Decimal.Layout.exact.write value ++ ")"
  | .mark m text => m.name ++ "(" ++ Text.quoted text ++ ")"
  | .eof => "EOF"

def Token.describe (t : Token Float) : String :=
  match t.symbol with
  | .number value => "NUMBER " ++ Decimal.Layout.exact.write value
  | .mark m text => m.name ++ " " ++ Text.quoted text
  | .eof => "end of input"

end Posterior
