import Posterior.Lexer
import Posterior.Parser

set_option autoImplicit false

namespace Posterior

inductive SourceFault where
  | lexical (fault : LexFault)
  | grammatical (message : String)
  deriving DecidableEq, Repr

def compile (source : String) : Except SourceFault (Node Float) :=
  match tokenize source with
  | .error f => .error (.lexical f)
  | .ok ts =>
    match parse ts with
    | .error message _ => .error (.grammatical message)
    | tree => .ok tree

end Posterior
