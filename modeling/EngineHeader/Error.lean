import EngineHeader.Declaration.Expected
import EngineHeader.Directive.Fault
import EngineHeader.Text.Quoted
import EngineHeader.Token.Basic

/-!
# Errors

What can be wrong with a header, and where.  There are three kinds.  The text
may not be made of tokens.  Its directives may be malformed or not nest.  The
tokens may not form declarations.
-/

namespace EngineHeader

/-- What is wrong with a header, and where. -/
inductive Error where
  /-- No token begins with this text. -/
  | unrecognized (position : Position) (found : String)
  /-- A directive is malformed, or does not nest. -/
  | directive (position : Position) (fault : Directive.Fault)
  /-- The grammar needs something else than this token. -/
  | grammar (found : Token) (expected : Declaration.Expected)
deriving DecidableEq, Repr

namespace Error

/-- Where a header is wrong. -/
def position : Error → Position
  | .unrecognized position _ => position
  | .directive position _ => position
  | .grammar found _ => found.position

/-- What is wrong with a header. -/
def cause : Error → String
  | .unrecognized _ found => "unrecognized input " ++ Text.quoted found
  | .directive _ fault => fault.message
  | .grammar found expected => "expected " ++ expected.text ++ ", found " ++ found.describe

/-- The text of an error: where, and what. -/
def message (e : Error) : String := toString e.position ++ ": " ++ e.cause

end Error

end EngineHeader
