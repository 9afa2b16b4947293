import EngineHeader.Config
import EngineHeader.Declaration.Parser
import EngineHeader.Directive.Flatten
import EngineHeader.Directive.Tree

/-!
# Reading a header

A header is read in two stages.  First its directives are decided against a set
of names, which leaves flat text (`flatten`).  Then the flat text is parsed as
declarations (`Header.ofText`).  A position in an error of the second stage is a
position in the flat text.
-/

namespace EngineHeader

/-- The text of a header that is left where `names` are defined. -/
def flatten (source : String) (names : Names) : Except Error String := do
  let directives ← Directive.ofText source
  return Directive.flatten directives names

/-- The declarations of a header, read as configured. -/
def Header.read (c : Config) (source : String) : Except Error Header := do
  let text ← flatten source c.names
  Header.ofText c.dialect text

end EngineHeader
