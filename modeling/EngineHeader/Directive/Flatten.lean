import EngineHeader.Directive.Basic
import EngineHeader.Names

/-!
# Flattening

To *flatten* directives is to decide every condition and to keep the source text
that is left.  The directives are taken in order, and a definition counts for
what comes after it, in the same block or behind it.  Every directive ends its
output with a line feed, also a block that is not taken and a directive without
output of its own.

Blocks may nest to any depth, so the directives still to be taken are kept on a
list: those of the innermost block first, then those behind it in the block
around it, and so on.
-/

namespace EngineHeader.Directive

/-- Whether a block with this condition is taken. -/
def Condition.holds (condition : Condition) (name : String) (names : Names) : Bool :=
  match condition with
  | .defined => name ∈ names
  | .undefined => name ∉ names

/-- What flattening has reached: the names defined so far, and the output. -/
structure Flattened where
  /-- The names. -/
  names : Names
  /-- The text. -/
  text : String
deriving DecidableEq, Repr

/-- One more piece of output. -/
def Flattened.write (f : Flattened) (text : String) : Flattened :=
  { f with text := f.text ++ text }

/-- Flatten what is left of each open block, innermost first.  Every block but
the outermost ends its output with a line feed. -/
def flattenAll (f : Flattened) : List (List Directive) → Flattened
  | [] => f
  | [[]] => f
  | [] :: left :: outer => flattenAll (f.write "\n") (left :: outer)
  | (.source text :: left) :: outer => flattenAll ((f.write text).write "\n") (left :: outer)
  | (.define name :: left) :: outer =>
    flattenAll ({ f with names := f.names.insert name }.write "\n") (left :: outer)
  | (.includeFile _ _ :: left) :: outer => flattenAll (f.write "\n") (left :: outer)
  | (.block condition name body :: left) :: outer =>
    if condition.holds name f.names then flattenAll f (body :: left :: outer)
    else flattenAll (f.write "\n") (left :: outer)
termination_by stack => sizeOf stack

/-- The text that is left of a list of directives, where `names` are defined. -/
def flatten (directives : List Directive) (names : Names) : String :=
  (flattenAll ⟨names, ""⟩ [directives]).text

end EngineHeader.Directive
