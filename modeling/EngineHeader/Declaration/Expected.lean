/-!
# What a declaration needs next

Each place where the grammar can fail needs one thing.  The constructors name
these things, and `Expected.text` gives the words for them.
-/

namespace EngineHeader.Declaration

/-- How deeply function pointer arguments may nest inside one another. -/
def maxNesting : Nat := 64

/-- What the grammar needs at some place. -/
inductive Expected where
  | declaration
  | semicolon
  | leftBrace
  | leftParen
  | star
  | rightParen
  | typeName
  | typedefName
  | structName
  | fieldName
  | pointerName
  | enumerator
  | enumeratorValue
  | enumeratorsEnd
  | argumentsEnd
  /-- An integer literal whose value has 64 bits. -/
  | representable
  /-- No further nesting. -/
  | shallower
deriving DecidableEq, Repr

/-- The words for what is needed. -/
def Expected.text : Expected → String
  | .declaration => "'typedef' or a comment"
  | .semicolon => "';'"
  | .leftBrace => "'\x7b'"
  | .leftParen => "'('"
  | .star => "'*'"
  | .rightParen => "')'"
  | .typeName => "a type"
  | .typedefName => "a typedef name"
  | .structName => "a struct name"
  | .fieldName => "a field name"
  | .pointerName => "a function pointer name"
  | .enumerator => "an enumerator"
  | .enumeratorValue => "an integer or an enumerator name"
  | .enumeratorsEnd => "',' or '\x7d'"
  | .argumentsEnd => "',' or ')'"
  | .representable => "an integer that fits in 64 bits"
  | .shallower => "at most " ++ toString maxNesting ++ " nested function pointer arguments"

end EngineHeader.Declaration
