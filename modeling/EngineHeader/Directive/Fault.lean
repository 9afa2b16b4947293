/-!
# Directives and what can be wrong with them

The names of the directives that are understood, and the faults of a directive
line or of the block structure that the lines make.
-/

namespace EngineHeader.Directive

/-- A directive that is understood. -/
inductive Keyword where
  | ifDefined
  | ifUndefined
  | endif
  | define
  | includeFile
deriving DecidableEq, Repr

/-- How a directive is spelled. -/
def Keyword.text : Keyword → String
  | .ifDefined => "ifdef"
  | .ifUndefined => "ifndef"
  | .endif => "endif"
  | .define => "define"
  | .includeFile => "include"

/-- The directive of a spelling. -/
def Keyword.ofText? (text : String) : Option Keyword :=
  [ifDefined, ifUndefined, endif, define, includeFile].find? (·.text = text)

/-- What a block asks of its name. -/
inductive Condition where
  /-- The block is taken if the name is defined. -/
  | defined
  /-- The block is taken if the name is not defined. -/
  | undefined
deriving DecidableEq, Repr

/-- The directive that opens a block. -/
def Condition.keyword : Condition → Keyword
  | .defined => .ifDefined
  | .undefined => .ifUndefined

/-- What can be wrong with a directive. -/
inductive Fault where
  /-- A block is closed where none is open. -/
  | unmatchedEndif
  /-- A block is still open at the end of the text. -/
  | unterminated (condition : Condition) (name : String)
  /-- The name or file that the directive needs is not there. -/
  | missingArgument (directive : Keyword)
  /-- A line has text, but no directive name in front of it. -/
  | missingName
  /-- The directive is not one that is understood. -/
  | unsupported (name : String)
  /-- Something follows a directive that is complete. -/
  | trailingText (directive : Keyword)
deriving DecidableEq, Repr

/-- What is said of a fault. -/
def Fault.message : Fault → String
  | .unmatchedEndif => "#endif without a matching #ifdef or #ifndef"
  | .unterminated condition name =>
      "#" ++ condition.keyword.text ++ " " ++ name ++ " is never closed by #endif"
  | .missingArgument directive => "#" ++ directive.text ++ " is missing its argument"
  | .missingName => "# is followed by text rather than a directive name"
  | .unsupported name => "unsupported directive #" ++ name
  | .trailingText directive => "unexpected text after #" ++ directive.text

/-- A directive is found by its spelling. -/
@[simp] theorem Keyword.ofText?_text (k : Keyword) : ofText? k.text = some k := by
  cases k <;> decide

end EngineHeader.Directive
