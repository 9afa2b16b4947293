import EngineHeader.Text.Character
import EngineHeader.Text.Comment
import EngineHeader.Text.Extent
import EngineHeader.Text.WhiteSpace

/-!
# Directive lines

A directive line has a name, an argument and a rest.  *Spacing* may stand in
front of each: blanks, comments, and line ends behind a backslash.  A line
comment, or a block comment that is never closed, is spacing up to the end.

The argument is a word, or a file name in angle brackets or quotes.  A file name
ends at the first closing bracket or quote, and inside it nothing is a comment.
If that is missing there is no argument.  The rest is whatever follows the
argument, less the white space at its end.
-/

namespace EngineHeader.Directive

open Text

/-! ## Spacing -/

/-- The length of one unit of spacing at the head of a line. -/
def spacingUnit : List Char → Nat
  | '\\' :: '\n' :: _ => 2
  | '\\' :: '\r' :: '\n' :: _ => 3
  | [] => 0
  | c :: text =>
    if isBlank c then 1
    else if opensLine (c :: text) then text.length + 1
    else commentLength (c :: text)

/-- A line without the spacing in front of it. -/
def skipSpacing (text : List Char) : List Char := dropUnits spacingUnit text

/-! ## Arguments -/

/-- The argument of a directive. -/
inductive Argument where
  /-- A word, which may begin with a digit. -/
  | word (text : String)
  /-- A file name in angle brackets. -/
  | angled (name : String)
  /-- A file name in quotes. -/
  | quoted (name : String)
deriving DecidableEq, Repr

/-- An argument as it is spelled, with its delimiters. -/
def Argument.text : Argument → String
  | .word text => text
  | .angled name => "<" ++ name ++ ">"
  | .quoted name => "\"" ++ name ++ "\""

/-- What stands in front of the first `close`, and what follows it. -/
def splitAt? (close : Char) (text : List Char) : Option (List Char × List Char) :=
  match text.dropWhile (· != close) with
  | [] => none
  | _ :: rest => some (text.takeWhile (· != close), rest)

/-- The argument at the head of a line, and what follows it. -/
def readArgument (text : List Char) : Option Argument × List Char :=
  match text with
  | [] => (none, [])
  | c :: inside =>
    if isWordPart c then
      (some (.word (String.ofList (text.takeWhile isWordPart))), text.dropWhile isWordPart)
    else if c = '<' then
      match splitAt? '>' inside with
      | some (name, rest) => (some (.angled (String.ofList name)), rest)
      | none => (none, text)
    else if c = '"' then
      match splitAt? '"' inside with
      | some (name, rest) => (some (.quoted (String.ofList name)), rest)
      | none => (none, text)
    else (none, text)

/-! ## Lines -/

/-- A directive line, cut into its parts. -/
structure Line where
  /-- The name of the directive.  It is empty if the line has none. -/
  name : String
  /-- The argument, if there is one. -/
  argument? : Option Argument
  /-- What follows, without spacing in front and white space behind. -/
  rest : String
deriving DecidableEq, Repr

/-- The parts of a directive line, from the text behind its number sign. -/
def Line.ofText (text : List Char) : Line :=
  let named := skipSpacing text
  let (argument?, rest) := readArgument (skipSpacing (named.dropWhile isWordPart))
  ⟨String.ofList (named.takeWhile isWordPart), argument?,
    String.ofList (trimEnd (skipSpacing rest))⟩

/-- Nothing follows the name of the directive. -/
def Line.isBare (l : Line) : Bool := l.argument?.isNone && l.rest == ""

end EngineHeader.Directive
