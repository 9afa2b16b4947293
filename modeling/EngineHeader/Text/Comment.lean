/-!
# Comments

A comment of C is either a *line comment*, from two slashes up to the end of the
line, or a *block comment*, from a slash and a star through the first star and
slash behind them.  Comments do not nest.  A block comment may be left open, and
then it has no end.

All lengths are in characters.
-/

namespace EngineHeader.Text

/-- The characters in front of the next line feed, or all of them. -/
def lineLength (text : List Char) : Nat := (text.takeWhile (· != '\n')).length

/-- `n` more than the characters through the first star and slash. -/
def closingFrom (n : Nat) : List Char → Option Nat
  | [] => none
  | '*' :: '/' :: _ => some (n + 2)
  | _ :: text => closingFrom (n + 1) text

/-- The characters through the first star and slash, if there is one. -/
def closing? (text : List Char) : Option Nat := closingFrom 0 text

/-- The length of the block comment at the head of a text.  It is `none` if the
comment is never closed, and also if none is opened. -/
def blockComment? : List Char → Option Nat
  | '/' :: '*' :: text => (closing? text).map (· + 2)
  | _ => none

/-- A block comment begins here, closed or not. -/
def opensBlock : List Char → Bool
  | '/' :: '*' :: _ => true
  | _ => false

/-- A line comment begins here. -/
def opensLine : List Char → Bool
  | '/' :: '/' :: _ => true
  | _ => false

/-- The length of the comment at the head of a text.  Zero if there is none, and
also if it is a block comment that is never closed. -/
def closedComment (text : List Char) : Nat :=
  if opensBlock text then (blockComment? text).getD 0
  else if opensLine text then lineLength text
  else 0

/-- The length of the comment at the head of a text, where a block comment that
is never closed takes the whole text.  Zero if there is none. -/
def commentLength (text : List Char) : Nat :=
  if opensBlock text then (blockComment? text).getD text.length
  else if opensLine text then lineLength text
  else 0

end EngineHeader.Text
