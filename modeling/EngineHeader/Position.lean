/-!
# Positions in a text

A *position* is a place between two characters of a text.  It is kept in three
ways at once: as an offset in bytes, as a line and as a column.  Lines and
columns count from one, columns count characters, and only the line feed starts
a line.

A text moves a position character by character (`Position.next`), and a whole
text moves it by all of its characters (`Position.advance`).  The main
statement is `advance_append`: moving over two texts in turn is moving over
their concatenation.  So the position of any part of a text is determined by
what stands in front of it.
-/

namespace EngineHeader

/-- A place in a text. -/
structure Position where
  /-- Bytes in front of the place. -/
  offset : Nat
  /-- Its line, from one. -/
  line : Nat
  /-- Its column, from one, in characters. -/
  column : Nat
deriving DecidableEq, Repr

namespace Position

/-- The beginning of a text. -/
def start : Position := ⟨0, 1, 1⟩

/-- The place behind one more character. -/
def next (p : Position) (c : Char) : Position :=
  if c = '\n' then ⟨p.offset + c.utf8Size, p.line + 1, 1⟩
  else ⟨p.offset + c.utf8Size, p.line, p.column + 1⟩

/-- The place behind a text that begins at `p`. -/
def advance (p : Position) (text : List Char) : Position := text.foldl next p

/-- A position is written as line and column. -/
instance : ToString Position where
  toString p := toString p.line ++ ":" ++ toString p.column

/-! ## Moving over a text -/

@[simp] theorem advance_nil (p : Position) : p.advance [] = p := rfl

@[simp] theorem advance_cons (p : Position) (c : Char) (text : List Char) :
    p.advance (c :: text) = (p.next c).advance text := rfl

/-- Moving over two texts in turn is moving over their concatenation. -/
theorem advance_append (p : Position) (a b : List Char) :
    p.advance (a ++ b) = (p.advance a).advance b := List.foldl_append

/-! ## Tests -/

example : start.advance ['a', 'b', '\n', 'c', 'd'] = ⟨5, 2, 3⟩ := by decide
example : (⟨5, 2, 3⟩ : Position).advance ['é'] = ⟨7, 2, 4⟩ := by decide

end Position

end EngineHeader
