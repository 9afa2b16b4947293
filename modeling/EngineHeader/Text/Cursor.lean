import EngineHeader.Position

/-!
# Cursors

A *cursor* is what a scanner has in front of it: the rest of the text, and the
position where that rest begins.  The scanners measure the next piece of the
rest in characters and then move the cursor over it.
-/

namespace EngineHeader

/-- A place in a text together with what follows it. -/
structure Cursor where
  /-- The text from here on. -/
  rest : List Char
  /-- The place. -/
  position : Position
deriving DecidableEq, Repr

namespace Cursor

/-- The cursor at the beginning of a text. -/
def ofText (text : String) : Cursor := ⟨text.toList, .start⟩

/-- The cursor behind the next `n` characters. -/
def move (c : Cursor) (n : Nat) : Cursor :=
  ⟨c.rest.drop n, c.position.advance (c.rest.take n)⟩

/-- The next `n` characters. -/
def peek (c : Cursor) (n : Nat) : String := String.ofList (c.rest.take n)

@[simp] theorem rest_move (c : Cursor) (n : Nat) : (c.move n).rest = c.rest.drop n := rfl

@[simp] theorem position_move (c : Cursor) (n : Nat) :
    (c.move n).position = c.position.advance (c.rest.take n) := rfl

@[simp] theorem move_zero (c : Cursor) : c.move 0 = c := rfl

/-- Moving twice is moving once by the sum. -/
theorem move_move (c : Cursor) (m n : Nat) : (c.move m).move n = c.move (m + n) := by
  simp only [move, List.drop_drop, List.take_add, Position.advance_append]

/-- Moving adds no text. -/
theorem length_move_le (c : Cursor) (n : Nat) : (c.move n).rest.length ≤ c.rest.length := by
  simp

/-- Moving over some text leaves less of it. -/
theorem length_move_lt (c : Cursor) {n : Nat} (h : c.rest ≠ []) (hn : 0 < n) :
    (c.move n).rest.length < c.rest.length := by
  have := List.length_pos_iff.mpr h
  simp only [rest_move, List.length_drop]
  omega

end Cursor

end EngineHeader
