import EngineHeader.Proofs.Position
import EngineHeader.Text.Cursor

/-!
# Exact positions

A position is *exact* in a source if it is the one of a place there.  Then its offset counts the
bytes in front of the place, so that it falls between two characters, and its line and its column
are those to which the text in front leads from the beginning.

`StandsAt` says of a position that it is exact, and which text stands there, and `IsEnd` says that
it is the end of the source.  A cursor that is in a source (`Cursor.In`) is still in it when it is
moved, and what it has in front of it stands at its position.
-/

namespace EngineHeader

/-- The position is exact in the source, and this text stands there. -/
def StandsAt (source text : String) (p : Position) : Prop :=
  ∃ front behind, source = front ++ text ++ behind ∧ front.utf8ByteSize = p.offset ∧
    p = Position.start.advance front.toList

/-- The position is exact in the source, and nothing stands behind it. -/
def IsEnd (source : String) (p : Position) : Prop :=
  source.utf8ByteSize = p.offset ∧ p = Position.start.advance source.toList

variable {source : String}

theorem standsAt_of_append {front text behind : List Char}
    (h : source.toList = front ++ text ++ behind) :
    StandsAt source (String.ofList text) (Position.start.advance front) := by
  refine ⟨String.ofList front, String.ofList behind, ?_, ?_, ?_⟩
  · rw [← String.ofList_append, ← String.ofList_append, ← h, String.ofList_toList]
  · rw [Position.offset_advance]
    exact (Nat.zero_add _).symm
  · rw [String.toList_ofList]

theorem isEnd_advance (source : String) : IsEnd source (Position.start.advance source.toList) := by
  refine ⟨?_, rfl⟩
  rw [Position.offset_advance, String.ofList_toList]
  exact (Nat.zero_add _).symm

namespace Cursor

/-- The cursor is in the source, and its position is exact. -/
def In (source : String) (c : Cursor) : Prop :=
  ∃ front, source.toList = front ++ c.rest ∧ c.position = Position.start.advance front

theorem in_ofText (source : String) : (ofText source).In source := ⟨[], rfl, rfl⟩

variable {c : Cursor}

theorem In.move (h : c.In source) (n : Nat) : (c.move n).In source := by
  obtain ⟨front, hsource, hposition⟩ := h
  refine ⟨front ++ c.rest.take n, ?_, ?_⟩
  · rw [rest_move, List.append_assoc, List.take_append_drop, hsource]
  · rw [position_move, hposition, Position.advance_append]

/-- What a cursor has in front of it stands at its position. -/
theorem In.standsAt (h : c.In source) {text behind : List Char} (hrest : c.rest = text ++ behind) :
    StandsAt source (String.ofList text) c.position := by
  obtain ⟨front, hsource, hposition⟩ := h
  rw [hrest, ← List.append_assoc] at hsource
  rw [hposition]
  exact standsAt_of_append hsource

theorem In.standsAt_peek (h : c.In source) (n : Nat) : StandsAt source (c.peek n) c.position :=
  h.standsAt (List.take_append_drop n c.rest).symm

/-- A cursor with nothing in front of it is at the end. -/
theorem In.isEnd (h : c.In source) (hrest : c.rest = []) : IsEnd source c.position := by
  obtain ⟨front, hsource, hposition⟩ := h
  rw [hrest, List.append_nil] at hsource
  rw [hposition, ← hsource]
  exact isEnd_advance source

end Cursor

end EngineHeader
