import EngineHeader.Error

/-!
# Positions behind other text

Text adds its bytes to the offset of a position (`Position.offset_advance`) and its line feeds to
the line (`Position.line_advance`).

If whole lines stand in front of a text then every position in it has their bytes and their lines
more, and the column it had (`Position.shift`).  That is so for the beginning
(`start_advance_feed`), and moving over text keeps it so (`advance_shift`).  The tokens and the
errors of the text are shifted with their positions.
-/

namespace EngineHeader

namespace Position

/-- An offset counts the bytes in front. -/
theorem offset_advance (p : Position) (text : List Char) :
    (p.advance text).offset = p.offset + (String.ofList text).utf8ByteSize := by
  induction text generalizing p with
  | nil => rfl
  | cons c text ih =>
    have hnext : (p.next c).offset = p.offset + c.utf8Size := by
      rw [next]
      split
      · rfl
      · rfl
    rw [advance_cons, ih, hnext]
    simp [Nat.add_assoc]

/-- The line of a position is told by the line feeds in front of it. -/
theorem line_advance (p : Position) (text : List Char) :
    (p.advance text).line = p.line + text.count '\n' := by
  induction text generalizing p with
  | nil => rfl
  | cons c text ih =>
    rw [advance_cons, ih, next, List.count_cons]
    by_cases hc : c = '\n'
    · rw [if_pos hc, if_pos (beq_iff_eq.mpr hc), Nat.add_assoc, Nat.add_comm 1]
    · rw [if_neg hc, if_neg (mt beq_iff_eq.mp hc)]
      rfl

/-- In one text, only one front part ends at a place. -/
theorem eq_of_advance_eq {p : Position} {a a' b b' : List Char} (htext : a ++ b = a' ++ b')
    (h : p.advance a = p.advance a') : a = a' := by
  have hempty {front more : List Char} (h : p.advance front = p.advance (front ++ more)) :
      more = [] := by
    rw [advance_append] at h
    have hsize := congrArg offset h
    rw [offset_advance (p.advance front)] at hsize
    have hzero : (String.ofList more).utf8ByteSize = 0 := by omega
    rwa [String.utf8ByteSize_eq_zero_iff, String.ofList_eq_empty_iff] at hzero
  rcases List.append_eq_append_iff.mp htext with ⟨more, rfl, _⟩ | ⟨more, rfl, _⟩
  · rw [hempty h, List.append_nil]
  · rw [hempty h.symm, List.append_nil]

/-! ## Whole lines in front -/

/-- The place with so many more bytes and lines in front, in the same column. -/
def shift (p : Position) (bytes lines : Nat) : Position :=
  ⟨p.offset + bytes, p.line + lines, p.column⟩

variable (p : Position) (bytes lines : Nat) (text : List Char)

theorem next_shift (c : Char) : (p.shift bytes lines).next c = (p.next c).shift bytes lines := by
  rw [next, next, shift]
  split
  · rw [shift, Nat.add_right_comm, Nat.add_right_comm p.line]
  · rw [shift, Nat.add_right_comm]

/-- Lines in front of a text are in front of all of it. -/
theorem advance_shift :
    (p.shift bytes lines).advance text = (p.advance text).shift bytes lines := by
  induction text generalizing p with
  | nil => rfl
  | cons c text ih => rw [advance_cons, advance_cons, next_shift, ih]

/-- Behind whole lines is the first column. -/
theorem start_advance_feed :
    (start.advance text).next '\n' =
      start.shift ((String.ofList text).utf8ByteSize + 1) (text.count '\n' + 1) := by
  rw [next, if_pos rfl, offset_advance, line_advance, Nat.add_assoc, Nat.add_assoc]
  rfl

end Position

/-- The token behind so many more bytes and lines. -/
def Token.shift (t : Token) (bytes lines : Nat) : Token :=
  { t with position := t.position.shift bytes lines }

/-- The error behind so many more bytes and lines.  What is wrong is the same. -/
def Error.shift (e : Error) (bytes lines : Nat) : Error :=
  match e with
  | .unrecognized p found => .unrecognized (p.shift bytes lines) found
  | .directive p fault => .directive (p.shift bytes lines) fault
  | .grammar found expected => .grammar (found.shift bytes lines) expected

end EngineHeader
