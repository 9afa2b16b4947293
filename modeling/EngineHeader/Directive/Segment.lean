import EngineHeader.Directive.Line
import EngineHeader.Scan
import EngineHeader.Text.Cursor

/-!
# Segments

A header is cut into *segments*: directive lines, and the source text between
them.  White space and comments in front of a segment belong to none.

A directive line begins at a number sign that is the first thing of its line,
blanks and comments aside.  It goes on to the end of the line.  A line end inside
a block comment or behind a backslash does not count.  Source text goes on to the
next directive line, with all white space and comments in between.

A block comment that is never closed is an error in front of a segment.  Inside
of one it takes everything that follows.
-/

namespace EngineHeader.Directive

open Text

/-! ## Measuring -/

/-- The length of one unit that stands in front of a segment: a white space
character or a comment that is closed. -/
def layoutUnit (text : List Char) : Nat :=
  match text.head? with
  | none => 0
  | some c => if isLayout c then 1 else closedComment text

/-- The length of one unit of a directive line: a comment, a line end behind a
backslash, or a single character.  Zero at the end of the line. -/
def lineUnit : List Char → Nat
  | [] => 0
  | '\n' :: _ => 0
  | '\\' :: '\n' :: _ => 2
  | '\\' :: '\r' :: '\n' :: _ => 3
  | text => max 1 (commentLength text)

/-- The number sign that begins a directive line is one unit of it. -/
theorem extent_lineUnit_hash (text : List Char) :
    extent lineUnit ('#' :: text) = extent lineUnit text + 1 := by
  have hunit : lineUnit ('#' :: text) = 1 := rfl
  have hpos : 0 < lineUnit ('#' :: text) := Nat.one_pos
  rw [extent_of_pos (List.cons_ne_nil _ _) hpos, hunit, List.drop_succ_cons, List.drop_zero,
    Nat.add_comm]

/-- `n` more than the characters of source text in front of the next directive
line.  `fresh` says that only blanks and comments stand between here and the
beginning of the line. -/
def sourceFrom (fresh : Bool) (n : Nat) : List Char → Nat
  | [] => n
  | c :: text =>
    if c = '\n' then sourceFrom true (n + 1) text
    else if isBlank c then sourceFrom fresh (n + 1) text
    else
      match commentLength (c :: text) with
      | k + 1 => sourceFrom fresh (n + (k + 1)) (text.drop k)
      | 0 => if fresh && c = '#' then n else sourceFrom false (n + 1) text
termination_by text => text.length
decreasing_by all_goals simp only [List.length_drop, List.length_cons]; omega

/-- The length of the source text at the head of a text, which does not begin
with a directive line. -/
def sourceLength (text : List Char) : Nat := sourceFrom false 0 text

theorem sourceFrom_ge (fresh : Bool) (n : Nat) (text : List Char) :
    n ≤ sourceFrom fresh n text := by
  fun_induction sourceFrom fresh n text <;> omega

/-- Source text that does not begin with a directive line is not empty. -/
theorem sourceLength_pos {text : List Char} (h : text ≠ []) : 0 < sourceLength text := by
  cases text with
  | nil => exact absurd rfl h
  | cons c text =>
    unfold sourceLength
    rw [sourceFrom]
    split
    · exact sourceFrom_ge ..
    split
    · exact Nat.lt_of_lt_of_le Nat.zero_lt_one (sourceFrom_ge ..)
    split
    · exact Nat.lt_of_lt_of_le (by omega) (sourceFrom_ge ..)
    · exact Nat.lt_of_lt_of_le Nat.zero_lt_one (sourceFrom_ge ..)

/-! ## Cutting -/

/-- What a segment holds. -/
inductive Content where
  /-- Source text, from its first character that is neither white space nor in a
  comment. -/
  | source (text : String)
  /-- A directive line. -/
  | line (line : Line)
deriving DecidableEq, Repr

/-- A segment of a header. -/
structure Segment where
  /-- What it holds. -/
  content : Content
  /-- Where it begins. -/
  position : Position
deriving DecidableEq, Repr

/-- What is found in front of a cursor.  A segment takes some text, so that a scan
comes to its end. -/
inductive Found (c : Cursor) where
  /-- A segment, and the cursor behind it. -/
  | segment (segment : Segment) (behind : Cursor)
    (shorter : behind.rest.length < c.rest.length)
  /-- The end of the text. -/
  | nothing (behind : Cursor)

namespace Segment

/-- The cursor in front of the next segment. -/
def skipLayout (c : Cursor) : Cursor := c.move (extent layoutUnit c.rest)

/-- What is found right at a cursor, without skipping anything. -/
def readHere (c : Cursor) : Except Error (Found c) :=
  if h : c.rest = [] then .ok (.nothing c)
  else if opensBlock c.rest then .error (.unrecognized c.position (c.peek 2))
  else if c.rest.head h = '#' then
    let n := extent lineUnit c.rest
    .ok (.segment ⟨.line (.ofText (c.rest.take n).tail), c.position⟩ (c.move (n + 1))
      (c.length_move_lt h n.succ_pos))
  else
    let n := sourceLength c.rest
    .ok (.segment ⟨.source (c.peek n), c.position⟩ (c.move n)
      (c.length_move_lt h (sourceLength_pos h)))

/-- What is found behind the white space and the comments at a cursor. -/
def read (c : Cursor) : Except Error (Found c) := do
  match ← readHere (skipLayout c) with
  | .nothing behind => return .nothing behind
  | .segment s behind h => return .segment s behind (Nat.lt_of_lt_of_le h (c.length_move_le _))

/-! ## Reading a whole text -/

/-- The segments from a cursor on, behind those already taken, latest first. -/
def scanFrom (taken : List Segment) (c : Cursor) : Scan Segment :=
  match read c with
  | .error e => ⟨taken.reverse, some e⟩
  | .ok (.nothing _) => ⟨taken.reverse, none⟩
  | .ok (.segment s behind _) => scanFrom (s :: taken) behind
termination_by c.rest.length

/-- The segments of a text. -/
def scanText (text : String) : Scan Segment := scanFrom [] (.ofText text)

end Segment

end EngineHeader.Directive
