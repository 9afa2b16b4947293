/-!
# Classes of characters

The classes that the scanners and the readers share.  All of them hold ASCII
characters only: a word of a header is an identifier of C, and a blank is one of
the five characters that C takes as white space within a line.  The decimal
digits are those of `Char.isDigit`.
-/

namespace EngineHeader.Text

/-- White space within a line: space, tab, carriage return, vertical tab and
form feed. -/
def isBlank (c : Char) : Bool :=
  c == ' ' || c == '\t' || c == '\r' || c == '\x0b' || c == '\x0c'

/-- White space between tokens: a blank or a line feed. -/
def isLayout (c : Char) : Bool := isBlank c || c == '\n'

/-- A character that may begin a word: a letter or the underscore. -/
def isWordStart (c : Char) : Bool := c.isAlpha || c == '_'

/-- A character that may continue a word: a letter, a digit or the underscore. -/
def isWordPart (c : Char) : Bool := c.isAlphanum || c == '_'

/-- The value of a hexadecimal digit, in either case. -/
def hexDigit? (c : Char) : Option Nat :=
  if '0' ≤ c ∧ c ≤ '9' then some (c.toNat - '0'.toNat)
  else if 'a' ≤ c ∧ c ≤ 'f' then some (c.toNat - 'a'.toNat + 10)
  else if 'A' ≤ c ∧ c ≤ 'F' then some (c.toNat - 'A'.toNat + 10)
  else none

/-- A hexadecimal digit. -/
def isHexDigit (c : Char) : Bool := (hexDigit? c).isSome

/-- A sign of a number. -/
def isSign (c : Char) : Bool := c == '-' || c == '+'

/-- The letter that marks a hexadecimal number after its zero. -/
def isHexMark (c : Char) : Bool := c == 'x' || c == 'X'

/-- A word does not begin with a digit. -/
theorem isDigit_of_isWordStart {c : Char} (h : isWordStart c = true) : c.isDigit = false := by
  have hstart : (decide (c.val ≥ 'A'.val ∧ c.val ≤ 'Z'.val) ||
      (decide (c.val ≥ 'a'.val) && decide (c.val ≤ 'z'.val)) || c == '_') = true := h
  have hdigit : c.isDigit = (decide (c.val ≥ '0'.val) && decide (c.val ≤ '9'.val)) := rfl
  have hnine : '9'.val.toNat = 57 := rfl
  have hupper : 'A'.val.toNat = 65 := rfl
  have hlower : 'a'.val.toNat = 97 := rfl
  simp only [Bool.or_eq_true, Bool.and_eq_true, decide_eq_true_eq, beq_iff_eq, ge_iff_le,
    UInt32.le_iff_toNat_le] at hstart
  rw [hdigit, Bool.and_eq_false_iff, decide_eq_false_iff_not, decide_eq_false_iff_not,
    UInt32.le_iff_toNat_le (b := '9'.val)]
  rcases hstart with (⟨hge, _⟩ | ⟨hge, _⟩) | rfl
  · exact .inr (by omega)
  · exact .inr (by omega)
  · exact .inr (by decide)

end EngineHeader.Text
