import EngineHeader.Text.Character

/-!
# Integer literals

The value of an integer literal: an optional sign, and then decimal digits, or
hexadecimal digits behind a zero and a mark.  The value is exact, whatever its
size.  Only values of 64 bits, with a sign, may be used.
-/

namespace EngineHeader.Declaration.Literal

open Text

/-- The number that digits stand for. -/
def ofDigits (base : Nat) (digits : List Char) : Nat :=
  digits.foldl (fun n c => base * n + (hexDigit? c).getD 0) 0

/-- The value of a literal without a sign. -/
def magnitude : List Char → Nat
  | '0' :: mark :: digits =>
    if isHexMark mark then ofDigits 16 digits else ofDigits 10 ('0' :: mark :: digits)
  | digits => ofDigits 10 digits

/-- The value of a literal. -/
def value : List Char → Int
  | '-' :: literal => -(magnitude literal : Int)
  | '+' :: literal => magnitude literal
  | literal => magnitude literal

/-- A value that has 64 bits, with a sign. -/
def isRepresentable (value : Int) : Bool := -0x8000000000000000 ≤ value && value ≤ 0x7fffffffffffffff

example : value ['-', '0', 'x', '1', '0'] = -16 := by decide
example : value ['+', '0', '0', '7'] = 7 := by decide

end EngineHeader.Declaration.Literal
