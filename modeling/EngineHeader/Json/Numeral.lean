import EngineHeader.Json.Binary64
import EngineHeader.Json.Lexical

/-!
# Numbers of JSON as they are written

A *numeral* has an optional minus sign, a whole part, and perhaps a fraction and an
exponent.  Each of these has at least one digit, and a whole part that begins with
a zero has no other.

A numeral may not be too large for binary64.  Its size is taken as a significand of
64 bits and a power of ten (`Scaled`).  The digits go into the significand as long
as they fit.  Digits of the whole part that do not fit raise the power instead, and
those of the fraction are left out.  The numeral is too large if the significand
and the power of ten, each rounded, have a product that rounds to infinity
(`Scaled.isTooLarge`).
-/

namespace EngineHeader.Json

open Text

/-! ## Parts of a numeral -/

/-- At least one digit. -/
def digits : (text : List Char) → Reading (List Char) text
  | [] => .error .unfinished
  | c :: text =>
    if c.isDigit then
      .ok ⟨c :: text.takeWhile Char.isDigit, text.dropWhile Char.isDigit,
        Nat.lt_succ_of_le (List.dropWhile_suffix _).length_le⟩
    else .error .malformed

/-- The whole part of a numeral.  A zero stands alone. -/
def wholePart (text : List Char) : Reading (List Char) text :=
  match digits text with
  | .error e => .error e
  | .ok ⟨'0' :: _ :: _, _, _⟩ => .error .malformed
  | .ok whole => .ok whole

/-- The digits of a fraction, behind its point.  There are none if there is no
fraction. -/
def fraction : (text : List Char) → Except Fault (Kept (List Char) text)
  | '.' :: text => do
    let ⟨shown, rest, h⟩ ← digits text
    return ⟨shown, rest, Nat.le_succ_of_le (Nat.le_of_lt h)⟩
  | text => .ok ⟨[], text, notLonger_refl text⟩

/-- The power of ten that a numeral ends with. -/
structure Exponent where
  /-- The letter in front of it. -/
  mark : Char
  /-- Its sign, if it has one. -/
  sign? : Option Char
  /-- Its digits. -/
  digits : List Char
deriving DecidableEq, Repr

/-- The mark of an exponent. -/
def isExponentMark (c : Char) : Bool := c == 'e' || c == 'E'

/-- The sign of an exponent, and its digits. -/
def signedDigits : (text : List Char) → Reading (Option Char × List Char) text
  | [] => .error .unfinished
  | sign :: text => do
    if isSign sign then
      let ⟨shown, rest, h⟩ ← digits text
      return ⟨(some sign, shown), rest, shorter_cons sign h⟩
    else
      let ⟨shown, rest, h⟩ ← digits (sign :: text)
      return ⟨(none, shown), rest, h⟩

/-- An exponent, if there is one. -/
def exponent : (text : List Char) → Except Fault (Kept (Option Exponent) text)
  | [] => .ok ⟨none, [], Nat.le_refl _⟩
  | mark :: text => do
    if isExponentMark mark then
      let ⟨(sign?, shown), rest, h⟩ ← signedDigits text
      return ⟨some ⟨mark, sign?, shown⟩, rest, Nat.le_succ_of_le (Nat.le_of_lt h)⟩
    else return ⟨none, mark :: text, Nat.le_refl _⟩

/-! ## Values of digits -/

/-- A number with one more digit. -/
def withDigit (n : Nat) (c : Char) : Nat := 10 * n + (c.toNat - '0'.toNat)

/-- The number that digits stand for. -/
def natural (digits : List Char) : Nat := digits.foldl withDigit 0

/-- The power of ten that an exponent stands for. -/
def Exponent.value (e : Exponent) : Int :=
  if e.sign? = some '-' then -(natural e.digits : Int) else natural e.digits

/-- A significand with more digits, as long as it has 64 bits, and how many digits
are left then. -/
def appendDigits (significand : Nat) : List Char → Nat × Nat
  | [] => (significand, 0)
  | c :: digits =>
    if withDigit significand c < UInt64.size then appendDigits (withDigit significand c) digits
    else (significand, digits.length + 1)

/-- A size: a significand of 64 bits times a power of ten. -/
structure Scaled where
  /-- The significand. -/
  significand : Nat
  /-- The power of ten. -/
  power : Int
deriving DecidableEq, Repr

/-- A size that rounds to infinity.  Zero and sizes that are scaled down do not. -/
def Scaled.isTooLarge (s : Scaled) : Bool :=
  s.significand != 0 && 0 ≤ s.power &&
    (308 < s.power ||
      !Binary64.isFinite (Binary64.round s.significand * Binary64.round (Nat.pow 10 s.power.toNat)))

/-! ## Numerals -/

/-- A number as it is written. -/
structure Numeral where
  /-- There is a minus sign. -/
  negative : Bool
  /-- The digits of the whole part. -/
  whole : List Char
  /-- The digits of the fraction, none if there is no fraction. -/
  fraction : List Char
  /-- The exponent. -/
  exponent? : Option Exponent
deriving DecidableEq, Repr

namespace Numeral

/-- The size of a numeral. -/
def size (n : Numeral) : Scaled :=
  let (significand, left) := appendDigits 0 n.whole
  let (significand, dropped) := appendDigits significand n.fraction
  let power := (n.exponent?.map Exponent.value).getD 0
  ⟨significand, left - ((n.fraction.length - dropped : Nat) : Int) + power⟩

/-- There is neither a fraction nor an exponent. -/
def isInteger (n : Numeral) : Bool := n.fraction.isEmpty && n.exponent?.isNone

/-- The whole number that is written, if it is written as one. -/
def integer? (n : Numeral) : Option Int :=
  if n.isInteger then some (if n.negative then -(natural n.whole : Int) else natural n.whole)
  else none

/-- A numeral as text. -/
def text (n : Numeral) : String :=
  let point := if n.fraction.isEmpty then [] else '.' :: n.fraction
  let power := match n.exponent? with
    | none => []
    | some e => e.mark :: (e.sign?.toList ++ e.digits)
  String.ofList ((if n.negative then ['-'] else []) ++ n.whole ++ point ++ power)

end Numeral

/-- A numeral behind its sign.  One that is too large is malformed. -/
def numeral (negative : Bool) (text : List Char) : Reading Numeral text := do
  let ⟨whole, text₁, h₁⟩ ← wholePart text
  let ⟨fraction, text₂, h₂⟩ ← fraction text₁
  let ⟨exponent?, text₃, h₃⟩ ← exponent text₂
  let n : Numeral := ⟨negative, whole, fraction, exponent?⟩
  if n.size.isTooLarge then throw .malformed
  else return ⟨n, text₃, by omega⟩

/-! ## Tests -/

example : (Scaled.mk 1 308).isTooLarge = false := by decide +kernel
example : (Scaled.mk 10 308).isTooLarge = true := by decide +kernel
example : (Scaled.mk 17976931348623157 292).isTooLarge = false := by decide +kernel
example : (Scaled.mk 17976931348623159 292).isTooLarge = true := by decide +kernel
example : (Scaled.mk 0 400).isTooLarge = false := by decide +kernel

end EngineHeader.Json
