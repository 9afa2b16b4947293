import EngineHeader.Json.Basic

/-!
# JSON values as text

A value is written in one of two layouts.  The *compact* layout has no white
space.  The *pretty* layout puts every item and every member on a line of its
own, two spaces deeper than the brackets around it, and a space behind every
colon.  Empty arrays and objects are written without anything inside.

In a string only the quote, the backslash and the characters below the space are
escaped.  Five of these have letters, and the others are written with four
hexadecimal digits in lower case.
-/

namespace EngineHeader.Json

/-! ## Strings -/

/-- The low half of a byte as a hexadecimal digit. -/
def hexDigitOf (n : Nat) : Char := Nat.digitChar (n % 16)

/-- How a character is written inside a string. -/
def escapeChar (c : Char) : List Char :=
  match c with
  | '"' => ['\\', '"']
  | '\\' => ['\\', '\\']
  | '\x08' => ['\\', 'b']
  | '\t' => ['\\', 't']
  | '\n' => ['\\', 'n']
  | '\x0c' => ['\\', 'f']
  | '\r' => ['\\', 'r']
  | c =>
    if c < ' ' then ['\\', 'u', '0', '0', hexDigitOf (c.toNat / 16), hexDigitOf c.toNat] else [c]

/-- A string. -/
def stringText (text : String) : String :=
  String.ofList ('"' :: (text.toList.flatMap escapeChar ++ ['"']))

/-! ## Layouts -/

/-- The white space of a layout. -/
structure Layout where
  /-- What stands in front of an item or a closing bracket at some depth. -/
  lineBreak : Nat → String
  /-- What stands between a key and its value. -/
  colon : String

/-- No white space. -/
def Layout.compact : Layout := ⟨fun _ => "", ":"⟩

/-- Two spaces for each level. -/
def Layout.pretty : Layout :=
  ⟨fun depth => "\n" ++ String.ofList (List.replicate (2 * depth) ' '), ": "⟩

/-! ## Values -/

mutual

/-- Write a value behind `out`, where brackets are at some depth. -/
def write (l : Layout) (depth : Nat) (out : String) : Json → String
  | .null => out ++ "null"
  | .bool b => out ++ if b then "true" else "false"
  | .number n => out ++ toString n
  | .string text => out ++ stringText text
  | .array [] => out ++ "[]"
  | .array (item :: items) =>
    let first := write l (depth + 1) (out ++ "[" ++ l.lineBreak (depth + 1)) item
    writeItems l (depth + 1) first items ++ l.lineBreak depth ++ "]"
  | .object [] => out ++ "\x7b\x7d"
  | .object ((key, value) :: members) =>
    let start := out ++ "\x7b" ++ l.lineBreak (depth + 1) ++ stringText key ++ l.colon
    let first := write l (depth + 1) start value
    writeMembers l (depth + 1) first members ++ l.lineBreak depth ++ "\x7d"

/-- Write more items of an array behind `out`. -/
def writeItems (l : Layout) (depth : Nat) (out : String) : List Json → String
  | [] => out
  | item :: items =>
    writeItems l depth (write l depth (out ++ "," ++ l.lineBreak depth) item) items

/-- Write more members of an object behind `out`. -/
def writeMembers (l : Layout) (depth : Nat) (out : String) : List (String × Json) → String
  | [] => out
  | (key, value) :: members =>
    let start := out ++ "," ++ l.lineBreak depth ++ stringText key ++ l.colon
    writeMembers l depth (write l depth start value) members

end

/-- A value in the compact layout. -/
def compact (v : Json) : String := write .compact 0 "" v

/-- A value in the pretty layout. -/
def pretty (v : Json) : String := write .pretty 0 "" v

end EngineHeader.Json
