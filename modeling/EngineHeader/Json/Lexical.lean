import EngineHeader.Taken
import EngineHeader.Text.Character

/-!
# The lexical parts of JSON

White space, strings and literals, and what separates the items in brackets.
Every reader here takes its part from the front of a text, and gives back what
follows it.

Two things can go wrong.  A text is *malformed* if no JSON continues like it, and
*unfinished* if it ends where more is needed.

In a string, a character that needs two codes is written as an escape for each of
them, the leading one first.  A code of such a pair does not stand alone.
-/

namespace EngineHeader.Json

open Text

/-- What is wrong with a text that is no JSON. -/
inductive Fault where
  /-- No JSON continues like this, or a number in it is too large. -/
  | malformed
  /-- The text ends too early. -/
  | unfinished
deriving DecidableEq, Repr

/-- The result of reading from a text. -/
abbrev Reading (α : Type) (text : List Char) : Type := Except Fault (Taken α text)

/-! ## White space -/

/-- White space of JSON. -/
def isSpace (c : Char) : Bool := c == ' ' || c == '\n' || c == '\t' || c == '\r'

/-- Skip white space. -/
def skipSpace (text : List Char) : Kept Unit text :=
  ⟨(), text.dropWhile isSpace, (List.dropWhile_suffix isSpace).length_le⟩

/-- The first character that is not white space. -/
def visible (text : List Char) : Reading Char text :=
  let ⟨_, rest, h⟩ := skipSpace text
  match rest, h with
  | [], _ => .error .unfinished
  | c :: rest, h => .ok ⟨c, rest, h⟩

/-- A colon. -/
def colon (text : List Char) : Reading Unit text := do
  let ⟨c, rest, h⟩ ← visible text
  if c = ':' then return ⟨(), rest, h⟩ else throw .malformed

/-! ## Strings -/

/-- Four hexadecimal digits.  A text with fewer than four bytes left is unfinished,
whatever they are. -/
def hexCode : (text : List Char) → Reading Nat text
  | a :: b :: c :: d :: rest =>
    match hexDigit? a, hexDigit? b, hexDigit? c, hexDigit? d with
    | some a, some b, some c, some d =>
      .ok ⟨((a * 16 + b) * 16 + c) * 16 + d, rest, by simp only [List.length_cons]; omega⟩
    | _, _, _, _ => .error .malformed
  | few => if (String.ofList few).utf8ByteSize < 4 then .error .unfinished else .error .malformed

/-- The first code of a pair. -/
def isLeading (code : Nat) : Bool := 0xd800 ≤ code && code ≤ 0xdbff

/-- The second code of a pair. -/
def isTrailing (code : Nat) : Bool := 0xdc00 ≤ code && code ≤ 0xdfff

/-- The character of a pair of codes. -/
def ofPair (leading trailing : Nat) : Char :=
  Char.ofNat (0x10000 + (leading - 0xd800) * 0x400 + (trailing - 0xdc00))

/-- A character given by its code, or by a pair of codes. -/
def unicode (text : List Char) : Reading Char text := do
  let ⟨code, text₁, h₁⟩ ← hexCode text
  if isTrailing code then throw .malformed
  else if isLeading code then
    match text₁, h₁ with
    | [], _ => throw .unfinished
    | ['\\'], _ => throw .unfinished
    | '\\' :: 'u' :: text₂, h₂ =>
      let ⟨trailing, text₃, h₃⟩ ← hexCode text₂
      if isTrailing trailing then
        return ⟨ofPair code trailing, text₃, by simp only [List.length_cons] at h₂; omega⟩
      else throw .malformed
    | _, _ => throw .malformed
  else return ⟨Char.ofNat code, text₁, h₁⟩

/-- The characters with escapes of their own, by the letter of the escape. -/
def escapes : List (Char × Char) :=
  [('"', '"'), ('\\', '\\'), ('/', '/'), ('b', '\x08'), ('f', '\x0c'), ('n', '\n'), ('r', '\r'),
   ('t', '\t')]

/-- A character behind a backslash. -/
def escape : (text : List Char) → Reading Char text
  | [] => .error .unfinished
  | letter :: text =>
    match escapes.lookup letter with
    | some c => .ok ⟨c, text, Nat.lt_succ_self _⟩
    | none => do
      if letter = 'u' then
        let ⟨c, rest, h⟩ ← unicode text
        return ⟨c, rest, shorter_cons letter h⟩
      else throw .malformed

/-- The characters of a string, through its closing quote. -/
def stringBody : (text : List Char) → Reading (List Char) text
  | [] => .error .unfinished
  | '"' :: text => .ok ⟨[], text, Nat.lt_succ_self _⟩
  | '\\' :: text => do
    let ⟨c, text₁, h₁⟩ ← escape text
    let ⟨others, text₂, h₂⟩ ← stringBody text₁
    return ⟨c :: others, text₂, by simp only [List.length_cons]; omega⟩
  | c :: text => do
    if c < ' ' then throw .malformed
    else
      let ⟨others, text₁, h₁⟩ ← stringBody text
      return ⟨c :: others, text₁, shorter_cons c h₁⟩
termination_by text => text.length

/-! ## Literals -/

/-- The rest of a literal. -/
def literal : (expected : List Char) → (text : List Char) → Except Fault (Kept Unit text)
  | [], text => .ok ⟨(), text, notLonger_refl text⟩
  | _ :: _, [] => .error .unfinished
  | e :: expected, c :: text => do
    if c = e then
      let ⟨_, rest, h⟩ ← literal expected text
      return ⟨(), rest, Nat.le_succ_of_le h⟩
    else throw .malformed

/-! ## Brackets -/

/-- What comes next in an array or an object. -/
inductive Next (text : List Char) where
  /-- An item, which begins with the rest. -/
  | item (rest : List Char) (notLonger : rest.length ≤ text.length)
  /-- The closing bracket, and the rest behind it. -/
  | closed (rest : List Char) (shorter : rest.length < text.length)

/-- What comes next in brackets that `close` closes.  Between items there is a
comma, and no comma in front of the closing bracket. -/
def next (close : Char) (first : Bool) (text : List Char) : Except Fault (Next text) := do
  let ⟨c, text₁, h₁⟩ ← visible text
  if c = close then return .closed text₁ h₁
  else if first then
    let ⟨_, text₂, h₂⟩ := skipSpace text
    return .item text₂ h₂
  else if c = ',' then
    let ⟨d, _, _⟩ ← visible text₁
    if d = close then throw .malformed
    else
      let ⟨_, text₂, h₂⟩ := skipSpace text₁
      return .item text₂ (by omega)
  else throw .malformed

end EngineHeader.Json
