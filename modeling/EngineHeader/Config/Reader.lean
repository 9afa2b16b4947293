import EngineHeader.Config
import EngineHeader.Config.Error
import EngineHeader.Json.Numeral

/-!
# Reading a configuration

A configuration is written in JSON, as an object with up to three members in any
order.  A member that is missing has its default.  The text is read from left to
right, and the first problem counts: a key that is not known is reported before
its value is looked at, and a value of the wrong kind before anything behind it.

Two other forms are accepted.  A configuration may be an array of up to three
values, in the order of the members.  A dialect may be an object whose one key is
the dialect and whose value is null.
-/

namespace EngineHeader.Config.Reader

open Json (visible colon stringBody literal numeral next)

/-- The result of reading from a text. -/
abbrev Reading (α : Type) (text : List Char) : Type := Except Error (Taken α text)

/-- The text is no JSON from here on. -/
def malformed : Error := .text .malformed

/-! ## Values of the wrong kind -/

/-- A number, as what is found.  It counts as an integer if it is written as one
and has 64 bits, except for a zero with a sign. -/
def numberFound (n : Json.Numeral) : Found :=
  match n.integer? with
  | some value =>
    if n.negative ∧ value = 0 then .real n.text
    else if -0x8000000000000000 ≤ value ∧ value ≤ 0xffffffffffffffff then .integer value
    else .real n.text
  | none => .real n.text

/-- The value that begins with `c`, as what is found.  What is inside an array or
an object is not looked at. -/
def found (c : Char) (text : List Char) : Except Error Found := do
  match c with
  | 'n' => let _ ← literal ['u', 'l', 'l'] text; return .null
  | 't' => let _ ← literal ['r', 'u', 'e'] text; return .boolean true
  | 'f' => let _ ← literal ['a', 'l', 's', 'e'] text; return .boolean false
  | '"' => let ⟨chars, _, _⟩ ← stringBody text; return .string (String.ofList chars)
  | '[' => return .sequence
  | '\x7b' => return .map
  | '-' => let ⟨n, _, _⟩ ← numeral true text; return numberFound n
  | c =>
    if c.isDigit then let ⟨n, _, _⟩ ← numeral false (c :: text); return numberFound n
    else throw malformed

/-- The error of a value that begins with `c` and is not what is wanted. -/
def misfit (wanted : Wanted) (c : Char) (text : List Char) : Error :=
  match found c text with
  | .ok f => .mismatch f wanted
  | .error e => e

/-! ## Values -/

/-- A string. -/
def string (text : List Char) : Reading String text := do
  let ⟨c, text₁, h₁⟩ ← visible text
  if c = '"' then
    let ⟨chars, text₂, h₂⟩ ← stringBody text₁
    return ⟨String.ofList chars, text₂, shorter_trans h₁ h₂⟩
  else throw (misfit .string c text₁)

/-- The dialect of a name. -/
def dialectOf (name : String) : Except Error Dialect :=
  match Dialect.ofName? name with
  | some d => .ok d
  | none => .error (.unknownDialect name)

/-- The value null. -/
def null (text : List Char) : Reading Unit text := do
  let ⟨c, text₁, h₁⟩ ← visible text
  if c = 'n' then
    let ⟨_, text₂, h₂⟩ ← literal ['u', 'l', 'l'] text₁
    return ⟨(), text₂, shorter_of_notLonger h₁ h₂⟩
  else throw (misfit .null c text₁)

/-- A key of an object, which can only be a string. -/
def key (text : List Char) : Reading String text := do
  let ⟨c, text₁, h₁⟩ ← visible text
  if c = '"' then
    let ⟨chars, text₂, h₂⟩ ← stringBody text₁
    return ⟨String.ofList chars, text₂, shorter_trans h₁ h₂⟩
  else throw malformed

/-- A dialect: its name, or an object with its name and null. -/
def dialect (text : List Char) : Reading Dialect text := do
  let ⟨c, text₁, h₁⟩ ← visible text
  if c = '"' then
    let ⟨chars, text₂, h₂⟩ ← stringBody text₁
    return ⟨← dialectOf (String.ofList chars), text₂, shorter_trans h₁ h₂⟩
  else if c = '\x7b' then
    let ⟨name, text₂, h₂⟩ ← key text₁
    let d ← dialectOf name
    let ⟨_, text₃, h₃⟩ ← colon text₂
    let ⟨_, text₄, h₄⟩ ← null text₃
    let ⟨close, text₅, h₅⟩ ← visible text₄
    if close = '\x7d' then return ⟨d, text₅, by omega⟩ else throw malformed
  else throw malformed

/-- A truth value. -/
def boolean (text : List Char) : Reading Bool text := do
  let ⟨c, text₁, h₁⟩ ← visible text
  if c = 't' then
    let ⟨_, text₂, h₂⟩ ← literal ['r', 'u', 'e'] text₁
    return ⟨true, text₂, shorter_of_notLonger h₁ h₂⟩
  else if c = 'f' then
    let ⟨_, text₂, h₂⟩ ← literal ['a', 'l', 's', 'e'] text₁
    return ⟨false, text₂, shorter_of_notLonger h₁ h₂⟩
  else throw (misfit .boolean c text₁)

/-- Strings, through the closing bracket. -/
def strings (first : Bool) (text : List Char) : Reading (List String) text := do
  match ← next ']' first text with
  | .closed rest h => return ⟨[], rest, h⟩
  | .item text₁ h₁ =>
    let ⟨s, text₂, h₂⟩ ← string text₁
    let ⟨others, text₃, h₃⟩ ← strings false text₂
    return ⟨s :: others, text₃, by omega⟩
termination_by text.length

/-- An array of strings. -/
def defines (text : List Char) : Reading (List String) text := do
  let ⟨c, text₁, h₁⟩ ← visible text
  if c = '[' then
    let ⟨names, text₂, h₂⟩ ← strings true text₁
    return ⟨names, text₂, shorter_trans h₁ h₂⟩
  else throw (misfit .sequence c text₁)

/-! ## Members -/

/-- The members that were read. -/
structure Members where
  /-- The dialect. -/
  dialect? : Option Dialect
  /-- Whether C++ is meant. -/
  cplusplus? : Option Bool
  /-- The defined names. -/
  defines? : Option (List String)
deriving DecidableEq, Repr

/-- The configuration of some members. -/
def Members.config (m : Members) : Config :=
  ⟨m.dialect?.getD default, m.cplusplus?.getD false, m.defines?.getD []⟩

/-- A member was read. -/
def Members.has (m : Members) : Field → Bool
  | .dialect => m.dialect?.isSome
  | .cplusplus => m.cplusplus?.isSome
  | .defines => m.defines?.isSome

/-- The value of a member, behind its colon. -/
def value (m : Members) (field : Field) (text : List Char) : Reading Members text := do
  match field with
  | .dialect =>
    let ⟨v, rest, h⟩ ← dialect text
    return ⟨{ m with dialect? := some v }, rest, h⟩
  | .cplusplus =>
    let ⟨v, rest, h⟩ ← boolean text
    return ⟨{ m with cplusplus? := some v }, rest, h⟩
  | .defines =>
    let ⟨v, rest, h⟩ ← defines text
    return ⟨{ m with defines? := some v }, rest, h⟩

/-- The member of a key that has to be known and new. -/
def newField (m : Members) (key : String) : Except Error Field :=
  match Field.ofKey? key with
  | none => .error (.unknownField key)
  | some field => if m.has field then .error (.duplicateField field) else .ok field

/-- A member. -/
def member (m : Members) : (text : List Char) → Reading Members text
  | '"' :: text => do
    let ⟨key, text₁, h₁⟩ ← stringBody text
    let field ← newField m (String.ofList key)
    let ⟨_, text₂, h₂⟩ ← colon text₁
    let ⟨m, text₃, h₃⟩ ← value m field text₂
    return ⟨m, text₃, by simp only [List.length_cons]; omega⟩
  | _ => .error malformed

/-- Members, through the closing brace. -/
def members (m : Members) (first : Bool) (text : List Char) : Reading Members text := do
  match ← next '\x7d' first text with
  | .closed rest h => return ⟨m, rest, h⟩
  | .item text₁ h₁ =>
    let ⟨m, text₂, h₂⟩ ← member m text₁
    let ⟨m, text₃, h₃⟩ ← members m false text₂
    return ⟨m, text₃, by omega⟩
termination_by text.length

/-! ## Configurations -/

/-- What follows the third value of an array, which has to be its end. -/
def closeArray (text : List Char) : Except Error (List Char) := do
  let ⟨c, rest, _⟩ ← visible text
  if c = ']' then return rest else throw malformed

/-- A configuration as an array, and what follows it. -/
def positional (text : List Char) : Except Error (Config × List Char) := do
  match ← next ']' true text with
  | .closed rest _ => return (default, rest)
  | .item text₁ _ =>
    let ⟨dialect, text₂, _⟩ ← dialect text₁
    match ← next ']' false text₂ with
    | .closed rest _ => return (⟨dialect, false, []⟩, rest)
    | .item text₃ _ =>
      let ⟨cplusplus, text₄, _⟩ ← boolean text₃
      match ← next ']' false text₄ with
      | .closed rest _ => return (⟨dialect, cplusplus, []⟩, rest)
      | .item text₅ _ =>
        let ⟨defines, text₆, _⟩ ← defines text₅
        return (⟨dialect, cplusplus, defines⟩, ← closeArray text₆)

/-- A configuration, and what follows it. -/
def config (text : List Char) : Except Error (Config × List Char) := do
  let ⟨c, text₁, _⟩ ← visible text
  if c = '\x7b' then
    let ⟨m, rest, _⟩ ← members ⟨none, none, none⟩ true text₁
    return (m.config, rest)
  else if c = '[' then positional text₁
  else throw (misfit .config c text₁)

end Reader

/-- The configuration of a text. -/
def ofText (text : String) : Except Error Config := do
  let (c, rest) ← Reader.config text.toList
  if rest.all Json.isSpace then return c else throw Reader.malformed

end EngineHeader.Config
