import EngineHeader.Declaration.Basic
import EngineHeader.Declaration.Literal
import EngineHeader.Dialect
import EngineHeader.Taken
import EngineHeader.Token.Lexer
import EngineHeader.Token.Word

/-!
# The declaration parser

The grammar of a header, over words.

* A header is a list of declarations.
* A declaration is `typedef`, what is declared, and a semicolon.
* An enumeration is `enum`, its enumerators in braces, separated by commas and
  perhaps followed by one, and an optional name.
* A structure is `struct`, its fields in braces, each with a semicolon, and a
  name.
* A type alias is a base type and a name.
* A function pointer is a base type, a star and a name in parentheses, and its
  arguments in parentheses.  A field may be one too.
* A base type is an optional `const`, a name, and stars up to the limit of the
  dialect.
* An argument is a base type and an optional name.  Where the dialect allows it,
  it may be a callback: a function pointer whose name is optional.

A callback is told from a plain argument by the parenthesis and the star behind
its base type.  Callbacks nest at most `maxNesting` deep.

Every function here reads from the front of a list of words and gives back what is
left.  That is shorter than what it read from, and the result says so.  Where the
grammar needs something else than the words have, the result is the words that
were left there, so an error points at the first of them.

The comment of a function pointer field is the first one behind its arguments.  If
there is none in front of the semicolon, it is the first one behind it, provided
that this begins on the line of the semicolon.
-/

namespace EngineHeader.Declaration.Parser

open Token (Kind Word Words)

/-! ## Reading words -/

/-- Words that the grammar has no use for. -/
structure Stuck where
  /-- The words that were left. -/
  rest : List Word
  /-- What the grammar needs in front of them. -/
  expected : Expected
deriving DecidableEq, Repr

/-- The token that an error points at, where the text ends at `p`. -/
def Stuck.found (s : Stuck) (p : Position) : Token :=
  match s.rest with
  | [] => .atEnd p
  | w :: _ => w.token

/-- The error of a text that ends at `p`. -/
def Stuck.error (s : Stuck) (p : Position) : Error := .grammar (s.found p) s.expected

/-- The result of reading from a list of words. -/
abbrev Reading (α : Type) (ws : List Word) : Type := Except Stuck (Taken α ws)

/-- The first word is of this kind. -/
def startsWith (kind : Kind) : List Word → Bool
  | [] => false
  | w :: _ => w.kind = kind

/-- The first word, which has to be of a kind. -/
def expect (kind : Kind) (expected : Expected) : (ws : List Word) → Reading Word ws
  | [] => .error ⟨[], expected⟩
  | w :: ws =>
    if w.kind = kind then .ok ⟨w, ws, Nat.lt_succ_self _⟩ else .error ⟨w :: ws, expected⟩

/-- The first word, if it is of a kind. -/
def accept? (kind : Kind) : (ws : List Word) → Option (Taken Word ws)
  | [] => none
  | w :: ws => if w.kind = kind then some ⟨w, ws, Nat.lt_succ_self _⟩ else none

/-- The name that the first word is. -/
def name (expected : Expected) (ws : List Word) : Reading String ws := do
  let ⟨w, rest, h⟩ ← expect .identifier expected ws
  return ⟨w.text, rest, h⟩

/-- The name that the first word is, if it is one. -/
def optionalName (ws : List Word) : Kept (Option String) ws :=
  match accept? .identifier ws with
  | some ⟨w, rest, h⟩ => ⟨some w.text, rest, Nat.le_of_lt h⟩
  | none => ⟨none, ws, Nat.le_refl _⟩

/-! ## Types and arguments -/

/-- Whether the first word marks a type as constant. -/
def optionalConst (ws : List Word) : Kept Bool ws :=
  match accept? .constWord ws with
  | some ⟨_, rest, h⟩ => ⟨true, rest, Nat.le_of_lt h⟩
  | none => ⟨false, ws, Nat.le_refl _⟩

/-- The stars in front, up to a limit, counted. -/
def stars : (limit : Nat) → (ws : List Word) → Kept Nat ws
  | 0, ws => ⟨0, ws, Nat.le_refl _⟩
  | limit + 1, ws =>
    match accept? .star ws with
    | none => ⟨0, ws, Nat.le_refl _⟩
    | some ⟨_, ws₁, h₁⟩ =>
      let ⟨n, ws₂, h₂⟩ := stars limit ws₁
      ⟨n + 1, ws₂, by omega⟩

/-- A base type.  Stars beyond the limit of the dialect are left. -/
def baseType (d : Dialect) (ws : List Word) : Reading BaseType ws := do
  let ⟨isConst, ws₁, h₁⟩ := optionalConst ws
  let ⟨typeName, ws₂, h₂⟩ ← name .typeName ws₁
  let ⟨indirection, ws₃, h₃⟩ := stars d.maxIndirection ws₂
  return ⟨⟨isConst, typeName, indirection⟩, ws₃, by omega⟩

/-- Arguments, of which there is at least one, and the parenthesis behind them. -/
def someArguments (argument : (ws : List Word) → Reading Argument ws) (ws : List Word) :
    Reading (List Argument × Word) ws := do
  let ⟨first, ws₁, h₁⟩ ← argument ws
  match accept? .comma ws₁ with
  | some ⟨_, ws₂, h₂⟩ =>
    let ⟨(others, close), ws₃, h₃⟩ ← someArguments argument ws₂
    return ⟨(first :: others, close), ws₃, by omega⟩
  | none =>
    let ⟨close, ws₂, h₂⟩ ← expect .rightParen .argumentsEnd ws₁
    return ⟨([first], close), ws₂, by omega⟩
termination_by ws.length

/-- Arguments in parentheses, and the closing one. -/
def argumentsOf (argument : (ws : List Word) → Reading Argument ws) (ws : List Word) :
    Reading (List Argument × Word) ws := do
  let ⟨_, ws₁, h₁⟩ ← expect .leftParen .leftParen ws
  match accept? .rightParen ws₁ with
  | some ⟨close, ws₂, h₂⟩ => return ⟨([], close), ws₂, by omega⟩
  | none =>
    let ⟨arguments, ws₂, h₂⟩ ← someArguments argument ws₁
    return ⟨arguments, ws₂, by omega⟩

/-- A parenthesis and a star are in front. -/
def startsCallback : List Word → Bool
  | w :: w' :: _ => w.kind = .leftParen && w'.kind = .star
  | _ => false

/-- An argument, with callbacks nested at most `depth` deep. -/
def argument (d : Dialect) (depth : Nat) (ws : List Word) : Reading Argument ws := do
  let ⟨type, ws₁, h₁⟩ ← baseType d ws
  if d.allowsCallbacks && startsCallback ws₁ then
    match depth with
    | 0 => throw ⟨ws₁, .shallower⟩
    | depth + 1 =>
      let ⟨_, ws₂, h₂⟩ ← expect .leftParen .leftParen ws₁
      let ⟨_, ws₃, h₃⟩ ← expect .star .star ws₂
      let ⟨name?, ws₄, h₄⟩ := optionalName ws₃
      let ⟨_, ws₅, h₅⟩ ← expect .rightParen .rightParen ws₄
      let ⟨(arguments, _), ws₆, h₆⟩ ← argumentsOf (argument d depth) ws₅
      return ⟨.callback type name? arguments, ws₆, by omega⟩
  else
    let ⟨name?, ws₂, h₂⟩ := optionalName ws₁
    return ⟨.plain type name?, ws₂, by omega⟩

/-- The arguments of a function pointer, and the parenthesis that closes them. -/
def arguments (d : Dialect) (ws : List Word) : Reading (List Argument × Word) ws :=
  argumentsOf (argument d maxNesting) ws

/-- The name of a function pointer, behind a star and in parentheses. -/
def pointerName (ws : List Word) : Reading String ws := do
  let ⟨_, ws₁, h₁⟩ ← expect .leftParen .leftParen ws
  let ⟨_, ws₂, h₂⟩ ← expect .star .star ws₁
  let ⟨pointer, ws₃, h₃⟩ ← name .pointerName ws₂
  let ⟨_, ws₄, h₄⟩ ← expect .rightParen .rightParen ws₃
  return ⟨pointer, ws₄, by omega⟩

/-! ## Enumerations -/

/-- What an enumerator is set to, behind its equals sign. -/
def initializer : (ws : List Word) → Reading Initializer ws
  | [] => .error ⟨[], .enumeratorValue⟩
  | w :: ws =>
    if w.kind = .integer then
      let value := Literal.value w.text.toList
      if Literal.isRepresentable value then .ok ⟨.integer value, ws, Nat.lt_succ_self _⟩
      else .error ⟨w :: ws, .representable⟩
    else if w.kind = .identifier then .ok ⟨.reference w.text, ws, Nat.lt_succ_self _⟩
    else .error ⟨w :: ws, .enumeratorValue⟩

/-- An enumerator. -/
def enumerator (ws : List Word) : Reading Enumerator ws := do
  let ⟨name, ws₁, h₁⟩ ← name .enumerator ws
  match accept? .equals ws₁ with
  | some ⟨_, ws₂, h₂⟩ =>
    let ⟨value, ws₃, h₃⟩ ← initializer ws₂
    return ⟨⟨name, value⟩, ws₃, by omega⟩
  | none => return ⟨⟨name, .implicit⟩, ws₁, h₁⟩

/-- Enumerators, through the closing brace. -/
def enumerators (ws : List Word) : Reading (List Enumerator) ws := do
  match accept? .rightBrace ws with
  | some ⟨_, ws₁, h₁⟩ => return ⟨[], ws₁, h₁⟩
  | none =>
    let ⟨first, ws₁, h₁⟩ ← enumerator ws
    match accept? .comma ws₁ with
    | some ⟨_, ws₂, h₂⟩ =>
      let ⟨others, ws₃, h₃⟩ ← enumerators ws₂
      return ⟨first :: others, ws₃, by omega⟩
    | none =>
      let ⟨_, ws₂, h₂⟩ ← expect .rightBrace .enumeratorsEnd ws₁
      return ⟨[first], ws₂, by omega⟩
termination_by ws.length

/-- An enumeration, behind its keyword. -/
def enumeration (ws : List Word) : Reading Enumeration ws := do
  let ⟨_, ws₁, h₁⟩ ← expect .leftBrace .leftBrace ws
  let ⟨values, ws₂, h₂⟩ ← enumerators ws₁
  let ⟨name?, ws₃, h₃⟩ := optionalName ws₂
  return ⟨⟨values, name?⟩, ws₃, by omega⟩

/-! ## Structures -/

/-- The comment of a function pointer field, from the parenthesis that closes its
arguments and from its semicolon. -/
def fieldComment? (close semicolon : Word) : Option String :=
  match close.comments with
  | c :: _ => some c.text
  | [] =>
    match semicolon.comments with
    | c :: _ => if c.position.line = semicolon.token.position.line then some c.text else none
    | [] => none

/-- A field, through its semicolon. -/
def field (d : Dialect) (ws : List Word) : Reading Field ws := do
  let ⟨type, ws₁, h₁⟩ ← baseType d ws
  if startsWith .leftParen ws₁ then
    let ⟨name, ws₂, h₂⟩ ← pointerName ws₁
    let ⟨(arguments, close), ws₃, h₃⟩ ← arguments d ws₂
    let ⟨semicolon, ws₄, h₄⟩ ← expect .semicolon .semicolon ws₃
    return ⟨.function ⟨type, name, arguments⟩ (fieldComment? close semicolon), ws₄, by omega⟩
  else
    let ⟨name, ws₂, h₂⟩ ← name .fieldName ws₁
    let ⟨_, ws₃, h₃⟩ ← expect .semicolon .semicolon ws₂
    return ⟨.plain type name, ws₃, by omega⟩

/-- Fields, through the closing brace. -/
def fields (d : Dialect) (ws : List Word) : Reading (List Field) ws := do
  match accept? .rightBrace ws with
  | some ⟨_, ws₁, h₁⟩ => return ⟨[], ws₁, h₁⟩
  | none =>
    let ⟨first, ws₁, h₁⟩ ← field d ws
    let ⟨others, ws₂, h₂⟩ ← fields d ws₁
    return ⟨first :: others, ws₂, by omega⟩
termination_by ws.length

/-- A structure, behind its keyword. -/
def struct (d : Dialect) (ws : List Word) : Reading Struct ws := do
  let ⟨_, ws₁, h₁⟩ ← expect .leftBrace .leftBrace ws
  let ⟨fields, ws₂, h₂⟩ ← fields d ws₁
  let ⟨name, ws₃, h₃⟩ ← name .structName ws₂
  return ⟨⟨name, fields⟩, ws₃, by omega⟩

/-! ## Declarations -/

/-- A type alias or a function pointer. -/
def aliasOrFunction (d : Dialect) (ws : List Word) : Reading Declaration ws := do
  let ⟨type, ws₁, h₁⟩ ← baseType d ws
  if startsWith .leftParen ws₁ then
    let ⟨name, ws₂, h₂⟩ ← pointerName ws₁
    let ⟨(arguments, _), ws₃, h₃⟩ ← arguments d ws₂
    return ⟨.function ⟨type, name, arguments⟩, ws₃, by omega⟩
  else
    let ⟨name, ws₂, h₂⟩ ← name .typedefName ws₁
    return ⟨.typeAlias ⟨type, name⟩, ws₂, by omega⟩

/-- What is declared, between `typedef` and the semicolon. -/
def declared (d : Dialect) (ws : List Word) : Reading Declaration ws := do
  match accept? .enumWord ws with
  | some ⟨_, ws₁, h₁⟩ =>
    let ⟨e, ws₂, h₂⟩ ← enumeration ws₁
    return ⟨.enumeration e, ws₂, by omega⟩
  | none =>
    match accept? .structWord ws with
    | some ⟨_, ws₁, h₁⟩ =>
      let ⟨s, ws₂, h₂⟩ ← struct d ws₁
      return ⟨.struct s, ws₂, by omega⟩
    | none => aliasOrFunction d ws

/-- A declaration and its semicolon. -/
def declaration (d : Dialect) (ws : List Word) : Reading (Declaration × Word) ws := do
  let ⟨_, ws₁, h₁⟩ ← expect .typedefWord .declaration ws
  let ⟨declared, ws₂, h₂⟩ ← declared d ws₁
  let ⟨semicolon, ws₃, h₃⟩ ← expect .semicolon .semicolon ws₂
  return ⟨(declared, semicolon), ws₃, by omega⟩

/-- Comments between declarations. -/
def comments (tokens : List Token) : List Declaration := tokens.map (.comment ·.text)

/-- All declarations with the comments behind each, after those already taken,
latest first. -/
def declarationsFrom (d : Dialect) (taken : List Declaration) (ws : List Word) :
    Except Stuck (List Declaration) := do
  if ws.isEmpty then return taken.reverse
  else
    let ⟨(declared, semicolon), ws₁, _⟩ ← declaration d ws
    declarationsFrom d ((comments semicolon.comments).reverse ++ declared :: taken) ws₁
termination_by ws.length

/-- The declarations of words, and the comments around them. -/
def ofWords (d : Dialect) (ws : Words) : Except Stuck (List Declaration) :=
  declarationsFrom d (comments ws.leading).reverse ws.words

end EngineHeader.Declaration.Parser

namespace EngineHeader.Header

open Declaration.Parser Token

/-- The declarations of a text without directives. -/
def ofText (d : Dialect) (text : String) : Except Error Header := do
  let tokens ← (scanText text).toExcept
  match ofWords d (.ofTokens tokens) with
  | .ok declarations => return ⟨declarations⟩
  | .error stuck => throw (stuck.error (Position.start.advance text.toList))

end EngineHeader.Header
