import EngineHeader.Declaration.Basic
import EngineHeader.Json.Printer

/-!
# Declarations as JSON

A header is an object with its declarations.  A value of several kinds is an
object with one member, whose key says which kind it is.  What is empty, absent
or plain is left out: an empty list, a missing name or comment, an initializer
that is not written, a type that is not constant and an indirection of zero.
-/

namespace EngineHeader

open Declaration

/-- A value with its kind. -/
def Json.tagged (kind : String) (value : Json) : Json := .object [(kind, value)]

/-- A member that is left out if its list is empty. -/
def Json.listMember (key : String) (items : List Json) : List (String × Json) :=
  if items.isEmpty then [] else [(key, .array items)]

/-- A member that is left out if its text is missing. -/
def Json.textMember (key : String) (text? : Option String) : List (String × Json) :=
  match text? with
  | none => []
  | some text => [(key, .string text)]

namespace Declaration

/-- A base type. -/
def BaseType.toJson (t : BaseType) : Json :=
  .object <| (if t.isConst then [("is_const", .bool true)] else []) ++
    ("name", .string t.name) ::
    (if t.indirection = 0 then [] else [("indirection", .number t.indirection)])

mutual

/-- An argument. -/
def Argument.toJson : Argument → Json
  | .plain type name? =>
    .object (("type", .tagged "Primitive" type.toJson) :: Json.textMember "name" name?)
  | .callback returns name? arguments =>
    let type := .object (("return_type", returns.toJson) ::
      Json.listMember "arguments" (argumentsToJson arguments))
    .object (("type", .tagged "Function" type) :: Json.textMember "name" name?)

/-- Each of a list of arguments. -/
def argumentsToJson : List Argument → List Json
  | [] => []
  | a :: arguments => a.toJson :: argumentsToJson arguments

end

/-- The members of a function pointer. -/
def Signature.members (s : Signature) : List (String × Json) :=
  ("return_type", s.returns.toJson) :: ("name", .string s.name) ::
    Json.listMember "arguments" (argumentsToJson s.arguments)

/-- An enumerator. -/
def Enumerator.toJson (e : Enumerator) : Json :=
  .object <| ("name", .string e.name) ::
    match e.value with
    | .implicit => []
    | .integer value => [("value", .tagged "Int" (.number value))]
    | .reference name => [("value", .tagged "Ref" (.string name))]

/-- A field. -/
def Field.toJson : Field → Json
  | .plain type name =>
    .tagged "Variable" (.object [("type", type.toJson), ("name", .string name)])
  | .function signature comment? =>
    .tagged "Function" (.object (signature.members ++ Json.textMember "comment" comment?))

/-- A declaration. -/
def toJson : Declaration → Json
  | .comment text => .tagged "Comment" (.string text)
  | .enumeration e =>
    .tagged "Enum" (.object (Json.listMember "values" (e.values.map Enumerator.toJson) ++
      Json.textMember "name" e.name?))
  | .typeAlias a => .tagged "Alias" (.object [("type", a.type.toJson), ("name", .string a.name)])
  | .function signature => .tagged "Function" (.object signature.members)
  | .struct s =>
    .tagged "Struct" (.object (("name", .string s.name) ::
      Json.listMember "fields" (s.fields.map Field.toJson)))

end Declaration

/-- A header. -/
def Header.toJson (h : Header) : Json :=
  .object (Json.listMember "exprs" (h.declarations.map Declaration.toJson))

end EngineHeader
