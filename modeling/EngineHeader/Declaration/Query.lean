import EngineHeader.Declaration.Basic

/-!
# Looking up declarations

The function pointers of a header are taken once per name, and the first
declaration of a name counts.  Everything else is taken as it stands, in order.
-/

namespace EngineHeader

open Declaration

/-- The signatures with the first of each name, in order. -/
def Declaration.firstOfEachName : List Signature → List Signature
  | [] => []
  | s :: rest => s :: (firstOfEachName rest).filter (·.name != s.name)

/-- A name begins with `start`. -/
def Declaration.begins (start name : String) : Bool := start.toList.isPrefixOf name.toList

/-- The fields of a structure that are function pointers, with their comments. -/
def Declaration.Struct.functions (s : Struct) : List (Signature × Option String) :=
  s.fields.filterMap fun
    | .function signature comment? => some (signature, comment?)
    | .plain _ _ => none

namespace Header

/-- Every function pointer that is declared. -/
def signatures (h : Header) : List Signature :=
  h.declarations.filterMap fun
    | .function signature => some signature
    | _ => none

/-- The function pointers, one per name. -/
def functions (h : Header) : List Signature := firstOfEachName h.signatures

/-- The function pointers whose names begin with `start` and are not excluded. -/
def functionsBeginning (h : Header) (start : String) (excluded : List String) : List Signature :=
  h.functions.filter fun s => begins start s.name && !excluded.contains s.name

/-- The function pointers whose names do not begin with `start`. -/
def functionsNotBeginning (h : Header) (start : String) : List Signature :=
  h.functions.filter fun s => !begins start s.name

/-- The structures. -/
def structs (h : Header) : List Struct :=
  h.declarations.filterMap fun
    | .struct s => some s
    | _ => none

/-- The type aliases. -/
def typeAliases (h : Header) : List TypeAlias :=
  h.declarations.filterMap fun
    | .typeAlias a => some a
    | _ => none

/-- The enumerations. -/
def enumerations (h : Header) : List Enumeration :=
  h.declarations.filterMap fun
    | .enumeration e => some e
    | _ => none

/-- The first enumeration of a name. -/
def findEnumeration? (h : Header) (name : String) : Option Enumeration :=
  h.enumerations.find? (·.name? = some name)

end Header

end EngineHeader
