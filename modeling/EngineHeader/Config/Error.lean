import EngineHeader.Json.Lexical
import EngineHeader.Text.Quoted

/-!
# Errors of a configuration

What can be wrong with the text of a configuration.  It may be no JSON.  Otherwise
it may hold a value of the wrong kind, a member or dialect that is not known, or a
member twice.
-/

namespace EngineHeader.Config

/-- A member of a configuration. -/
inductive Field where
  | dialect
  | cplusplus
  | defines
deriving DecidableEq, Repr

/-- The key of a member. -/
def Field.key : Field → String
  | .dialect => "dialect"
  | .cplusplus => "cplusplus"
  | .defines => "defines"

/-- The member of a key. -/
def Field.ofKey? (key : String) : Option Field :=
  [dialect, cplusplus, defines].find? (·.key = key)

/-- A kind of value that is found. -/
inductive Found where
  | null
  | boolean (value : Bool)
  | integer (value : Int)
  /-- A number that is not whole, or too large, as it is written. -/
  | real (text : String)
  | string (text : String)
  | sequence
  | map
deriving DecidableEq, Repr

/-- How a message refers to what is found. -/
def Found.text : Found → String
  | .null => "null"
  | .boolean value => "boolean `" ++ (if value then "true" else "false") ++ "`"
  | .integer value => "integer `" ++ toString value ++ "`"
  | .real text => "floating point `" ++ text ++ "`"
  | .string text => "string " ++ Text.quoted text
  | .sequence => "sequence"
  | .map => "map"

/-- A kind of value that is needed. -/
inductive Wanted where
  | config
  | boolean
  | sequence
  | string
  | null
deriving DecidableEq, Repr

/-- How a message refers to what is needed. -/
def Wanted.text : Wanted → String
  | .config => "struct Config"
  | .boolean => "a boolean"
  | .sequence => "a sequence"
  | .string => "a string"
  | .null => "unit"

/-- What is wrong with the text of a configuration. -/
inductive Error where
  /-- It is no JSON. -/
  | text (fault : Json.Fault)
  | unknownDialect (name : String)
  | unknownField (key : String)
  | duplicateField (field : Field)
  | mismatch (found : Found) (wanted : Wanted)
deriving DecidableEq, Repr

/-- A configuration is read by readers of JSON. -/
instance : MonadLift (Except Json.Fault) (Except Error) := ⟨fun r => r.mapError .text⟩

/-- What is said of an error. -/
def Error.message : Error → String
  | .text .malformed => "malformed text"
  | .text .unfinished => "unfinished text"
  | .unknownDialect name =>
    "unknown variant `" ++ name ++ "`, expected `gdnative` or `gdextension`"
  | .unknownField key =>
    "unknown field `" ++ key ++ "`, expected one of `dialect`, `cplusplus`, `defines`"
  | .duplicateField field => "duplicate field `" ++ field.key ++ "`"
  | .mismatch found wanted => "invalid type: " ++ found.text ++ ", expected " ++ wanted.text

end EngineHeader.Config
