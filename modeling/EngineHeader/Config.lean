import EngineHeader.Dialect
import EngineHeader.Json.Printer
import EngineHeader.Names

/-!
# Configurations

How a header is to be read: its dialect, whether it is read as C++ does, and the
names that count as defined from the start.
-/

namespace EngineHeader

/-- How a header is to be read. -/
structure Config where
  /-- The dialect of its declarations. -/
  dialect : Dialect
  /-- The name that C++ compilers define counts as defined. -/
  cplusplus : Bool
  /-- More names that count as defined, in order. -/
  defines : List String
deriving DecidableEq, Repr

namespace Config

/-- What is meant where nothing is said. -/
instance : Inhabited Config := ⟨⟨default, false, []⟩⟩

/-- The names that count as defined from the start. -/
def names (c : Config) : Names :=
  (if c.cplusplus then .cplusplus else Names.empty).insertAll c.defines

/-- A configuration as JSON. -/
def toJson (c : Config) : Json :=
  .object [("dialect", .string c.dialect.name), ("cplusplus", .bool c.cplusplus),
    ("defines", .array (c.defines.map .string))]

end Config

end EngineHeader
