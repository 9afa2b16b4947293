import EngineHeader.Text.Quoted

/-!
# Dialects

The two families of engine headers share one grammar.  A dialect only limits
parts of it: how many stars a type may carry, and whether an argument may be a
function pointer.
-/

namespace EngineHeader

/-- A family of headers. -/
inductive Dialect where
  /-- The older interface: at most one star, and no function pointer arguments. -/
  | native
  /-- The newer interface: up to two stars, and arguments may be function
  pointers. -/
  | extension
deriving DecidableEq, Repr

namespace Dialect

/-- The newer interface is meant where nothing is said. -/
instance : Inhabited Dialect := ⟨.extension⟩

/-- The name by which a dialect is chosen. -/
def name : Dialect → String
  | .native => "gdnative"
  | .extension => "gdextension"

/-- The dialect of a name. -/
def ofName? (name : String) : Option Dialect :=
  if name = native.name then some .native
  else if name = extension.name then some .extension
  else none

/-- What is said of a name that no dialect has. -/
def unknownMessage (name : String) : String :=
  "unknown dialect " ++ Text.quoted name ++ ", expected gdnative or gdextension"

/-- The largest number of stars a type may carry. -/
def maxIndirection : Dialect → Nat
  | .native => 1
  | .extension => 2

/-- Whether an argument may be a function pointer. -/
def allowsCallbacks : Dialect → Bool
  | .native => false
  | .extension => true

/-- A dialect is found by its name. -/
@[simp] theorem ofName?_name (d : Dialect) : ofName? d.name = some d := by
  cases d <;> decide

end Dialect

end EngineHeader
