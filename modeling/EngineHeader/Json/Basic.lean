/-!
# JSON values

A value of JSON.  Numbers are whole, since nothing here needs others.  An object
keeps its members in order, and may have two of one key.
-/

namespace EngineHeader

/-- A value of JSON. -/
inductive Json where
  | null
  | bool (value : Bool)
  | number (value : Int)
  | string (text : String)
  | array (items : List Json)
  | object (members : List (String × Json))
deriving Repr

end EngineHeader
