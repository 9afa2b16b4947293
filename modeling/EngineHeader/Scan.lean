import EngineHeader.Error

/-!
# Scans

Both scanners cut a text into pieces from left to right.  The result of a *scan*
is the pieces and what stopped it: the end of the text, or an error behind the
last piece.
-/

namespace EngineHeader

/-- What a scanner makes of a text. -/
structure Scan (α : Type) where
  /-- The pieces, in order. -/
  items : List α
  /-- The error behind them, if there is one. -/
  error? : Option Error
deriving DecidableEq, Repr

/-- The pieces of a scan that came to the end of the text. -/
def Scan.toExcept {α : Type} (s : Scan α) : Except Error (List α) :=
  match s.error? with
  | some e => .error e
  | none => .ok s.items

end EngineHeader
