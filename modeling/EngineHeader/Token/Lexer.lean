import EngineHeader.Scan
import EngineHeader.Text.Cursor
import EngineHeader.Token.Lexeme

/-!
# The declaration lexer

`Token.read` takes the token at a cursor, without skipping white space, and
`Lexer.next` skips white space and then takes a token.  A lexer ends at the end
of its text or at its first error, and stays ended.  Reading without skipping
pays no attention to that.

`Token.scanText` takes every token of a text.
-/

namespace EngineHeader

open Text

namespace Token

/-- The token at a cursor, and the cursor behind it. -/
def read (c : Cursor) : Except Error (Token × Cursor) :=
  match scan c.rest with
  | .ok (kind, n) => .ok (⟨kind, c.peek n, c.position⟩, c.move n)
  | .error n => .error (.unrecognized c.position (c.peek n))

/-- The cursor behind the white space in front of it. -/
def skipLayout (c : Cursor) : Cursor := c.move (c.rest.takeWhile isLayout).length

end Token

/-- A lexer: where it is, and whether it has ended. -/
structure Lexer where
  /-- Where the lexer is. -/
  cursor : Cursor
  /-- It has met the end of the text or an error. -/
  ended : Bool
deriving DecidableEq, Repr

namespace Lexer

/-- A lexer at the beginning of a text. -/
def ofText (text : String) : Lexer := ⟨.ofText text, false⟩

/-- Skip white space. -/
def skipLayout (l : Lexer) : Lexer := { l with cursor := Token.skipLayout l.cursor }

/-- Take the token right here.  An error leaves the lexer where it is. -/
def token (l : Lexer) : Except Error Token × Lexer :=
  match Token.read l.cursor with
  | .ok (t, c) => (.ok t, { l with cursor := c })
  | .error e => (.error e, l)

/-- Skip white space and take a token.  There is none once the lexer has ended,
and the end of the text is not one. -/
def next (l : Lexer) : Option (Except Error Token) × Lexer :=
  if l.ended then (none, l)
  else
    match l.skipLayout.token with
    | (.ok t, l) => if t.kind = .endOfFile then (none, { l with ended := true }) else (some (.ok t), l)
    | (.error e, l) => (some (.error e), { l with ended := true })

end Lexer

namespace Token

/-! ## Reading a whole text -/

/-- A token that is not the end of the text leaves less text. -/
theorem read_shorter {c c' : Cursor} {t : Token} (h : read c = .ok (t, c'))
    (hk : t.kind ≠ .endOfFile) : c'.rest.length < c.rest.length := by
  unfold read at h
  split at h
  · rename_i kind n hs
    injection h with h
    cases h
    obtain ⟨hne, hn⟩ := scan_pos hs hk
    exact c.length_move_lt hne hn
  · cases h

theorem length_skipLayout (c : Cursor) : (skipLayout c).rest.length ≤ c.rest.length :=
  c.length_move_le _

/-- The tokens from a cursor on, behind those already taken, latest first. -/
def scanFrom (taken : List Token) (c : Cursor) : Scan Token :=
  match _h : read (skipLayout c) with
  | .error e => ⟨taken.reverse, some e⟩
  | .ok (t, c') =>
    if _hk : t.kind = .endOfFile then ⟨taken.reverse, none⟩ else scanFrom (t :: taken) c'
termination_by c.rest.length
decreasing_by exact Nat.lt_of_lt_of_le (read_shorter _h _hk) (length_skipLayout c)

/-- The tokens of a text. -/
def scanText (text : String) : Scan Token := scanFrom [] (.ofText text)

end Token

end EngineHeader
