import EngineHeader.Header
import EngineHeader.Proofs.Checked.Declarations
import EngineHeader.Proofs.Checked.Lexer
import EngineHeader.Proofs.Checked.Tree

/-!
# Headers are read without a failure

The two stages of reading a header, made of the checked scanners and of the checked parser.  Every
slice is cut in its text and between two characters, every byte and every token is looked up where
there is one, the cursor of the parser never leaves the tokens, no number leaves its range, and each
call of the parser leaves the count of open callbacks as it was.  Where one of these would not be
so, there would be no result.

There always is a result, and it is the one that the plain definitions give.
-/

namespace EngineHeader.Checked

/-- The declarations of a text without directives. -/
def declarations? (d : Dialect) (text : List Char) : Option (Except Error Header) := do
  match ← tokens? text with
  | .error e => return .error e
  | .ok tokens =>
    let (result, _) ← Parser.header ⟨tokens, Position.start.advance text, d⟩ ⟨0, 0⟩
    return result

/-- The declarations of a header, read as configured. -/
def read? (c : Config) (source : List Char) : Option (Except Error Header) := do
  match ← flatten? source c.names with
  | .error e => return .error e
  | .ok text => declarations? c.dialect text.toList

/-- The tokens of a text are the items of a scan without an error. -/
theorem mem_items_of_toExcept {text : String} {tokens : List Token} {t : Token}
    (h : (Token.scanText text).toExcept = .ok tokens) (ht : t ∈ tokens) :
    t ∈ (Token.scanText text).items := by
  rw [Scan.toExcept] at h
  split at h
  · cases h
  · cases h
    exact ht

theorem declarations?_eq (d : Dialect) (text : String) :
    declarations? d text.toList = some (Header.ofText d text) := by
  rw [declarations?, tokens?_eq, Header.ofText]
  cases htokens : (Token.scanText text).toExcept with
  | error e => rfl
  | ok tokens =>
    have hints : Parser.Integers ⟨tokens, Position.start.advance text.toList, d⟩ :=
      fun t ht hk => isInteger_of_mem_scanText (mem_items_of_toExcept htokens ht) hk
    obtain ⟨s, hheader⟩ := Parser.header_eq hints
    dsimp only [bind, Except.bind, Option.bind]
    rw [hheader]
    generalize Declaration.Parser.ofWords d (.ofTokens tokens) = result
    cases result with
    | error stuck => rfl
    | ok declarations => rfl

theorem read?_eq (c : Config) (source : String) :
    read? c source.toList = some (Header.read c source) := by
  rw [read?, flatten?_eq, Header.read]
  cases flatten source c.names with
  | error e => rfl
  | ok text => exact declarations?_eq c.dialect text

/-- The checked readings always have a result, and it is the one of the plain readings: the text
that is left where some names are defined, the declarations of a text in a dialect, and the
declarations of a header as configured. -/
theorem readings_eq_some (source : String) (names : Names) (d : Dialect) (c : Config) :
    flatten? source.toList names = some (flatten source names) ∧
      declarations? d source.toList = some (Header.ofText d source) ∧
      read? c source.toList = some (Header.read c source) :=
  ⟨flatten?_eq source names, declarations?_eq d source, read?_eq c source⟩

end EngineHeader.Checked
