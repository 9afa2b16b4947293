import EngineHeader.Position

/-!
# Declaration tokens

A token is a piece of declaration text: its kind, its spelling and the position
where it begins.  Comments are tokens too.  The end of the text is a token with
no spelling.
-/

namespace EngineHeader

namespace Token

/-- What a piece of declaration text is. -/
inductive Kind where
  | endOfFile
  | comment
  | identifier
  | integer
  /-- The word that opens every declaration. -/
  | typedefWord
  | structWord
  | enumWord
  | constWord
  | leftBrace
  | rightBrace
  | leftBracket
  | rightBracket
  | leftParen
  | rightParen
  | semicolon
  | comma
  | colon
  | star
  | equals
  | ellipsis
deriving DecidableEq, Repr

/-- How a message refers to a kind of token. -/
def Kind.describe : Kind → String
  | .endOfFile => "end of file"
  | .comment => "comment"
  | .identifier => "identifier"
  | .integer => "integer literal"
  | .typedefWord => "'typedef'"
  | .structWord => "'struct'"
  | .enumWord => "'enum'"
  | .constWord => "'const'"
  | .leftBrace => "'\x7b'"
  | .rightBrace => "'\x7d'"
  | .leftBracket => "'['"
  | .rightBracket => "']'"
  | .leftParen => "'('"
  | .rightParen => "')'"
  | .semicolon => "';'"
  | .comma => "','"
  | .colon => "':'"
  | .star => "'*'"
  | .equals => "'='"
  | .ellipsis => "'...'"

/-- The words that are not identifiers, with their kinds. -/
def keywords : List (String × Kind) :=
  [("typedef", .typedefWord), ("struct", .structWord), ("enum", .enumWord), ("const", .constWord)]

/-- The kind of a word: that of the keyword it spells, or an identifier. -/
def Kind.ofWord (word : String) : Kind := (keywords.lookup word).getD .identifier

end Token

/-- A piece of declaration text. -/
structure Token where
  /-- What it is. -/
  kind : Token.Kind
  /-- How it is spelled. -/
  text : String
  /-- Where it begins. -/
  position : Position
deriving DecidableEq, Repr

namespace Token

/-- How a message refers to a token.  Identifiers and integers show their
spelling. -/
def describe (t : Token) : String :=
  match t.kind with
  | .identifier => "identifier '" ++ t.text ++ "'"
  | .integer => "integer literal " ++ t.text
  | kind => kind.describe

/-- The token that stands for the end of a text. -/
def atEnd (p : Position) : Token := ⟨.endOfFile, "", p⟩

example : Kind.ofWord "struct" = .structWord := by decide
example : Kind.ofWord "structure" = .identifier := by decide

end Token

end EngineHeader
