import EngineHeader.Token.Basic

/-!
# Words and their comments

The grammar of declarations does not see comments, but some of them are kept.  A
*word* is a token that is not a comment, together with the comments between it
and the next such token.  The comments in front of the first word belong to
none.
-/

namespace EngineHeader.Token

/-- A token that is not a comment, with the comments behind it. -/
structure Word where
  /-- The token. -/
  token : Token
  /-- The comments up to the next word, in order. -/
  comments : List Token
deriving DecidableEq, Repr

/-- What kind of token a word is. -/
def Word.kind (w : Word) : Kind := w.token.kind

/-- How a word is spelled. -/
def Word.text (w : Word) : String := w.token.text

/-- The words of a text, and the comments in front of the first. -/
structure Words where
  /-- The comments in front of the first word. -/
  leading : List Token
  /-- The words, in order. -/
  words : List Word
deriving DecidableEq, Repr

/-- Put a token in front of words. -/
def Words.cons (t : Token) (ws : Words) : Words :=
  if t.kind = .comment then ⟨t :: ws.leading, ws.words⟩ else ⟨[], ⟨t, ws.leading⟩ :: ws.words⟩

/-- Group tokens into words. -/
def Words.ofTokens (tokens : List Token) : Words := tokens.foldr Words.cons ⟨[], []⟩

/-- The tokens of words. -/
def Words.tokens (ws : Words) : List Token :=
  ws.leading ++ ws.words.flatMap fun w => w.token :: w.comments

/-- A comment joins those in front of the first word, and any other token is a word. -/
theorem Words.ofTokens_cons (t : Token) (tokens : List Token) :
    ofTokens (t :: tokens) =
      if t.kind = .comment then ⟨t :: (ofTokens tokens).leading, (ofTokens tokens).words⟩
      else ⟨[], ⟨t, (ofTokens tokens).leading⟩ :: (ofTokens tokens).words⟩ := rfl

/-- Grouping keeps every token in its place. -/
@[simp] theorem Words.tokens_ofTokens (tokens : List Token) : (ofTokens tokens).tokens = tokens := by
  induction tokens with
  | nil => rfl
  | cons t tokens ih =>
    rw [ofTokens_cons]
    split
    · exact congrArg (t :: ·) ih
    · simpa [Words.tokens] using ih

end EngineHeader.Token
