import EngineHeader.Text.Character
import EngineHeader.Text.Comment
import EngineHeader.Token.Basic

/-!
# The lexeme at the head of a text

`scan` finds the token that a text begins with: its kind and its length in
characters.  White space is not skipped.  The rules are tried by the first
characters of the text.

* A text that is over is the end of the file.
* A comment is a token.  A block comment that is never closed is not.
* A word is as long as it can be.  It is a keyword or an identifier.
* An integer has an optional sign.  Its digits are decimal, or hexadecimal behind
  a zero and a mark.  A mark without digits is an error.
* Otherwise three dots, or one of the punctuation characters.

Where no rule applies the length of what was not recognised is given instead.
-/

namespace EngineHeader.Token

open Text

/-- The kind of a token that is a single punctuation character. -/
def punctuation? : Char → Option Kind
  | '{' => some .leftBrace
  | '}' => some .rightBrace
  | '[' => some .leftBracket
  | ']' => some .rightBracket
  | '(' => some .leftParen
  | ')' => some .rightParen
  | ';' => some .semicolon
  | ',' => some .comma
  | ':' => some .colon
  | '*' => some .star
  | '=' => some .equals
  | _ => none

/-- The length of the word at the head of a text. -/
def wordLength (text : List Char) : Nat := (text.takeWhile isWordPart).length

/-- The length of the number at the head of a text, which begins with a digit.
A hexadecimal mark without digits is an error as long as the mark and its
zero. -/
def numberLength : List Char → Except Nat Nat
  | '0' :: mark :: text =>
    if isHexMark mark then
      let digits := (text.takeWhile isHexDigit).length
      if digits = 0 then .error 2 else .ok (2 + digits)
    else .ok (('0' :: mark :: text).takeWhile Char.isDigit).length
  | text => .ok (text.takeWhile Char.isDigit).length

/-- The length of the sign at the head of a text, which may be zero. -/
def signLength : List Char → Nat
  | c :: _ => if isSign c then 1 else 0
  | [] => 0

/-- A digit begins this text. -/
def startsWithDigit : List Char → Bool
  | c :: _ => c.isDigit
  | [] => false

/-- The length of the integer literal at the head of a text, if one begins
there. -/
def integerLength? (text : List Char) : Option (Except Nat Nat) :=
  let sign := signLength text
  if startsWithDigit (text.drop sign) then
    some (((numberLength (text.drop sign)).map (sign + ·)).mapError (sign + ·))
  else none

/-- The kind and the length of the token at the head of a text, or the length of
what was not recognised. -/
def scan (text : List Char) : Except Nat (Kind × Nat) :=
  match text.head? with
  | none => .ok (.endOfFile, 0)
  | some c =>
    if opensLine text then .ok (.comment, lineLength text)
    else if opensBlock text then
      match blockComment? text with
      | some n => .ok (.comment, n)
      | none => .error 2
    else if isWordStart c then
      .ok (.ofWord (String.ofList (text.take (wordLength text))), wordLength text)
    else if ['.', '.', '.'].isPrefixOf text then .ok (.ellipsis, 3)
    else
      match integerLength? text with
      | some (.ok n) => .ok (.integer, n)
      | some (.error n) => .error n
      | none =>
        match punctuation? c with
        | some kind => .ok (kind, 1)
        | none => .error 1

/-! ## A lexeme is not empty -/

theorem takeWhile_length_pos {p : Char → Bool} {c : Char} (h : p c = true) (text : List Char) :
    0 < ((c :: text).takeWhile p).length := by
  simp [h]

theorem isWordPart_of_isWordStart {c : Char} (h : isWordStart c = true) : isWordPart c = true := by
  simp only [isWordStart, isWordPart, Char.isAlphanum, Bool.or_eq_true] at h ⊢
  exact h.imp_left .inl

theorem numberLength_pos {text : List Char} {n : Nat} (h : startsWithDigit text = true)
    (hn : numberLength text = .ok n) : 0 < n := by
  have hd : 0 < (text.takeWhile Char.isDigit).length := by
    cases text with
    | nil => cases h
    | cons c text => exact takeWhile_length_pos h text
  unfold numberLength at hn
  split at hn
  · split at hn
    · dsimp only at hn
      split at hn
      · cases hn
      · injection hn; omega
    · injection hn with hn
      exact hn ▸ hd
  · injection hn with hn
    exact hn ▸ hd

theorem integerLength?_pos {text : List Char} {n : Nat} (h : integerLength? text = some (.ok n)) :
    0 < n := by
  unfold integerLength? at h
  dsimp only at h
  split at h
  · rename_i hd
    cases hn : numberLength (text.drop (signLength text)) with
    | error k => rw [hn] at h; cases h
    | ok k =>
      have hk := numberLength_pos hd hn
      rw [hn] at h
      injection h with h
      injection h with h
      exact h ▸ Nat.add_pos_right _ hk
  · cases h

theorem blockComment?_pos {text : List Char} {n : Nat} (h : blockComment? text = some n) :
    0 < n := by
  unfold blockComment? at h
  split at h
  · obtain ⟨k, _, rfl⟩ := Option.map_eq_some_iff.mp h
    omega
  · cases h

/-- Only the end of the text is a token without characters. -/
theorem scan_pos {text : List Char} {kind : Kind} {n : Nat} (h : scan text = .ok (kind, n))
    (hk : kind ≠ .endOfFile) : text ≠ [] ∧ 0 < n := by
  cases text with
  | nil => injection h with h; cases h; exact absurd rfl hk
  | cons c text =>
    refine ⟨List.cons_ne_nil _ _, ?_⟩
    unfold scan at h
    simp only [List.head?_cons] at h
    split at h
    next hl =>
      injection h with h; cases h
      refine takeWhile_length_pos ?_ text
      unfold opensLine at hl
      split at hl <;> simp_all
    split at h
    · split at h
      next hb => injection h with h; cases h; exact blockComment?_pos hb
      next => cases h
    split at h
    next hw =>
      injection h with h; cases h
      exact takeWhile_length_pos (isWordPart_of_isWordStart hw) text
    split at h
    · injection h with h; cases h; omega
    split at h
    next hi => injection h with h; cases h; exact integerLength?_pos hi
    next => cases h
    split at h
    · injection h with h; cases h; omega
    · cases h

end EngineHeader.Token
