import EngineHeader.Token.Lexer

/-!
# What a token is

A token is a comment, a word, three dots, an integer or a punctuation character, or it is
the end of the text (`lexes_of_scan`).  The kind of a token does not always tell which of
these it is.  So for words and for punctuation there are lemmas on the kinds that they never
have (`ofWord_ne`, `punctuation?_ne`).
-/

namespace EngineHeader.Token

open Text

/-! ## Kinds -/

/-- A word is an identifier or has the kind of a keyword. -/
theorem ofWord_mem (word : String) :
    Kind.ofWord word = .identifier ∧ word ∉ keywords.map Prod.fst ∨
      Kind.ofWord word ∈ keywords.map Prod.snd ∧ word ∈ keywords.map Prod.fst := by
  rw [Kind.ofWord]
  cases h : keywords.lookup word with
  | none =>
    refine .inl ⟨rfl, fun hmem => ?_⟩
    obtain ⟨entry, hentry, rfl⟩ := List.mem_map.mp hmem
    have hne := List.lookup_eq_none_iff.mp h entry hentry
    exact bne_iff_ne.mp hne rfl
  | some kind =>
    obtain ⟨before, behind, heq, _⟩ := List.lookup_eq_some_iff.mp h
    have hmem : (word, kind) ∈ keywords := heq ▸ List.mem_append_right _ List.mem_cons_self
    exact .inr ⟨List.mem_map_of_mem hmem, List.mem_map_of_mem hmem⟩

/-- A word has no other kind than that of an identifier or of a keyword. -/
theorem ofWord_ne {kind : Kind} (word : String) (hi : kind ≠ .identifier)
    (hk : kind ∉ keywords.map Prod.snd) : Kind.ofWord word ≠ kind := by
  rintro rfl
  rcases ofWord_mem word with ⟨h, _⟩ | ⟨h, _⟩
  · exact hi h
  · exact hk h

theorem ofWord_eq_identifier_iff {word : String} :
    Kind.ofWord word = .identifier ↔ word ∉ keywords.map Prod.fst := by
  rcases ofWord_mem word with ⟨hi, hfree⟩ | ⟨hk, hmem⟩
  · exact iff_of_true hi hfree
  · refine iff_of_false (fun h => ?_) (not_not_intro hmem)
    rw [h] at hk
    exact absurd hk (by decide)

/-- Punctuation ends no text, and it is neither a comment nor an identifier. -/
theorem punctuation?_ne {c : Char} {kind : Kind} (h : punctuation? c = some kind) :
    kind ≠ .endOfFile ∧ kind ≠ .comment ∧ kind ≠ .identifier := by
  unfold punctuation? at h
  split at h
  case h_12 => cases h
  all_goals
    cases h
    decide

/-- Where a class of characters has no slash, its characters are no slashes. -/
theorem ne_slash {p : Char → Bool} (hp : p '/' = false) {c : Char} (h : p c = true) : c ≠ '/' := by
  rintro rfl
  rw [hp] at h
  cases h

/-! ## Where a run of characters stops -/

/-- The text does not go on with a character of the class. -/
def Stops (p : Char → Bool) (text : List Char) : Prop := ∀ c ∈ text.head?, p c = false

theorem stops_dropWhile (p : Char → Bool) (text : List Char) : Stops p (text.dropWhile p) := by
  intro c hc
  have hne : text.dropWhile p ≠ [] := by
    intro hnil
    rw [hnil] at hc
    cases hc
  have hhead := List.head_dropWhile_not p hne
  rw [List.head?_eq_some_head hne] at hc
  cases hc
  exact hhead

theorem takeWhile_append_of_stops {p : Char → Bool} {run behind : List Char}
    (hrun : ∀ c ∈ run, p c = true)
    (hb : Stops p behind) : (run ++ behind).takeWhile p = run := by
  rw [List.takeWhile_append_of_pos hrun]
  cases behind with
  | nil => rw [List.takeWhile_nil, List.append_nil]
  | cons c behind =>
    have hc : p c = false := hb c rfl
    rw [List.takeWhile_cons, hc, if_neg Bool.false_ne_true, List.append_nil]

/-! ## The characters of a token -/

theorem forall_take_takeWhile {p : Char → Bool} (text : List Char) :
    ∀ c ∈ text.take (text.takeWhile p).length, p c = true := by
  rw [← List.prefix_iff_eq_take.mp (List.takeWhile_prefix p)]
  exact List.all_eq_true.mp List.all_takeWhile

/-- A character that may stand in an integer. -/
def isNumberPart (c : Char) : Bool := isSign c || isHexMark c || isHexDigit c || c.isDigit

theorem isNumberPart_of_isDigit {c : Char} (h : c.isDigit = true) : isNumberPart c = true := by
  simp [isNumberPart, h]

theorem isNumberPart_of_number {text : List Char} {n : Nat} (h : numberLength text = .ok n) :
    ∀ c ∈ text.take n, isNumberPart c = true := by
  have hdigits : ∀ text : List Char, ∀ c ∈ text.take (text.takeWhile Char.isDigit).length,
      isNumberPart c = true :=
    fun text c hc => isNumberPart_of_isDigit (forall_take_takeWhile text c hc)
  unfold numberLength at h
  split at h
  · next mark text =>
    split at h
    · next hmark =>
      dsimp only at h
      split at h
      · cases h
      · cases h
        rw [Nat.add_comm, List.take_succ_cons, List.take_succ_cons]
        refine List.forall_mem_cons.mpr ⟨rfl, List.forall_mem_cons.mpr ⟨?_, ?_⟩⟩
        · simp [isNumberPart, hmark]
        · intro c hc
          have hdigit := forall_take_takeWhile text c hc
          simp [isNumberPart, hdigit]
    · cases h
      exact hdigits _
  · cases h
    exact hdigits _

theorem isNumberPart_of_integer {text : List Char} {n : Nat}
    (h : integerLength? text = some (.ok n)) : ∀ c ∈ text.take n, isNumberPart c = true := by
  have hsign : ∀ c ∈ text.take (signLength text), isNumberPart c = true := by
    unfold signLength
    split
    · split
      · next c _ hc => exact List.forall_mem_singleton.mpr (by simp [isNumberPart, hc])
      · exact List.forall_mem_nil _
    · exact List.forall_mem_nil _
  unfold integerLength? at h
  dsimp only at h
  split at h
  · cases hnumber : numberLength (text.drop (signLength text)) with
    | error k =>
      rw [hnumber] at h
      cases h
    | ok k =>
      rw [hnumber] at h
      cases h
      rw [List.take_add]
      exact List.forall_mem_append.mpr ⟨hsign, isNumberPart_of_number hnumber⟩
  · cases h

/-! ## Tokens -/

/-- What the token at the head of a text is, and how long. -/
inductive Lexes : List Char → Kind → Nat → Prop where
  | endOfFile : Lexes [] .endOfFile 0
  | lineComment {text : List Char} : opensLine text = true → Lexes text .comment (lineLength text)
  | blockComment {text : List Char} {n : Nat} :
    blockComment? text = some n → Lexes text .comment n
  | word {c : Char} {text : List Char} : isWordStart c = true →
    Lexes (c :: text) (.ofWord (String.ofList ((c :: text).take (wordLength (c :: text)))))
      (wordLength (c :: text))
  | ellipsis {text : List Char} : Lexes ('.' :: '.' :: '.' :: text) .ellipsis 3
  | integer {text : List Char} {n : Nat} :
    integerLength? text = some (.ok n) → Lexes text .integer n
  | mark {c : Char} {text : List Char} {kind : Kind} :
    punctuation? c = some kind → Lexes (c :: text) kind 1

theorem lexes_of_scan {text : List Char} {kind : Kind} {n : Nat}
    (h : scan text = .ok (kind, n)) : Lexes text kind n := by
  cases text with
  | nil =>
    cases h
    exact .endOfFile
  | cons c text =>
    simp only [scan, List.head?_cons] at h
    split at h
    · next hl =>
      cases h
      exact .lineComment hl
    split at h
    · split at h
      · next hn =>
        cases h
        exact .blockComment hn
      · cases h
    split at h
    · next hc =>
      cases h
      exact .word hc
    split at h
    · next hdots =>
      cases h
      obtain ⟨rest, heq⟩ := List.isPrefixOf_iff_prefix.mp hdots
      rw [← heq]
      exact .ellipsis
    split at h
    · next hn =>
      cases h
      exact .integer hn
    · cases h
    split at h
    · next hmark =>
      cases h
      exact .mark hmark
    · cases h

/-- Only the end of the text is read as the end of the text. -/
theorem eq_nil_of_scan {text : List Char} {n : Nat} (h : scan text = .ok (.endOfFile, n)) :
    text = [] := by
  generalize hk : Kind.endOfFile = kind at h
  cases lexes_of_scan h with
  | endOfFile => rfl
  | lineComment _ => cases hk
  | blockComment _ => cases hk
  | word _ => exact absurd hk.symm (ofWord_ne _ (by decide) (by decide))
  | ellipsis => cases hk
  | integer _ => cases hk
  | mark hmark => exact absurd hk.symm (punctuation?_ne hmark).1

/-- A token that is read is the one at the head of what is left. -/
theorem exists_of_read {c c' : Cursor} {t : Token} (h : read c = .ok (t, c')) :
    ∃ n, scan c.rest = .ok (t.kind, n) ∧ t.text = c.peek n ∧ t.position = c.position ∧
      c' = c.move n := by
  rw [read] at h
  split at h
  · next hscan =>
    cases h
    exact ⟨_, hscan, rfl, rfl, rfl⟩
  · cases h

end EngineHeader.Token
