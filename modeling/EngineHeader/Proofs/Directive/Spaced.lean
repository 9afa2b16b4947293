import EngineHeader.Proofs.Directive.Cutting
import EngineHeader.Proofs.Directive.Event
import EngineHeader.Proofs.Directive.Exact
import EngineHeader.Proofs.Token.Spelling

/-!
# Spacing on directive lines

Blanks, comments and line ends behind a backslash may stand between the parts of a directive
line.  They make no difference: the line has the same name and the same argument, and it goes on
to the line feed that is in none of them (`SpacedLine.reads_line`).  So a header of such lines is
read line by line (`SpacedLine.scanFrom_written`).

Where a line ends and what is on it are measured apart, each in units of its own: those in front of
a line (`layoutUnit`), those up to its end (`lineUnit`) and those between its parts
(`spacingUnit`).  Whatever may stand between the parts is one unit for both of the last two
(`IsSpace.isUnitOf`).  So they agree on every text that is made of such pieces (`MadeOf.extent`).
-/

namespace EngineHeader.Directive

open Text
open Token (WordEnds isWordPart_of_isIdentifier takeWhile_append_of_stops wordEnds_cons)

/-! ## Pieces -/

/-- The text is made of such pieces. -/
inductive MadeOf (P : List Char → Prop) : List Char → Prop where
  | nil : MadeOf P []
  | cons {piece text : List Char} : P piece → MadeOf P text → MadeOf P (piece ++ text)

/-- The piece is one unit, whatever stands behind it. -/
def IsUnitOf (unit : List Char → Nat) (piece : List Char) : Prop :=
  piece ≠ [] ∧ ∀ rest, unit (piece ++ rest) = piece.length

variable {P : List Char → Prop} {unit : List Char → Nat} {text rest : List Char}

theorem extent_of_unit {piece : List Char} (hne : piece ≠ [])
    (h : unit (piece ++ rest) = piece.length) :
    extent unit (piece ++ rest) = piece.length + extent unit rest := by
  have hpos : 0 < unit (piece ++ rest) := by
    rw [h]
    exact List.length_pos_iff.mpr hne
  rw [extent_of_pos (List.append_ne_nil_of_left_ne_nil hne rest) hpos, h, List.drop_left]

/-- A run of units goes on behind pieces that are units. -/
theorem MadeOf.extent (h : MadeOf P text) (hP : ∀ piece, P piece → IsUnitOf unit piece) :
    extent unit (text ++ rest) = text.length + Text.extent unit rest := by
  induction h with
  | nil => simp
  | cons hpiece _ ih =>
    obtain ⟨hne, hunit⟩ := hP _ hpiece
    rw [List.append_assoc, extent_of_unit hne (hunit _), ih, List.length_append, Nat.add_assoc]

theorem MadeOf.dropUnits (h : MadeOf P text) (hP : ∀ piece, P piece → IsUnitOf unit piece) :
    dropUnits unit (text ++ rest) = Text.dropUnits unit rest := by
  rw [Text.dropUnits, h.extent hP, ← List.drop_drop, List.drop_left, Text.dropUnits]

/-! ## What may stand between the parts -/

/-- What may stand in front of a line: a blank or a block comment that is closed. -/
inductive IsLead : List Char → Prop where
  | blank {c : Char} : isBlank c = true → IsLead [c]
  | comment {text : List Char} : IsBlockComment text → IsLead text

/-- What may stand between the parts of a line: the same, or a line end behind a backslash. -/
inductive IsSpace : List Char → Prop where
  | lead {text : List Char} : IsLead text → IsSpace text
  | feed : IsSpace ['\\', '\n']
  | returnFeed : IsSpace ['\\', '\r', '\n']

/-- A block comment is measured as a comment, whatever stands behind it. -/
theorem lengths_of_isBlockComment (h : IsBlockComment text) (rest : List Char) :
    closedComment (text ++ rest) = text.length ∧ commentLength (text ++ rest) = text.length := by
  have hlength := blockComment_append (isBlockComment_iff.mp h) rest
  obtain ⟨inside, rfl, _⟩ := h
  have hopens : opensBlock ('/' :: '*' :: (inside ++ ['*', '/']) ++ rest) = true := rfl
  rw [closedComment, commentLength, if_pos hopens, if_pos hopens, hlength]
  exact ⟨rfl, rfl⟩

/-- Blanks and the characters of words are no line feeds, backslashes or slashes. -/
theorem ne_of_class {p : Char → Bool} (hp : p '\n' = false ∧ p '\\' = false ∧ p '/' = false)
    {c : Char} (hc : p c = true) : c ≠ '\n' ∧ c ≠ '\\' ∧ c ≠ '/' := by
  obtain ⟨hfeed, hback, hslash⟩ := hp
  refine ⟨?_, ?_, ?_⟩
  · rintro rfl
    exact Bool.false_ne_true (hfeed.symm.trans hc)
  · rintro rfl
    exact Bool.false_ne_true (hback.symm.trans hc)
  · rintro rfl
    exact Bool.false_ne_true (hslash.symm.trans hc)

theorem ne_of_isBlank {c : Char} (h : isBlank c = true) : c ≠ '\n' ∧ c ≠ '\\' ∧ c ≠ '/' :=
  ne_of_class ⟨rfl, rfl, rfl⟩ h

theorem ne_of_isWordPart {c : Char} (h : isWordPart c = true) :
    c ≠ '\n' ∧ c ≠ '\\' ∧ c ≠ '/' :=
  ne_of_class ⟨rfl, rfl, rfl⟩ h

/-- Most characters are units of their line. -/
theorem lineUnit_of_ne {c : Char} (h : c ≠ '\n' ∧ c ≠ '\\' ∧ c ≠ '/') (text : List Char) :
    lineUnit (c :: text) = 1 := by
  obtain ⟨hfeed, hback, hslash⟩ := h
  obtain ⟨hblock, hline⟩ := opens_of_ne hslash text
  simp [lineUnit, commentLength, hfeed, hback, hblock, hline]

theorem IsLead.isUnitOf (h : IsLead text) :
    IsUnitOf layoutUnit text ∧ IsUnitOf lineUnit text ∧ IsUnitOf spacingUnit text := by
  cases h with
  | @blank c hc =>
    have hne := ne_of_isBlank hc
    refine ⟨⟨List.cons_ne_nil _ _, ?_⟩, ⟨List.cons_ne_nil _ _, lineUnit_of_ne hne⟩,
      ⟨List.cons_ne_nil _ _, ?_⟩⟩
    · intro rest
      simp [layoutUnit, isLayout, hc]
    · intro rest
      simp [spacingUnit, hne.2.1, hc]
  | comment hcomment =>
    have hlengths := lengths_of_isBlockComment hcomment
    obtain ⟨inside, rfl, _⟩ := hcomment
    refine ⟨⟨List.cons_ne_nil _ _, fun rest => (hlengths rest).1⟩, ⟨List.cons_ne_nil _ _, ?_⟩,
      ⟨List.cons_ne_nil _ _, fun rest => (hlengths rest).2⟩⟩
    intro rest
    have hunit : lineUnit ('/' :: '*' :: (inside ++ ['*', '/']) ++ rest) =
        max 1 (commentLength ('/' :: '*' :: (inside ++ ['*', '/']) ++ rest)) := rfl
    rw [hunit, (hlengths rest).2]
    exact Nat.max_eq_right (Nat.succ_pos _)

theorem IsSpace.isUnitOf (h : IsSpace text) :
    IsUnitOf lineUnit text ∧ IsUnitOf spacingUnit text := by
  cases h with
  | lead hlead => exact hlead.isUnitOf.2
  | feed => exact ⟨⟨List.cons_ne_nil _ _, fun _ => rfl⟩, ⟨List.cons_ne_nil _ _, fun _ => rfl⟩⟩
  | returnFeed =>
    exact ⟨⟨List.cons_ne_nil _ _, fun _ => rfl⟩, ⟨List.cons_ne_nil _ _, fun _ => rfl⟩⟩

theorem isWordPart_of_isBlank {c : Char} (h : isBlank c = true) : isWordPart c = false := by
  simp only [isBlank, Bool.or_eq_true, beq_iff_eq] at h
  rcases h with (((rfl | rfl) | rfl) | rfl) | rfl <;> rfl

/-- No word goes on with what may stand between the parts. -/
theorem MadeOf.wordEnds (h : MadeOf IsSpace text) (hrest : text = [] → WordEnds rest) :
    WordEnds (text ++ rest) := by
  cases h with
  | nil => exact hrest rfl
  | cons hpiece _ =>
    cases hpiece with
    | lead hlead =>
      cases hlead with
      | blank hc => exact wordEnds_cons (isWordPart_of_isBlank hc) _
      | comment hcomment =>
        obtain ⟨inside, rfl, _⟩ := hcomment
        exact wordEnds_cons rfl _
    | feed => exact wordEnds_cons rfl _
    | returnFeed => exact wordEnds_cons rfl _

/-! ## Arguments -/

/-- What may stand in a file name with this delimiter at its end: no line feed, no such delimiter
and nothing that begins a comment. -/
structure IsFileName (close : Char) (name : List Char) : Prop where
  no_feed : '\n' ∉ name
  no_close : close ∉ name
  no_block : ¬ ['/', '*'] <:+: name
  no_line : ¬ ['/', '/'] <:+: name

/-- The argument is an identifier or a file name. -/
inductive Argument.IsPlain : Argument → Prop where
  | word {text : String} : IsIdentifier text → IsPlain (.word text)
  | angled {name : String} : IsFileName '>' name.toList → IsPlain (.angled name)
  | quoted {name : String} : IsFileName '"' name.toList → IsPlain (.quoted name)

theorem extent_cons {c : Char} (h : unit (c :: rest) = 1) :
    extent unit (c :: rest) = extent unit rest + 1 := by
  have hextent := extent_of_unit (List.cons_ne_nil c []) h
  rw [List.length_singleton, Nat.add_comm] at hextent
  exact hextent

/-- A word is read character by character. -/
theorem extent_word {word : List Char} (h : ∀ c ∈ word, isWordPart c = true) :
    extent lineUnit (word ++ rest) = word.length + extent lineUnit rest := by
  induction word with
  | nil => simp
  | cons c word ih =>
    obtain ⟨hc, hword⟩ := List.forall_mem_cons.mp h
    rw [List.cons_append, extent_cons (lineUnit_of_ne (ne_of_isWordPart hc) _), ih hword,
      List.length_cons, Nat.add_right_comm]

theorem IsFileName.tail {close c : Char} {name : List Char} (h : IsFileName close (c :: name)) :
    IsFileName close name where
  no_feed hmem := h.no_feed (List.mem_cons_of_mem c hmem)
  no_close hmem := h.no_close (List.mem_cons_of_mem c hmem)
  no_block hinfix := h.no_block (List.infix_cons hinfix)
  no_line hinfix := h.no_line (List.infix_cons hinfix)

/-- In a file name with its delimiter no slash is in front of a slash or a star. -/
theorem IsFileName.opens {close c : Char} {name : List Char} (h : IsFileName close (c :: name))
    (hclose : close = '>' ∨ close = '"') :
    opensBlock (c :: (name ++ close :: rest)) = false ∧
      opensLine (c :: (name ++ close :: rest)) = false := by
  by_cases hslash : c = '/'
  · subst hslash
    cases name with
    | nil => rcases hclose with rfl | rfl <;> exact ⟨rfl, rfl⟩
    | cons d name =>
      have hblock : d ≠ '*' := by
        rintro rfl
        exact h.no_block ⟨[], name, rfl⟩
      have hline : d ≠ '/' := by
        rintro rfl
        exact h.no_line ⟨[], name, rfl⟩
      simp [opensBlock, opensLine, hblock, hline]
  · exact opens_of_ne hslash _

theorem IsFileName.ne_feed {close : Char} {name more : List Char} (h : IsFileName close name)
    (hclose : close = '>' ∨ close = '"') : name ++ close :: rest ≠ '\n' :: more := by
  intro heq
  cases name with
  | nil =>
    obtain ⟨rfl, -⟩ := List.cons.inj heq
    simp at hclose
  | cons c name =>
    obtain ⟨rfl, -⟩ := List.cons.inj heq
    exact h.no_feed List.mem_cons_self

/-- A character of a file name is one unit: with what follows it makes neither a comment nor a line
end behind a backslash.  The delimiter is no carriage return, so the line feed would have to be in
the name. -/
theorem IsFileName.lineUnit_cons {close c : Char} {name : List Char}
    (h : IsFileName close (c :: name)) (hclose : close = '>' ∨ close = '"') :
    lineUnit (c :: (name ++ close :: rest)) = 1 := by
  have hunit : lineUnit (c :: (name ++ close :: rest)) =
      max 1 (commentLength (c :: (name ++ close :: rest))) := by
    refine lineUnit.eq_5 _ (List.cons_ne_nil _ _) ?_ ?_ ?_
    · intro more heq
      exact h.ne_feed hclose heq
    · intro more heq
      exact h.tail.ne_feed hclose (List.cons.inj heq).2
    · intro more heq
      obtain ⟨-, heq⟩ := List.cons.inj heq
      cases name with
      | nil =>
        obtain ⟨rfl, -⟩ := List.cons.inj heq
        simp at hclose
      | cons d name => exact h.tail.tail.ne_feed hclose (List.cons.inj heq).2
  obtain ⟨hblock, hline⟩ := @IsFileName.opens rest _ _ _ h hclose
  simp [hunit, commentLength, hblock, hline]

/-- A file name is read character by character, and so is the delimiter at its end. -/
theorem IsFileName.extent {close : Char} {name : List Char} (h : IsFileName close name)
    (hclose : close = '>' ∨ close = '"') :
    extent lineUnit (name ++ close :: rest) = name.length + 1 + extent lineUnit rest := by
  induction name with
  | nil =>
    have hunit : lineUnit (close :: rest) = 1 := by
      rcases hclose with rfl | rfl
      · rfl
      · rfl
    rw [List.nil_append, extent_cons hunit, List.length_nil, Nat.add_comm, Nat.zero_add]
  | cons c name ih =>
    rw [List.cons_append, extent_cons (h.lineUnit_cons hclose), ih h.tail, List.length_cons,
      Nat.add_right_comm]

theorem angled_append (name : String) (rest : List Char) :
    (Argument.angled name).text.toList ++ rest = '<' :: (name.toList ++ '>' :: rest) := by
  simp [Argument.text]

theorem quoted_append (name : String) (rest : List Char) :
    (Argument.quoted name).text.toList ++ rest = '"' :: (name.toList ++ '"' :: rest) := by
  simp [Argument.text]

/-- An argument is read character by character. -/
theorem Argument.IsPlain.extent {x : Argument} (h : x.IsPlain) :
    Text.extent lineUnit (x.text.toList ++ rest) =
      x.text.toList.length + Text.extent lineUnit rest := by
  cases h with
  | word hword => exact extent_word (isWordPart_of_isIdentifier hword)
  | @angled name hname =>
    have hopen : lineUnit ('<' :: (name.toList ++ '>' :: rest)) = 1 := rfl
    have hlength : (Argument.angled name).text.toList.length = name.toList.length + 1 + 1 := by
      simp [Argument.text]
    rw [angled_append, extent_cons hopen, hname.extent (.inl rfl), hlength, Nat.add_right_comm]
  | @quoted name hname =>
    have hopen : lineUnit ('"' :: (name.toList ++ '"' :: rest)) = 1 := rfl
    have hlength : (Argument.quoted name).text.toList.length = name.toList.length + 1 + 1 := by
      simp [Argument.text]
    rw [quoted_append, extent_cons hopen, hname.extent (.inr rfl), hlength, Nat.add_right_comm]

theorem IsFileName.splitAt? {close : Char} {name : List Char} (h : IsFileName close name) :
    splitAt? close (name ++ close :: rest) = some (name, rest) := by
  have hname : ∀ c ∈ name, (c != close) = true := by
    intro c hc
    rw [bne_iff_ne]
    rintro rfl
    exact h.no_close hc
  rw [Directive.splitAt?, List.dropWhile_append_of_pos hname, List.takeWhile_append_of_pos hname]
  simp

/-- A word is cut off where it ends. -/
theorem cut_word {word : String} (h : IsIdentifier word) (hrest : WordEnds rest) :
    (word.toList ++ rest).takeWhile isWordPart = word.toList ∧
      (word.toList ++ rest).dropWhile isWordPart = rest := by
  have hparts := isWordPart_of_isIdentifier h
  have htake := takeWhile_append_of_stops hparts hrest
  have hwhole := @List.takeWhile_append_dropWhile _ isWordPart (word.toList ++ rest)
  rw [htake] at hwhole
  exact ⟨htake, List.append_cancel_left hwhole⟩

/-- An argument is read up to its end. -/
theorem Argument.IsPlain.readArgument {x : Argument} (h : x.IsPlain) (hrest : WordEnds rest) :
    readArgument (x.text.toList ++ rest) = (some x, rest) := by
  cases h with
  | @word text hword =>
    obtain ⟨htake, hdrop⟩ := cut_word hword hrest
    obtain ⟨c, cs, heq, hc, _⟩ := hword
    have hpart := Token.isWordPart_of_isWordStart hc
    have hword : (Argument.word text).text.toList ++ rest = c :: (cs ++ rest) := by
      rw [Argument.text, heq, List.cons_append]
    rw [heq, List.cons_append] at htake hdrop
    rw [hword, Directive.readArgument, if_pos hpart, htake, hdrop, ← heq, String.ofList_toList]
  | @angled name hname =>
    have hpart : ¬ isWordPart '<' = true := by decide
    rw [angled_append, Directive.readArgument, if_neg hpart, if_pos rfl, hname.splitAt?]
    simp
  | @quoted name hname =>
    have hpart : ¬ isWordPart '"' = true := by decide
    have hangle : ¬ '"' = '<' := by decide
    rw [quoted_append, Directive.readArgument, if_neg hpart, if_neg hangle, if_pos rfl,
      hname.splitAt?]
    simp

/-! ### What the parts begin with -/

theorem skipSpacing_of_eq_zero (h : spacingUnit rest = 0) : skipSpacing rest = rest := by
  rw [skipSpacing, dropUnits, extent_of_eq_zero h, List.drop_zero]

/-- No spacing is in front of a word. -/
theorem skipSpacing_word {word : String} (h : IsIdentifier word) :
    skipSpacing (word.toList ++ rest) = word.toList ++ rest := by
  obtain ⟨c, cs, heq, hc, _⟩ := h
  have hpart := Token.isWordPart_of_isWordStart hc
  have hblank : isBlank c = false := by
    cases hb : isBlank c with
    | false => rfl
    | true =>
      rw [isWordPart_of_isBlank hb] at hpart
      cases hpart
  obtain ⟨_, hback, hslash⟩ := ne_of_isWordPart hpart
  obtain ⟨hblock, hline⟩ := opens_of_ne hslash (cs ++ rest)
  refine skipSpacing_of_eq_zero ?_
  simp [heq, spacingUnit, commentLength, hback, hblank, hblock, hline]

/-- No spacing is in front of an argument. -/
theorem Argument.IsPlain.skipSpacing {x : Argument} (h : x.IsPlain) :
    skipSpacing (x.text.toList ++ rest) = x.text.toList ++ rest := by
  cases h with
  | word hword => exact skipSpacing_word hword
  | angled _ =>
    rw [angled_append]
    exact skipSpacing_of_eq_zero rfl
  | quoted _ =>
    rw [quoted_append]
    exact skipSpacing_of_eq_zero rfl

/-- A word ends in front of a file name. -/
theorem Argument.IsPlain.wordEnds {x : Argument} (h : x.IsPlain) (hx : ∀ word, x ≠ .word word) :
    WordEnds (x.text.toList ++ rest) := by
  cases h with
  | word _ => exact absurd rfl (hx _)
  | angled _ =>
    rw [angled_append]
    exact wordEnds_cons rfl _
  | quoted _ =>
    rw [quoted_append]
    exact wordEnds_cons rfl _

/-! ## Lines -/

/-- A directive line with a name and an argument. -/
structure SpacedLine where
  name : String
  argument : Argument
  /-- What stands in front of the number sign. -/
  lead : List Char
  /-- What stands between the number sign and the name. -/
  behindSign : List Char
  /-- What stands between the name and the argument. -/
  behindName : List Char
  /-- What stands between the argument and the end of the line. -/
  behindArgument : List Char
  /-- The line comment at the end, if there is one. -/
  note : List Char
  name_isIdentifier : IsIdentifier name
  argument_isPlain : argument.IsPlain
  lead_madeOf : MadeOf IsLead lead
  behindSign_madeOf : MadeOf IsSpace behindSign
  behindName_madeOf : MadeOf IsSpace behindName
  behindArgument_madeOf : MadeOf IsSpace behindArgument
  /-- The name would go on into a word. -/
  behindName_ne : ∀ word, argument = .word word → behindName ≠ []
  note_eq : note = [] ∨ ∃ text, note = '/' :: '/' :: text ∧ '\n' ∉ text

namespace SpacedLine

variable (l : SpacedLine)

/-- The text behind the number sign. -/
def inside : List Char :=
  l.behindSign ++ (l.name.toList ++ (l.behindName ++ (l.argument.text.toList ++
    (l.behindArgument ++ l.note))))

/-- The line as it is written, with what stands in front of it and the line feed at its end. -/
def written : List Char := l.lead ++ '#' :: l.inside ++ ['\n']

/-- The line as it is read. -/
def line : Line := ⟨l.name, some l.argument, ""⟩

/-! ### Where it ends -/

theorem note_feed : '\n' ∉ l.note := by
  rcases l.note_eq with hnil | ⟨text, hnote, hfeed⟩
  · rw [hnil]
    exact List.not_mem_nil
  · rw [hnote]
    simp [hfeed]

theorem extent_note (rest : List Char) :
    extent lineUnit (l.note ++ '\n' :: rest) = l.note.length := by
  have hend : extent lineUnit ('\n' :: rest) = 0 := extent_of_eq_zero rfl
  have hlength := lineLength_append l.note_feed (.inr ⟨rest, rfl⟩)
  rcases l.note_eq with hnil | ⟨text, hnote, _⟩
  · rw [hnil, List.nil_append, hend, List.length_nil]
  · have hne : l.note ≠ [] := by
      rw [hnote]
      exact List.cons_ne_nil _ _
    have hopens : opensLine (l.note ++ '\n' :: rest) = true := by
      rw [hnote]
      rfl
    have hunit := OnePass.lineUnit_of_line hopens
    rw [hlength] at hunit
    rw [extent_of_unit hne hunit, hend, Nat.add_zero]

/-- The line goes on up to the line feed at its end. -/
theorem extent_inside (rest : List Char) :
    extent lineUnit (l.inside ++ '\n' :: rest) = l.inside.length := by
  have hspace := fun piece (h : IsSpace piece) => h.isUnitOf.1
  have hname := isWordPart_of_isIdentifier l.name_isIdentifier
  simp only [inside, List.append_assoc, List.length_append, l.behindSign_madeOf.extent hspace,
    extent_word hname, l.behindName_madeOf.extent hspace, l.argument_isPlain.extent,
    l.behindArgument_madeOf.extent hspace, l.extent_note]

/-! ### What is on it -/

theorem skipSpacing_note : skipSpacing l.note = [] := by
  rcases l.note_eq with hnil | ⟨text, hnote, _⟩
  · rw [hnil, skipSpacing, dropUnits, List.drop_nil]
  · have hne : l.note ≠ [] := by
      rw [hnote]
      exact List.cons_ne_nil _ _
    have hunit : spacingUnit (l.note ++ []) = l.note.length := by
      rw [hnote, List.append_nil]
      rfl
    have hextent := extent_of_unit hne hunit
    rw [List.append_nil, extent_nil, Nat.add_zero] at hextent
    rw [skipSpacing, dropUnits, hextent, List.drop_length]

theorem wordEnds_note : WordEnds l.note := by
  rcases l.note_eq with hnil | ⟨text, hnote, _⟩
  · rw [hnil]
    intro c hc
    cases hc
  · rw [hnote]
    exact wordEnds_cons rfl _

/-- What stands between the parts makes no difference to them. -/
theorem ofText_inside : Line.ofText l.inside = l.line := by
  have hspace := fun piece (h : IsSpace piece) => h.isUnitOf.2
  have hends : WordEnds (l.behindArgument ++ l.note) :=
    l.behindArgument_madeOf.wordEnds fun _ => l.wordEnds_note
  have hnameEnds : WordEnds
      (l.behindName ++ (l.argument.text.toList ++ (l.behindArgument ++ l.note))) := by
    refine l.behindName_madeOf.wordEnds ?_
    intro hnil
    refine l.argument_isPlain.wordEnds ?_
    intro word hword
    exact l.behindName_ne word hword hnil
  obtain ⟨htake, hdrop⟩ := cut_word l.name_isIdentifier hnameEnds
  have hname : skipSpacing l.inside = l.name.toList ++ (l.behindName ++
      (l.argument.text.toList ++ (l.behindArgument ++ l.note))) := by
    rw [inside, skipSpacing, l.behindSign_madeOf.dropUnits hspace]
    exact skipSpacing_word l.name_isIdentifier
  have hargument : skipSpacing (l.behindName ++
      (l.argument.text.toList ++ (l.behindArgument ++ l.note))) =
        l.argument.text.toList ++ (l.behindArgument ++ l.note) := by
    rw [skipSpacing, l.behindName_madeOf.dropUnits hspace]
    exact l.argument_isPlain.skipSpacing
  have hrest : skipSpacing (l.behindArgument ++ l.note) = [] := by
    rw [skipSpacing, l.behindArgument_madeOf.dropUnits hspace]
    exact l.skipSpacing_note
  rw [Line.ofText, hname, htake, hdrop, hargument, l.argument_isPlain.readArgument hends]
  dsimp only
  rw [hrest, String.ofList_toList]
  rfl

/-! ### Reading it -/

/-- Wherever the line is written, it is read as one segment, up to the line feed at its end. -/
theorem read_eq (p : Position) (rest : List Char) :
    ∃ shorter, Segment.read ⟨l.written ++ rest, p⟩ = .ok (.segment
      ⟨.line l.line, p.advance l.lead⟩ ⟨rest, p.advance l.written⟩ shorter) := by
  have hwritten : l.written ++ rest = l.lead ++ '#' :: (l.inside ++ '\n' :: rest) := by
    simp [written]
  have hlead : extent layoutUnit (l.written ++ rest) = l.lead.length := by
    have hhash : extent layoutUnit ('#' :: (l.inside ++ '\n' :: rest)) = 0 :=
      extent_of_eq_zero rfl
    rw [hwritten, l.lead_madeOf.extent (fun piece h => h.isUnitOf.1), hhash, Nat.add_zero]
  have hskip : Segment.skipLayout ⟨l.written ++ rest, p⟩ =
      ⟨'#' :: (l.inside ++ '\n' :: rest), p.advance l.lead⟩ := by
    rw [Segment.skipLayout, hlead, hwritten, Cursor.move, List.drop_left, List.take_left]
  obtain ⟨shorter, hread⟩ := Segment.read_line (congrArg Cursor.rest hskip) (l.extent_inside rest)
  have hplace : (p.advance l.lead).advance ('#' :: l.inside ++ ['\n']) = p.advance l.written := by
    rw [← Position.advance_append, written, List.append_assoc]
  simp only [hskip, l.ofText_inside, hplace] at hread
  exact ⟨shorter, hread⟩

end SpacedLine

/-! ## Lines behind lines -/

namespace Segment

variable {source : String} {front : List Char}

/-- A directive line of the source ends with the line feed at the end of this front part. -/
def EndsLine (source : String) (front : List Char) : Prop :=
  ∃ lead line rest parts, front = lead ++ '#' :: line ++ ['\n'] ∧
    source.toList = front ++ rest ∧ extent lineUnit (line ++ '\n' :: rest) = line.length ∧
    ⟨.line parts, Position.start.advance lead⟩ ∈ (scanText source).items

/-- Reading goes on behind the line feed of a directive line.  What was read begins at the place of
the line, so it is the line. -/
theorem exists_reached (hfront : front = [] ∨ EndsLine source front)
    (hsource : source.toList = front ++ rest) :
    ∃ taken, Reached source ⟨rest, Position.start.advance front⟩ ∧
      scanText source = scanFrom taken ⟨rest, Position.start.advance front⟩ := by
  rcases hfront with rfl | ⟨lead, line, rest', parts, rfl, hrest, hextent, hmem⟩
  · have hstart : Cursor.ofText source = ⟨rest, Position.start⟩ := by
      rw [Cursor.ofText, hsource]
      rfl
    refine ⟨[], ?_, ?_⟩
    · exact hstart ▸ .start
    · rw [scanText, hstart]
      rfl
  · obtain rfl := List.append_cancel_left (hrest.symm.trans hsource)
    obtain ⟨before, d, behind, shorter, hd, hscan, hread⟩ :=
      (exists_read_of_mem .start hmem).resolve_left List.not_mem_nil
    obtain ⟨front, htext, hplace⟩ : (skipLayout d).In source := hd.cursor_in.move _
    have hwhole : lead ++ '#' :: (line ++ '\n' :: rest') = front ++ (skipLayout d).rest := by
      rw [← htext, hsource]
      simp
    have hposition := position_of_read hread
    obtain rfl := Position.eq_of_advance_eq hwhole (hposition.trans hplace)
    have hhash := (List.append_cancel_left hwhole).symm
    obtain ⟨_, hline⟩ := read_line hhash hextent
    rw [hread, ← hposition, ← Position.advance_append, ← List.append_assoc] at hline
    cases hline
    refine ⟨⟨.line (.ofText line), Position.start.advance lead⟩ :: before, hd.segment hread, ?_⟩
    rw [scanText, hscan, scanFrom, hread]

end Segment

namespace SpacedLine

variable (l : SpacedLine) {source : String} {front : List Char}

/-- Behind the line another may stand, and it is read in the same way. -/
theorem endsLine (hsource : source.toList = front ++ (l.written ++ rest))
    (hfront : front = [] ∨ Segment.EndsLine source front) :
    Segment.EndsLine source (front ++ l.written) := by
  obtain ⟨taken, _, hscan⟩ := Segment.exists_reached hfront hsource
  obtain ⟨_, hread⟩ := l.read_eq (Position.start.advance front) rest
  refine ⟨front ++ l.lead, l.inside, rest, l.line, ?_, ?_, l.extent_inside rest, ?_⟩
  · simp [written]
  · rw [hsource, List.append_assoc]
  · rw [hscan, Segment.scanFrom, hread, Position.advance_append]
    exact Segment.mem_scanFrom List.mem_cons_self _

/-- The segments of lines that stand one behind the other. -/
def segments (p : Position) : List SpacedLine → List Segment
  | [] => []
  | l :: ls => ⟨.line l.line, p.advance l.lead⟩ :: segments (p.advance l.written) ls

/-- Lines are read one by one, and reading goes on behind the last of them. -/
theorem scanFrom_written (ls : List SpacedLine) (taken : List Segment) (p : Position) :
    Segment.scanFrom taken ⟨ls.flatMap written ++ rest, p⟩ =
      Segment.scanFrom ((segments p ls).reverse ++ taken)
        ⟨rest, p.advance (ls.flatMap written)⟩ := by
  induction ls generalizing taken p with
  | nil => rfl
  | cons l ls ih =>
    obtain ⟨_, hread⟩ := l.read_eq p (ls.flatMap written ++ rest)
    rw [List.flatMap_cons, List.append_assoc, Segment.scanFrom, hread]
    dsimp only
    rw [ih, Position.advance_append, segments, List.reverse_cons, List.append_assoc,
      List.singleton_append]

/-- At the beginning of a source and behind a directive line, the line is read as one segment with
its name and its argument.  It stands at its number sign, and reading goes on behind the line feed
at its end. -/
theorem reads_line (hsource : source.toList = front ++ (l.written ++ rest))
    (hfront : front = [] ∨ Segment.EndsLine source front) :
    ∃ taken shorter,
      Segment.Reached source ⟨l.written ++ rest, Position.start.advance front⟩ ∧
      Segment.read ⟨l.written ++ rest, Position.start.advance front⟩ = .ok (.segment
        ⟨.line ⟨l.name, some l.argument, ""⟩, Position.start.advance (front ++ l.lead)⟩
        ⟨rest, Position.start.advance (front ++ l.written)⟩ shorter) ∧
      Segment.scanText source = Segment.scanFrom
        (⟨.line ⟨l.name, some l.argument, ""⟩, Position.start.advance (front ++ l.lead)⟩ :: taken)
        ⟨rest, Position.start.advance (front ++ l.written)⟩ := by
  obtain ⟨taken, hreached, hscan⟩ := Segment.exists_reached hfront hsource
  obtain ⟨shorter, hread⟩ := l.read_eq (Position.start.advance front) rest
  rw [← Position.advance_append, ← Position.advance_append] at hread
  refine ⟨taken, shorter, hreached, hread, ?_⟩
  rw [hscan, Segment.scanFrom, hread]
  rfl

end SpacedLine

/-- A line with comments and line ends between all of its parts. -/
def SpacedLine.define : SpacedLine where
  name := "define"
  argument := .word "A"
  lead := ['\t'] ++ (['/', '*', '#', '*', '/'] ++ [])
  behindSign := ['\\', '\r', '\n'] ++ []
  behindName := ['/', '*', '\n', '"', '*', '/'] ++ []
  behindArgument := ['\\', '\n'] ++ (['\r'] ++ [])
  note := ['/', '/', '#', '"', '\\']
  name_isIdentifier := ⟨'d', ['e', 'f', 'i', 'n', 'e'], rfl, rfl, List.all_eq_true.mp rfl⟩
  argument_isPlain := .word ⟨'A', [], rfl, rfl, List.forall_mem_nil _⟩
  lead_madeOf := .cons (.blank rfl) (.cons (.comment (isBlockComment_iff.mpr rfl)) .nil)
  behindSign_madeOf := .cons .returnFeed .nil
  behindName_madeOf := .cons (.lead (.comment (isBlockComment_iff.mpr rfl))) .nil
  behindArgument_madeOf := .cons .feed (.cons (.lead (.blank rfl)) .nil)
  behindName_ne _ _ := List.cons_ne_nil _ _
  note_eq := .inr ⟨['#', '"', '\\'], rfl, by decide⟩

example : String.ofList SpacedLine.define.written =
    "\t/*#*/#\\\r\ndefine/*\n\"*/A\\\n\r//#\"\\\n" := rfl

theorem SpacedLine.reads_line_define :
    ∃ taken shorter,
      Segment.Reached (String.ofList (SpacedLine.define.written ++
        (SpacedLine.define.written ++ ['i', 'n', 't'])))
        ⟨SpacedLine.define.written ++ ['i', 'n', 't'], ⟨32, 5, 1⟩⟩ ∧
      Segment.read ⟨SpacedLine.define.written ++ ['i', 'n', 't'], ⟨32, 5, 1⟩⟩ = .ok (.segment
        ⟨.line ⟨"define", some (.word "A"), ""⟩, ⟨38, 5, 7⟩⟩ ⟨['i', 'n', 't'], ⟨64, 9, 1⟩⟩
        shorter) ∧
      Segment.scanText (String.ofList (SpacedLine.define.written ++
        (SpacedLine.define.written ++ ['i', 'n', 't']))) =
        Segment.scanFrom (⟨.line ⟨"define", some (.word "A"), ""⟩, ⟨38, 5, 7⟩⟩ :: taken)
          ⟨['i', 'n', 't'], ⟨64, 9, 1⟩⟩ := by
  have hsource : (String.ofList (SpacedLine.define.written ++
      (SpacedLine.define.written ++ ['i', 'n', 't']))).toList =
        [] ++ (SpacedLine.define.written ++ (SpacedLine.define.written ++ ['i', 'n', 't'])) :=
    String.toList_ofList
  have hends := SpacedLine.define.endsLine hsource (.inl rfl)
  exact SpacedLine.define.reads_line (hsource.trans (List.append_assoc _ _ _).symm) (.inr hends)

end EngineHeader.Directive
