import EngineHeader.Proofs.Token.Spelling

/-!
# Where a token ends

A lexeme is as long as it can be, so what stands behind it has a say in where it ends.
`IsLexeme kind lexeme behind` says that in front of `behind` the characters `lexeme` are a
lexeme of a kind.  It is what the lexer finds there (`IsLexeme.scan_eq`, `isLexeme_of_scan`).

Only the next character matters, and a line feed ends every lexeme (`IsLexeme.endsLike`).  So
a lexeme stays one if the text is cut behind it, and if a line is added to the text.  A line
feed at the end of a text changes nothing at all, not even an error (`scan_append_feed`).
-/

namespace EngineHeader.Token

open Text
open Directive (IsIdentifier)

variable {p : Char → Bool} {lexeme behind other text : List Char} {kind : Kind} {n : Nat}

/-- A text is the run at its head and what the run stops at. -/
theorem exists_run (p : Char → Bool) (text : List Char) :
    ∃ run behind, text = run ++ behind ∧ (text.takeWhile p).length = run.length ∧
      (∀ c ∈ run, p c = true) ∧ Stops p behind :=
  ⟨text.takeWhile p, text.dropWhile p, List.takeWhile_append_dropWhile.symm, rfl,
    fun _ hc => List.mem_takeWhile_imp hc, stops_dropWhile p text⟩

/-! ## Numbers -/

/-- In front of `behind` stands a number without a sign. -/
inductive IsNumber : List Char → List Char → Prop where
  | decimal {digits behind : List Char} : digits ≠ [] → (∀ c ∈ digits, c.isDigit = true) →
    Stops Char.isDigit behind → (digits = ['0'] → Stops isHexMark behind) →
    IsNumber digits behind
  | hexadecimal {mark : Char} {digits behind : List Char} : isHexMark mark = true →
    digits ≠ [] → (∀ c ∈ digits, isHexDigit c = true) → Stops isHexDigit behind →
    IsNumber ('0' :: mark :: digits) behind

theorem isHexMark_of_isDigit {c : Char} (h : c.isDigit = true) : isHexMark c = false := by
  cases hmark : isHexMark c with
  | false => rfl
  | true =>
    rcases (by simpa [isHexMark] using hmark : c = 'x' ∨ c = 'X') with rfl | rfl
    · cases h
    · cases h

/-- A number is found in its full length.  Only behind a single zero could a mark make it
hexadecimal. -/
theorem IsNumber.numberLength_eq (h : IsNumber text behind) :
    numberLength (text ++ behind) = .ok text.length := by
  cases h with
  | decimal hne hdigits hstop hzero =>
    have hlength : ((text ++ behind).takeWhile Char.isDigit).length = text.length := by
      rw [takeWhile_append_of_stops hdigits hstop]
    unfold numberLength
    split
    · next mark rest heq =>
      have hmark : isHexMark mark = false := by
        cases text with
        | nil => exact absurd rfl hne
        | cons c text =>
          obtain ⟨rfl, hrest⟩ := List.cons.inj heq
          cases text with
          | nil =>
            replace hrest : behind = mark :: rest := hrest
            exact hzero rfl mark (by rw [hrest]; rfl)
          | cons d text =>
            obtain ⟨rfl, -⟩ := List.cons.inj hrest
            exact isHexMark_of_isDigit (hdigits _ (by simp))
      rw [hmark, if_neg Bool.false_ne_true, ← heq, hlength]
    · rw [hlength]
  | hexadecimal hmark hne hdigits hstop =>
    next mark digits =>
    have hlength : digits.length ≠ 0 := by simpa using hne
    rw [List.cons_append, List.cons_append, numberLength, if_pos hmark,
      takeWhile_append_of_stops hdigits hstop]
    dsimp only
    rw [if_neg hlength, List.length_cons, List.length_cons, Nat.add_comm]

theorem isNumber_of_numberLength (hd : startsWithDigit text = true)
    (h : numberLength text = .ok n) :
    ∃ number behind, text = number ++ behind ∧ n = number.length ∧ IsNumber number behind := by
  have hdecimal (hn : n = (text.takeWhile Char.isDigit).length)
      (hzero : ∀ mark rest, text = '0' :: mark :: rest → isHexMark mark = false) :
      ∃ number behind, text = number ++ behind ∧ n = number.length ∧ IsNumber number behind := by
    obtain ⟨digits, behind, rfl, hlength, hdigits, hstop⟩ := exists_run Char.isDigit text
    refine ⟨digits, behind, rfl, hn.trans hlength, .decimal ?_ hdigits hstop ?_⟩
    · rintro rfl
      cases behind with
      | nil => cases hd
      | cons c behind =>
        have hc : c.isDigit = false := hstop c rfl
        replace hd : c.isDigit = true := hd
        rw [hc] at hd
        cases hd
    · rintro rfl mark hmark
      cases behind with
      | nil => cases hmark
      | cons x behind =>
        cases hmark
        exact hzero mark behind rfl
  unfold numberLength at h
  split at h
  · next mark rest =>
    split at h
    · next hmark =>
      dsimp only at h
      split at h
      · cases h
      · next hne =>
        cases h
        obtain ⟨digits, behind, rfl, hlength, hdigits, hstop⟩ := exists_run isHexDigit rest
        rw [hlength] at hne ⊢
        refine ⟨'0' :: mark :: digits, behind, rfl, Nat.add_comm _ _, ?_⟩
        exact .hexadecimal hmark (by simpa using hne) hdigits hstop
    · next hmark =>
      cases h
      refine hdecimal rfl ?_
      rintro _ _ ⟨⟩
      simpa using hmark
  · next hother =>
    cases h
    exact hdecimal rfl fun mark rest heq => absurd heq (hother mark rest)

/-! ## Lexemes -/

/-- In front of `behind` stands a lexeme of a kind: it is as long as it can be there. -/
inductive IsLexeme : Kind → List Char → List Char → Prop where
  | lineComment {text behind : List Char} : opensLine text = true → '\n' ∉ text →
    Stops (· != '\n') behind → IsLexeme .comment text behind
  | blockComment {text behind : List Char} : blockComment? text = some text.length →
    IsLexeme .comment text behind
  | word {word : String} {behind : List Char} : IsIdentifier word → Stops isWordPart behind →
    IsLexeme (.ofWord word) word.toList behind
  | ellipsis {behind : List Char} : IsLexeme .ellipsis ['.', '.', '.'] behind
  | integer {sign number behind : List Char} : (∀ c ∈ sign, isSign c = true) → sign.length ≤ 1 →
    IsNumber number behind → IsLexeme .integer (sign ++ number) behind
  | mark {c : Char} {kind : Kind} {behind : List Char} : punctuation? c = some kind →
    IsLexeme kind [c] behind

theorem IsNumber.startsWithDigit (h : IsNumber text behind) (other : List Char) :
    startsWithDigit (text ++ other) = true := by
  cases h with
  | decimal hne hdigits _ _ =>
    obtain ⟨c, rest, rfl⟩ := List.exists_cons_of_ne_nil hne
    exact hdigits c List.mem_cons_self
  | hexadecimal => rfl

theorem eq_of_isSign {c : Char} (h : isSign c = true) : c = '-' ∨ c = '+' := by
  simpa [isSign] using h

theorem isWordStart_of_isDigit {c : Char} (h : c.isDigit = true) : isWordStart c = false := by
  rw [← Bool.not_eq_true]
  intro hstart
  rw [isDigit_of_isWordStart hstart] at h
  cases h

theorem signLength_append {sign rest : List Char} (hsign : ∀ c ∈ sign, isSign c = true)
    (hlength : sign.length ≤ 1) (hd : startsWithDigit rest = true) :
    signLength (sign ++ rest) = sign.length := by
  match sign, hlength with
  | [s], _ =>
    have hs : isSign s = true := hsign s List.mem_cons_self
    rw [List.singleton_append, signLength, if_pos hs, List.length_singleton]
  | [], _ =>
    cases rest with
    | nil => cases hd
    | cons d rest =>
      have hnot : ¬ isSign d = true := by
        intro hs
        rcases eq_of_isSign hs with rfl | rfl
        · cases hd
        · cases hd
      rw [List.nil_append, signLength, if_neg hnot, List.length_nil]

/-- A sign in front of a number only adds to its length. -/
theorem integerLength?_append {sign rest : List Char}
    (hsign : signLength (sign ++ rest) = sign.length) (hd : startsWithDigit rest = true) :
    integerLength? (sign ++ rest) =
      some (((numberLength rest).map (sign.length + ·)).mapError (sign.length + ·)) := by
  rw [integerLength?, hsign, List.drop_left]
  exact if_pos hd

theorem head_of_integer {sign rest : List Char} (hsign : ∀ c ∈ sign, isSign c = true)
    (hd : startsWithDigit rest = true) :
    ∃ c more, sign ++ rest = c :: more ∧ (isSign c = true ∨ c.isDigit = true) := by
  cases sign with
  | nil =>
    cases rest with
    | nil => cases hd
    | cons d rest => exact ⟨d, rest, rfl, .inr hd⟩
  | cons s sign => exact ⟨s, sign ++ rest, rfl, .inl (hsign s List.mem_cons_self)⟩

/-- Where a sign or a digit is in front, nothing but an integer can be. -/
theorem scan_integer (hc : ∃ c more, text = c :: more ∧ (isSign c = true ∨ c.isDigit = true))
    {found : Except Nat Nat} (h : integerLength? text = some found) :
    scan text = found.map (Kind.integer, ·) := by
  obtain ⟨c, rest, rfl, hc⟩ := hc
  have hother {x : Char} (hsign : isSign x = false) (hdigit : x.isDigit = false) : c ≠ x := by
    rintro rfl
    rw [hsign, hdigit] at hc
    exact hc.elim Bool.false_ne_true Bool.false_ne_true
  have hword : isWordStart c = false := by
    rcases hc with hc | hc
    · rcases eq_of_isSign hc with rfl | rfl
      · rfl
      · rfl
    · exact isWordStart_of_isDigit hc
  obtain ⟨hblock, hline⟩ := opens_of_ne (hother (x := '/') rfl rfl) rest
  have hdots : ['.', '.', '.'].isPrefixOf (c :: rest) = false := by
    rw [List.isPrefixOf, beq_eq_false_iff_ne.mpr (Ne.symm (hother rfl rfl)), Bool.false_and]
  rw [scan, List.head?_cons]
  dsimp only
  rw [hline, hblock, hword, hdots, h]
  cases found with
  | ok n => rfl
  | error n => rfl

theorem IsLexeme.scan_eq (h : IsLexeme kind lexeme behind) :
    scan (lexeme ++ behind) = .ok (kind, lexeme.length) := by
  cases h with
  | lineComment hl hfeed hstop =>
    obtain ⟨inside, rfl⟩ := eq_of_opensLine hl
    have hlength : lineLength ('/' :: '/' :: inside ++ behind) = ('/' :: '/' :: inside).length := by
      rw [lineLength, takeWhile_append_of_stops _ hstop]
      intro c hc
      simpa using fun heq : c = '\n' => hfeed (heq ▸ hc)
    have hopens : opensLine ('/' :: '/' :: inside ++ behind) = true := rfl
    rw [scan, hlength, List.cons_append, List.head?_cons]
    dsimp only
    rw [← List.cons_append, hopens, if_pos rfl]
  | blockComment hn =>
    have happend := blockComment_append hn behind
    obtain ⟨inside, _, rfl, _⟩ := exists_of_blockComment hn
    have hline : opensLine ('/' :: '*' :: inside ++ behind) = false := rfl
    have hblock : opensBlock ('/' :: '*' :: inside ++ behind) = true := rfl
    rw [scan, happend, List.cons_append, List.head?_cons]
    dsimp only
    rw [← List.cons_append, hline, hblock, if_neg Bool.false_ne_true, if_pos rfl]
  | word hw hstop => exact scan_word hw hstop
  | ellipsis => rfl
  | @integer sign number behind hsign hlength hnumber =>
    have hd := hnumber.startsWithDigit behind
    have hinteger := integerLength?_append (signLength_append hsign hlength hd) hd
    rw [hnumber.numberLength_eq] at hinteger
    rw [List.append_assoc, List.length_append, scan_integer (head_of_integer hsign hd) hinteger]
    rfl
  | mark hc => exact scan_mark hc behind

/-- A text is a sign, or none, and what stands behind it. -/
theorem exists_sign (text : List Char) :
    ∃ sign rest, text = sign ++ rest ∧ (∀ c ∈ sign, isSign c = true) ∧ sign.length ≤ 1 ∧
      signLength text = sign.length := by
  unfold signLength
  split
  · next c rest =>
    split
    · next hc => exact ⟨[c], rest, rfl, by simpa using hc, Nat.le_refl 1, rfl⟩
    · exact ⟨[], c :: rest, rfl, by simp, Nat.zero_le 1, rfl⟩
  · exact ⟨[], [], rfl, by simp, Nat.zero_le 1, rfl⟩

theorem isLexeme_of_integerLength? (h : integerLength? text = some (.ok n)) :
    ∃ lexeme behind, text = lexeme ++ behind ∧ n = lexeme.length ∧
      IsLexeme .integer lexeme behind := by
  obtain ⟨sign, rest, rfl, hsign, hlength, hdrop⟩ := exists_sign text
  have hd : startsWithDigit rest = true := by
    cases hd : startsWithDigit rest with
    | true => rfl
    | false =>
      rw [integerLength?, hdrop, List.drop_left, hd] at h
      cases h
  rw [integerLength?_append hdrop hd] at h
  cases hnumber : numberLength rest with
  | error k =>
    rw [hnumber] at h
    cases h
  | ok k =>
    rw [hnumber] at h
    cases h
    obtain ⟨number, behind, rfl, rfl, hnum⟩ := isNumber_of_numberLength hd hnumber
    exact ⟨sign ++ number, behind, (List.append_assoc _ _ _).symm, List.length_append.symm,
      .integer hsign hlength hnum⟩

theorem isLexeme_of_isWordStart {c : Char} (hc : isWordStart c = true) :
    ∃ lexeme behind, c :: text = lexeme ++ behind ∧ wordLength (c :: text) = lexeme.length ∧
      IsLexeme (.ofWord (String.ofList ((c :: text).take (wordLength (c :: text))))) lexeme
        behind := by
  obtain ⟨word, behind, heq, hlength, hword, hstop⟩ := exists_run isWordPart text
  have hpart := isWordPart_of_isWordStart hc
  have hwordLength : wordLength (c :: text) = (c :: word).length := by
    rw [wordLength, List.takeWhile_cons, hpart, if_pos rfl, List.length_cons, hlength,
      List.length_cons]
  have htake : (c :: text).take (wordLength (c :: text)) = c :: word := by
    rw [hwordLength, heq, ← List.cons_append, List.take_left]
  have hidentifier : IsIdentifier (String.ofList (c :: word)) :=
    ⟨c, word, String.toList_ofList, hc, hword⟩
  have hlexeme := IsLexeme.word hidentifier hstop
  rw [String.toList_ofList] at hlexeme
  rw [htake]
  exact ⟨c :: word, behind, by rw [heq, List.cons_append], hwordLength, hlexeme⟩

/-- What is read at the head of a text is a lexeme. -/
theorem isLexeme_of_scan (h : scan text = .ok (kind, n)) (hk : kind ≠ .endOfFile) :
    ∃ lexeme behind, text = lexeme ++ behind ∧ n = lexeme.length ∧ IsLexeme kind lexeme behind := by
  cases lexes_of_scan h with
  | endOfFile => exact absurd rfl hk
  | lineComment hl =>
    obtain ⟨hopens, hfeed⟩ := opensLine_take hl
    refine ⟨_, _, (List.take_append_drop (lineLength text) text).symm,
      (length_take_lineLength text).symm, .lineComment hopens hfeed ?_⟩
    intro c hc
    rcases drop_lineLength text with hend | ⟨rest, hend⟩
    · rw [hend] at hc
      cases hc
    · rw [hend] at hc
      cases hc
      rfl
  | blockComment hn =>
    exact ⟨_, _, (List.take_append_drop n text).symm, (length_take_blockComment hn).symm,
      .blockComment (blockComment_take hn)⟩
  | word hc => exact isLexeme_of_isWordStart hc
  | @ellipsis text => exact ⟨['.', '.', '.'], text, rfl, rfl, .ellipsis⟩
  | integer hn => exact isLexeme_of_integerLength? hn
  | @mark c text kind hmark => exact ⟨[c], text, rfl, rfl, .mark hmark⟩

/-! ## What may stand behind a lexeme -/

/-- `other` ends, or it goes on with a line feed or as `behind` does. -/
def EndsLike (behind other : List Char) : Prop := ∀ c ∈ other.head?, c = '\n' ∨ c ∈ behind.head?

theorem Stops.endsLike (h : Stops p behind) (hfeed : p '\n' = false)
    (ho : EndsLike behind other) : Stops p other := by
  intro c hc
  rcases ho c hc with rfl | hbehind
  · exact hfeed
  · exact h c hbehind

theorem IsNumber.endsLike (h : IsNumber text behind) (ho : EndsLike behind other) :
    IsNumber text other := by
  cases h with
  | decimal hne hdigits hstop hzero =>
    exact .decimal hne hdigits (hstop.endsLike rfl ho) fun heq => (hzero heq).endsLike rfl ho
  | hexadecimal hmark hne hdigits hstop =>
    exact .hexadecimal hmark hne hdigits (hstop.endsLike rfl ho)

/-- Only the next character matters for where a lexeme ends. -/
theorem IsLexeme.endsLike (h : IsLexeme kind lexeme behind) (ho : EndsLike behind other) :
    IsLexeme kind lexeme other := by
  cases h with
  | lineComment hl hfeed hstop => exact .lineComment hl hfeed (hstop.endsLike rfl ho)
  | blockComment hn => exact .blockComment hn
  | word hw hstop => exact .word hw (hstop.endsLike rfl ho)
  | ellipsis => exact .ellipsis
  | integer hsign hlength hnumber => exact .integer hsign hlength (hnumber.endsLike ho)
  | mark hc => exact .mark hc

/-! ## A line feed at the end -/

theorem takeWhile_append_feed (hp : p '\n' = false) (text : List Char) :
    (text ++ ['\n']).takeWhile p = text.takeWhile p := by
  induction text with
  | nil => rw [List.nil_append, List.takeWhile_cons, hp]; rfl
  | cons c text ih => rw [List.cons_append, List.takeWhile_cons, List.takeWhile_cons, ih]

theorem opens_append_feed (text : List Char) :
    opensBlock (text ++ ['\n']) = opensBlock text ∧
      opensLine (text ++ ['\n']) = opensLine text := by
  match text with
  | [] => exact ⟨rfl, rfl⟩
  | [c] =>
    constructor
    · simp [opensBlock]
    · simp [opensLine]
  | c :: d :: text =>
    constructor
    · by_cases h : c = '/' ∧ d = '*'
      · obtain ⟨rfl, rfl⟩ := h
        rfl
      · rw [opensBlock.eq_2, opensBlock.eq_2]
        all_goals
          rintro _ ⟨⟩
          exact h ⟨rfl, rfl⟩
    · by_cases h : c = '/' ∧ d = '/'
      · obtain ⟨rfl, rfl⟩ := h
        rfl
      · rw [opensLine.eq_2, opensLine.eq_2]
        all_goals
          rintro _ ⟨⟩
          exact h ⟨rfl, rfl⟩

theorem isPrefixOf_append_feed (text : List Char) :
    ['.', '.', '.'].isPrefixOf (text ++ ['\n']) = ['.', '.', '.'].isPrefixOf text := by
  match text with
  | [] => rfl
  | [a] => simp [List.isPrefixOf]
  | [a, b] => simp [List.isPrefixOf]
  | a :: b :: c :: text => simp [List.isPrefixOf]

theorem numberLength_append_feed (text : List Char) (hd : startsWithDigit text = true) :
    numberLength (text ++ ['\n']) = numberLength text := by
  match text with
  | [] => cases hd
  | [c] =>
    by_cases hc : c = '0'
    · subst hc
      rfl
    · rw [numberLength.eq_2, numberLength.eq_2, takeWhile_append_feed rfl]
      · rintro _ _ ⟨⟩
      · rintro mark rest heq
        cases heq
        exact hc rfl
  | c :: d :: text =>
    by_cases hc : c = '0'
    · subst hc
      have hwhole := takeWhile_append_feed (p := Char.isDigit) rfl ('0' :: d :: text)
      rw [List.cons_append, List.cons_append] at hwhole ⊢
      rw [numberLength, numberLength, takeWhile_append_feed rfl, hwhole]
    · rw [numberLength.eq_2, numberLength.eq_2, takeWhile_append_feed rfl]
      · rintro mark rest heq
        cases heq
        exact hc rfl
      · rintro mark rest heq
        cases heq
        exact hc rfl

theorem integerLength?_append_feed (text : List Char) :
    integerLength? (text ++ ['\n']) = integerLength? text := by
  have hsign : signLength (text ++ ['\n']) = signLength text ∧ signLength text ≤ text.length := by
    cases text with
    | nil => exact ⟨rfl, Nat.le_refl 0⟩
    | cons c text =>
      refine ⟨rfl, ?_⟩
      rw [signLength, List.length_cons]
      split
      · exact Nat.succ_le_succ (Nat.zero_le _)
      · exact Nat.zero_le _
  have hdrop : (text ++ ['\n']).drop (signLength text) = text.drop (signLength text) ++ ['\n'] :=
    List.drop_append_of_le_length hsign.2
  have hstart (rest : List Char) : startsWithDigit (rest ++ ['\n']) = startsWithDigit rest := by
    cases rest with
    | nil => rfl
    | cons c rest => rfl
  rw [integerLength?, integerLength?, hsign.1, hdrop, hstart]
  split
  · next hd => rw [numberLength_append_feed _ hd]
  · rfl

/-- A line feed behind a text makes no difference to the token in front. -/
theorem scan_append_feed (h : text ≠ []) : scan (text ++ ['\n']) = scan text := by
  obtain ⟨c, rest, rfl⟩ := List.exists_cons_of_ne_nil h
  obtain ⟨hblock, hline⟩ := opens_append_feed (c :: rest)
  have hcomment : opensBlock (c :: rest) = true →
      blockComment? (c :: rest ++ ['\n']) = blockComment? (c :: rest) := by
    intro ho
    cases hn : blockComment? (c :: rest) with
    | none => exact blockComment_append_feed ho hn
    | some n => exact blockComment_append hn _
  have hword : wordLength (c :: rest ++ ['\n']) = wordLength (c :: rest) := by
    rw [wordLength, wordLength, takeWhile_append_feed rfl]
  have hlineLength : lineLength (c :: rest ++ ['\n']) = lineLength (c :: rest) := by
    rw [lineLength, lineLength, takeWhile_append_feed rfl]
  have htake : (c :: rest ++ ['\n']).take (wordLength (c :: rest)) =
      (c :: rest).take (wordLength (c :: rest)) :=
    List.take_append_of_le_length (List.takeWhile_prefix _).length_le
  have hhead : (c :: rest ++ ['\n']).head? = (c :: rest).head? := rfl
  rw [scan, scan, hhead, hline, hblock, hword, hlineLength, htake, isPrefixOf_append_feed,
    integerLength?_append_feed]
  split
  · rfl
  · split
    · rfl
    split
    · next ho => rw [hcomment ho]
    · rfl

theorem numberLength_error_le (h : numberLength text = .error n) : n ≤ text.length := by
  unfold numberLength at h
  split at h
  · split at h
    · dsimp only at h
      split at h
      · cases h
        simp
      · cases h
    · cases h
  · cases h

theorem integerLength?_error_le (h : integerLength? text = some (.error n)) : n ≤ text.length := by
  rw [integerLength?] at h
  split at h
  · next hd =>
    cases hnumber : numberLength (text.drop (signLength text)) with
    | ok k =>
      rw [hnumber] at h
      cases h
    | error k =>
      rw [hnumber] at h
      cases h
      have hle := numberLength_error_le hnumber
      rw [List.length_drop] at hle
      have hsign : signLength text < text.length := by
        rw [← not_le, ← List.drop_eq_nil_iff]
        intro hnil
        rw [hnil] at hd
        cases hd
      show signLength text + k ≤ text.length
      omega
  · cases h

/-- What is not recognised is some of the text. -/
theorem scan_error_le (h : scan text = .error n) : n ≤ text.length := by
  cases text with
  | nil => cases h
  | cons c text =>
    have hone : 1 ≤ (c :: text).length := Nat.succ_le_succ (Nat.zero_le _)
    simp only [scan, List.head?_cons] at h
    split at h
    · cases h
    split at h
    · next hb =>
      split at h
      · cases h
      · cases h
        obtain ⟨inside, heq⟩ := eq_of_opensBlock hb
        rw [heq]
        exact Nat.le_add_left 2 inside.length
    split at h
    · cases h
    split at h
    · cases h
    split at h
    · cases h
    · next hn =>
      cases h
      exact integerLength?_error_le hn
    split at h
    · cases h
    · cases h
      exact hone

end EngineHeader.Token
