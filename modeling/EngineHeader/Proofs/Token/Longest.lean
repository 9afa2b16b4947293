import EngineHeader.Proofs.Token.Iteration

/-!
# The longest lexeme

Which texts are lexemes, and of which kind, can be said without a scanner (`Lexeme`).  The token at
the head of a text is then the longest lexeme that the text begins with (`Longest`).  There are two
ways to have none.  No front part of the text is a lexeme, or the text begins with the mark of a
hexadecimal number that has no digits (`BareMark`), which is not read as a zero and a word.

A lexeme is what the scanner finds in it if it is a text of its own (`Lexeme.isLexeme`).  So it has
one kind (`Lexeme.unique`), and if a longer one were there then the scanner would have to find both
(`IsLexeme.length_le`).

Lexemes that are written one behind the other with white space between them are `Written`.  A lexer
gives them back, and nothing else.
-/

namespace EngineHeader.Token

open Text
open Directive (IsIdentifier)

/-! ## Lexemes -/

/-- The characters that are lexemes, with their kinds. -/
def marks : List (Char × Kind) :=
  [('{', .leftBrace), ('}', .rightBrace), ('[', .leftBracket), (']', .rightBracket),
    ('(', .leftParen), (')', .rightParen), (';', .semicolon), (',', .comma), (':', .colon),
    ('*', .star), ('=', .equals)]

/-- A sign, or nothing. -/
def OptionalSign (sign : List Char) : Prop := sign = [] ∨ sign = ['-'] ∨ sign = ['+']

/-- The text is a lexeme of a kind. -/
inductive Lexeme : Kind → List Char → Prop where
  | lineComment {inside : List Char} : '\n' ∉ inside → Lexeme .comment ('/' :: '/' :: inside)
  | blockComment {text : List Char} : IsBlockComment text → Lexeme .comment text
  | keyword {word : String} {kind : Kind} : (word, kind) ∈ keywords → Lexeme kind word.toList
  | name {word : String} : IsName word → Lexeme .identifier word.toList
  | decimal {sign digits : List Char} : OptionalSign sign → digits ≠ [] →
    (∀ c ∈ digits, c.isDigit = true) → Lexeme .integer (sign ++ digits)
  | hexadecimal {sign digits : List Char} {mark : Char} : OptionalSign sign →
    isHexMark mark = true → digits ≠ [] → (∀ c ∈ digits, isHexDigit c = true) →
    Lexeme .integer (sign ++ '0' :: mark :: digits)
  | mark {c : Char} {kind : Kind} : (c, kind) ∈ marks → Lexeme kind [c]
  | ellipsis : Lexeme .ellipsis ['.', '.', '.']

/-- The text begins with the lexeme, and with no longer one. -/
structure Longest (kind : Kind) (lexeme text : List Char) : Prop where
  isLexeme : Lexeme kind lexeme
  begins : lexeme <+: text
  longest : ∀ {other : Kind} {longer : List Char}, Lexeme other longer → longer <+: text →
    longer.length ≤ lexeme.length

/-- The text begins with a zero and the mark of a hexadecimal number, perhaps behind a sign, and no
digit follows. -/
def BareMark (text : List Char) : Prop :=
  ∃ sign mark behind, OptionalSign sign ∧ isHexMark mark = true ∧ Stops isHexDigit behind ∧
    text = sign ++ '0' :: mark :: behind

variable {kind other : Kind} {lexeme longer behind text sign : List Char} {n : Nat}

/-! ## Characters and words of the tables -/

theorem punctuation?_eq_some_iff {c : Char} : punctuation? c = some kind ↔ (c, kind) ∈ marks := by
  constructor
  · intro h
    unfold punctuation? at h
    split at h
    case h_12 => cases h
    all_goals
      cases h
      simp [marks]
  · intro h
    have hmarks : ∀ entry ∈ marks, punctuation? entry.1 = some entry.2 := by decide
    exact hmarks _ h

theorem optionalSign_iff :
    OptionalSign sign ↔ (∀ c ∈ sign, isSign c = true) ∧ sign.length ≤ 1 := by
  constructor
  · rintro (rfl | rfl | rfl)
    · simp
    · simp [isSign]
    · simp [isSign]
  · rintro ⟨hsign, hlength⟩
    rcases List.eq_nil_or_concat' sign with rfl | ⟨front, c, rfl⟩
    · exact .inl rfl
    · have hfront : front = [] := by simpa using hlength
      obtain rfl := hfront
      rcases eq_of_isSign (hsign c List.mem_cons_self) with rfl | rfl
      · exact .inr (.inl rfl)
      · exact .inr (.inr rfl)

/-- A keyword is a word, and its kind is the one that is looked up. -/
theorem of_mem_keywords {word : String} (h : (word, kind) ∈ keywords) :
    IsIdentifier word ∧ Kind.ofWord word = kind := by
  simp only [keywords, List.mem_cons, Prod.mk.injEq, List.not_mem_nil, or_false] at h
  rcases h with ⟨rfl, rfl⟩ | ⟨rfl, rfl⟩ | ⟨rfl, rfl⟩ | ⟨rfl, rfl⟩
  · exact ⟨⟨'t', ['y', 'p', 'e', 'd', 'e', 'f'], rfl, rfl, by simp [isWordPart]⟩, rfl⟩
  · exact ⟨⟨'s', ['t', 'r', 'u', 'c', 't'], rfl, rfl, by simp [isWordPart]⟩, rfl⟩
  · exact ⟨⟨'e', ['n', 'u', 'm'], rfl, rfl, by simp [isWordPart]⟩, rfl⟩
  · exact ⟨⟨'c', ['o', 'n', 's', 't'], rfl, rfl, by simp [isWordPart]⟩, rfl⟩

/-- A word is a keyword or a name. -/
theorem lexeme_of_isIdentifier {word : String} (h : IsIdentifier word) :
    Lexeme (.ofWord word) word.toList := by
  by_cases hmem : word ∈ keywords.map Prod.fst
  · obtain ⟨⟨_, kind⟩, hentry, rfl⟩ := List.mem_map.mp hmem
    rw [(of_mem_keywords hentry).2]
    exact .keyword hentry
  · rw [ofWord_eq_identifier_iff.mpr hmem]
    exact .name ⟨h, hmem⟩

/-! ## Lexemes and the scanner -/

theorem stops_of_layout {p : Char → Bool}
    (hp : [' ', '\t', '\r', '\x0b', '\x0c', '\n'].any p = false)
    (hb : ∀ c ∈ behind.head?, isLayout c = true) : Stops p behind := by
  intro c hc
  rw [← Bool.not_eq_true]
  apply List.any_eq_false.mp hp
  simpa using eq_of_isLayout (hb c hc)

/-- A lexeme is found where nothing or white space is behind it.  Behind a line comment the white
space has to begin with a line feed. -/
theorem Lexeme.isLexeme (h : Lexeme kind lexeme) (hb : ∀ c ∈ behind.head?, isLayout c = true)
    (hfeed : opensLine lexeme = true → Stops (· != '\n') behind) :
    IsLexeme kind lexeme behind := by
  cases h with
  | lineComment hinside =>
    refine .lineComment rfl ?_ (hfeed rfl)
    simpa using hinside
  | blockComment hblock => exact .blockComment (isBlockComment_iff.mp hblock)
  | keyword hmem =>
    obtain ⟨hword, rfl⟩ := of_mem_keywords hmem
    exact .word hword (stops_of_layout rfl hb)
  | name hname =>
    rw [← hname.ofWord]
    exact .word hname.identifier (stops_of_layout rfl hb)
  | decimal hsign hne hdigits =>
    obtain ⟨hsigns, hlength⟩ := optionalSign_iff.mp hsign
    have hmark : Stops isHexMark behind := stops_of_layout rfl hb
    exact .integer hsigns hlength
      (.decimal hne hdigits (stops_of_layout rfl hb) fun _ => hmark)
  | hexadecimal hsign hmark hne hdigits =>
    obtain ⟨hsigns, hlength⟩ := optionalSign_iff.mp hsign
    exact .integer hsigns hlength
      (.hexadecimal hmark hne hdigits (stops_of_layout rfl hb))
  | mark hmem => exact .mark (punctuation?_eq_some_iff.mpr hmem)
  | ellipsis => exact .ellipsis

/-- What the scanner finds is a lexeme, whatever is behind it. -/
theorem lexeme_of_isLexeme (h : IsLexeme kind lexeme behind) : Lexeme kind lexeme := by
  cases h with
  | lineComment hopens hfeed _ =>
    obtain ⟨inside, rfl⟩ := eq_of_opensLine hopens
    apply Lexeme.lineComment
    intro hmem
    exact hfeed (List.mem_cons_of_mem _ (List.mem_cons_of_mem _ hmem))
  | blockComment hblock => exact .blockComment (isBlockComment_iff.mpr hblock)
  | word hword _ => exact lexeme_of_isIdentifier hword
  | ellipsis => exact .ellipsis
  | integer hsigns hlength hnumber =>
    have hsign := optionalSign_iff.mpr ⟨hsigns, hlength⟩
    cases hnumber with
    | decimal hne hdigits _ _ => exact .decimal hsign hne hdigits
    | hexadecimal hmark hne hdigits _ => exact .hexadecimal hsign hmark hne hdigits
  | mark hmark => exact .mark (punctuation?_eq_some_iff.mp hmark)

/-- A lexeme is found where nothing is behind it. -/
theorem Lexeme.alone (h : Lexeme kind lexeme) : IsLexeme kind lexeme [] := by
  apply h.isLexeme
  · intro c hc
    cases hc
  · intro _ c hc
    cases hc

/-- Alone, a lexeme is all that the scanner finds. -/
theorem Lexeme.scan_eq (h : Lexeme kind lexeme) : scan lexeme = .ok (kind, lexeme.length) := by
  have hscan := h.alone.scan_eq
  rwa [List.append_nil] at hscan

/-- A lexeme has one kind. -/
theorem Lexeme.unique (h : Lexeme kind lexeme) (ho : Lexeme other lexeme) : kind = other := by
  have heq := h.scan_eq.symm.trans ho.scan_eq
  simpa using heq

/-- No lexeme at the head of the text is longer than the one that the scanner finds.  Otherwise the
scanner would find the shorter one, and all of the longer one as well. -/
theorem IsLexeme.length_le (h : IsLexeme kind lexeme behind) (hl : Lexeme other longer)
    (hbegins : longer <+: lexeme ++ behind) : longer.length ≤ lexeme.length := by
  by_contra hlonger
  have hle : lexeme.length ≤ longer.length := by omega
  have hfront : lexeme <+: longer :=
    List.prefix_of_prefix_length_le (List.prefix_append lexeme behind) hbegins hle
  obtain ⟨more, rfl⟩ := hfront
  have hmore : more <+: behind := (List.prefix_append_right_inj lexeme).mp hbegins
  have hends : EndsLike behind more := by
    intro c hc
    obtain ⟨rest, rfl⟩ := hmore
    cases more with
    | nil => cases hc
    | cons x more => exact .inr hc
  have heq := (h.endsLike hends).scan_eq.symm.trans hl.scan_eq
  simp only [Except.ok.injEq, Prod.mk.injEq] at heq
  omega

theorem IsLexeme.longest (h : IsLexeme kind lexeme behind) :
    Longest kind lexeme (lexeme ++ behind) :=
  ⟨lexeme_of_isLexeme h, List.prefix_append lexeme behind, fun hl hbegins => h.length_le hl hbegins⟩

theorem Longest.unique (h : Longest kind lexeme text) (ho : Longest other longer text) :
    kind = other ∧ lexeme = longer := by
  have hlength : lexeme.length = longer.length :=
    Nat.le_antisymm (ho.longest h.isLexeme h.begins) (h.longest ho.isLexeme ho.begins)
  have hfront : lexeme <+: longer :=
    List.prefix_of_prefix_length_le h.begins ho.begins (Nat.le_of_eq hlength)
  obtain rfl := hfront.eq_of_length hlength
  exact ⟨h.isLexeme.unique ho.isLexeme, rfl⟩

/-! ## Where there is no token -/

theorem exists_of_numberLength_error (h : numberLength text = .error n) :
    ∃ mark behind, isHexMark mark = true ∧ Stops isHexDigit behind ∧
      text = '0' :: mark :: behind := by
  unfold numberLength at h
  split at h
  · next mark rest =>
    split at h
    · next hmark =>
      dsimp only at h
      split at h
      · next hnone =>
        refine ⟨mark, rest, hmark, ?_, rfl⟩
        intro c hc
        cases rest with
        | nil => cases hc
        | cons x rest =>
          cases hc
          rw [← Bool.not_eq_true]
          intro hdigit
          exact absurd hnone (takeWhile_length_pos hdigit rest).ne'
      · cases h
    · cases h
  · cases h

theorem numberLength_of_stops {mark : Char} (hmark : isHexMark mark = true)
    (hstop : Stops isHexDigit behind) : numberLength ('0' :: mark :: behind) = .error 2 := by
  have hnone : behind.takeWhile isHexDigit = [] :=
    @takeWhile_append_of_stops isHexDigit [] behind (List.forall_mem_nil _) hstop
  rw [numberLength, if_pos hmark, hnone]
  rfl

/-- The mark of a hexadecimal number without digits is no token. -/
theorem BareMark.scan_eq (h : BareMark text) : ∃ n, scan text = .error n := by
  obtain ⟨sign, mark, behind, hsign, hmark, hstop, rfl⟩ := h
  obtain ⟨hsigns, hlength⟩ := optionalSign_iff.mp hsign
  have hdigit : startsWithDigit ('0' :: mark :: behind) = true := rfl
  have hinteger := integerLength?_append (signLength_append hsigns hlength hdigit) hdigit
  rw [numberLength_of_stops hmark hstop] at hinteger
  refine ⟨sign.length + 2, ?_⟩
  rw [scan_integer (head_of_integer hsigns hdigit) hinteger]
  rfl

/-- Where a digit is, perhaps behind a sign, there is an integer, unless it is a mark without
digits. -/
theorem scan_of_digit (hsign : OptionalSign sign) (hd : startsWithDigit text = true)
    (hbare : ¬ BareMark (sign ++ text)) : ∃ found, scan (sign ++ text) = .ok found := by
  obtain ⟨hsigns, hlength⟩ := optionalSign_iff.mp hsign
  have hinteger := integerLength?_append (signLength_append hsigns hlength hd) hd
  cases hnumber : numberLength text with
  | ok n =>
    rw [hnumber] at hinteger
    exact ⟨_, scan_integer (head_of_integer hsigns hd) hinteger⟩
  | error n =>
    obtain ⟨mark, behind, hmark, hstop, rfl⟩ := exists_of_numberLength_error hnumber
    exact absurd ⟨sign, mark, behind, hsign, hmark, hstop, rfl⟩ hbare

theorem scan_of_isIdentifier {word : String} (h : IsIdentifier word) (behind : List Char) :
    ∃ found, scan (word.toList ++ behind) = .ok found := by
  obtain ⟨c, cs, heq, hc, _⟩ := h
  obtain ⟨lexeme, rest, hrest, _, hlexeme⟩ := @isLexeme_of_isWordStart (cs ++ behind) c hc
  rw [heq, List.cons_append, hrest]
  exact ⟨_, hlexeme.scan_eq⟩

/-- Where a lexeme is, there is a token, unless it is a mark without digits. -/
theorem Lexeme.exists_scan (h : Lexeme kind lexeme) (hbegins : lexeme <+: text)
    (hbare : ¬ BareMark text) : ∃ found, scan text = .ok found := by
  obtain ⟨behind, rfl⟩ := hbegins
  cases h with
  | @lineComment inside _ =>
    refine ⟨(.comment, lineLength ('/' :: '/' :: inside ++ behind)), ?_⟩
    rw [scan, List.cons_append, List.cons_append, List.head?_cons]
    rfl
  | blockComment hblock => exact ⟨_, (IsLexeme.blockComment (isBlockComment_iff.mp hblock)).scan_eq⟩
  | keyword hmem => exact scan_of_isIdentifier (of_mem_keywords hmem).1 behind
  | name hname => exact scan_of_isIdentifier hname.identifier behind
  | @decimal sign digits hsign hne hdigits =>
    rw [List.append_assoc] at hbare ⊢
    refine scan_of_digit hsign ?_ hbare
    obtain ⟨d, rest, rfl⟩ := List.exists_cons_of_ne_nil hne
    exact hdigits d List.mem_cons_self
  | @hexadecimal sign digits mark hsign _ _ _ =>
    rw [List.append_assoc] at hbare ⊢
    exact scan_of_digit hsign rfl hbare
  | mark hmem => exact ⟨_, scan_mark (punctuation?_eq_some_iff.mpr hmem) behind⟩
  | ellipsis => exact ⟨_, IsLexeme.ellipsis.scan_eq⟩

/-- What the scanner finds at the head of a text is the longest lexeme. -/
theorem scan_eq_ok_iff (hne : text ≠ []) :
    scan text = .ok (kind, n) ↔
      Longest kind (text.take n) text ∧ n ≤ text.length ∧ ¬ BareMark text := by
  have hsound {kind : Kind} {n : Nat} (h : scan text = .ok (kind, n)) :
      Longest kind (text.take n) text ∧ n ≤ text.length := by
    have hk : kind ≠ .endOfFile := by
      rintro rfl
      exact hne (eq_nil_of_scan h)
    obtain ⟨lexeme, behind, rfl, rfl, hlexeme⟩ := isLexeme_of_scan h hk
    rw [List.take_left]
    exact ⟨hlexeme.longest, by simp⟩
  constructor
  · intro h
    refine ⟨(hsound h).1, (hsound h).2, ?_⟩
    intro hbare
    obtain ⟨_, herror⟩ := hbare.scan_eq
    rw [h] at herror
    cases herror
  · rintro ⟨hlongest, hn, hbare⟩
    obtain ⟨⟨found, m⟩, hscan⟩ := hlongest.isLexeme.exists_scan hlongest.begins hbare
    obtain ⟨hfound, hm⟩ := hsound hscan
    obtain ⟨rfl, htake⟩ := hfound.unique hlongest
    have hlength := congrArg List.length htake
    rw [List.length_take_of_le hm, List.length_take_of_le hn] at hlength
    rw [hscan, hlength]

/-- The scanner finds nothing at the head of a text if no lexeme is there, or if a mark without
digits is. -/
theorem scan_eq_error_iff (hne : text ≠ []) :
    (∃ n, scan text = .error n) ↔
      (∀ kind lexeme, Lexeme kind lexeme → ¬ lexeme <+: text) ∨ BareMark text := by
  constructor
  · rintro ⟨n, hscan⟩
    by_cases hbare : BareMark text
    · exact .inr hbare
    · left
      intro kind lexeme hlexeme hbegins
      obtain ⟨found, hfound⟩ := hlexeme.exists_scan hbegins hbare
      rw [hscan] at hfound
      cases hfound
  · rintro (hnone | hbare)
    · cases hscan : scan text with
      | error n => exact ⟨n, rfl⟩
      | ok found =>
        obtain ⟨hlongest, _⟩ := (scan_eq_ok_iff hne).mp hscan
        exact absurd hlongest.begins (hnone _ _ hlongest.isLexeme)
    · exact hbare.scan_eq

/-! ## Lexemes written one behind the other -/

/-- The text is made of the lexemes, in order, with white space between any two.  Behind a line
comment the white space begins with a line feed. -/
inductive Written : List (Kind × List Char) → List Char → Prop where
  | nil : Written [] []
  | one {kind : Kind} {lexeme : List Char} : Lexeme kind lexeme → Written [(kind, lexeme)] lexeme
  | more {kind : Kind} {lexeme run text : List Char} {next : Kind × List Char}
      {rest : List (Kind × List Char)} :
    Lexeme kind lexeme → run ≠ [] → (∀ c ∈ run, isLayout c = true) →
    (opensLine lexeme = true → run.head? = some '\n') → Written (next :: rest) text →
    Written ((kind, lexeme) :: next :: rest) (lexeme ++ run ++ text)

/-- Lexemes that are written with white space between them are read as tokens. -/
theorem Written.reads {ps : List (Kind × List Char)} (h : Written ps text) (p : Position) :
    ∃ ts, Reads p text ts none ∧ ts.map (fun t => (t.kind, t.text.toList)) = ps := by
  induction h generalizing p with
  | nil => exact ⟨[], .nil, rfl⟩
  | @one kind lexeme hlexeme =>
    have hreads : Reads p (lexeme ++ []) _ none := .token hlexeme.alone .nil
    rw [List.append_nil] at hreads
    refine ⟨_, hreads, ?_⟩
    rw [List.map_singleton, String.toList_ofList]
  | @more kind lexeme run text next rest hlexeme hne hrun hfeed _ ih =>
    obtain ⟨c, run, rfl⟩ := List.exists_cons_of_ne_nil hne
    have hfirst : IsLexeme kind lexeme (c :: run ++ text) := by
      apply hlexeme.isLexeme
      · intro x hx
        cases hx
        exact hrun c List.mem_cons_self
      · intro hopens x hx
        cases hx
        cases hfeed hopens
        rfl
    obtain ⟨ts, hreads, hts⟩ := ih ((p.advance lexeme).advance (c :: run))
    refine ⟨⟨kind, String.ofList lexeme, p⟩ :: ts, ?_, ?_⟩
    · rw [List.append_assoc]
      exact .token hfirst (hreads.behind_layout hrun)
    · rw [List.map_cons, hts, String.toList_ofList]

end EngineHeader.Token

namespace EngineHeader.Lexer

open Token

/-! ## What a lexer takes -/

theorem token_eq_ok_iff {l l' : Lexer} {t : Token} :
    l.token = (.ok t, l') ↔ ∃ n, scan l.cursor.rest = .ok (t.kind, n) ∧
      t.text = l.cursor.peek n ∧ t.position = l.cursor.position ∧
      l' = { l with cursor := l.cursor.move n } := by
  constructor
  · intro h
    rw [token] at h
    split at h
    · next hread =>
      cases h
      obtain ⟨n, hscan, htext, hposition, rfl⟩ := exists_of_read hread
      exact ⟨n, hscan, htext, hposition, rfl⟩
    · cases h
  · rintro ⟨n, hscan, htext, hposition, rfl⟩
    obtain ⟨kind, text, position⟩ := t
    dsimp only at hscan htext hposition
    rw [token, Token.read, hscan, htext, hposition]

theorem token_eq_error_iff {l : Lexer} :
    (∃ e, l.token.1 = .error e) ↔ ∃ n, scan l.cursor.rest = .error n := by
  rw [token, Token.read]
  cases scan l.cursor.rest with
  | error n => exact iff_of_true ⟨_, rfl⟩ ⟨n, rfl⟩
  | ok found =>
    refine iff_of_false ?_ ?_
    · rintro ⟨e, h⟩
      cases h
    · rintro ⟨n, h⟩
      cases h

/-- A lexer takes the longest lexeme in front of it.  It takes none if no lexeme is there, or if the
mark of a hexadecimal number without digits is, and only then.  Lexemes that are written one behind
the other with white space between them are what it gives, and then it has no more. -/
theorem takes_longest_lexeme :
    (∀ l : Lexer, l.cursor.rest ≠ [] →
      (∀ t l', l.token = (.ok t, l') ↔
        Longest t.kind t.text.toList l.cursor.rest ∧ ¬ BareMark l.cursor.rest ∧
          t.position = l.cursor.position ∧
          l' = { l with cursor := l.cursor.move t.text.toList.length }) ∧
      ((∃ e, l.token.1 = .error e) ↔
        (∀ kind lexeme, Lexeme kind lexeme → ¬ lexeme <+: l.cursor.rest) ∨
          BareMark l.cursor.rest)) ∧
    ∀ (lexemes : List (Kind × List Char)) (source : String), Written lexemes source.toList →
      ∃ ts : List Token, (Lexer.ofText source).Gives (ts.map .ok) ∧
        ts.map (fun t => (t.kind, t.text.toList)) = lexemes := by
  constructor
  · intro l hne
    constructor
    · intro t l'
      rw [token_eq_ok_iff]
      constructor
      · rintro ⟨n, hscan, htext, hposition, rfl⟩
        obtain ⟨hlongest, hn, hbare⟩ := (scan_eq_ok_iff hne).mp hscan
        have hlist : t.text.toList = l.cursor.rest.take n := by
          rw [htext, Cursor.peek, String.toList_ofList]
        rw [hlist, List.length_take_of_le hn]
        exact ⟨hlongest, hbare, hposition, rfl⟩
      · rintro ⟨hlongest, hbare, hposition, rfl⟩
        have htake := List.prefix_iff_eq_take.mp hlongest.begins
        refine ⟨t.text.toList.length, ?_, ?_, hposition, rfl⟩
        · apply (scan_eq_ok_iff hne).mpr
          rw [← htake]
          exact ⟨hlongest, hlongest.begins.length_le, hbare⟩
        · rw [Cursor.peek, ← htake, String.ofList_toList]
    · rw [token_eq_error_iff]
      exact scan_eq_error_iff hne
  · intro lexemes source hwritten
    obtain ⟨ts, hreads, hts⟩ := hwritten.reads .start
    refine ⟨ts, ?_, hts⟩
    have hgives := hreads.gives
    rw [Option.map_none, Option.toList_none, List.append_nil] at hgives
    exact hgives

/-- A word right behind a hexadecimal number, the mark alone, and a line comment in front of three
dots. -/
theorem takes_longest_lexeme_mark :
    (Longest .integer ['+', '0', 'x', '1', 'F'] "+0x1Fg".toList ∧ ¬ BareMark "+0x1Fg".toList) ∧
      (BareMark "0xg".toList ∧ ∃ e, (Lexer.ofText "0xg").token.1 = .error e) ∧
      ∃ ts : List Token, (Lexer.ofText "//a\n... _1").Gives (ts.map .ok) ∧
        ts.map (fun t => (t.kind, t.text.toList)) =
          [(.comment, ['/', '/', 'a']), (.ellipsis, ['.', '.', '.']),
            (.identifier, ['_', '1'])] := by
  refine ⟨?_, ?_, ?_⟩
  · have htaken : (Lexer.ofText "+0x1Fg").token =
        (.ok ⟨.integer, "+0x1F", ⟨0, 1, 1⟩⟩, ⟨⟨['g'], ⟨5, 1, 6⟩⟩, false⟩) := by cbv
    have hne : (Lexer.ofText "+0x1Fg").cursor.rest ≠ [] := by decide
    obtain ⟨hlongest, hbare, _⟩ := ((takes_longest_lexeme.1 _ hne).1 _ _).mp htaken
    exact ⟨hlongest, hbare⟩
  · have hbare : BareMark "0xg".toList := by
      refine ⟨[], 'x', ['g'], .inl rfl, rfl, ?_, rfl⟩
      intro c hc
      cases hc
      rfl
    have hne : (Lexer.ofText "0xg").cursor.rest ≠ [] := by decide
    exact ⟨hbare, (takes_longest_lexeme.1 _ hne).2.mpr (.inr hbare)⟩
  · have hname : IsName "_1" := by
      refine ⟨⟨'_', ['1'], rfl, rfl, ?_⟩, by decide⟩
      simp [Text.isWordPart]
    have hlast : Written [(.identifier, ['_', '1'])] ['_', '1'] := .one (.name hname)
    have hdots : Written [(.ellipsis, ['.', '.', '.']), (.identifier, ['_', '1'])]
        (['.', '.', '.'] ++ [' '] ++ ['_', '1']) := by
      refine .more .ellipsis (by simp) ?_ ?_ hlast
      · simp [Text.isLayout, Text.isBlank]
      · intro hopens
        cases hopens
    have hwritten : Written [(.comment, ['/', '/', 'a']), (.ellipsis, ['.', '.', '.']),
        (.identifier, ['_', '1'])]
        (['/', '/', 'a'] ++ ['\n'] ++ (['.', '.', '.'] ++ [' '] ++ ['_', '1'])) := by
      have hfeed : '\n' ∉ ['a'] := by simp
      refine .more (.lineComment hfeed) (by simp) ?_ (fun _ => rfl) hdots
      simp [Text.isLayout]
    exact takes_longest_lexeme.2 _ "//a\n... _1" hwritten

end EngineHeader.Lexer
