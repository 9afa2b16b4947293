import EngineHeader.Proofs.Token.Ending

/-!
# Reading a text token by token

`Reads p text ts error?` says what reading a text makes of it, if the text begins at `p`.  It
gives the tokens `ts`, and comes to the end of the text or to an error behind them.  There is
one constructor for each way to go on.  This is what the lexer does (`Reads.scanFrom_eq`,
`reads_scanText`).

What is known of a reading carries over to other texts.

* A text may be cut in front of a token (`Reads.cut`).
* A text that comes to its end may be followed by a line feed and anything else
  (`Reads.append`).
* A line feed at the end makes no difference (`Reads.append_feed`).
* If the text begins elsewhere then all positions move (`Reads.move`).
-/

namespace EngineHeader.Token

open Text

/-- Reading the text, which begins at the position, gives the tokens and then the error, if
there is one. -/
inductive Reads : Position → List Char → List Token → Option Error → Prop where
  | nil {p : Position} : Reads p [] [] none
  | layout {p : Position} {c : Char} {text : List Char} {ts : List Token} {e : Option Error} :
    isLayout c = true → Reads (p.next c) text ts e → Reads p (c :: text) ts e
  | token {p : Position} {kind : Kind} {lexeme text : List Char} {ts : List Token}
      {e : Option Error} :
    IsLexeme kind lexeme text → Reads (p.advance lexeme) text ts e →
    Reads p (lexeme ++ text) (⟨kind, String.ofList lexeme, p⟩ :: ts) e
  | error {p : Position} {text : List Char} {n : Nat} :
    Stops isLayout text → scan text = .error n →
    Reads p text [] (some (.unrecognized p (String.ofList (text.take n))))

variable {p q : Position} {a b text lexeme behind : List Char} {ts us : List Token}
  {e : Option Error} {kind : Kind}

/-! ## The lexer -/

/-- A lexeme ends no text, and begins with no white space. -/
theorem IsLexeme.begins (h : IsLexeme kind lexeme behind) :
    kind ≠ .endOfFile ∧ ∃ c rest, lexeme = c :: rest ∧ isLayout c = false := by
  cases h with
  | lineComment hl _ _ =>
    obtain ⟨inside, rfl⟩ := eq_of_opensLine hl
    exact ⟨by decide, '/', _, rfl, rfl⟩
  | blockComment hn =>
    obtain ⟨inside, _, rfl, _⟩ := exists_of_blockComment hn
    exact ⟨by decide, '/', _, rfl, rfl⟩
  | @word word behind hw _ =>
    obtain ⟨c, rest, heq, hc, _⟩ := hw
    exact ⟨ofWord_ne word (by decide) (by decide), c, rest, heq, isLayout_of_isWordStart hc⟩
  | ellipsis => exact ⟨by decide, '.', _, rfl, rfl⟩
  | integer hsign _ hnumber =>
    obtain ⟨c, rest, heq, hc⟩ := head_of_integer hsign (hnumber.startsWithDigit [])
    rw [List.append_nil] at heq
    refine ⟨by decide, c, rest, heq, ?_⟩
    cases hlayout : isLayout c with
    | false => rfl
    | true =>
      rcases eq_of_isLayout hlayout with rfl | rfl | rfl | rfl | rfl | rfl
      all_goals simp [isSign, Char.isDigit] at hc
  | mark hc => exact ⟨(punctuation?_ne hc).1, _, [], rfl, isLayout_of_punctuation? hc⟩

theorem skipLayout_cons {c : Char} (hc : isLayout c = true) (text : List Char) (p : Position) :
    skipLayout ⟨c :: text, p⟩ = skipLayout ⟨text, p.next c⟩ := by
  rw [skipLayout, skipLayout, List.takeWhile_cons, if_pos hc]
  rfl

theorem scanFrom_layout {c : Char} (hc : isLayout c = true) (taken : List Token)
    (text : List Char) (p : Position) :
    scanFrom taken ⟨c :: text, p⟩ = scanFrom taken ⟨text, p.next c⟩ := by
  rw [scanFrom, scanFrom, skipLayout_cons hc]

theorem skipLayout_of_stops {c : Cursor} (h : Stops isLayout c.rest) : skipLayout c = c := by
  obtain ⟨rest, p⟩ := c
  cases rest with
  | nil => rfl
  | cons x rest =>
    have hx : isLayout x = false := h x rfl
    rw [skipLayout, List.takeWhile_cons, hx]
    rfl

/-- What reading a text gives is what the lexer finds, behind the tokens already taken. -/
theorem Reads.scanFrom_eq (h : Reads p text ts e) (taken : List Token) :
    scanFrom taken ⟨text, p⟩ = ⟨taken.reverse ++ ts, e⟩ := by
  induction h generalizing taken with
  | nil =>
    rw [List.append_nil, scanFrom]
    rfl
  | layout hc _ ih => rw [scanFrom_layout hc, ih]
  | @token p kind lexeme text ts e hlexeme _ ih =>
    obtain ⟨hk, c, rest, rfl, hc⟩ := hlexeme.begins
    rw [scanFrom_token hc hlexeme.scan_eq hk, ih, List.reverse_cons, List.append_assoc,
      List.singleton_append]
  | @error p text n hstop hn =>
    have hread : read (skipLayout ⟨text, p⟩) =
        .error (.unrecognized p (String.ofList (text.take n))) := by
      rw [skipLayout_of_stops hstop, read, hn]
      rfl
    rw [scanFrom, hread, List.append_nil]

/-- White space in front of a text is not part of what is read. -/
theorem Reads.behind_layout {run : List Char} (h : Reads (p.advance run) text ts e)
    (hrun : ∀ c ∈ run, isLayout c = true) : Reads p (run ++ text) ts e := by
  induction run generalizing p with
  | nil => exact h
  | cons c run ih =>
    obtain ⟨hc, hrun⟩ := List.forall_mem_cons.mp hrun
    exact .layout hc (ih h hrun)

theorem Reads.of_skipLayout {c : Cursor}
    (h : Reads (skipLayout c).position (skipLayout c).rest ts e) :
    Reads c.position c.rest ts e := by
  obtain ⟨run, behind, heq, hlength, hrun, _⟩ := exists_run isLayout c.rest
  rw [skipLayout, hlength, Cursor.rest_move, Cursor.position_move, heq, List.take_left,
    List.drop_left] at h
  rw [heq]
  exact h.behind_layout hrun

theorem stops_skipLayout (c : Cursor) : Stops isLayout (skipLayout c).rest := by
  obtain ⟨run, behind, heq, hlength, _, hstop⟩ := exists_run isLayout c.rest
  rw [skipLayout, hlength, Cursor.rest_move, heq, List.drop_left]
  exact hstop

/-- What the lexer finds is what reading the text gives. -/
theorem reads_scanFrom (taken : List Token) (c : Cursor) :
    ∃ ts, (scanFrom taken c).items = taken.reverse ++ ts ∧
      Reads c.position c.rest ts (scanFrom taken c).error? := by
  fun_induction scanFrom taken c with
  | case1 taken c e hread =>
    refine ⟨[], (List.append_nil _).symm, .of_skipLayout ?_⟩
    rw [read] at hread
    split at hread
    · cases hread
    · next n hn =>
      cases hread
      exact .error (stops_skipLayout c) hn
  | case2 taken c t c' hread hk =>
    obtain ⟨n, hscan, _⟩ := exists_of_read hread
    rw [hk] at hscan
    refine ⟨[], (List.append_nil _).symm, .of_skipLayout ?_⟩
    rw [eq_nil_of_scan hscan]
    exact .nil
  | case3 taken c t c' hread hk ih =>
    obtain ⟨ts, hitems, hreads⟩ := ih
    refine ⟨t :: ts, ?_, .of_skipLayout ?_⟩
    · rw [hitems, List.reverse_cons, List.append_assoc, List.singleton_append]
    · generalize skipLayout c = c at hread
      rw [read] at hread
      split at hread
      · next kind n hscan =>
        cases hread
        obtain ⟨lexeme, behind, heq, rfl, hlexeme⟩ := isLexeme_of_scan hscan hk
        have hpeek : c.peek lexeme.length = String.ofList lexeme := by
          rw [Cursor.peek, heq, List.take_left]
        rw [Cursor.rest_move, Cursor.position_move, heq, List.take_left, List.drop_left,
          hpeek] at hreads
        rw [heq, hpeek]
        exact .token hlexeme hreads
      · cases hread

theorem reads_scanText (text : String) :
    Reads .start text.toList (scanText text).items (scanText text).error? := by
  obtain ⟨ts, hitems, hreads⟩ := reads_scanFrom [] (.ofText text)
  replace hitems : (scanText text).items = ts := hitems
  rw [hitems]
  exact hreads

theorem Reads.scanText_eq {text : String} (h : Reads .start text.toList ts e) :
    scanText text = ⟨ts, e⟩ := h.scanFrom_eq []

/-- All that can be wrong is that no token begins somewhere. -/
theorem Reads.unrecognized {fault : Error} (h : Reads p text ts (some fault)) :
    ∃ r found, fault = .unrecognized r found := by
  generalize he : some fault = e at h
  induction h with
  | nil => cases he
  | layout _ _ ih => exact ih he
  | token _ _ ih => exact ih he
  | error =>
    cases he
    exact ⟨_, _, rfl⟩

/-! ## Parts of a text -/

/-- A text that is cut at some place ends like the whole text. -/
theorem endsLike_append (a b : List Char) : EndsLike (a ++ b) a := by
  intro c hc
  cases a with
  | nil => cases hc
  | cons x a => exact .inr hc

/-- A line feed behind a text ends like the text. -/
theorem endsLike_feed (a b : List Char) : EndsLike a (a ++ '\n' :: b) := by
  intro c hc
  cases a with
  | nil =>
    cases hc
    exact .inl rfl
  | cons x a => exact .inr hc

/-- What stands in front of a token is read alone as it is in the whole text. -/
theorem Reads.cut {t : Token} (h : Reads p text (ts ++ t :: us) e) :
    ∃ a b, text = a ++ b ∧ Reads p a ts none ∧ t.position = p.advance a := by
  generalize htokens : ts ++ t :: us = all at h
  induction h generalizing ts with
  | nil => cases ts <;> cases htokens
  | layout hc _ ih =>
    obtain ⟨a, b, rfl, ha, hpos⟩ := ih htokens
    exact ⟨_ :: a, b, rfl, .layout hc ha, hpos⟩
  | @token p kind lexeme text others e hlexeme hothers ih =>
    cases ts with
    | nil =>
      cases htokens
      exact ⟨[], _, rfl, .nil, rfl⟩
    | cons t' ts =>
      obtain ⟨rfl, hmore⟩ := List.cons.inj htokens
      obtain ⟨a, b, rfl, ha, hpos⟩ := ih hmore
      refine ⟨lexeme ++ a, b, (List.append_assoc _ _ _).symm, ?_, ?_⟩
      · exact .token (hlexeme.endsLike (endsLike_append a b)) ha
      · rw [Position.advance_append]
        exact hpos
  | error => cases ts <;> cases htokens

/-- A line feed and another text may stand behind a text that comes to its end. -/
theorem Reads.append (ha : Reads p a ts none) (hb : Reads (p.advance a) ('\n' :: b) us e) :
    Reads p (a ++ '\n' :: b) (ts ++ us) e := by
  generalize hnone : (none : Option Error) = e' at ha
  induction ha with
  | nil => exact hb
  | layout hc _ ih => exact .layout hc (ih hb hnone)
  | @token p kind lexeme text ts e hlexeme _ ih =>
    rw [Position.advance_append] at hb
    rw [List.append_assoc, List.cons_append]
    exact .token (hlexeme.endsLike (endsLike_feed text b)) (ih hb hnone)
  | error => cases hnone

/-- A line feed at the end makes no difference. -/
theorem Reads.append_feed (h : Reads p text ts e) : Reads p (text ++ ['\n']) ts e := by
  induction h with
  | nil => exact .layout rfl .nil
  | layout hc _ ih => exact .layout hc ih
  | @token p kind lexeme text ts e hlexeme _ ih =>
    rw [List.append_assoc]
    exact .token (hlexeme.endsLike (endsLike_feed text [])) ih
  | @error p text n hstop hn =>
    have hne : text ≠ [] := by
      rintro rfl
      cases hn
    have htake : (text ++ ['\n']).take n = text.take n :=
      List.take_append_of_le_length (scan_error_le hn)
    rw [← htake]
    refine .error ?_ ((scan_append_feed hne).trans hn)
    obtain ⟨c, rest, rfl⟩ := List.exists_cons_of_ne_nil hne
    exact hstop

/-! ## Positions -/

/-- The tokens are the same, at places that stand to `p` and `q` in the same way. -/
structure Moved (p q : Position) (t u : Token) : Prop where
  kind : t.kind = u.kind
  text : t.text = u.text
  place : ∃ between, t.position = p.advance between ∧ u.position = q.advance between

theorem Moved.of_advance (between : List Char) {t u : Token}
    (h : Moved (p.advance between) (q.advance between) t u) : Moved p q t u := by
  obtain ⟨hk, ht, more, hp, hq⟩ := h
  rw [← Position.advance_append] at hp hq
  exact ⟨hk, ht, between ++ more, hp, hq⟩

/-- If the text begins elsewhere then only the positions are others. -/
theorem Reads.move (h : Reads p text ts e) (q : Position) :
    ∃ us e', Reads q text us e' ∧ List.Forall₂ (Moved p q) ts us ∧
      (e = none ∧ e' = none ∨ ∃ between found,
        e = some (.unrecognized (p.advance between) found) ∧
          e' = some (.unrecognized (q.advance between) found)) := by
  induction h generalizing q with
  | nil => exact ⟨[], none, .nil, .nil, .inl ⟨rfl, rfl⟩⟩
  | @layout p c text ts e hc _ ih =>
    obtain ⟨us, e', hreads, hmoved, he⟩ := ih (q.next c)
    refine ⟨us, e', .layout hc hreads, hmoved.imp fun _ _ h => Moved.of_advance [c] h, ?_⟩
    rcases he with he | ⟨between, found, he⟩
    · exact .inl he
    · exact .inr ⟨c :: between, found, he⟩
  | @token p kind lexeme text ts e hlexeme _ ih =>
    obtain ⟨us, e', hreads, hmoved, he⟩ := ih (q.advance lexeme)
    have hbehind := hmoved.imp fun _ _ h => h.of_advance lexeme
    refine ⟨_ :: us, e', .token hlexeme hreads, .cons ⟨rfl, rfl, [], rfl, rfl⟩ hbehind, ?_⟩
    rcases he with he | ⟨between, found, he⟩
    · exact .inl he
    · rw [← Position.advance_append, ← Position.advance_append] at he
      exact .inr ⟨lexeme ++ between, found, he⟩
  | @error p text n hstop hn =>
    exact ⟨[], _, .error hstop hn, .nil, .inr ⟨[], _, rfl, rfl⟩⟩

end EngineHeader.Token
