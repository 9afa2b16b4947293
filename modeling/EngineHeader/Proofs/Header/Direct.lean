import EngineHeader.Proofs.Declaration.Moved
import EngineHeader.Proofs.Directive.Plain
import EngineHeader.Proofs.Header.Layout

/-!
# Headers without directive lines

On a header without directive lines the directive stage does next to nothing
(`Header.read_of_noLines`).  It drops the white space and the comments in front and puts a line
feed at the end.  So what is declared is what the text declares by itself, without the comments in
front of the first declaration, and an error is the same error at another position.

The two scanners go over what stands in front in the same way (`reads_skipLayout`).  What is left
begins elsewhere, and the line feed behind it changes nothing.  A comment that is never closed is
found by the first scanner if it stands in front, and by the second if it stands in source text,
and both say the same of it.
-/

namespace EngineHeader

open Text Directive

/-! ## Comments in front -/

namespace Token

variable {p : Position} {text : List Char} {us : List Token} {e : Option Error}

/-- A comment that stands in front of a segment is read as a token. -/
theorem isLexeme_of_closedComment (h : 0 < closedComment text) :
    IsLexeme .comment (text.take (closedComment text)) (text.drop (closedComment text)) := by
  unfold closedComment at h ⊢
  split at h
  · next hb =>
    rw [if_pos hb]
    cases hn : blockComment? text with
    | none =>
      rw [hn] at h
      cases h
    | some n =>
      rw [Option.getD_some]
      exact .blockComment (blockComment_take hn)
  · next hb =>
    split at h
    · next hl =>
      rw [if_neg hb, if_pos hl]
      obtain ⟨hopens, hfeed⟩ := opensLine_take hl
      refine .lineComment hopens hfeed ?_
      rcases drop_lineLength text with hend | ⟨rest, hend⟩
      · rw [hend]
        nofun
      · rw [hend]
        rintro _ ⟨⟩
        rfl
    · cases h

/-- What stands between a text and the text behind its layout is read as comments. -/
def LeadsTo (text rest : List Char) : Prop :=
  ∃ front, text = front ++ rest ∧ ∀ p, ∃ lead, (∀ t ∈ lead, t.kind = .comment) ∧
    ∀ {us e}, Reads (p.advance front) rest us e → Reads p text (lead ++ us) e

theorem leadsTo_drop_extent (text : List Char) :
    LeadsTo text (text.drop (extent layoutUnit text)) := by
  refine relates_drop_extent (R := LeadsTo) ?_ ?_ text
  · intro text
    exact ⟨[], rfl, fun p => ⟨[], List.forall_mem_nil _, id⟩⟩
  · rintro text rest hne hpos ⟨front, hfront, hlead⟩
    obtain ⟨c, text, rfl⟩ := List.exists_cons_of_ne_nil hne
    by_cases hc : isLayout c = true
    · have hunit : layoutUnit (c :: text) = 1 := if_pos hc
      rw [hunit, List.drop_succ_cons, List.drop_zero] at hfront hlead
      refine ⟨c :: front, congrArg (c :: ·) hfront, fun p => ?_⟩
      obtain ⟨lead, hcomments, hreads⟩ := hlead (p.next c)
      exact ⟨lead, hcomments, fun h => .layout hc (hreads h)⟩
    · have hunit : layoutUnit (c :: text) = closedComment (c :: text) := if_neg hc
      rw [hunit] at hpos hfront hlead
      have hlexeme := isLexeme_of_closedComment hpos
      have hwhole := List.take_append_drop (closedComment (c :: text)) (c :: text)
      generalize (c :: text).take (closedComment (c :: text)) = lexeme at hlexeme hwhole
      generalize (c :: text).drop (closedComment (c :: text)) = behind
        at hlexeme hwhole hfront hlead
      rw [← hwhole]
      refine ⟨lexeme ++ front, ?_, fun p => ?_⟩
      · rw [hfront, List.append_assoc]
      obtain ⟨lead, hcomments, hreads⟩ := hlead (p.advance lexeme)
      refine ⟨⟨.comment, String.ofList lexeme, p⟩ :: lead, ?_, fun h => ?_⟩
      · exact List.forall_mem_cons.mpr ⟨rfl, hcomments⟩
      · rw [Position.advance_append] at h
        exact .token hlexeme (hreads h)

/-- What stands in front of the first segment is read as comments. -/
theorem reads_skipLayout (c : Cursor) :
    ∃ lead, (∀ t ∈ lead, t.kind = .comment) ∧ ∀ {us e},
      Reads (Segment.skipLayout c).position (Segment.skipLayout c).rest us e →
        Reads c.position c.rest (lead ++ us) e := by
  obtain ⟨front, hfront, hlead⟩ := leadsTo_drop_extent c.rest
  have htake : c.rest.take (extent layoutUnit c.rest) = front := by
    have hwhole := List.take_append_drop (extent layoutUnit c.rest) c.rest
    exact List.append_cancel_right (hwhole.trans hfront)
  obtain ⟨lead, hcomments, hreads⟩ := hlead c.position
  refine ⟨lead, hcomments, fun h => hreads ?_⟩
  rwa [Segment.skipLayout, Cursor.position_move, Cursor.rest_move, htake] at h

/-- A comment that is never closed is no token. -/
theorem reads_unclosed (ho : opensBlock text = true) (hn : blockComment? text = none) :
    Reads p text [] (some (.unrecognized p "/*")) := by
  obtain ⟨inside, rfl⟩ := eq_of_opensBlock ho
  have hscan : scan ('/' :: '*' :: inside) = .error 2 := by
    have hl : opensLine ('/' :: '*' :: inside) = false := rfl
    rw [scan, List.head?_cons, hn]
    dsimp only
    rw [hl, if_neg Bool.false_ne_true, if_pos ho]
  have hstop : Stops isLayout ('/' :: '*' :: inside) := by
    rintro _ ⟨⟩
    rfl
  exact .error hstop hscan

/-- Where source text begins, no comment does. -/
theorem kind_ne_of_begins (h : Begins text) (hreads : Reads p text us e) :
    ∀ t ∈ us.head?, t.kind ≠ .comment := by
  obtain ⟨c, rest, heq, hlayout, _, hb, hl⟩ := h
  cases hreads with
  | nil => nofun
  | error => nofun
  | layout hc _ =>
    cases heq
    rw [hlayout] at hc
    cases hc
  | @token _ kind lexeme text ts _ hlexeme _ =>
    rintro _ ⟨⟩ hk
    replace hk : kind = .comment := hk
    cases hlexeme with
    | lineComment hopens _ _ =>
      obtain ⟨inside, rfl⟩ := eq_of_opensLine hopens
      cases hl
    | blockComment hn =>
      obtain ⟨inside, _, rfl, _⟩ := exists_of_blockComment hn
      cases hb
    | word => exact ofWord_ne _ (by decide) (by decide) hk
    | ellipsis => cases hk
    | integer => cases hk
    | mark hmark => exact (punctuation?_ne hmark).2.1 hk

end Token

/-! ## Leading comments -/

/-- A comment between declarations. -/
def Declaration.isComment : Declaration → Bool
  | .comment _ => true
  | _ => false

/-- A header without the comments in front of its first declaration. -/
def Header.withoutLeading (h : Header) : Header := ⟨h.declarations.dropWhile Declaration.isComment⟩

namespace Declaration.Parser

open Token (Word Words)

variable {d : Dialect} {ts lead : List Token} {ds : List Declaration}

theorem dropWhile_comments (lead : List Token) (ds : List Declaration) :
    (comments lead ++ ds).dropWhile isComment = ds.dropWhile isComment := by
  rw [List.dropWhile_append_of_pos]
  intro e he
  obtain ⟨t, _, rfl⟩ := List.mem_map.mp he
  rfl

/-- Where no comment is in front, the first that is read is a declaration. -/
theorem dropWhile_ofWords (ht : ∀ t ∈ ts.head?, t.kind ≠ .comment)
    (h : ofWords d (.ofTokens ts) = .ok ds) : ds.dropWhile isComment = ds := by
  cases ts with
  | nil =>
    rw [ofWords, show (Words.ofTokens []).words = [] from rfl, declarationsFrom_nil] at h
    cases h
    rfl
  | cons t ts =>
    rw [Words.ofTokens_cons, if_neg (ht t rfl), ofWords] at h
    obtain ⟨content, semicolon, behind, hread, hmore⟩ := declarationsFrom_cons_iff.mp h
    obtain ⟨new, rfl, _⟩ := declarationsFrom_sound hmore
    obtain ⟨_, bare, _, hbare, _⟩ := declaration_sound hread
    have hcontent : isComment content = false := by
      cases content with
      | comment _ => cases hbare
      | _ => rfl
    simp [comments, hcontent]

end Declaration.Parser

/-! ## The two readings -/

/-- The same is wrong, perhaps elsewhere. -/
inductive Error.SameFault : Error → Error → Prop where
  | unrecognized {p q : Position} {found : String} :
    SameFault (.unrecognized p found) (.unrecognized q found)
  | grammar {t u : Token} {expected : Declaration.Expected} :
    t.content = u.content → SameFault (.grammar t expected) (.grammar u expected)

namespace Header

open Declaration Declaration.Parser
open Token (Reads Moved scanText)

/-- The text holds no directive line. -/
def NoLines (source : String) : Prop :=
  ∀ s ∈ (Segment.scanText source).items, ∀ l, s.content ≠ .line l

/-- A text and what is left of it by flattening are read alike: without the comments in front of
the first declaration, or with the same error. -/
structure ReadAlike (text flat : Except Error Header) : Prop where
  ok : ∀ h, text = .ok h → flat = .ok h.withoutLeading
  error : ∀ e, text = .error e → ∃ e', flat = .error e' ∧ e'.SameFault e

variable {d : Dialect} {p q : Position} {text flat source : String} {lead ts us : List Token}

theorem ReadAlike.of_ok {h : Header} : ReadAlike (.ok h) (.ok h.withoutLeading) := by
  constructor
  · rintro _ ⟨⟩
    rfl
  · intro e heq
    cases heq

theorem ReadAlike.of_error {e e' : Error} (h : e'.SameFault e) :
    ReadAlike (.error e) (.error e') := by
  constructor
  · intro h heq
    cases heq
  · rintro _ ⟨⟩
    exact ⟨e', rfl, h⟩

/-- Texts that consist of the same tokens at other places, apart from comments in front. -/
theorem readAlike_of_moved (htext : scanText text = ⟨lead ++ ts, none⟩)
    (hflat : scanText flat = ⟨us, none⟩) (hlead : ∀ t ∈ lead, t.kind = .comment)
    (hmoved : List.Forall₂ (Moved p q) ts us) (hhead : ∀ t ∈ us.head?, t.kind ≠ .comment) :
    ReadAlike (ofText d text) (ofText d flat) := by
  have htext' := ofText_of_scanned (d := d) (congrArg Scan.error? htext)
  have hflat' := ofText_of_scanned (d := d) (congrArg Scan.error? hflat)
  rw [htext] at htext'
  rw [hflat] at hflat'
  have hagree := ofWords_moved (d := d) hmoved hlead
  generalize hr : ofWords d (.ofTokens (lead ++ ts)) = r at hagree htext'
  generalize hr' : ofWords d (.ofTokens us) = r' at hagree hflat'
  rw [htext', hflat']
  cases hagree with
  | @read ds ds' hds =>
    subst hds
    have hdrop : withoutLeading ⟨comments lead ++ ds'⟩ = ⟨ds'⟩ := by
      rw [withoutLeading, dropWhile_comments, dropWhile_ofWords hhead hr']
    have hok := ReadAlike.of_ok (h := ⟨comments lead ++ ds'⟩)
    rwa [hdrop] at hok
  | @stuck s s' hrest hexpected =>
    refine .of_error ?_
    obtain ⟨rest, expected⟩ := s
    obtain ⟨rest', expected'⟩ := s'
    cases hexpected
    cases hrest with
    | nil => exact .grammar rfl
    | cons hw _ => exact .grammar (Prod.ext hw.token.kind.symm hw.token.text.symm)

/-- Flattening leaves what the directives mean. -/
theorem flatten_of_segments {source : String} {ss : List Segment} {ds : List Directive}
    (names : Names) (hscan : Segment.scanText source = ⟨ss, none⟩)
    (htree : ofScan ⟨ss, none⟩ = .ok ds) :
    flatten source names = .ok (meaning ds names).1 := by
  refine flatten_eq_ok_iff.mpr ⟨ds, ?_, rfl⟩
  rw [Directive.ofText, hscan, htree]

/-- A text without a number sign holds no directive line. -/
theorem noLines_of_not_mem (h : '#' ∉ source.toList) : NoLines source := by
  intro s hs l hl
  have hshape := shape_scanText source
  generalize Segment.scanText source = scan at hs hshape
  cases hshape with
  | nothing => cases hs
  | unclosed => cases hs
  | source =>
    obtain rfl := List.mem_singleton.mp hs
    cases hl
  | line hmem => exact h (List.mem_of_mem_drop hmem)

/-- Behind comments, source text is read as it is at the beginning of a text, with a line feed
behind it. -/
theorem readAlike_of_begins {behind : Cursor} (hbegins : Begins behind.rest)
    (hlead : ∀ t ∈ lead, t.kind = .comment)
    (hreads : ∀ {us e}, Reads behind.position behind.rest us e →
      Reads .start source.toList (lead ++ us) e) :
    ReadAlike (ofText d source) (ofText d (String.ofList behind.rest ++ "\n")) := by
  obtain ⟨ts, _, hhere⟩ := Token.reads_scanFrom [] behind
  obtain ⟨us, e', hstart, hmoved, herror⟩ := hhere.move .start
  have hhead := Token.kind_ne_of_begins hbegins hstart
  have hflat : scanText (String.ofList behind.rest ++ "\n") = ⟨us, e'⟩ := by
    apply Reads.scanText_eq
    rw [String.toList_append, String.toList_ofList]
    exact hstart.append_feed
  have htext := (hreads hhere).scanText_eq
  rcases herror with ⟨hnone, rfl⟩ | ⟨between, found, hsome, rfl⟩
  · rw [hnone] at htext
    exact readAlike_of_moved htext hflat hlead hmoved hhead
  · rw [hsome] at htext
    rw [ofText_of_error (congrArg Scan.error? htext), ofText_of_error (congrArg Scan.error? hflat)]
    exact .of_error .unrecognized

/-- On a header without directive lines, and so on one without number signs, reading is what the
declaration parser makes of the text, without the comments in front.  An error is the same error
at another position. -/
theorem read_of_noLines (c : Config) (source : String) :
    ('#' ∉ source.toList → NoLines source) ∧
      (NoLines source → ReadAlike (ofText c.dialect source) (read c source)) := by
  refine ⟨noLines_of_not_mem, fun hlines => ?_⟩
  obtain ⟨lead, hlead, hreads⟩ := Token.reads_skipLayout (.ofText source)
  have hshape := shape_scanText source
  generalize hscan : Segment.scanText source = scan at hshape
  cases hshape with
  | nothing hnil =>
    rw [hnil] at hreads
    have htree : ofScan ⟨[], none⟩ = .ok [] := rfl
    have hflat : flatten source c.names = .ok "" := flatten_of_segments _ hscan htree
    have hhead : ∀ t ∈ ([] : List Token).head?, t.kind ≠ .comment := by
      intro t ht
      cases ht
    rw [read, hflat]
    exact readAlike_of_moved (p := .start) (q := .start) (hreads .nil).scanText_eq
      (Reads.scanText_eq .nil) hlead .nil hhead
  | unclosed ho hn =>
    have hflat : flatten source c.names =
        .error (.unrecognized (Segment.skipLayout (.ofText source)).position "/*") := by
      rw [flatten, Directive.ofText, hscan]
      rfl
    have htext := (hreads (Token.reads_unclosed ho hn)).scanText_eq
    rw [read, hflat, ofText_of_error (congrArg Scan.error? htext)]
    exact .of_error .unrecognized
  | source hbegins =>
    generalize Segment.skipLayout (.ofText source) = behind at hreads hbegins hscan
    have htree : ofScan ⟨[⟨.source (String.ofList behind.rest), behind.position⟩], none⟩ =
        .ok [.source (String.ofList behind.rest)] := rfl
    have hflatten : flatten source c.names = .ok (String.ofList behind.rest ++ "\n") := by
      rw [flatten_of_segments _ hscan htree]
      simp [meaning, meaningOf]
    rw [read, hflatten]
    exact readAlike_of_begins hbegins hlead hreads
  | line _ hline =>
    obtain ⟨s, hs, l, hl⟩ := hline
    exact absurd hl (hlines s (hscan ▸ hs) l)

/-- A number sign in a comment begins no directive line.  The comment behind the field is on the
line of its semicolon, also where the text stands behind other comments. -/
theorem read_of_noLines_comment :
    NoLines "/* a */ // b\n/**/typedef struct \x7b\nint (*f)(); // #\n\x7d S;" ∧
      ofText .extension "/* a */ // b\n/**/typedef struct \x7b\nint (*f)(); // #\n\x7d S;" =
        .ok ⟨[.comment "/* a */", .comment "// b", .comment "/**/",
          .struct ⟨"S", [.function ⟨⟨false, "int", 0⟩, "f", []⟩ (some "// #")]⟩]⟩ ∧
      read default "/* a */ // b\n/**/typedef struct \x7b\nint (*f)(); // #\n\x7d S;" =
        .ok ⟨[.struct ⟨"S", [.function ⟨⟨false, "int", 0⟩, "f", []⟩ (some "// #")]⟩]⟩ := by
  have hitems : (Segment.scanText
      "/* a */ // b\n/**/typedef struct \x7b\nint (*f)(); // #\n\x7d S;").items =
      [⟨.source "typedef struct \x7b\nint (*f)(); // #\n\x7d S;", ⟨17, 2, 5⟩⟩] := by cbv
  have hlines : NoLines "/* a */ // b\n/**/typedef struct \x7b\nint (*f)(); // #\n\x7d S;" := by
    intro s hs l hl
    rw [hitems] at hs
    obtain rfl := List.mem_singleton.mp hs
    cases hl
  have htext : ofText .extension
      "/* a */ // b\n/**/typedef struct \x7b\nint (*f)(); // #\n\x7d S;" =
      .ok ⟨[.comment "/* a */", .comment "// b", .comment "/**/",
        .struct ⟨"S", [.function ⟨⟨false, "int", 0⟩, "f", []⟩ (some "// #")]⟩]⟩ := by cbv
  exact ⟨hlines, htext, ((read_of_noLines default _).2 hlines).ok _ htext⟩

end Header

end EngineHeader
