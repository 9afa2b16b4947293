import EngineHeader.Declaration.Printer
import EngineHeader.Proofs.Declaration.Inversion
import EngineHeader.Proofs.Declaration.Recognition
import EngineHeader.Proofs.Token.Spelling

/-!
# Function pointers there and back

A function pointer that *fits* a dialect is read back from its text (`ofText_text`).  It fits
if its names are names, its types have no more stars than the dialect allows, and its
callbacks, which only the newer dialect has, nest at most 64 deep.

Writing follows the tree.  For each kind of tree one lemma says that its text spells tokens
that derive it (`BaseType.Fits.writes`, `Argument.Fits.writes`, `Signature.Fits.writes`).
What may be written behind it is part of the lemma: a type without stars and an argument end
with a word, and a word must not go on.  From the derivation the parser finds the tree.

Whatever is read of a text fits the dialect in which it was read, since the grammar takes
names from tokens only, and so it is read back too.
-/

namespace EngineHeader.Declaration

open Grammar Text
open Token (IsName Spells Writes WordEnds punctuation? writes_nil
  writes_keyword writes_name wordEnds_cons)

/-! ## What fits a dialect -/

/-- The name is a name, and there are no more stars than allowed. -/
structure BaseType.Fits (d : Dialect) (t : BaseType) : Prop where
  name : IsName t.name
  stars : t.indirection ≤ d.maxIndirection

/-- The names in the argument are names, its types fit, and callbacks nest at most `n`
deep. -/
inductive Argument.Fits (d : Dialect) : Nat → Argument → Prop where
  | plain {n : Nat} {type : BaseType} {name? : Option String} :
    type.Fits d → (∀ name ∈ name?, IsName name) → Fits d n (.plain type name?)
  | callback {n : Nat} {returns : BaseType} {name? : Option String} {as : List Argument} :
    d = .extension → returns.Fits d → (∀ name ∈ name?, IsName name) → (∀ a ∈ as, Fits d n a) →
    Fits d (n + 1) (.callback returns name? as)

/-- The names in the signature are names, its types fit, and callbacks nest at most 64
deep. -/
structure Signature.Fits (d : Dialect) (s : Signature) : Prop where
  returns : s.returns.Fits d
  name : IsName s.name
  arguments : ∀ a ∈ s.arguments, a.Fits d 64

/-! ## Types -/

variable {d : Dialect} {behind : List Char}

theorem writes_stars (n : Nat) :
    Writes (List.replicate n '*') (fun us => (∀ u ∈ us, u.kind = .star) ∧ us.length = n)
      behind := by
  induction n with
  | zero => exact writes_nil.mono fun h => by simp [h]
  | succ n ih =>
    refine (ih.mark (c := '*') rfl).mono ?_
    rintro _ ⟨star, stars, rfl, hk, hstars, hlength⟩
    exact ⟨List.forall_mem_cons.mpr ⟨hk, hstars⟩, congrArg (· + 1) hlength⟩

/-- The text behind the name of a type. -/
def BaseType.starText (t : BaseType) : List Char :=
  if t.isPointer then ' ' :: List.replicate t.indirection '*' else []

theorem BaseType.toList_text (t : BaseType) :
    t.text.toList = if t.isConst then "const".toList ++ (' ' :: (t.name.toList ++ t.starText))
      else t.name.toList ++ t.starText := by
  have hstars (n : Nat) : (" " ++ String.ofList (List.replicate n '*')).toList =
      ' ' :: List.replicate n '*' := by
    simp
  have hconst : "const ".toList = "const".toList ++ [' '] := rfl
  rw [text, starText, String.toList_append, String.toList_append, List.append_assoc]
  split
  · split
    · rw [hconst, hstars, List.append_assoc, List.singleton_append]
    · rw [hconst, List.append_assoc, List.singleton_append, String.toList_empty]
  · split
    · rw [hstars, String.toList_empty, List.nil_append]
    · rw [String.toList_empty, List.nil_append]

theorem BaseType.writes_starText (t : BaseType) :
    Writes t.starText (fun us => (∀ u ∈ us, u.kind = .star) ∧ us.length = t.indirection)
      behind := by
  unfold starText
  split
  · exact (writes_stars _).space
  · next h =>
    have hzero : t.indirection = 0 := by simpa [isPointer] using h
    exact writes_nil.mono fun h => by simp [h, hzero]

theorem writes_const (hb : WordEnds behind) :
    Writes "const".toList (fun us => ∃ t, us = [t] ∧ t.kind = .constWord) behind :=
  writes_keyword ⟨'c', ['o', 'n', 's', 't'], rfl, rfl, by simp [isWordPart]⟩ (by decide) hb

/-- A type is written as its tokens, unless it ends with a word that goes on. -/
theorem BaseType.Fits.writes {t : BaseType} (h : t.Fits d)
    (hb : t.isPointer = true ∨ WordEnds behind) :
    Writes t.text.toList (BaseTypeOf d · t) behind := by
  have hends : WordEnds (t.starText ++ behind) := by
    unfold starText
    split
    · exact wordEnds_cons rfl _
    · next hpointer => exact hb.resolve_left hpointer
  have hname : Writes (t.name.toList ++ t.starText) (fun us => ∃ name stars, us = name :: stars ∧
      name.kind = .identifier ∧ name.text = t.name ∧ (∀ s ∈ stars, s.kind = .star) ∧
      stars.length = t.indirection) behind := by
    refine ((writes_name h.name hends).append t.writes_starText).mono ?_
    rintro _ ⟨_, stars, rfl, ⟨name, rfl, hk, htext⟩, hstars, hlength⟩
    exact ⟨name, stars, rfl, hk, htext, hstars, hlength⟩
  have hle := h.stars
  rw [toList_text]
  obtain ⟨isConst, n, indirection⟩ := t
  cases isConst with
  | false =>
    refine hname.mono ?_
    rintro _ ⟨name, stars, rfl, hk, rfl, hstars, rfl⟩
    exact .plain hk hstars hle
  | true =>
    refine ((writes_const (wordEnds_cons (by decide) _)).append hname.space).mono ?_
    rintro _ ⟨_, _, rfl, ⟨const, rfl, hc⟩, name, stars, rfl, hk, rfl, hstars, rfl⟩
    exact .const hc hk hstars hle

/-- A type and a name are written as their tokens. -/
theorem BaseType.Fits.writes_declare {t : BaseType} (h : t.Fits d) {name : String}
    (hn : IsName name) (hb : WordEnds behind) :
    Writes (t.declare name).toList (PlainOf d · (.plain t (some name))) behind := by
  have hplain {us : List Token} (h : ∃ vs ws, us = vs ++ ws ∧ BaseTypeOf d vs t ∧
      ∃ u, ws = [u] ∧ u.kind = .identifier ∧ u.text = name) :
      PlainOf d us (.plain t (some name)) := by
    obtain ⟨vs, _, rfl, hvs, u, rfl, hk, rfl⟩ := h
    exact .mk hvs (.present hk)
  unfold declare
  split
  · next hpointer =>
    rw [String.toList_append]
    exact ((h.writes (.inl hpointer)).append (writes_name hn hb)).mono hplain
  · have hspace : (" " ++ name).toList = ' ' :: name.toList := String.toList_append
    rw [String.append_assoc, String.toList_append, hspace]
    refine ((h.writes (.inr (wordEnds_cons (by decide) _))).append ?_).mono hplain
    exact (writes_name hn hb).space

/-! ## Arguments -/

theorem argumentTexts_eq_map (as : List Argument) : argumentTexts as = as.map Argument.text := by
  induction as with
  | nil => rw [argumentTexts, List.map_nil]
  | cons a as ih => rw [argumentTexts, ih, List.map_cons]

section

variable {item : List Token → Argument → Prop}

/-- Arguments are written with a comma and a space between any two. -/
theorem writes_separated (a : Argument) (as : List Argument)
    (h : ∀ x ∈ a :: as, ∀ {behind}, WordEnds behind → Writes x.text.toList (item · x) behind)
    (hb : WordEnds behind) :
    Writes (String.intercalate ", " ((a :: as).map Argument.text)).toList
      (Separated item .comma · (a :: as)) behind := by
  obtain ⟨ha, has⟩ := List.forall_mem_cons.mp h
  induction as generalizing a with
  | nil => exact (ha hb).mono .one
  | cons b as ih =>
    rw [List.map_cons, List.map_cons, String.intercalate_cons_cons, String.append_assoc,
      String.toList_append, String.toList_append, ← List.map_cons (f := Argument.text)]
    have hmore := ih b has (List.forall_mem_cons.mp has).1 (List.forall_mem_cons.mp has).2
    have hcomma : ", ".toList = [',', ' '] := rfl
    rw [hcomma]
    refine ((ha (wordEnds_cons (by decide) _)).append (hmore.space.mark rfl)).mono ?_
    rintro _ ⟨us, _, rfl, hus, t, vs, rfl, hk, hvs⟩
    exact .more hus hk hvs

/-- Arguments are written in parentheses, which may be empty. -/
theorem writes_arguments (as : List Argument)
    (h : ∀ x ∈ as, ∀ {behind}, WordEnds behind → Writes x.text.toList (item · x) behind) :
    Writes ('(' :: ((String.intercalate ", " (as.map Argument.text)).toList ++ [')']))
      (ArgumentsOf item · as) behind := by
  cases as with
  | nil =>
    refine ((writes_nil.mark (c := ')') rfl).mark rfl).mono ?_
    rintro _ ⟨l, _, rfl, hl, r, _, rfl, hr, rfl⟩
    exact .none hl hr
  | cons a as =>
    have hinside := writes_separated a as h (wordEnds_cons (c := ')') (by decide) behind)
    refine ((hinside.append (writes_nil.mark rfl)).mark rfl).mono ?_
    rintro _ ⟨l, _, rfl, hl, vs, _, rfl, hvs, r, _, rfl, hr, rfl⟩
    exact .some hl hvs hr

/-! ## Function pointers -/

/-- The tokens of a function pointer, where those of its name have a property. -/
def PointerOf (d : Dialect) (item : List Token → Argument → Prop) (name : List Token → Prop)
    (returns : BaseType) (as : List Argument) (us : List Token) : Prop :=
  ∃ ts l s ns r vs, us = ts ++ l :: s :: (ns ++ r :: vs) ∧ BaseTypeOf d ts returns ∧
    l.kind = .leftParen ∧ s.kind = .star ∧ name ns ∧ r.kind = .rightParen ∧ ArgumentsOf item vs as

theorem toList_pointerText (returns : BaseType) (name : String) (texts : List String) :
    (pointerText returns name texts).toList = returns.text.toList ++ ' ' :: '(' :: '*' ::
      (name.toList ++ ')' :: '(' :: ((String.intercalate ", " texts).toList ++ [')'])) := by
  simp [pointerText]

theorem BaseType.Fits.writes_pointerText {returns : BaseType} {name : String}
    {nameTokens : List Token → Prop} {as : List Argument} (hreturns : returns.Fits d)
    (hname : ∀ {behind}, WordEnds behind → Writes name.toList nameTokens behind)
    (has : ∀ x ∈ as, ∀ {behind}, WordEnds behind → Writes x.text.toList (item · x) behind) :
    Writes (pointerText returns name (argumentTexts as)).toList
      (PointerOf d item nameTokens returns as) behind := by
  rw [toList_pointerText, argumentTexts_eq_map]
  have hinside : Writes _ (ArgumentsOf item · as) behind := writes_arguments as has
  have hnamed := (hname (wordEnds_cons (by decide) _)).append (hinside.mark (c := ')') rfl)
  refine ((hreturns.writes (.inr (wordEnds_cons (by decide) _))).append
    ((hnamed.mark rfl).mark rfl).space).mono ?_
  rintro _ ⟨ts, _, rfl, hts, l, _, rfl, hl, s, _, rfl, hs, ns, _, rfl, hns, r, vs, rfl, hr, hvs⟩
  exact ⟨ts, l, s, ns, r, vs, rfl, hts, hl, hs, hns, hr, hvs⟩

end

/-- The name of a callback is written if there is one. -/
theorem writes_optionalName {name? : Option String} (h : ∀ name ∈ name?, IsName name)
    (hb : WordEnds behind) : Writes (name?.getD "").toList (OptionalName · name?) behind := by
  cases name? with
  | none => exact writes_nil.mono fun heq => heq ▸ .absent
  | some name =>
    refine (writes_name (h name rfl) hb).mono ?_
    rintro _ ⟨t, rfl, hk, rfl⟩
    exact .present hk

theorem Grammar.ArgumentOf.of_plain {us : List Token} {a : Argument} (h : PlainOf d us a)
    (n : Nat) : ArgumentOf d n us a := by
  cases n with
  | zero => exact h
  | succ n => exact .inl h

/-- An argument is written as its tokens, unless it ends with a word that goes on. -/
theorem Argument.Fits.writes {n : Nat} {a : Argument} (h : a.Fits d n) :
    ∀ {behind}, WordEnds behind → Writes a.text.toList (ArgumentOf d n · a) behind := by
  induction h with
  | @plain n type name? htype hname =>
    intro behind hb
    have hplain : Writes (Argument.plain type name?).text.toList (PlainOf d · (.plain type name?))
        behind := by
      cases name? with
      | none =>
        rw [Argument.text]
        refine (htype.writes (.inr hb)).mono ?_
        intro us hus
        rw [← List.append_nil us]
        exact .mk hus .absent
      | some name =>
        rw [Argument.text]
        exact htype.writes_declare (hname name rfl) hb
    exact hplain.mono fun hus => .of_plain hus n
  | callback hd hreturns hname _ ih =>
    intro behind hb
    rw [Argument.text]
    refine (hreturns.writes_pointerText (writes_optionalName hname) ih).mono ?_
    rintro _ ⟨ts, l, s, ns, r, vs, rfl, hts, hl, hs, hns, hr, hvs⟩
    exact .inr ⟨hd, .mk hts hl hs hns hr hvs⟩

/-! ## Declarations of function pointers -/

theorem toList_signature_text (s : Signature) :
    s.text.toList = "typedef".toList ++ ' ' ::
      ((pointerText s.returns s.name (argumentTexts s.arguments)).toList ++ [';']) := by
  have htypedef : "typedef ".toList = "typedef".toList ++ [' '] := rfl
  have hsemicolon : ";".toList = [';'] := rfl
  rw [Signature.text, String.toList_append, String.toList_append, htypedef, hsemicolon,
    List.append_assoc, List.append_assoc, List.singleton_append]

theorem writes_typedef (hb : WordEnds behind) :
    Writes "typedef".toList (fun us => ∃ t, us = [t] ∧ t.kind = .typedefWord) behind :=
  writes_keyword ⟨'t', ['y', 'p', 'e', 'd', 'e', 'f'], rfl, rfl, by simp [isWordPart]⟩
    (by decide) hb

/-- A function pointer is written as the tokens of its declaration. -/
theorem Signature.Fits.writes {s : Signature} (h : s.Fits d) :
    Writes s.text.toList (fun us => ∃ word ts semicolon, us = word :: (ts ++ [semicolon]) ∧
      word.kind = .typedefWord ∧ SignatureOf d ts s ∧ semicolon.kind = .semicolon) behind := by
  have hpointer : Writes _ _ ([';'] ++ behind) :=
    h.returns.writes_pointerText (writes_name h.name) fun a ha => (h.arguments a ha).writes
  have hinside := hpointer.append (writes_nil.mark (c := ';') rfl)
  rw [toList_signature_text]
  refine ((writes_typedef (wordEnds_cons (by decide) _)).append hinside.space).mono ?_
  obtain ⟨returns, n, as⟩ := s
  rintro _ ⟨_, _, rfl, ⟨word, rfl, hw⟩, _, _, rfl,
    ⟨ts, l, s, _, r, vs, rfl, hts, hl, hs, ⟨name, rfl, hn, rfl⟩, hr, hvs⟩, semicolon, _, rfl, hsc,
    rfl⟩
  exact ⟨word, _, semicolon, rfl, hw, .mk hts hl hs hn hr hvs, hsc⟩

/-! ## There and back -/

/-- The words of one function pointer, where no comment is behind the semicolon, are read as
this function pointer. -/
theorem Parser.ofWords_function {s : Signature} {word semicolon : Token.Word}
    {ws : List Token.Word} (hword : word.kind = .typedefWord)
    (hs : SignatureOf d (ws.map Token.Word.token) s) (hsemi : semicolon.kind = .semicolon)
    (hbehind : semicolon.comments = []) :
    ofWords d ⟨[], word :: (ws ++ [semicolon])⟩ = .ok [.function s] := by
  have hread : Yields (declaration d (word :: (ws ++ [semicolon]))) (.function s, semicolon) [] :=
    yields_declaration_iff.mpr ⟨word, _, rfl, hword, function_complete hs _, hsemi⟩
  refine declarationsFrom_cons_iff.mpr ⟨_, _, _, hread, ?_⟩
  rw [hbehind, declarationsFrom_nil]
  rfl

/-- A function pointer that fits the dialect is read back from its text. -/
theorem Signature.Fits.ofText_eq {s : Signature} (h : s.Fits d) :
    Header.ofText d s.text = .ok ⟨[.function s]⟩ := by
  obtain ⟨_, ⟨word, ts, semicolon, rfl, hword, hs, hsemi⟩, hspells⟩ := h.writes .start [] .nil
  rw [List.append_nil, List.append_nil] at hspells
  rw [Header.ofText_eq_ok_iff, hspells.scanText_eq,
    Token.Words.ofTokens_eq_map hspells.kind_ne_comment, List.map_cons, List.map_append]
  have hts : (ts.map fun t => (⟨t, []⟩ : Token.Word)).map Token.Word.token = ts := by
    rw [List.map_map]
    exact List.map_id ts
  exact ⟨rfl, Parser.ofWords_function hword (hts.symm ▸ hs) hsemi rfl⟩

/-! ## What is read fits -/

namespace Grammar

variable {ts : List Token}

theorem BaseTypeOf.fits {t : BaseType} (h : BaseTypeOf d ts t)
    (hts : ∀ u ∈ ts, u.kind = .identifier → IsName u.text) : t.Fits d := by
  cases h with
  | plain hn _ hl => exact ⟨hts _ (by simp) hn, hl⟩
  | const _ hn _ hl => exact ⟨hts _ (by simp) hn, hl⟩

theorem OptionalName.isName {name? : Option String} (h : OptionalName ts name?)
    (hts : ∀ u ∈ ts, u.kind = .identifier → IsName u.text) : ∀ name ∈ name?, IsName name := by
  cases h with
  | absent => exact fun _ h => nomatch h
  | present hn =>
    rintro _ ⟨⟩
    exact hts _ (by simp) hn

theorem ArgumentOf.fits {n : Nat} {a : Argument} (h : ArgumentOf d n ts a)
    (hts : ∀ u ∈ ts, u.kind = .identifier → IsName u.text) : a.Fits d n := by
  have hplain {n : Nat} {ts : List Token} {a : Argument} (h : PlainOf d ts a)
      (hts : ∀ u ∈ ts, u.kind = .identifier → IsName u.text) : a.Fits d n := by
    obtain ⟨htype, hname⟩ := h
    obtain ⟨hfirst, hlast⟩ := List.forall_mem_append.mp hts
    exact .plain (htype.fits hfirst) (hname.isName hlast)
  induction n generalizing ts a with
  | zero => exact hplain h hts
  | succ n ih =>
    rcases h with h | ⟨hd, htype, _, _, hname, _, has⟩
    · exact hplain h hts
    · simp only [List.forall_mem_append, List.forall_mem_cons] at hts
      obtain ⟨hfirst, _, _, hnamed, _, hinside⟩ := hts
      exact .callback hd (htype.fits hfirst) (hname.isName hnamed) (has.forall ih hinside)

theorem SignatureOf.fits {s : Signature} (h : SignatureOf d ts s)
    (hts : ∀ u ∈ ts, u.kind = .identifier → IsName u.text) : s.Fits d := by
  obtain ⟨htype, _, _, hname, _, has⟩ := h
  simp only [List.forall_mem_append, List.forall_mem_cons] at hts
  obtain ⟨hfirst, _, _, hnamed, _, hinside⟩ := hts
  exact ⟨htype.fits hfirst, hnamed hname, has.forall ArgumentOf.fits hinside⟩

theorem DeclarationOf.fits {e : Declaration} (h : DeclarationOf d ts e)
    (hts : ∀ u ∈ ts, u.kind = .identifier → IsName u.text) :
    ∀ s, e = .function s → s.Fits d := by
  rintro s rfl
  obtain ⟨_, hdeclared, _⟩ := h
  cases hdeclared with
  | function hs =>
    simp only [List.forall_mem_append, List.forall_mem_cons] at hts
    exact hs.fits hts.2.1

end Grammar

/-- Whatever function pointer is read fits the dialect. -/
theorem Signature.fits_of_mem {source : String} {h : Header} {s : Signature}
    (hread : Header.ofText d source = .ok h) (hs : .function s ∈ h.declarations) : s.Fits d := by
  obtain ⟨-, hread⟩ := Header.ofText_eq_ok_iff.mp hread
  have hderives := Parser.ofWords_sound hread
  rw [Token.Words.map_token_ofTokens] at hderives
  have hnames : ∀ t ∈ Token.significant (Token.scanText source).items, t.kind = .identifier →
      IsName t.text := fun t ht => Token.isName_of_mem_scanText (List.mem_filter.mp ht).1
  have hbare : .function s ∈ (Header.withoutComments h).declarations :=
    List.mem_filterMap.mpr ⟨_, hs, rfl⟩
  exact hderives.forall DeclarationOf.fits hnames _ hbare s rfl

end EngineHeader.Declaration

namespace EngineHeader.Header

open Declaration

/-- A function pointer that fits the dialect is read back from its text, alone.  So is each
function pointer that was read of any text. -/
theorem ofText_text (d : Dialect) :
    (∀ s : Signature, s.Fits d → ofText d s.text = .ok ⟨[.function s]⟩) ∧
      ∀ (source : String) (h : Header) (s : Signature), ofText d source = .ok h →
        .function s ∈ h.declarations → ofText d s.text = .ok ⟨[.function s]⟩ :=
  ⟨fun _ hs => hs.ofText_eq, fun _ _ _ hread hs => (Signature.fits_of_mem hread hs).ofText_eq⟩

/-- A callback that takes a callback without a name, and a pointer to a constant in the older
dialect. -/
theorem ofText_text_nested :
    (Signature.Fits .extension
        ⟨⟨false, "T", 2⟩, "F", [.callback ⟨false, "T", 0⟩ (some "f")
          [.callback ⟨true, "T", 1⟩ none []]]⟩ ∧
      ofText .extension "typedef T ** (*F)(T (*f)(const T * (*)()));" =
        .ok ⟨[.function ⟨⟨false, "T", 2⟩, "F", [.callback ⟨false, "T", 0⟩ (some "f")
          [.callback ⟨true, "T", 1⟩ none []]]⟩]⟩) ∧
    ofText .native "typedef const T*( *F)(T/* in */x) ;// last" =
        .ok ⟨[.function ⟨⟨true, "T", 1⟩, "F", [.plain ⟨false, "T", 0⟩ (some "x")]⟩,
          .comment "// last"]⟩ ∧
      ofText .native "typedef const T * (*F)(T x);" =
        .ok ⟨[.function ⟨⟨true, "T", 1⟩, "F", [.plain ⟨false, "T", 0⟩ (some "x")]⟩]⟩ := by
  have hT : Token.IsName "T" := ⟨⟨'T', [], rfl, rfl, List.forall_mem_nil _⟩, by decide⟩
  have hF : Token.IsName "F" := ⟨⟨'F', [], rfl, rfl, List.forall_mem_nil _⟩, by decide⟩
  have hf : Token.IsName "f" := ⟨⟨'f', [], rfl, rfl, List.forall_mem_nil _⟩, by decide⟩
  have hfits : Signature.Fits .extension ⟨⟨false, "T", 2⟩, "F",
      [.callback ⟨false, "T", 0⟩ (some "f") [.callback ⟨true, "T", 1⟩ none []]]⟩ := by
    have hinner : Argument.Fits .extension 63 (.callback ⟨true, "T", 1⟩ none []) :=
      .callback rfl ⟨hT, by decide⟩ (by simp) (by simp)
    have houter : Argument.Fits .extension 64
        (.callback ⟨false, "T", 0⟩ (some "f") [.callback ⟨true, "T", 1⟩ none []]) :=
      .callback rfl ⟨hT, by decide⟩ (by simpa using hf) (by simpa using hinner)
    exact ⟨⟨hT, by decide⟩, hF, by simpa using houter⟩
  have hread : ofText .native "typedef const T*( *F)(T/* in */x) ;// last" =
      .ok ⟨[.function ⟨⟨true, "T", 1⟩, "F", [.plain ⟨false, "T", 0⟩ (some "x")]⟩,
        .comment "// last"]⟩ := by cbv
  have hdeep : Signature.text ⟨⟨false, "T", 2⟩, "F", [.callback ⟨false, "T", 0⟩ (some "f")
      [.callback ⟨true, "T", 1⟩ none []]]⟩ = "typedef T ** (*F)(T (*f)(const T * (*)()));" := by
    cbv
  have hflat : Signature.text ⟨⟨true, "T", 1⟩, "F", [.plain ⟨false, "T", 0⟩ (some "x")]⟩ =
      "typedef const T * (*F)(T x);" := by cbv
  refine ⟨⟨hfits, ?_⟩, hread, ?_⟩
  · rw [← hdeep]
    exact (ofText_text .extension).1 _ hfits
  · rw [← hflat]
    exact (ofText_text .native).2 _ _ _ hread List.mem_cons_self

end EngineHeader.Header
