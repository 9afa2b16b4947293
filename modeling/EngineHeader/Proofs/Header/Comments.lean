import EngineHeader.Proofs.Declaration.Placement
import EngineHeader.Proofs.Declaration.Recognition

/-!
# The comments of a header are in their places

Each header that is read stands in the tokens of its text, and its comments are those that belong
there (`Header.ofText_headerAt`).  The parser reads words, which have the comments behind them.
To spread the words out again gives the tokens, and so each function of the parser has a lemma
that says what the tokens of the words are.  Comments that stand behind a semicolon go in front
of the next field, or between declarations.
-/

namespace EngineHeader

namespace Token

/-! ## Words and their tokens -/

/-- A word is no comment, and only comments are behind it. -/
structure Word.Proper (w : Word) : Prop where
  kind_ne : w.token.kind ≠ .comment
  comments : ∀ c ∈ w.comments, c.kind = .comment

/-- The tokens of words, with the comments behind each. -/
def spread (ws : List Word) : List Token := ws.flatMap fun w => w.token :: w.comments

variable {ws : List Word} {ts : List Token}

@[simp] theorem spread_nil : spread [] = [] := rfl

theorem spread_cons (w : Word) (ws : List Word) :
    spread (w :: ws) = w.token :: (w.comments ++ spread ws) := rfl

theorem spread_append (vs ws : List Word) : spread (vs ++ ws) = spread vs ++ spread ws :=
  List.flatMap_append

/-- The words of tokens are proper. -/
theorem proper_ofTokens (ts : List Token) :
    (∀ t ∈ (Words.ofTokens ts).leading, t.kind = .comment) ∧
      ∀ w ∈ (Words.ofTokens ts).words, w.Proper := by
  induction ts with
  | nil => exact ⟨List.forall_mem_nil _, List.forall_mem_nil _⟩
  | cons t ts ih =>
    obtain ⟨hleading, hwords⟩ := ih
    rw [Words.ofTokens_cons]
    split
    · next hk => exact ⟨List.forall_mem_cons.mpr ⟨hk, hleading⟩, hwords⟩
    · next hk =>
      exact ⟨List.forall_mem_nil _, List.forall_mem_cons.mpr ⟨⟨hk, hleading⟩, hwords⟩⟩

theorem significant_comments (h : ∀ t ∈ ts, t.kind = .comment) : significant ts = [] := by
  simpa [significant] using h

theorem significant_spread (h : ∀ w ∈ ws, w.Proper) :
    significant (spread ws) = ws.map Word.token := by
  induction ws with
  | nil => rfl
  | cons w ws ih =>
    obtain ⟨hw, hws⟩ := List.forall_mem_cons.mp h
    have htoken : significant [w.token] = [w.token] := by simp [significant, hw.kind_ne]
    rw [spread_cons, ← List.singleton_append, significant_append, significant_append, htoken,
      significant_comments hw.comments, ih hws]
    rfl

/-- Behind comments, the tokens of words through the last of them. -/
theorem significant_through {cs : List Token} {w : Word} (hcs : ∀ t ∈ cs, t.kind = .comment)
    (hws : ∀ w ∈ ws, w.Proper) (hw : w.Proper) :
    significant (cs ++ spread ws ++ [w.token]) = (ws ++ [w]).map Word.token := by
  have hlast : significant [w.token] = [w.token] := by simp [significant, hw.kind_ne]
  rw [significant_append, significant_append, significant_comments hcs, significant_spread hws,
    hlast, List.nil_append, List.map_append]
  rfl

/-- The first token of words is no comment. -/
theorem kind_ne_of_head_spread (h : ∀ w ∈ ws, w.Proper) :
    ∀ t ∈ (spread ws).head?, t.kind ≠ .comment := by
  cases ws with
  | nil => nofun
  | cons w ws =>
    rintro _ ⟨⟩
    exact (h w List.mem_cons_self).kind_ne

/-- Among the tokens of words are those of the words and comments. -/
theorem kind_ne_of_mem_spread {k : Kind} (hk : k ≠ .comment)
    (h : ∀ w ∈ ws, w.Proper ∧ w.kind ≠ k) : ∀ t ∈ spread ws, t.kind ≠ k := by
  intro t ht
  obtain ⟨w, hw, ht⟩ := List.mem_flatMap.mp ht
  obtain ⟨hproper, hne⟩ := h w hw
  rcases List.mem_cons.mp ht with rfl | ht
  · exact hne
  · rw [hproper.comments t ht]
    exact hk.symm

end Token

namespace Declaration.Parser

open Grammar
open Token (Word Words spread spread_cons spread_append significant)

variable {d : Dialect} {ws rest : List Word}

/-! ## Fields -/

/-- The comment of a field is the one that belongs to it. -/
theorem fieldComment?_eq_some_iff {close semicolon : Word} (hclose : close.Proper)
    (hsemi : semicolon.Proper) (hrest : ∀ w ∈ rest, w.Proper) (c : String) :
    fieldComment? close semicolon = some c ↔
      Keeps (close.comments ++ semicolon.token :: (semicolon.comments ++ spread rest))
        (semicolon.comments ++ spread rest) semicolon.token.position.line c := by
  obtain ⟨r, behindClose⟩ := close
  obtain ⟨semicolon, behindSemi⟩ := semicolon
  obtain ⟨hne, hlast⟩ := hsemi
  replace hclose := hclose.comments
  rw [fieldComment?, Keeps]
  cases behindClose with
  | cons a as =>
    have ha : a.kind = .comment := hclose a List.mem_cons_self
    constructor
    · rintro ⟨⟩
      exact .inl ⟨a, rfl, ha, rfl⟩
    · rintro (⟨t, ⟨⟩, _, rfl⟩ | ⟨hnot, _⟩)
      · rfl
      · exact absurd ha (hnot a rfl)
  | nil =>
    cases behindSemi with
    | nil =>
      constructor
      · intro h
        cases h
      · rintro (⟨t, ⟨⟩, hk, _⟩ | ⟨_, t, ht, hk, _⟩)
        · exact absurd hk hne
        · exact absurd hk (Token.kind_ne_of_head_spread hrest t ht)
    | cons b bs =>
      have hb : b.kind = .comment := hlast b List.mem_cons_self
      constructor
      · intro h
        dsimp only at h
        split at h
        · next hline =>
          cases h
          refine .inr ⟨?_, b, rfl, hb, rfl, hline⟩
          rintro _ ⟨⟩
          exact hne
        · cases h
      · rintro (⟨t, ⟨⟩, hk, _⟩ | ⟨_, t, ⟨⟩, _, rfl, hline⟩)
        · exact absurd hk hne
        · exact if_pos hline

/-- Comments and the words of a field behind them are the tokens of the field. -/
theorem field_at {f : Field} (h : Yields (field d ws) f rest) (hws : ∀ w ∈ ws, w.Proper)
    {cs : List Token} (hcs : ∀ t ∈ cs, t.kind = .comment) :
    ∃ ts cs', (∀ t ∈ cs', t.kind = .comment) ∧ cs ++ spread ws = ts ++ (cs' ++ spread rest) ∧
      FieldAt d (cs' ++ spread rest) ts f := by
  obtain ⟨type, ws₁, hread, hfield⟩ := yields_field_iff.mp h
  obtain ⟨front, rfl, ht⟩ := baseType_sound hread
  rcases hfield with ⟨_, n, ws₂, as, close, semicolon, hname, has, hk, rfl⟩ |
    ⟨name, semicolon, rfl, hnk, hk, rfl⟩
  · obtain ⟨taken, htaken, hclosek, hsig⟩ := signature_sound ht hname has
    rw [htaken] at hws ⊢
    rw [List.forall_mem_append, List.forall_mem_cons, List.forall_mem_cons] at hws
    obtain ⟨htakenws, hclose, hsemi, hrest⟩ := hws
    refine ⟨cs ++ spread taken ++ close.token :: (close.comments ++ [semicolon.token]),
      semicolon.comments, hsemi.comments, ?_, ?_⟩
    · simp [spread_append, spread_cons]
    · refine .function ?_ hclosek hclose.comments hk ?_
      · rwa [Token.significant_through hcs htakenws hclose]
      · exact fieldComment?_eq_some_iff hclose hsemi hrest
  · rw [List.append_cons] at hws ⊢
    rw [List.forall_mem_append, List.forall_mem_cons] at hws
    obtain ⟨hfront, hsemi, _⟩ := hws
    refine ⟨cs ++ spread (front ++ [name]) ++ [semicolon.token], semicolon.comments,
      hsemi.comments, ?_, .plain ?_ hk⟩
    · simp [spread_append, spread_cons]
    · rw [Token.significant_through hcs hfront hsemi]
      have hplain : FieldOf d _ (.plain type name.text) := .plain ht hnk hk
      simpa using hplain

/-- Comments and the words of fields behind them are the tokens of the fields, and then the brace
that closes them. -/
theorem fields_at {fs : List Field} (h : Yields (fields d ws) fs rest)
    (hws : ∀ w ∈ ws, w.Proper) {cs : List Token} (hcs : ∀ t ∈ cs, t.kind = .comment) :
    ∃ inside between r, (∀ t ∈ between, t.kind = .comment) ∧ r.kind = .rightBrace ∧
      cs ++ spread ws = inside ++ (between ++ spread (r :: rest)) ∧
      FieldsAt d (between ++ spread (r :: rest)) inside fs := by
  induction hlen : ws.length using Nat.strongRecOn generalizing ws fs rest cs with
  | ind n ih =>
  rcases yields_fields_iff.mp h with ⟨r, rfl, hr, rfl⟩ |
    ⟨_, first, mid, others, hfirst, hothers, rfl⟩
  · exact ⟨[], cs, r, hcs, hr, rfl, .none⟩
  · obtain ⟨ts, cs', hcs', heq, hfield⟩ := field_at hfirst hws hcs
    obtain ⟨front, rfl, _⟩ := field_sound hfirst
    have hmid := (List.forall_mem_append.mp hws).2
    obtain ⟨inside, between, r, hbetween, hr, hmore, hfields⟩ :=
      ih _ (hlen ▸ hfirst.shorter) hothers hmid hcs' rfl
    rw [hmore] at heq hfield
    refine ⟨ts ++ inside, between, r, hbetween, hr, ?_, .more hfield hfields⟩
    rw [heq, List.append_assoc]

/-! ## Declarations -/

/-- A structure is its two words and a brace, its fields, a brace and its name. -/
theorem struct_at {s : Struct} (h : Yields (declared d ws) (.struct s) rest)
    (hws : ∀ w ∈ ws, w.Proper) :
    ∃ (word l : Word) (inside between : List Token) (r name : Word),
      (∀ t ∈ between, t.kind = .comment) ∧ word.Proper ∧ word.kind = .structWord ∧
      l.kind = .leftBrace ∧ r.kind = .rightBrace ∧
      spread ws = word.token :: (word.comments ++
        l.token :: (inside ++ (between ++ spread (r :: name :: rest)))) ∧
      FieldsAt d (between ++ spread (r :: name :: rest)) inside s.fields := by
  rcases yields_declared_iff.mp h with ⟨_, _, _, _, _, _, heq⟩ |
    ⟨word, behind, _, rfl, hw, hread, heq⟩ | ⟨_, _, hread⟩
  · cases heq
  · cases heq
    obtain ⟨l, fieldWords, name, rfl, hl, hfields, _, _⟩ := yields_struct_iff.mp hread
    obtain ⟨hword, hlw, hfieldWords⟩ := by simpa using hws
    obtain ⟨inside, between, r, hbetween, hr, heq, hat⟩ :=
      fields_at hfields hfieldWords hlw.comments
    refine ⟨word, l, inside, between, r, name, hbetween, hword, hw, hl, hr, ?_, hat⟩
    rw [spread_cons, spread_cons, heq]
  · obtain ⟨_, _, _, ⟨_, _, _, _, _, _, _, heq⟩ | ⟨_, _, _, heq⟩⟩ :=
      yields_aliasOrFunction_iff.mp hread
    · cases heq
    · cases heq

/-- In the tokens of a declaration, the fields of a structure stand between its braces. -/
theorem struct_fieldsAt {s : Struct} {word semicolon : Word} {front : List Word}
    (h : Yields (declared d (front ++ semicolon :: rest)) (.struct s) (semicolon :: rest))
    (hw : word.kind = .typedefWord) (hword : word.Proper)
    (hws : ∀ w ∈ front ++ semicolon :: rest, w.Proper) :
    ∃ (before : List Token) (l : Token) (inside between : List Token) (r : Token)
      (after : List Token),
      spread (word :: front) ++ [semicolon.token] =
        before ++ l :: (inside ++ (between ++ r :: after)) ∧
      (∀ t ∈ before, t.kind ≠ .leftBrace) ∧ l.kind = .leftBrace ∧
      FieldsAt d (between ++ r :: after) inside s.fields ∧
      (∀ t ∈ between, t.kind = .comment) ∧ r.kind = .rightBrace := by
  obtain ⟨word₂, l, inside, between, r, name, hbetween, hword₂, hw₂, hl, hr, heq, hfields⟩ :=
    struct_at h hws
  refine ⟨spread [word, word₂], l.token, inside, between, r.token,
    r.comments ++ name.token :: (name.comments ++ [semicolon.token]), ?_, ?_, hl,
    hfields.of_head ?_, hbetween, hr⟩
  · have hboth : spread front ++ [semicolon.token] ++ (semicolon.comments ++ spread rest) =
        word₂.token :: (word₂.comments ++ l.token :: (inside ++ (between ++
          r.token :: (r.comments ++ name.token :: (name.comments ++ [semicolon.token]))))) ++
        (semicolon.comments ++ spread rest) := by
      simpa [spread_append, spread_cons] using heq
    rw [spread_cons, List.cons_append, List.append_assoc, List.append_cancel_right hboth]
    simp [spread_cons]
  · have hboth : ∀ w ∈ [word, word₂], w.Proper ∧ w.kind ≠ .leftBrace := by
      rintro w (_ | ⟨_, _ | ⟨_, ⟨⟩⟩⟩)
      · exact ⟨hword, hw.trans_ne (by decide)⟩
      · exact ⟨hword₂, hw₂.trans_ne (by decide)⟩
    exact Token.kind_ne_of_mem_spread (by decide) hboth
  · rw [spread_cons]
    cases between <;> rfl

/-- The tokens of a declaration go through its semicolon. -/
theorem declaration_at {content : Declaration} {semicolon : Word}
    (h : Yields (declaration d ws) (content, semicolon) rest) (hws : ∀ w ∈ ws, w.Proper) :
    ∃ ts front, ws = front ++ semicolon :: rest ∧
      spread ws = ts ++ (semicolon.comments ++ spread rest) ∧ DeclarationAt d ts content := by
  obtain ⟨word, behind, rfl, hw, hread, hk⟩ := yields_declaration_iff.mp h
  obtain ⟨front, bare, rfl, hbare, hdeclared⟩ := declared_sound hread
  obtain ⟨hword, hbehind⟩ := List.forall_mem_cons.mp hws
  have hsplit := hbehind
  rw [List.forall_mem_append, List.forall_mem_cons] at hsplit
  obtain ⟨hfront, hsemi, _⟩ := hsplit
  have hsignificant : significant (spread (word :: front) ++ [semicolon.token]) =
      word.token :: (front.map Word.token ++ [semicolon.token]) := by
    have hthrough := Token.significant_through (List.forall_mem_nil _)
      (List.forall_mem_cons.mpr ⟨hword, hfront⟩) hsemi
    simpa using hthrough
  refine ⟨spread (word :: front) ++ [semicolon.token], word :: front, rfl, ?_, ?_⟩
  · simp [spread_append, spread_cons]
  · constructor
    · exact ⟨word.token, rfl, hw⟩
    · exact ⟨semicolon.token, List.getLast?_concat, hk⟩
    · rw [hsignificant]
      exact ⟨bare, .mk hw hdeclared hk, hbare⟩
    · rintro s rfl
      exact struct_fieldsAt hread hw hword hbehind

/-! ## Headers -/

/-- Comments between declarations are entries of their own. -/
theorem headerAt_comments {cs ts : List Token} {ds : List Declaration}
    (hcs : ∀ t ∈ cs, t.kind = .comment) (h : HeaderAt d ts ds) :
    HeaderAt d (cs ++ ts) (comments cs ++ ds) := by
  induction cs with
  | nil => exact h
  | cons c cs ih =>
    obtain ⟨hc, hcs⟩ := List.forall_mem_cons.mp hcs
    exact .comment hc (ih hcs)

/-- The declarations of words stand in their tokens. -/
theorem declarationsFrom_at {taken ds : List Declaration}
    (h : declarationsFrom d taken ws = .ok ds) (hws : ∀ w ∈ ws, w.Proper) :
    ∃ new, ds = taken.reverse ++ new ∧ HeaderAt d (spread ws) new := by
  induction hlen : ws.length using Nat.strongRecOn generalizing ws taken with
  | ind n ih =>
  cases ws with
  | nil =>
    rw [declarationsFrom_nil] at h
    cases h
    exact ⟨[], by simp, .nil⟩
  | cons w ws =>
    obtain ⟨content, semicolon, behind, hread, hmore⟩ := declarationsFrom_cons_iff.mp h
    obtain ⟨ts, front, hsplit, heq, hat⟩ := declaration_at hread hws
    rw [hsplit, List.forall_mem_append, List.forall_mem_cons] at hws
    obtain ⟨_, hsemi, hbehind⟩ := hws
    obtain ⟨new, rfl, hnew⟩ := ih _ (hlen ▸ hread.shorter) hmore hbehind rfl
    refine ⟨content :: (comments semicolon.comments ++ new), by simp, ?_⟩
    rw [heq]
    exact .declaration hat (headerAt_comments hsemi.comments hnew)

end Declaration.Parser

namespace Header

open Declaration Declaration.Grammar
open Token (Words scanText spread)

/-- The comments of a header are in their places.  Each comment between declarations is an entry,
in order.  A function pointer in a structure keeps the comment right behind its arguments, or
else the one right behind its semicolon that begins on the same line.  No other comments are
kept, and none is kept twice. -/
theorem ofText_headerAt (d : Dialect) (text : String) (h : Header) (hread : ofText d text = .ok h) :
    HeaderAt d (scanText text).items h.declarations ∧
      (h.declarations.flatMap Declaration.commentTexts).Sublist
        (Token.commentTexts (scanText text).items) := by
  obtain ⟨_, hwords⟩ := ofText_eq_ok_iff.mp hread
  obtain ⟨hleading, hproper⟩ := Token.proper_ofTokens (scanText text).items
  obtain ⟨new, hnew, hat⟩ := Parser.declarationsFrom_at hwords hproper
  have htokens : (Words.ofTokens (scanText text).items).leading ++
      spread (Words.ofTokens (scanText text).items).words = (scanText text).items :=
    Words.tokens_ofTokens _
  have hheader : HeaderAt d (scanText text).items h.declarations := by
    rw [← htokens, hnew, List.reverse_reverse]
    exact Parser.headerAt_comments hleading hat
  exact ⟨hheader, hheader.sublist⟩

/-- Of two comments behind a function pointer the one behind its arguments is kept.  A comment
on the next line is lost, and one behind the declaration is an entry. -/
theorem ofText_headerAt_fields :
    ∃ h ts, ofText .extension
        "typedef struct \x7b T (*F)()/*a*/; //b\n T (*G)(); //c\n T (*H)();\n//d\n \x7d S; //e" =
          .ok h ∧
      HeaderAt .extension ts h.declarations ∧
      Token.commentTexts ts = ["/*a*/", "//b", "//c", "//d", "//e"] ∧
      h.declarations.flatMap Declaration.commentTexts = ["/*a*/", "//c", "//e"] := by
  have hread : ofText .extension
      "typedef struct \x7b T (*F)()/*a*/; //b\n T (*G)(); //c\n T (*H)();\n//d\n \x7d S; //e" =
        .ok ⟨[.struct ⟨"S", [.function ⟨⟨false, "T", 0⟩, "F", []⟩ (some "/*a*/"),
          .function ⟨⟨false, "T", 0⟩, "G", []⟩ (some "//c"),
          .function ⟨⟨false, "T", 0⟩, "H", []⟩ none]⟩, .comment "//e"]⟩ := by cbv
  exact ⟨_, _, hread, (ofText_headerAt _ _ _ hread).1, by cbv, by cbv⟩

end Header

end EngineHeader
