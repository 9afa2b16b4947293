import EngineHeader.Proofs.Declaration.Completion
import EngineHeader.Proofs.Declaration.InStep
import EngineHeader.Proofs.Declaration.Recognition

/-!
# Comments and layout declare nothing

What a header declares depends on its tokens, comments aside, and on nothing else.  If two texts
have the same tokens, apart from comments and positions, then both are read and differ at most in
their comments, or both fail at the same token with the same message (`Header.ofText_layout`).

The two texts are read in step.  What corresponds are words with the same token, whatever comments
are behind them, and fields that are the same without their comments (`bare`).
-/

namespace EngineHeader

/-- A token, apart from where it begins. -/
def Token.content (t : Token) : Kind × String := (t.kind, t.text)

theorem Token.describe_eq_of_content {t u : Token} (h : t.content = u.content) :
    t.describe = u.describe := by
  rw [describe, describe, show t.kind = u.kind from congrArg Prod.fst h,
    show t.text = u.text from congrArg Prod.snd h]

namespace Declaration.Parser

open Grammar
open Token (Word Words content)

variable {d : Dialect}

/-- Words with the same token correspond, and so do fields that are the same without their
comments. -/
def bare : Pairing where
  word w w' := w.token.content = w'.token.content
  field f f' := f.withoutComment = f'.withoutComment
  kind h := congrArg Prod.fst h
  text h := congrArg Prod.snd h
  plain _ _ := rfl
  function _ _ _ _ _ _ _ := rfl

/-- Declarations that correspond are the same without their comments. -/
theorem withoutComments?_eq_of_bare {e e' : Declaration} (h : bare.declared e e') :
    e.withoutComments? = e'.withoutComments? := by
  cases h with
  | enumeration e => rfl
  | typeAlias a => rfl
  | function s => rfl
  | @struct s s' h =>
    have hfields : s.fields.map Field.withoutComment = s'.fields.map Field.withoutComment := by
      rw [← List.forall₂_eq_eq_eq, List.forall₂_map_left_iff, List.forall₂_map_right_iff]
      exact h.fields
    rw [withoutComments?, withoutComments?, h.name, hfields]

/-- Words with the same tokens are read as the same declarations, comments aside, or get stuck at
the same word. -/
theorem ofWords_layout {ws ws' : Words}
    (h : (ws.words.map Word.token).map content = (ws'.words.map Word.token).map content) :
    Agree bare (fun ds ds' => ds.filterMap withoutComments? = ds'.filterMap withoutComments?)
      (ofWords d ws) (ofWords d ws') := by
  have hwords : bare.words ws.words ws'.words := by
    rw [List.map_map, List.map_map, ← List.forall₂_eq_eq_eq, List.forall₂_map_left_iff,
      List.forall₂_map_right_iff] at h
    exact h
  refine declarationsFrom_inStep ?_ ?_ hwords
  · intro ds ds' e e' s s' htaken he _
    simp only [List.filterMap_append, List.filterMap_cons, filterMap_comments, htaken,
      withoutComments?_eq_of_bare he]
  · rw [List.reverse_reverse, List.reverse_reverse, filterMap_comments, filterMap_comments]

/-- Words get stuck at one of them or at the end. -/
theorem ofWords_stuck {ws : Words} {s : Stuck} (h : ofWords d ws = .error s) :
    ∃ front, ws.words = front ++ s.rest ∧
      Completable (fun ts => ∃ ds, Many (DeclarationOf d) ts ds) (front.map Word.token) :=
  declarationsFrom_viable _ _ s h

end Declaration.Parser

namespace Header

open Declaration Declaration.Parser
open Token (Words content scanText significant)

variable {d : Dialect} {text : String}

/-- An error of the grammar is where the words of the text get stuck. -/
theorem ofText_eq_grammar {found : Token} {expected : Expected}
    (h : ofText d text = .error (.grammar found expected)) :
    (scanText text).error? = none ∧ ∃ s, ofWords d (.ofTokens (scanText text).items) = .error s ∧
      found = s.found (Position.start.advance text.toList) ∧ expected = s.expected := by
  cases hs : (scanText text).error? with
  | some e =>
    have hreads := Token.reads_scanText text
    rw [hs] at hreads
    obtain ⟨r, what, rfl⟩ := hreads.unrecognized
    rw [ofText_of_error hs] at h
    cases h
  | none =>
    rw [ofText_of_scanned hs] at h
    cases hwords : ofWords d (.ofTokens (scanText text).items) with
    | ok ds =>
      rw [hwords] at h
      cases h
    | error s =>
      rw [hwords] at h
      cases h
      exact ⟨rfl, s, rfl, rfl, rfl⟩

/-- Comments and layout declare nothing.  Two texts with the same tokens, apart from comments
and positions, are read as the same header, comments aside.  Otherwise both fail with the same
message at the same token, or both at the end. -/
theorem ofText_layout (d : Dialect) (a b : String) (ha : (scanText a).error? = none)
    (hb : (scanText b).error? = none)
    (h : (significant (scanText a).items).map content =
      (significant (scanText b).items).map content) :
    (∃ g g', ofText d a = .ok g ∧ ofText d b = .ok g' ∧
      g.withoutComments = g'.withoutComments) ∨
    ∃ (t t' : Token) (expected : Expected), ofText d a = .error (.grammar t expected) ∧
      ofText d b = .error (.grammar t' expected) ∧ t.describe = t'.describe ∧
      ((∃ n : Nat, (significant (scanText a).items)[n]? = some t ∧
          (significant (scanText b).items)[n]? = some t') ∨
        t = .atEnd (Position.start.advance a.toList) ∧
          t' = .atEnd (Position.start.advance b.toList)) := by
  rw [ofText_of_scanned ha, ofText_of_scanned hb]
  simp only [← Words.map_token_ofTokens] at h ⊢
  have hagree := ofWords_layout (d := d) h
  generalize hr : ofWords d (.ofTokens (scanText a).items) = r at hagree ⊢
  generalize hr' : ofWords d (.ofTokens (scanText b).items) = r' at hagree ⊢
  cases hagree with
  | read hds => exact .inl ⟨_, _, rfl, rfl, congrArg Header.mk hds⟩
  | @stuck s s' hrest hexpected =>
    obtain ⟨rest, expected⟩ := s
    obtain ⟨rest', expected'⟩ := s'
    cases hexpected
    refine .inr ⟨_, _, expected, rfl, rfl, ?_⟩
    cases hrest with
    | nil => exact ⟨rfl, .inr ⟨rfl, rfl⟩⟩
    | @cons w w' rest rest' hw hrest =>
      obtain ⟨front, hfront, _⟩ := ofWords_stuck hr
      obtain ⟨front', hfront', _⟩ := ofWords_stuck hr'
      have hlength : front.length = front'.length := by
        have hall := congrArg List.length h
        have hbehind := hrest.length_eq
        simp only [hfront, hfront', List.length_map, List.length_append, List.length_cons] at hall
        omega
      refine ⟨Token.describe_eq_of_content hw, .inl ⟨front.length, ?_, ?_⟩⟩
      · rw [hfront]
        simp [Stuck.found]
      · rw [hfront', hlength]
        simp [Stuck.found]

/-- One star too many, behind a callback.  Comments and a line break do not matter. -/
theorem ofText_layout_stars :
    (scanText "typedef T (*F)(T(*)(/**/), T**//\n*);").error? = none ∧
      (scanText "typedef T(*F)(T(*)(),T***);").error? = none ∧
      (significant (scanText "typedef T (*F)(T(*)(/**/), T**//\n*);").items).map content =
        (significant (scanText "typedef T(*F)(T(*)(),T***);").items).map content ∧
      ofText .extension "typedef T (*F)(T(*)(/**/), T**//\n*);" =
        .error (.grammar ⟨.star, "*", ⟨33, 2, 1⟩⟩ .argumentsEnd) ∧
      ∃ t, ofText .extension "typedef T(*F)(T(*)(),T***);" = .error (.grammar t .argumentsEnd) ∧
        t.describe = "'*'" := by
  have ha : (scanText "typedef T (*F)(T(*)(/**/), T**//\n*);").error? = none := by cbv
  have hb : (scanText "typedef T(*F)(T(*)(),T***);").error? = none := by cbv
  have h : (significant (scanText "typedef T (*F)(T(*)(/**/), T**//\n*);").items).map content =
      (significant (scanText "typedef T(*F)(T(*)(),T***);").items).map content := by cbv
  have herror : ofText .extension "typedef T (*F)(T(*)(/**/), T**//\n*);" =
      .error (.grammar ⟨.star, "*", ⟨33, 2, 1⟩⟩ .argumentsEnd) := by cbv
  refine ⟨ha, hb, h, herror, ?_⟩
  rcases ofText_layout .extension _ _ ha hb h with
    ⟨_, _, hok, _⟩ | ⟨_, t, _, hfirst, hsecond, hdescribe, _⟩
  · rw [herror] at hok
    cases hok
  · rw [herror] at hfirst
    cases hfirst
    exact ⟨t, hsecond, hdescribe.symm⟩

end Header

end EngineHeader
