import EngineHeader.Proofs.Declaration.Reading

/-!
# What a reading took

One lemma for each function of the parser that is made of others.  It says exactly when
the function yields something: which words it took itself, what it read of the others and
what it made of that.  Nothing is lost on the way from the function to the lemma, so it can
be used in both directions, and nobody has to open the function again.

The lemmas keep what a derivation forgets: the word that closes a list of arguments and
the semicolon, with the comments behind them.
-/

namespace EngineHeader.Declaration.Parser

open Token (Kind Word)

variable {d : Dialect} {ws rest : List Word}

theorem startsWith_of_accept? {kind : Kind} (h : accept? kind ws = none) :
    startsWith kind ws = false := by
  cases ws with
  | nil => rfl
  | cons w ws =>
    rw [accept?] at h
    split at h
    · cases h
    · next hk => simpa [startsWith] using hk

/-! ## Arguments -/

/-- Arguments are a first one and the closing parenthesis, or a first one, a comma and more
arguments. -/
theorem yields_someArguments_iff {argument : (ws : List Word) → Reading Argument ws}
    {as : List Argument} {close : Word} :
    Yields (someArguments argument ws) (as, close) rest ↔
      ∃ first mid, Yields (argument ws) first mid ∧
        (mid = close :: rest ∧ close.kind = .rightParen ∧ as = [first] ∨
          ∃ comma behind others, mid = comma :: behind ∧ comma.kind = .comma ∧
            Yields (someArguments argument behind) (others, close) rest ∧ as = first :: others) := by
  rw [someArguments]
  constructor
  · intro h
    obtain ⟨first, mid, hfirst, _, h⟩ := h.of_bind
    refine ⟨first, mid, hfirst, ?_⟩
    dsimp only at h
    split at h
    · next comma behind _ heq =>
      obtain ⟨rfl, hcomma⟩ := accept?_eq_some heq
      obtain ⟨⟨others, _⟩, _, hothers, _, h⟩ := h.of_bind
      obtain ⟨heq, rfl⟩ := yields_pure_iff.mp h
      cases heq
      exact .inr ⟨comma, behind, others, rfl, hcomma, hothers, rfl⟩
    · obtain ⟨_, _, hclose, _, h⟩ := h.of_bind
      obtain ⟨rfl, hk⟩ := yields_expect_iff.mp hclose
      obtain ⟨heq, rfl⟩ := yields_pure_iff.mp h
      cases heq
      exact .inl ⟨rfl, hk, rfl⟩
  · rintro ⟨first, mid, hfirst, ⟨rfl, hk, rfl⟩ | ⟨comma, behind, others, rfl, hk, hothers, rfl⟩⟩
    · refine hfirst.bind fun _ => ?_
      dsimp only
      rw [accept?_eq_none (startsWith_eq_false hk (by decide))]
      exact (yields_expect hk).bind fun _ => yields_pure _
    · refine hfirst.bind fun _ => ?_
      dsimp only
      rw [accept?_cons hk]
      exact hothers.bind fun _ => yields_pure _

/-- Either the parenthesis is closed at once, or there are arguments in it. -/
theorem yields_argumentsOf_iff {argument : (ws : List Word) → Reading Argument ws}
    {as : List Argument} {close : Word} :
    Yields (argumentsOf argument ws) (as, close) rest ↔
      ∃ l inside, ws = l :: inside ∧ l.kind = .leftParen ∧
        (inside = close :: rest ∧ close.kind = .rightParen ∧ as = [] ∨
          startsWith .rightParen inside = false ∧
            Yields (someArguments argument inside) (as, close) rest) := by
  rw [argumentsOf]
  constructor
  · intro h
    obtain ⟨l, inside, hl, _, h⟩ := h.of_bind
    obtain ⟨rfl, hlk⟩ := yields_expect_iff.mp hl
    refine ⟨l, inside, rfl, hlk, ?_⟩
    dsimp only at h
    split at h
    · next r behind _ heq =>
      obtain ⟨rfl, hr⟩ := accept?_eq_some heq
      obtain ⟨heq, rfl⟩ := yields_pure_iff.mp h
      cases heq
      exact .inl ⟨rfl, hr, rfl⟩
    · next hnone =>
      obtain ⟨⟨_, _⟩, _, has, _, h⟩ := h.of_bind
      obtain ⟨heq, rfl⟩ := yields_pure_iff.mp h
      cases heq
      exact .inr ⟨startsWith_of_accept? hnone, has⟩
  · rintro ⟨l, inside, rfl, hl, ⟨rfl, hk, rfl⟩ | ⟨hopen, has⟩⟩
    · refine (yields_expect hl).bind fun _ => ?_
      dsimp only
      rw [accept?_cons hk]
      exact yields_pure _
    · refine (yields_expect hl).bind fun _ => ?_
      dsimp only
      rw [accept?_eq_none hopen]
      exact has.bind fun _ => yields_pure _

/-! ## Structures -/

/-- A field is a function pointer if a parenthesis follows its base type, and otherwise a
name follows. -/
theorem yields_field_iff {f : Field} :
    Yields (field d ws) f rest ↔
      ∃ type ws₁, Yields (baseType d ws) type ws₁ ∧
        (startsWith .leftParen ws₁ = true ∧
            (∃ name ws₂ as close semicolon, Yields (pointerName ws₁) name ws₂ ∧
              Yields (arguments d ws₂) (as, close) (semicolon :: rest) ∧
              semicolon.kind = .semicolon ∧
              f = .function ⟨type, name, as⟩ (fieldComment? close semicolon)) ∨
          ∃ name semicolon, ws₁ = name :: semicolon :: rest ∧ name.kind = .identifier ∧
            semicolon.kind = .semicolon ∧ f = .plain type name.text) := by
  rw [field]
  constructor
  · intro h
    obtain ⟨type, ws₁, htype, _, h⟩ := h.of_bind
    refine ⟨type, ws₁, htype, ?_⟩
    dsimp only at h
    split at h
    · next hparen =>
      obtain ⟨name, ws₂, hname, _, h⟩ := h.of_bind
      obtain ⟨⟨as, close⟩, _, has, _, h⟩ := h.of_bind
      obtain ⟨semicolon, _, hsemi, _, h⟩ := h.of_bind
      obtain ⟨rfl, hk⟩ := yields_expect_iff.mp hsemi
      obtain ⟨rfl, rfl⟩ := yields_pure_iff.mp h
      exact .inl ⟨hparen, name, ws₂, as, close, semicolon, hname, has, hk, rfl⟩
    · obtain ⟨_, _, hname, _, h⟩ := h.of_bind
      obtain ⟨name, rfl, hnk, rfl⟩ := yields_name_iff.mp hname
      obtain ⟨semicolon, _, hsemi, _, h⟩ := h.of_bind
      obtain ⟨rfl, hk⟩ := yields_expect_iff.mp hsemi
      obtain ⟨rfl, rfl⟩ := yields_pure_iff.mp h
      exact .inr ⟨name, semicolon, rfl, hnk, hk, rfl⟩
  · rintro ⟨type, ws₁, htype, ⟨hparen, name, ws₂, as, close, semicolon, hname, has, hk, rfl⟩ |
      ⟨name, semicolon, rfl, hnk, hk, rfl⟩⟩
    · refine htype.bind fun _ => ?_
      dsimp only
      rw [if_pos hparen]
      exact hname.bind fun _ => has.bind fun _ => (yields_expect hk).bind fun _ => yields_pure _
    · refine htype.bind fun _ => ?_
      dsimp only
      rw [startsWith_eq_false hnk (by decide), if_neg Bool.false_ne_true]
      exact (yields_name hnk).bind fun _ => (yields_expect hk).bind fun _ => yields_pure _

/-- Fields are the closing brace, or a first field and more fields. -/
theorem yields_fields_iff {fs : List Field} :
    Yields (fields d ws) fs rest ↔
      (∃ close, ws = close :: rest ∧ close.kind = .rightBrace ∧ fs = []) ∨
        startsWith .rightBrace ws = false ∧ ∃ first mid others, Yields (field d ws) first mid ∧
          Yields (fields d mid) others rest ∧ fs = first :: others := by
  rw [fields]
  constructor
  · intro h
    split at h
    · next close _ _ heq =>
      obtain ⟨rfl, hk⟩ := accept?_eq_some heq
      obtain ⟨rfl, rfl⟩ := yields_pure_iff.mp h
      exact .inl ⟨close, rfl, hk, rfl⟩
    · next hnone =>
      obtain ⟨first, mid, hfirst, _, h⟩ := h.of_bind
      obtain ⟨others, _, hothers, _, h⟩ := h.of_bind
      obtain ⟨rfl, rfl⟩ := yields_pure_iff.mp h
      exact .inr ⟨startsWith_of_accept? hnone, first, mid, others, hfirst, hothers, rfl⟩
  · rintro (⟨close, rfl, hk, rfl⟩ | ⟨hopen, first, mid, others, hfirst, hothers, rfl⟩)
    · rw [accept?_cons hk]
      exact yields_pure _
    · rw [accept?_eq_none hopen]
      exact hfirst.bind fun _ => hothers.bind fun _ => yields_pure _

theorem yields_struct_iff {s : Struct} :
    Yields (struct d ws) s rest ↔
      ∃ l inside name, ws = l :: inside ∧ l.kind = .leftBrace ∧
        Yields (fields d inside) s.fields (name :: rest) ∧ name.kind = .identifier ∧
        name.text = s.name := by
  rw [struct]
  constructor
  · intro h
    obtain ⟨l, inside, hl, _, h⟩ := h.of_bind
    obtain ⟨rfl, hlk⟩ := yields_expect_iff.mp hl
    obtain ⟨fs, _, hfs, _, h⟩ := h.of_bind
    obtain ⟨_, _, hname, _, h⟩ := h.of_bind
    obtain ⟨name, rfl, hnk, rfl⟩ := yields_name_iff.mp hname
    obtain ⟨rfl, rfl⟩ := yields_pure_iff.mp h
    exact ⟨l, inside, name, rfl, hlk, hfs, hnk, rfl⟩
  · obtain ⟨n, fs⟩ := s
    rintro ⟨l, inside, name, rfl, hl, hfs, hnk, rfl⟩
    exact (yields_expect hl).bind fun _ => hfs.bind fun _ => (yields_name hnk).bind fun _ =>
      yields_pure _

/-! ## Declarations -/

theorem yields_aliasOrFunction_iff {content : Declaration} :
    Yields (aliasOrFunction d ws) content rest ↔
      ∃ type ws₁, Yields (baseType d ws) type ws₁ ∧
        (startsWith .leftParen ws₁ = true ∧
            (∃ name ws₂ as close, Yields (pointerName ws₁) name ws₂ ∧
              Yields (arguments d ws₂) (as, close) rest ∧ content = .function ⟨type, name, as⟩) ∨
          ∃ name, ws₁ = name :: rest ∧ name.kind = .identifier ∧
            content = .typeAlias ⟨type, name.text⟩) := by
  rw [aliasOrFunction]
  constructor
  · intro h
    obtain ⟨type, ws₁, htype, _, h⟩ := h.of_bind
    refine ⟨type, ws₁, htype, ?_⟩
    dsimp only at h
    split at h
    · next hparen =>
      obtain ⟨name, ws₂, hname, _, h⟩ := h.of_bind
      obtain ⟨⟨as, close⟩, _, has, _, h⟩ := h.of_bind
      obtain ⟨rfl, rfl⟩ := yields_pure_iff.mp h
      exact .inl ⟨hparen, name, ws₂, as, close, hname, has, rfl⟩
    · obtain ⟨_, _, hname, _, h⟩ := h.of_bind
      obtain ⟨name, rfl, hnk, rfl⟩ := yields_name_iff.mp hname
      obtain ⟨rfl, rfl⟩ := yields_pure_iff.mp h
      exact .inr ⟨name, rfl, hnk, rfl⟩
  · rintro ⟨type, ws₁, htype, ⟨hparen, name, ws₂, as, close, hname, has, rfl⟩ |
      ⟨name, rfl, hnk, rfl⟩⟩
    · refine htype.bind fun _ => ?_
      dsimp only
      rw [if_pos hparen]
      exact hname.bind fun _ => has.bind fun _ => yields_pure _
    · refine htype.bind fun _ => ?_
      dsimp only
      rw [startsWith_eq_false hnk (by decide), if_neg Bool.false_ne_true]
      exact (yields_name hnk).bind fun _ => yields_pure _

/-- The keyword tells what is declared.  Without one it is a type alias or a function
pointer. -/
theorem yields_declared_iff {content : Declaration} :
    Yields (declared d ws) content rest ↔
      (∃ word behind e, ws = word :: behind ∧ word.kind = .enumWord ∧
        Yields (enumeration behind) e rest ∧ content = .enumeration e) ∨
      (∃ word behind s, ws = word :: behind ∧ word.kind = .structWord ∧
        Yields (struct d behind) s rest ∧ content = .struct s) ∨
      startsWith .enumWord ws = false ∧ startsWith .structWord ws = false ∧
        Yields (aliasOrFunction d ws) content rest := by
  rw [declared]
  constructor
  · intro h
    split at h
    · next word behind _ heq =>
      obtain ⟨rfl, hk⟩ := accept?_eq_some heq
      obtain ⟨e, _, he, _, h⟩ := h.of_bind
      obtain ⟨rfl, rfl⟩ := yields_pure_iff.mp h
      exact .inl ⟨word, behind, e, rfl, hk, he, rfl⟩
    · next henum =>
      split at h
      · next word behind _ heq =>
        obtain ⟨rfl, hk⟩ := accept?_eq_some heq
        obtain ⟨s, _, hs, _, h⟩ := h.of_bind
        obtain ⟨rfl, rfl⟩ := yields_pure_iff.mp h
        exact .inr (.inl ⟨word, behind, s, rfl, hk, hs, rfl⟩)
      · next hstruct =>
        exact .inr (.inr ⟨startsWith_of_accept? henum, startsWith_of_accept? hstruct, h⟩)
  · rintro (⟨word, behind, e, rfl, hk, he, rfl⟩ | ⟨word, behind, s, rfl, hk, hs, rfl⟩ |
      ⟨henum, hstruct, h⟩)
    · rw [accept?_cons hk]
      exact he.bind fun _ => yields_pure _
    · rw [accept?_eq_none (startsWith_eq_false hk (by decide))]
      dsimp only
      rw [accept?_cons hk]
      exact hs.bind fun _ => yields_pure _
    · rw [accept?_eq_none henum]
      dsimp only
      rw [accept?_eq_none hstruct]
      exact h

theorem yields_declaration_iff {content : Declaration} {semicolon : Word} :
    Yields (declaration d ws) (content, semicolon) rest ↔
      ∃ word behind, ws = word :: behind ∧ word.kind = .typedefWord ∧
        Yields (declared d behind) content (semicolon :: rest) ∧ semicolon.kind = .semicolon := by
  rw [declaration]
  constructor
  · intro h
    obtain ⟨word, behind, hword, _, h⟩ := h.of_bind
    obtain ⟨rfl, hw⟩ := yields_expect_iff.mp hword
    obtain ⟨_, _, hdeclared, _, h⟩ := h.of_bind
    obtain ⟨_, _, hsemi, _, h⟩ := h.of_bind
    obtain ⟨rfl, hk⟩ := yields_expect_iff.mp hsemi
    obtain ⟨heq, rfl⟩ := yields_pure_iff.mp h
    cases heq
    exact ⟨word, behind, rfl, hw, hdeclared, hk⟩
  · rintro ⟨word, behind, rfl, hw, hdeclared, hk⟩
    exact (yields_expect hw).bind fun _ => hdeclared.bind fun _ => (yields_expect hk).bind fun _ =>
      yields_pure _

theorem declarationsFrom_nil (taken : List Declaration) :
    declarationsFrom d taken [] = .ok taken.reverse := by
  rw [declarationsFrom]
  rfl

/-- Declarations are a first one and more of them.  The comments behind its semicolon come
between. -/
theorem declarationsFrom_cons_iff {w : Word} {taken ds : List Declaration} :
    declarationsFrom d taken (w :: ws) = .ok ds ↔
      ∃ content semicolon behind, Yields (declaration d (w :: ws)) (content, semicolon) behind ∧
        declarationsFrom d ((comments semicolon.comments).reverse ++ content :: taken) behind =
          .ok ds := by
  rw [declarationsFrom]
  constructor
  · intro h
    cases hread : declaration d (w :: ws) with
    | error s => rw [hread] at h; cases h
    | ok t =>
      obtain ⟨⟨content, semicolon⟩, behind, hshorter⟩ := t
      rw [hread] at h
      exact ⟨content, semicolon, behind, ⟨hshorter, rfl⟩, h⟩
  · rintro ⟨content, semicolon, behind, ⟨_, hread⟩, h⟩
    rw [hread]
    exact h

end EngineHeader.Declaration.Parser
