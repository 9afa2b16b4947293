import EngineHeader.Proofs.Declaration.Inversion

/-!
# The parser reads only what the grammar derives

Whatever a reading yields, the words it took derive it.  There is one lemma for
each function of the parser, and each says the same: the words are those that
were taken and those that are left, and the tokens of the first derive what was
read.  The comments behind the words have no part in it, so a field is compared
without its comment.

A reading that calls itself takes fewer words each time, and the lemmas follow
it.  Callbacks are the exception: there the induction is on how deep they may
still nest.
-/

namespace EngineHeader.Declaration.Parser

open Grammar
open Token (Kind Word)

variable {d : Dialect} {ws rest : List Word}

/-! ## Types and arguments -/

theorem optionalName_sound (ws : List Word) : ∃ front, ws = front ++ (optionalName ws).rest ∧
    OptionalName (front.map Word.token) (optionalName ws).value := by
  rw [optionalName]
  split
  · next w rest h heq =>
    obtain ⟨rfl, hk⟩ := accept?_eq_some heq
    exact ⟨[w], rfl, .present hk⟩
  · exact ⟨[], rfl, .absent⟩

theorem optionalConst_sound (ws : List Word) :
    (optionalConst ws).value = false ∧ ws = (optionalConst ws).rest ∨
      ∃ w, (optionalConst ws).value = true ∧ ws = w :: (optionalConst ws).rest ∧
        w.kind = .constWord := by
  rw [optionalConst]
  split
  · next w rest h heq =>
    obtain ⟨rfl, hk⟩ := accept?_eq_some heq
    exact .inr ⟨w, rfl, rfl, hk⟩
  · exact .inl ⟨rfl, rfl⟩

theorem stars_sound (limit : Nat) (ws : List Word) :
    ∃ front, ws = front ++ (stars limit ws).rest ∧
      (∀ s ∈ front.map Word.token, s.kind = .star) ∧
      (front.map Word.token).length = (stars limit ws).value ∧
      (front.map Word.token).length ≤ limit := by
  induction limit generalizing ws with
  | zero => exact ⟨[], rfl, by simp, rfl, Nat.le_refl 0⟩
  | succ limit ih =>
    rw [stars]
    split
    · exact ⟨[], rfl, by simp, rfl, Nat.zero_le _⟩
    · next w ws₁ h₁ heq =>
      obtain ⟨rfl, hk⟩ := accept?_eq_some heq
      obtain ⟨front, hws, hs, hn, hl⟩ := ih ws₁
      refine ⟨w :: front, congrArg (w :: ·) hws, ?_, congrArg (· + 1) hn, Nat.succ_le_succ hl⟩
      intro s hmem
      rw [List.map_cons, List.mem_cons] at hmem
      rcases hmem with rfl | hmem
      · exact hk
      · exact hs s hmem

theorem baseType_sound {t : BaseType} (h : Yields (baseType d ws) t rest) :
    ∃ front, ws = front ++ rest ∧ BaseTypeOf d (front.map Word.token) t := by
  rw [baseType] at h
  have hconst := optionalConst_sound ws
  cases hc : optionalConst ws with
  | mk isConst ws₁ h₁ =>
    rw [hc] at h hconst
    obtain ⟨n, ws₂, hn, _, h⟩ := h.of_bind
    obtain ⟨w, rfl, hw, rfl⟩ := yields_name_iff.mp hn
    obtain ⟨rfl, rfl⟩ := yields_pure_iff.mp h
    obtain ⟨front, hfront, hs, hn, hl⟩ := stars_sound d.maxIndirection ws₂
    rw [← hn]
    rcases hconst with ⟨rfl, hws⟩ | ⟨c, rfl, hws, hck⟩
    · refine ⟨w :: front, ?_, .plain hw hs hl⟩
      rw [hws, List.cons_append, ← hfront]
    · refine ⟨c :: w :: front, ?_, .const hck hw hs hl⟩
      rw [hws, List.cons_append, List.cons_append, ← hfront]

/-- Separated arguments, and the parenthesis that closes them. -/
theorem someArguments_sound {argument : (ws : List Word) → Reading Argument ws}
    {item : List Token → Argument → Prop}
    (hitem : ∀ {ws a rest}, Yields (argument ws) a rest →
      ∃ front, ws = front ++ rest ∧ item (front.map Word.token) a)
    {ws : List Word} {as : List Argument} {close : Word}
    (h : Yields (someArguments argument ws) (as, close) rest) :
    ∃ front, ws = front ++ close :: rest ∧ close.kind = .rightParen ∧
      Separated item .comma (front.map Word.token) as := by
  induction hlen : ws.length using Nat.strongRecOn generalizing ws as close rest with
  | ind n ih =>
  obtain ⟨first, mid, hfirst, hmore⟩ := yields_someArguments_iff.mp h
  have hshorter := hfirst.shorter
  obtain ⟨front, rfl, hitems⟩ := hitem hfirst
  rcases hmore with ⟨rfl, hk, rfl⟩ | ⟨comma, behind, others, rfl, hcomma, hothers, rfl⟩
  · exact ⟨front, rfl, hk, .one hitems⟩
  · rw [List.length_cons] at hshorter
    obtain ⟨back, rfl, hclose, hback⟩ := ih _ (by omega) hothers rfl
    refine ⟨front ++ comma :: back, by simp, hclose, ?_⟩
    rw [List.map_append, List.map_cons]
    exact .more hitems hcomma hback

/-- Arguments end with the parenthesis that closes them. -/
theorem argumentsOf_sound {argument : (ws : List Word) → Reading Argument ws}
    {item : List Token → Argument → Prop}
    (hitem : ∀ {ws a rest}, Yields (argument ws) a rest →
      ∃ front, ws = front ++ rest ∧ item (front.map Word.token) a)
    {ws : List Word} {as : List Argument} {close : Word}
    (h : Yields (argumentsOf argument ws) (as, close) rest) :
    ∃ front, ws = front ++ close :: rest ∧ close.kind = .rightParen ∧
      ArgumentsOf item ((front ++ [close]).map Word.token) as := by
  obtain ⟨l, inside, rfl, hlk, ⟨rfl, hr, rfl⟩ | ⟨_, has⟩⟩ := yields_argumentsOf_iff.mp h
  · exact ⟨[l], rfl, hr, .none hlk hr⟩
  · obtain ⟨front, rfl, hr, has⟩ := someArguments_sound hitem has
    refine ⟨l :: front, rfl, hr, ?_⟩
    rw [List.cons_append, List.map_cons, List.map_append]
    exact .some hlk has hr

/-- A base type and what the optional name behind it takes. -/
theorem plain_sound {front : List Word} {type : BaseType} (ws : List Word)
    (htype : BaseTypeOf d (front.map Word.token) type) :
    ∃ taken, front ++ ws = taken ++ (optionalName ws).rest ∧
      PlainOf d (taken.map Word.token) (.plain type (optionalName ws).value) := by
  obtain ⟨back, hback, hname⟩ := optionalName_sound ws
  refine ⟨front ++ back, ?_, ?_⟩
  · rw [List.append_assoc, ← hback]
  · rw [List.map_append]
    exact .mk htype hname

theorem argument_sound (n : Nat) {ws rest : List Word} {a : Argument}
    (h : Yields (argument d n ws) a rest) :
    ∃ front, ws = front ++ rest ∧ ArgumentOf d n (front.map Word.token) a := by
  induction n generalizing ws a rest with
  | zero =>
    rw [argument] at h
    obtain ⟨type, ws₁, hread, _, h⟩ := h.of_bind
    obtain ⟨front, rfl, htype⟩ := baseType_sound hread
    dsimp only at h
    split at h
    · exact absurd h not_yields_error
    · obtain ⟨rfl, rfl⟩ := yields_pure_iff.mp h
      exact plain_sound ws₁ htype
  | succ n ih =>
    rw [argument] at h
    obtain ⟨type, ws₁, hread, _, h⟩ := h.of_bind
    obtain ⟨front, rfl, htype⟩ := baseType_sound hread
    dsimp only at h
    split at h
    · next hcallback =>
      have hd : d = .extension := by
        cases d with
        | native => simp [Dialect.allowsCallbacks] at hcallback
        | extension => rfl
      obtain ⟨l, ws₂, hl, _, h⟩ := h.of_bind
      obtain ⟨rfl, hlk⟩ := yields_expect_iff.mp hl
      obtain ⟨s, ws₃, hs, _, h⟩ := h.of_bind
      obtain ⟨rfl, hsk⟩ := yields_expect_iff.mp hs
      obtain ⟨name, hws, hname⟩ := optionalName_sound ws₃
      obtain ⟨r, ws₅, hr, _, h⟩ := h.of_bind
      obtain ⟨hrest, hrk⟩ := yields_expect_iff.mp hr
      obtain ⟨⟨as, close⟩, ws₆, hread, _, h⟩ := h.of_bind
      obtain ⟨rfl, rfl⟩ := yields_pure_iff.mp h
      obtain ⟨back, rfl, _, has⟩ := argumentsOf_sound ih hread
      rw [hrest] at hws
      refine ⟨front ++ l :: s :: (name ++ r :: (back ++ [close])), by simp [hws], ?_⟩
      rw [List.map_append] at has
      simp only [List.map_append, List.map_cons]
      exact .inr ⟨hd, .mk htype hlk hsk hname hrk has⟩
    · obtain ⟨rfl, rfl⟩ := yields_pure_iff.mp h
      obtain ⟨taken, heq, hplain⟩ := plain_sound ws₁ htype
      exact ⟨taken, heq, .inl hplain⟩

theorem pointerName_sound {n : String} (h : Yields (pointerName ws) n rest) :
    ∃ l s name r, ws = l :: s :: name :: r :: rest ∧ l.kind = .leftParen ∧ s.kind = .star ∧
      name.kind = .identifier ∧ r.kind = .rightParen ∧ name.text = n := by
  rw [pointerName] at h
  obtain ⟨l, ws₁, hl, _, h⟩ := h.of_bind
  obtain ⟨rfl, hlk⟩ := yields_expect_iff.mp hl
  obtain ⟨s, ws₂, hs, _, h⟩ := h.of_bind
  obtain ⟨rfl, hsk⟩ := yields_expect_iff.mp hs
  obtain ⟨n', ws₃, hn, _, h⟩ := h.of_bind
  obtain ⟨name, rfl, hnk, hname⟩ := yields_name_iff.mp hn
  obtain ⟨r, ws₄, hr, _, h⟩ := h.of_bind
  obtain ⟨rfl, hrk⟩ := yields_expect_iff.mp hr
  obtain ⟨rfl, rfl⟩ := yields_pure_iff.mp h
  exact ⟨l, s, name, r, rfl, hlk, hsk, hnk, hrk, hname⟩

/-- A base type, the name of a function pointer and its arguments, which end with a
parenthesis. -/
theorem signature_sound {front us : List Word} {returns : BaseType} {n : String}
    {as : List Argument} {close : Word} (htype : BaseTypeOf d (front.map Word.token) returns)
    (hname : Yields (pointerName ws) n us) (hread : Yields (arguments d us) (as, close) rest) :
    ∃ taken, front ++ ws = taken ++ close :: rest ∧ close.kind = .rightParen ∧
      SignatureOf d ((taken ++ [close]).map Word.token) ⟨returns, n, as⟩ := by
  obtain ⟨l, s, name, r, rfl, hlk, hsk, hnk, hrk, rfl⟩ := pointerName_sound hname
  obtain ⟨back, rfl, hclose, has⟩ := argumentsOf_sound (argument_sound maxNesting) hread
  refine ⟨front ++ l :: s :: name :: r :: back, by simp, hclose, ?_⟩
  rw [List.append_assoc, List.map_append]
  exact .mk htype hlk hsk hnk hrk has

/-! ## Enumerations -/

theorem initializer_sound {value : Initializer} (h : Yields (initializer ws) value rest) :
    ∃ w, ws = w :: rest ∧ InitializerOf w.token value := by
  cases ws with
  | nil => exact absurd h not_yields_error
  | cons w ws =>
    rw [initializer] at h
    split at h
    · next hk =>
      dsimp only at h
      split at h
      · next hrep =>
        obtain ⟨rfl, rfl⟩ := yields_pure_iff.mp h
        simp only [Literal.isRepresentable, Bool.and_eq_true, decide_eq_true_eq] at hrep
        exact ⟨w, rfl, .integer hk hrep.1 hrep.2⟩
      · exact absurd h not_yields_error
    split at h
    · next hk =>
      obtain ⟨rfl, rfl⟩ := yields_pure_iff.mp h
      exact ⟨w, rfl, .reference hk⟩
    · exact absurd h not_yields_error

theorem enumerator_sound {e : Enumerator} (h : Yields (enumerator ws) e rest) :
    ∃ front, ws = front ++ rest ∧ EnumeratorOf (front.map Word.token) e := by
  rw [enumerator] at h
  obtain ⟨n, ws₁, hn, _, h⟩ := h.of_bind
  obtain ⟨name, rfl, hnk, rfl⟩ := yields_name_iff.mp hn
  dsimp only at h
  split at h
  · next eq ws₂ _ heq =>
    obtain ⟨rfl, hek⟩ := accept?_eq_some heq
    obtain ⟨value, ws₃, hread, _, h⟩ := h.of_bind
    obtain ⟨rfl, rfl⟩ := yields_pure_iff.mp h
    obtain ⟨w, rfl, hvalue⟩ := initializer_sound hread
    exact ⟨[name, eq, w], rfl, .explicit hnk hek hvalue⟩
  · obtain ⟨rfl, rfl⟩ := yields_pure_iff.mp h
    exact ⟨[name], rfl, .implicit hnk⟩

/-- Enumerators, and the brace that closes them. -/
theorem enumerators_sound {es : List Enumerator} (h : Yields (enumerators ws) es rest) :
    ∃ front close, ws = front ++ close :: rest ∧ close.kind = .rightBrace ∧
      EnumeratorsOf (front.map Word.token) es := by
  induction hlen : ws.length using Nat.strongRecOn generalizing ws es rest with
  | ind n ih =>
  rw [enumerators] at h
  split at h
  · next close ws₁ _ heq =>
    obtain ⟨rfl, hk⟩ := accept?_eq_some heq
    obtain ⟨rfl, rfl⟩ := yields_pure_iff.mp h
    exact ⟨[], close, rfl, hk, .none⟩
  · obtain ⟨first, ws₁, hread, _, h⟩ := h.of_bind
    obtain ⟨front, rfl, hfirst⟩ := enumerator_sound hread
    dsimp only at h
    split at h
    · next comma ws₂ _ heq =>
      obtain ⟨rfl, hcomma⟩ := accept?_eq_some heq
      obtain ⟨others, ws₃, hread, _, h⟩ := h.of_bind
      obtain ⟨rfl, rfl⟩ := yields_pure_iff.mp h
      obtain ⟨back, close, rfl, hk, hothers⟩ := ih _ (by simp at hlen; omega) hread rfl
      refine ⟨front ++ comma :: back, close, by simp, hk, ?_⟩
      rw [List.map_append, List.map_cons]
      exact .more hfirst hcomma hothers
    · obtain ⟨close, ws₂, hread, _, h⟩ := h.of_bind
      obtain ⟨rfl, hk⟩ := yields_expect_iff.mp hread
      obtain ⟨rfl, rfl⟩ := yields_pure_iff.mp h
      exact ⟨front, close, rfl, hk, .some (.one hfirst)⟩

theorem enumeration_sound {e : Enumeration} (h : Yields (enumeration ws) e rest) :
    ∃ l ts r us, ws = l :: (ts ++ r :: us) ++ rest ∧ l.kind = .leftBrace ∧
      EnumeratorsOf (ts.map Word.token) e.values ∧ r.kind = .rightBrace ∧
      OptionalName (us.map Word.token) e.name? := by
  rw [enumeration] at h
  obtain ⟨l, ws₁, hl, _, h⟩ := h.of_bind
  obtain ⟨rfl, hlk⟩ := yields_expect_iff.mp hl
  obtain ⟨es, ws₂, hread, _, h⟩ := h.of_bind
  obtain ⟨ts, r, rfl, hrk, hes⟩ := enumerators_sound hread
  obtain ⟨us, hws, hname⟩ := optionalName_sound ws₂
  dsimp only at h
  obtain ⟨rfl, rfl⟩ := yields_pure_iff.mp h
  refine ⟨l, ts, r, us, ?_, hlk, hes, hrk, hname⟩
  rw [List.cons_append, List.append_assoc, List.cons_append, ← hws]

/-! ## Structures -/

theorem field_sound {f : Field} (h : Yields (field d ws) f rest) :
    ∃ front, ws = front ++ rest ∧ FieldOf d (front.map Word.token) f.withoutComment := by
  obtain ⟨type, ws₁, hread, hfield⟩ := yields_field_iff.mp h
  obtain ⟨front, rfl, htype⟩ := baseType_sound hread
  rcases hfield with ⟨_, n, ws₂, as, close, semicolon, hname, has, hk, rfl⟩ |
    ⟨name, semicolon, rfl, hnk, hk, rfl⟩
  · obtain ⟨taken, heq, _, hsig⟩ := signature_sound htype hname has
    refine ⟨taken ++ [close] ++ [semicolon], by simp [heq], ?_⟩
    rw [List.map_append]
    exact .function hsig hk
  · refine ⟨front ++ [name, semicolon], by simp, ?_⟩
    rw [List.map_append]
    exact .plain htype hnk hk

/-- Fields, and the brace that closes them. -/
theorem fields_sound {fs : List Field} (h : Yields (fields d ws) fs rest) :
    ∃ front close, ws = front ++ close :: rest ∧ close.kind = .rightBrace ∧
      Many (FieldOf d) (front.map Word.token) (fs.map Field.withoutComment) := by
  induction hlen : ws.length using Nat.strongRecOn generalizing ws fs rest with
  | ind n ih =>
  rcases yields_fields_iff.mp h with ⟨close, rfl, hk, rfl⟩ |
    ⟨_, first, mid, others, hfirst, hothers, rfl⟩
  · exact ⟨[], close, rfl, hk, .none⟩
  · have hshorter := hfirst.shorter
    obtain ⟨front, rfl, hfield⟩ := field_sound hfirst
    obtain ⟨back, close, rfl, hk, hmany⟩ := ih _ (hlen ▸ hshorter) hothers rfl
    refine ⟨front ++ back, close, by simp, hk, ?_⟩
    rw [List.map_append, List.map_cons]
    exact .more hfield hmany

theorem struct_sound {s : Struct} (h : Yields (struct d ws) s rest) :
    ∃ l ts r name, ws = l :: (ts ++ [r, name]) ++ rest ∧ l.kind = .leftBrace ∧
      Many (FieldOf d) (ts.map Word.token) (s.fields.map Field.withoutComment) ∧
      r.kind = .rightBrace ∧ name.kind = .identifier ∧ name.text = s.name := by
  obtain ⟨l, inside, name, rfl, hlk, hread, hnk, hname⟩ := yields_struct_iff.mp h
  obtain ⟨ts, r, rfl, hrk, hfs⟩ := fields_sound hread
  exact ⟨l, ts, r, name, by simp, hlk, hfs, hrk, hnk, hname⟩

/-! ## Declarations -/

theorem aliasOrFunction_sound {content : Declaration}
    (h : Yields (aliasOrFunction d ws) content rest) :
    ∃ front, ws = front ++ rest ∧ content.withoutComments? = some content ∧
      DeclaredOf d (front.map Word.token) content := by
  obtain ⟨type, ws₁, hread, hcontent⟩ := yields_aliasOrFunction_iff.mp h
  obtain ⟨front, rfl, htype⟩ := baseType_sound hread
  rcases hcontent with ⟨_, n, ws₂, as, close, hname, has, rfl⟩ | ⟨name, rfl, hnk, rfl⟩
  · obtain ⟨taken, heq, _, hsig⟩ := signature_sound htype hname has
    exact ⟨taken ++ [close], by simp [heq], rfl, .function hsig⟩
  · refine ⟨front ++ [name], by simp, rfl, ?_⟩
    rw [List.map_append]
    exact .typeAlias htype hnk

theorem declared_sound {content : Declaration} (h : Yields (declared d ws) content rest) :
    ∃ front bare, ws = front ++ rest ∧ content.withoutComments? = some bare ∧
      DeclaredOf d (front.map Word.token) bare := by
  rcases yields_declared_iff.mp h with ⟨word, behind, e, rfl, hw, hread, rfl⟩ |
    ⟨word, behind, s, rfl, hw, hread, rfl⟩ | ⟨_, _, hread⟩
  · obtain ⟨l, ts, r, us, rfl, hlk, hes, hrk, hname⟩ := enumeration_sound hread
    refine ⟨word :: l :: (ts ++ r :: us), _, rfl, rfl, ?_⟩
    simp only [List.map_cons, List.map_append]
    exact .enumeration hw hlk hes hrk hname
  · obtain ⟨l, ts, r, name, rfl, hlk, hfs, hrk, hnk, hname⟩ := struct_sound hread
    refine ⟨word :: l :: (ts ++ [r, name]), _, rfl, rfl, ?_⟩
    simp only [List.map_cons, List.map_append, List.map_nil]
    exact hname ▸ .struct hw hlk hfs hrk hnk
  · obtain ⟨front, heq, hbare, hdeclared⟩ := aliasOrFunction_sound hread
    exact ⟨front, content, heq, hbare, hdeclared⟩

theorem declaration_sound {content : Declaration} {semicolon : Word}
    (h : Yields (declaration d ws) (content, semicolon) rest) :
    ∃ front bare, ws = front ++ rest ∧ content.withoutComments? = some bare ∧
      DeclarationOf d (front.map Word.token) bare := by
  obtain ⟨word, behind, rfl, hw, hread, hk⟩ := yields_declaration_iff.mp h
  obtain ⟨front, bare, rfl, hbare, hdeclared⟩ := declared_sound hread
  refine ⟨word :: (front ++ [semicolon]), bare, by simp, hbare, ?_⟩
  rw [List.map_cons, List.map_append]
  exact .mk hw hdeclared hk

/-- Declarations that are read go behind those already taken, and the words derive
them. -/
theorem declarationsFrom_sound {taken ds : List Declaration}
    (h : declarationsFrom d taken ws = .ok ds) :
    ∃ new, ds = taken.reverse ++ new ∧
      Many (DeclarationOf d) (ws.map Word.token) (new.filterMap withoutComments?) := by
  induction hlen : ws.length using Nat.strongRecOn generalizing ws taken with
  | ind n ih =>
  cases ws with
  | nil =>
    rw [declarationsFrom_nil] at h
    cases h
    exact ⟨[], by simp, .none⟩
  | cons w ws =>
    obtain ⟨content, semicolon, behind, hread, hmore⟩ := declarationsFrom_cons_iff.mp h
    obtain ⟨new, rfl, hnew⟩ := ih _ (hlen ▸ hread.shorter) hmore rfl
    obtain ⟨front, bare, heq, hbare, hdeclaration⟩ := declaration_sound hread
    refine ⟨content :: (comments semicolon.comments ++ new), by simp, ?_⟩
    rw [List.filterMap_cons_some hbare, List.filterMap_append, filterMap_comments,
      List.nil_append, heq, List.map_append]
    exact .more hdeclaration hnew

/-- What is read of words, without its comments, is derived by their tokens. -/
theorem ofWords_sound {words : Token.Words} {ds : List Declaration}
    (h : ofWords d words = .ok ds) :
    Derives d (words.words.map Word.token) (Header.withoutComments ⟨ds⟩) := by
  obtain ⟨new, rfl, hnew⟩ := declarationsFrom_sound h
  simpa [Derives, Header.withoutComments, List.filterMap_append, filterMap_comments] using hnew

end EngineHeader.Declaration.Parser
