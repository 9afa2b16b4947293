import EngineHeader.Proofs.Declaration.Inversion
import Mathlib.Data.List.Forall2

/-!
# Two texts read in step

Two texts may have words that correspond, one by one, although they are not the same.  The
comments may differ, or the positions.  Then the parser does the same with both.  It makes the
same choices, and either gets stuck at corresponding words, in need of the same thing, or reads
trees that correspond.

A `Pairing` says when two words correspond.  It is a parameter.  All that the parser sees of a
word is its kind and its spelling, and corresponding words have these in common.  Only a field
takes more, which is its comment.  So a pairing says also when two fields correspond, and it has
to be so for fields that are read of corresponding words.

There is one lemma for each function of the parser.
-/

namespace EngineHeader.Declaration.Parser

open Token (Kind Word)

/-- When the words of two texts correspond, and the fields that are read of them. -/
structure Pairing where
  /-- The words correspond. -/
  word : Word → Word → Prop
  /-- The fields correspond. -/
  field : Field → Field → Prop
  /-- Corresponding words are of one kind. -/
  kind : ∀ {w w'}, word w w' → w.kind = w'.kind
  /-- Corresponding words are spelled alike. -/
  text : ∀ {w w'}, word w w' → w.text = w'.text
  /-- A field of a base type corresponds to itself. -/
  plain : ∀ type name, field (.plain type name) (.plain type name)
  /-- Function pointers correspond if the words do that their comments are behind. -/
  function : ∀ signature {close close' semicolon semicolon'}, word close close' →
    word semicolon semicolon' →
    field (.function signature (fieldComment? close semicolon))
      (.function signature (fieldComment? close' semicolon'))

/-- The words of two lists correspond, one by one. -/
abbrev Pairing.words (P : Pairing) : List Word → List Word → Prop := List.Forall₂ P.word

/-- Two structures have one name and corresponding fields. -/
structure Pairing.structs (P : Pairing) (s s' : Struct) : Prop where
  name : s.name = s'.name
  fields : List.Forall₂ P.field s.fields s'.fields

/-- Two declarations correspond: they are the same, or structures that correspond. -/
inductive Pairing.declared (P : Pairing) : Declaration → Declaration → Prop where
  | enumeration (e : Enumeration) : P.declared (.enumeration e) (.enumeration e)
  | typeAlias (a : TypeAlias) : P.declared (.typeAlias a) (.typeAlias a)
  | function (s : Signature) : P.declared (.function s) (.function s)
  | struct {s s' : Struct} : P.structs s s' → P.declared (.struct s) (.struct s')

/-- Two readings either are stuck at corresponding words, in need of the same thing, or they
give related values and leave corresponding words. -/
inductive InStep (P : Pairing) {α : Type} (R : α → α → Prop) {ws ws' : List Word} :
    Reading α ws → Reading α ws' → Prop where
  | stuck {s s' : Stuck} : P.words s.rest s'.rest → s.expected = s'.expected →
    InStep P R (.error s) (.error s')
  | taken {a a' : α} {rest rest' : List Word} {h : rest.length < ws.length}
      {h' : rest'.length < ws'.length} :
    R a a' → P.words rest rest' → InStep P R (.ok ⟨a, rest, h⟩) (.ok ⟨a', rest', h'⟩)

variable {P : Pairing} {α β : Type} {R : α → α → Prop} {S : β → β → Prop} {d : Dialect}
  {ws ws' us us' : List Word} {kind : Kind} {expected : Expected}

theorem InStep.bind {r : Reading α us} {r' : Reading α us'} {f : Taken α us → Reading β ws}
    {f' : Taken α us' → Reading β ws'} (hr : InStep P R r r')
    (hf : ∀ {a a' rest rest'} (h : rest.length < us.length) (h' : rest'.length < us'.length),
      R a a' → P.words rest rest' → InStep P S (f ⟨a, rest, h⟩) (f' ⟨a', rest', h'⟩)) :
    InStep P S (r >>= f) (r' >>= f') := by
  cases hr with
  | stuck hrest hexpected => exact .stuck hrest hexpected
  | taken ha hrest => exact hf _ _ ha hrest

/-! ## Single words -/

theorem expect_inStep (h : P.words ws ws') :
    InStep P P.word (expect kind expected ws) (expect kind expected ws') := by
  cases h with
  | nil => exact .stuck .nil rfl
  | @cons w w' ws ws' hw hws =>
    rw [expect, expect, ← P.kind hw]
    split
    · exact .taken hw hws
    · exact .stuck (.cons hw hws) rfl

theorem name_inStep (h : P.words ws ws') :
    InStep P (· = ·) (name expected ws) (name expected ws') :=
  (expect_inStep h).bind fun _ _ hw hrest => .taken (P.text hw) hrest

theorem startsWith_inStep (h : P.words ws ws') : startsWith kind ws = startsWith kind ws' := by
  cases h with
  | nil => rfl
  | cons hw _ => rw [startsWith, startsWith, P.kind hw]

theorem startsCallback_inStep (h : P.words ws ws') : startsCallback ws = startsCallback ws' := by
  cases h with
  | nil => rfl
  | cons hw hws =>
    cases hws with
    | nil => rfl
    | cons hv _ => rw [startsCallback, startsCallback, P.kind hw, P.kind hv]

/-- A word is accepted in both texts or in none. -/
theorem accept?_inStep (kind : Kind) (h : P.words ws ws') :
    accept? kind ws = none ∧ accept? kind ws' = none ∨
      ∃ w w' rest rest' h h', accept? kind ws = some ⟨w, rest, h⟩ ∧
        accept? kind ws' = some ⟨w', rest', h'⟩ ∧ P.word w w' ∧ P.words rest rest' := by
  cases h with
  | nil => exact .inl ⟨rfl, rfl⟩
  | @cons w w' rest rest' hw hrest =>
    rw [accept?, accept?, ← P.kind hw]
    split
    · exact .inr ⟨w, w', rest, rest', Nat.lt_succ_self _, Nat.lt_succ_self _, rfl, rfl, hw, hrest⟩
    · exact .inl ⟨rfl, rfl⟩

theorem optionalName_inStep (h : P.words ws ws') :
    (optionalName ws).value = (optionalName ws').value ∧
      P.words (optionalName ws).rest (optionalName ws').rest := by
  rcases accept?_inStep .identifier h with ⟨hnone, hnone'⟩ |
    ⟨w, w', rest, rest', _, _, hsome, hsome', hw, hrest⟩
  · rw [optionalName, optionalName, hnone, hnone']
    exact ⟨rfl, h⟩
  · rw [optionalName, optionalName, hsome, hsome']
    exact ⟨congrArg some (P.text hw), hrest⟩

theorem optionalConst_inStep (h : P.words ws ws') :
    (optionalConst ws).value = (optionalConst ws').value ∧
      P.words (optionalConst ws).rest (optionalConst ws').rest := by
  rcases accept?_inStep .constWord h with ⟨hnone, hnone'⟩ |
    ⟨w, w', rest, rest', _, _, hsome, hsome', hw, hrest⟩
  · rw [optionalConst, optionalConst, hnone, hnone']
    exact ⟨rfl, h⟩
  · rw [optionalConst, optionalConst, hsome, hsome']
    exact ⟨rfl, hrest⟩

theorem stars_inStep (limit : Nat) (h : P.words ws ws') :
    (stars limit ws).value = (stars limit ws').value ∧
      P.words (stars limit ws).rest (stars limit ws').rest := by
  induction limit generalizing ws ws' with
  | zero => exact ⟨rfl, h⟩
  | succ limit ih =>
    rw [stars, stars]
    rcases accept?_inStep .star h with ⟨hnone, hnone'⟩ |
      ⟨w, w', rest, rest', _, _, hsome, hsome', hw, hrest⟩
    · rw [hnone, hnone']
      exact ⟨rfl, h⟩
    · rw [hsome, hsome']
      obtain ⟨hvalue, hbehind⟩ := ih hrest
      exact ⟨congrArg (· + 1) hvalue, hbehind⟩

/-! ## Types and arguments -/

theorem baseType_inStep (h : P.words ws ws') :
    InStep P (· = ·) (baseType d ws) (baseType d ws') := by
  obtain ⟨hconst, hws⟩ := optionalConst_inStep h
  rw [baseType, baseType]
  refine (name_inStep hws).bind fun _ _ hname hrest => ?_
  obtain ⟨hstars, hbehind⟩ := stars_inStep d.maxIndirection hrest
  refine .taken ?_ hbehind
  exact congr (congr (congrArg BaseType.mk hconst) hname) hstars

/-- The arguments are the same, and the parentheses that close them correspond. -/
def Pairing.closed (P : Pairing) (r r' : List Argument × Word) : Prop :=
  r.1 = r'.1 ∧ P.word r.2 r'.2

theorem someArguments_inStep {argument : (ws : List Word) → Reading Argument ws}
    (hargument : ∀ {ws ws'}, P.words ws ws' → InStep P (· = ·) (argument ws) (argument ws'))
    (h : P.words ws ws') :
    InStep P P.closed (someArguments argument ws) (someArguments argument ws') := by
  induction hlen : ws.length using Nat.strongRecOn generalizing ws ws' with
  | ind n ih =>
  rw [someArguments, someArguments]
  refine (hargument h).bind fun {first first' ws₁ ws₁'} h₁ _ hfirst hws₁ => ?_
  cases hfirst
  dsimp only
  rcases accept?_inStep .comma hws₁ with ⟨hnone, hnone'⟩ |
    ⟨w, w', rest, rest', h₂, _, hsome, hsome', _, hrest⟩
  · rw [hnone, hnone']
    exact (expect_inStep hws₁).bind fun _ _ hclose hbehind => .taken ⟨rfl, hclose⟩ hbehind
  · rw [hsome, hsome']
    have hshorter : rest.length < n := by omega
    refine (ih _ hshorter hrest rfl).bind fun _ _ hothers hbehind => ?_
    exact .taken ⟨congrArg (first :: ·) hothers.1, hothers.2⟩ hbehind

theorem argumentsOf_inStep {argument : (ws : List Word) → Reading Argument ws}
    (hargument : ∀ {ws ws'}, P.words ws ws' → InStep P (· = ·) (argument ws) (argument ws'))
    (h : P.words ws ws') :
    InStep P P.closed (argumentsOf argument ws) (argumentsOf argument ws') := by
  rw [argumentsOf, argumentsOf]
  refine (expect_inStep h).bind fun _ _ _ hinside => ?_
  dsimp only
  rcases accept?_inStep .rightParen hinside with ⟨hnone, hnone'⟩ |
    ⟨w, w', rest, rest', _, _, hsome, hsome', hw, hrest⟩
  · rw [hnone, hnone']
    exact (someArguments_inStep hargument hinside).bind fun _ _ has hbehind => .taken has hbehind
  · rw [hsome, hsome']
    exact .taken ⟨rfl, hw⟩ hrest

theorem argument_inStep (depth : Nat) {ws ws' : List Word} (h : P.words ws ws') :
    InStep P (· = ·) (argument d depth ws) (argument d depth ws') := by
  induction depth generalizing ws ws' with
  | zero =>
    rw [argument, argument]
    refine (baseType_inStep h).bind fun _ _ htype hws₁ => ?_
    cases htype
    dsimp only
    rw [startsCallback_inStep hws₁]
    split
    · exact .stuck hws₁ rfl
    · obtain ⟨hname, hbehind⟩ := optionalName_inStep hws₁
      exact .taken (congrArg _ hname) hbehind
  | succ depth ih =>
    rw [argument, argument]
    refine (baseType_inStep h).bind fun _ _ htype hws₁ => ?_
    cases htype
    dsimp only
    rw [startsCallback_inStep hws₁]
    split
    · refine (expect_inStep hws₁).bind fun _ _ _ hws₂ => ?_
      refine (expect_inStep hws₂).bind fun _ _ _ hws₃ => ?_
      obtain ⟨hname, hws₄⟩ := optionalName_inStep hws₃
      refine (expect_inStep hws₄).bind fun _ _ _ hws₅ => ?_
      refine (argumentsOf_inStep ih hws₅).bind fun _ _ has hbehind => ?_
      exact .taken (congr (congrArg _ hname) has.1) hbehind
    · obtain ⟨hname, hbehind⟩ := optionalName_inStep hws₁
      exact .taken (congrArg _ hname) hbehind

theorem arguments_inStep (h : P.words ws ws') :
    InStep P P.closed (arguments d ws) (arguments d ws') :=
  argumentsOf_inStep (argument_inStep maxNesting) h

theorem pointerName_inStep (h : P.words ws ws') :
    InStep P (· = ·) (pointerName ws) (pointerName ws') := by
  rw [pointerName, pointerName]
  refine (expect_inStep h).bind fun _ _ _ hws₁ => ?_
  refine (expect_inStep hws₁).bind fun _ _ _ hws₂ => ?_
  refine (name_inStep hws₂).bind fun _ _ hname hws₃ => ?_
  exact (expect_inStep hws₃).bind fun _ _ _ hws₄ => .taken hname hws₄

/-! ## Enumerations -/

theorem initializer_inStep (h : P.words ws ws') :
    InStep P (· = ·) (initializer ws) (initializer ws') := by
  cases h with
  | nil => exact .stuck .nil rfl
  | cons hw hws =>
    rw [initializer, initializer, ← P.kind hw, ← P.text hw]
    split
    · dsimp only
      split
      · exact .taken rfl hws
      · exact .stuck (.cons hw hws) rfl
    · split
      · exact .taken rfl hws
      · exact .stuck (.cons hw hws) rfl

theorem enumerator_inStep (h : P.words ws ws') :
    InStep P (· = ·) (enumerator ws) (enumerator ws') := by
  rw [enumerator, enumerator]
  refine (name_inStep h).bind fun _ _ hname hws₁ => ?_
  cases hname
  dsimp only
  rcases accept?_inStep .equals hws₁ with ⟨hnone, hnone'⟩ |
    ⟨w, w', rest, rest', _, _, hsome, hsome', _, hrest⟩
  · rw [hnone, hnone']
    exact .taken rfl hws₁
  · rw [hsome, hsome']
    refine (initializer_inStep hrest).bind fun _ _ hvalue hbehind => ?_
    exact .taken (congrArg _ hvalue) hbehind

theorem enumerators_inStep (h : P.words ws ws') :
    InStep P (· = ·) (enumerators ws) (enumerators ws') := by
  induction hlen : ws.length using Nat.strongRecOn generalizing ws ws' with
  | ind n ih =>
  rw [enumerators, enumerators]
  rcases accept?_inStep .rightBrace h with ⟨hnone, hnone'⟩ |
    ⟨w, w', rest, rest', _, _, hsome, hsome', _, hrest⟩
  · rw [hnone, hnone']
    refine (enumerator_inStep h).bind fun {first first' ws₁ ws₁'} h₁ _ hfirst hws₁ => ?_
    cases hfirst
    dsimp only
    rcases accept?_inStep .comma hws₁ with ⟨hnone, hnone'⟩ |
      ⟨w, w', rest, rest', h₂, _, hsome, hsome', _, hrest⟩
    · rw [hnone, hnone']
      exact (expect_inStep hws₁).bind fun _ _ _ hbehind => .taken rfl hbehind
    · rw [hsome, hsome']
      have hshorter : rest.length < n := by omega
      refine (ih _ hshorter hrest rfl).bind fun _ _ hothers hbehind => ?_
      exact .taken (congrArg _ hothers) hbehind
  · rw [hsome, hsome']
    exact .taken rfl hrest

theorem enumeration_inStep (h : P.words ws ws') :
    InStep P (· = ·) (enumeration ws) (enumeration ws') := by
  rw [enumeration, enumeration]
  refine (expect_inStep h).bind fun _ _ _ hws₁ => ?_
  refine (enumerators_inStep hws₁).bind fun _ _ hvalues hws₂ => ?_
  obtain ⟨hname, hbehind⟩ := optionalName_inStep hws₂
  exact .taken (congr (congrArg _ hvalues) hname) hbehind

/-! ## Structures -/

theorem field_inStep (h : P.words ws ws') : InStep P P.field (field d ws) (field d ws') := by
  rw [field, field]
  refine (baseType_inStep h).bind fun _ _ htype hws₁ => ?_
  cases htype
  dsimp only
  rw [startsWith_inStep hws₁]
  split
  · refine (pointerName_inStep hws₁).bind fun _ _ hname hws₂ => ?_
    cases hname
    refine (arguments_inStep hws₂).bind fun {r r' _ _} _ _ hclosed hws₃ => ?_
    obtain ⟨as, close⟩ := r
    obtain ⟨as', close'⟩ := r'
    obtain ⟨has, hclose⟩ := hclosed
    cases has
    refine (expect_inStep hws₃).bind fun _ _ hsemicolon hws₄ => ?_
    exact .taken (P.function _ hclose hsemicolon) hws₄
  · refine (name_inStep hws₁).bind fun _ _ hname hws₂ => ?_
    cases hname
    exact (expect_inStep hws₂).bind fun _ _ _ hws₃ => .taken (P.plain _ _) hws₃

theorem fields_inStep (h : P.words ws ws') :
    InStep P (List.Forall₂ P.field) (fields d ws) (fields d ws') := by
  induction hlen : ws.length using Nat.strongRecOn generalizing ws ws' with
  | ind n ih =>
  rw [fields, fields]
  rcases accept?_inStep .rightBrace h with ⟨hnone, hnone'⟩ |
    ⟨w, w', rest, rest', _, _, hsome, hsome', _, hrest⟩
  · rw [hnone, hnone']
    refine (field_inStep h).bind fun h₁ _ hfirst hws₁ => ?_
    refine (ih _ (hlen ▸ h₁) hws₁ rfl).bind fun _ _ hothers hbehind => ?_
    exact .taken (.cons hfirst hothers) hbehind
  · rw [hsome, hsome']
    exact .taken .nil hrest

theorem struct_inStep (h : P.words ws ws') :
    InStep P P.structs (struct d ws) (struct d ws') := by
  rw [struct, struct]
  refine (expect_inStep h).bind fun _ _ _ hws₁ => ?_
  refine (fields_inStep hws₁).bind fun _ _ hfields hws₂ => ?_
  exact (name_inStep hws₂).bind fun _ _ hname hws₃ => .taken ⟨hname, hfields⟩ hws₃

/-! ## Declarations -/

theorem aliasOrFunction_inStep (h : P.words ws ws') :
    InStep P P.declared (aliasOrFunction d ws) (aliasOrFunction d ws') := by
  rw [aliasOrFunction, aliasOrFunction]
  refine (baseType_inStep h).bind fun _ _ htype hws₁ => ?_
  cases htype
  dsimp only
  rw [startsWith_inStep hws₁]
  split
  · refine (pointerName_inStep hws₁).bind fun _ _ hname hws₂ => ?_
    cases hname
    refine (arguments_inStep hws₂).bind fun {r r' _ _} _ _ hclosed hws₃ => ?_
    obtain ⟨as, close⟩ := r
    obtain ⟨as', close'⟩ := r'
    obtain ⟨has, _⟩ := hclosed
    cases has
    exact .taken (.function _) hws₃
  · refine (name_inStep hws₁).bind fun _ _ hname hws₂ => ?_
    cases hname
    exact .taken (.typeAlias _) hws₂

theorem declared_inStep (h : P.words ws ws') :
    InStep P P.declared (declared d ws) (declared d ws') := by
  rw [declared, declared]
  rcases accept?_inStep .enumWord h with ⟨hnone, hnone'⟩ |
    ⟨w, w', rest, rest', _, _, hsome, hsome', _, hrest⟩
  · rw [hnone, hnone']
    dsimp only
    rcases accept?_inStep .structWord h with ⟨hnone, hnone'⟩ |
      ⟨w, w', rest, rest', _, _, hsome, hsome', _, hrest⟩
    · rw [hnone, hnone']
      exact aliasOrFunction_inStep h
    · rw [hsome, hsome']
      exact (struct_inStep hrest).bind fun _ _ hs hbehind => .taken (.struct hs) hbehind
  · rw [hsome, hsome']
    refine (enumeration_inStep hrest).bind fun _ _ he hbehind => ?_
    cases he
    exact .taken (.enumeration _) hbehind

/-- What is declared corresponds, and so do the semicolons behind. -/
def Pairing.declarations (P : Pairing) (r r' : Declaration × Word) : Prop :=
  P.declared r.1 r'.1 ∧ P.word r.2 r'.2

theorem declaration_inStep (h : P.words ws ws') :
    InStep P P.declarations (declaration d ws) (declaration d ws') := by
  rw [declaration, declaration]
  refine (expect_inStep h).bind fun _ _ _ hws₁ => ?_
  refine (declared_inStep hws₁).bind fun _ _ hdeclared hws₂ => ?_
  exact (expect_inStep hws₂).bind fun _ _ hsemi hws₃ => .taken ⟨hdeclared, hsemi⟩ hws₃

/-- Both texts get stuck at corresponding words, in need of the same thing, or both are read and
the results are related. -/
inductive Agree (P : Pairing) (L : List Declaration → List Declaration → Prop) :
    Except Stuck (List Declaration) → Except Stuck (List Declaration) → Prop where
  | stuck {s s' : Stuck} : P.words s.rest s'.rest → s.expected = s'.expected →
    Agree P L (.error s) (.error s')
  | read {ds ds' : List Declaration} : L ds ds' → Agree P L (.ok ds) (.ok ds')

/-- All declarations are read in step, if what is taken of them stays related when a declaration
and the comments behind it are added. -/
theorem declarationsFrom_inStep {L : List Declaration → List Declaration → Prop}
    (hstep : ∀ {ds ds' e e' s s'}, L ds ds' → P.declared e e' → P.word s s' →
      L (ds ++ e :: comments s.comments) (ds' ++ e' :: comments s'.comments))
    {taken taken' : List Declaration} (htaken : L taken.reverse taken'.reverse)
    (h : P.words ws ws') :
    Agree P L (declarationsFrom d taken ws) (declarationsFrom d taken' ws') := by
  induction hlen : ws.length using Nat.strongRecOn generalizing ws ws' taken taken' with
  | ind n ih =>
  cases h with
  | nil =>
    rw [declarationsFrom_nil, declarationsFrom_nil]
    exact .read htaken
  | @cons w w' ws ws' hw hws =>
    have hfirst := declaration_inStep (d := d) (.cons hw hws)
    rw [declarationsFrom, declarationsFrom]
    generalize declaration d (w :: ws) = r at hfirst ⊢
    generalize declaration d (w' :: ws') = r' at hfirst ⊢
    cases hfirst with
    | stuck hrest hexpected => exact .stuck hrest hexpected
    | @taken e e' _ _ hshorter _ he hbehind =>
      refine ih _ (hlen ▸ hshorter) ?_ hbehind rfl
      have hmore := hstep htaken he.1 he.2
      simpa using hmore

end EngineHeader.Declaration.Parser
