import EngineHeader.Declaration.Basic
import EngineHeader.Declaration.Literal
import EngineHeader.Dialect
import EngineHeader.Token.Basic

/-!
# The grammar of declarations

What token lists a header may be made of, and the tree that each of them stands
for.  The tokens are those that are not comments.  A rule says of a list of
tokens and a tree that the list derives the tree, and it says so without any
order of reading.  A terminal is a token of a kind.  Only the spellings of
identifiers and of integers reach the tree.

Three shapes occur in several rules.

* `OptionalName`: a name that may be left out.
* `Separated`: one item or more, with a separator between any two.
* `Many`: any number of items, one behind the other.

Arguments nest.  `ArgumentOf d n` are the arguments whose callbacks are nested
inside one another at most `n` deep.  What stands side by side does not count.

The comments of a header are no part of its derivation.
`Header.withoutComments` leaves out those between declarations and those of
function pointer fields.
-/

namespace EngineHeader.Declaration.Grammar

open Token (Kind)

/-! ## Shapes -/

/-- A name, or nothing. -/
inductive OptionalName : List Token → Option String → Prop where
  | absent : OptionalName [] none
  | present {name : Token} : name.kind = .identifier → OptionalName [name] (some name.text)

/-- One item or more, with a separator between any two. -/
inductive Separated {α : Type} (item : List Token → α → Prop) (separator : Kind) :
    List Token → List α → Prop where
  | one {ts : List Token} {a : α} : item ts a → Separated item separator ts [a]
  | more {ts us : List Token} {s : Token} {a : α} {as : List α} :
    item ts a → s.kind = separator → Separated item separator us as →
    Separated item separator (ts ++ s :: us) (a :: as)

/-- Any number of items. -/
inductive Many {α : Type} (item : List Token → α → Prop) : List Token → List α → Prop where
  | none : Many item [] []
  | more {ts us : List Token} {a : α} {as : List α} :
    item ts a → Many item us as → Many item (ts ++ us) (a :: as)

section

variable {α : Type} {item : List Token → α → Prop} {Q : Token → Prop} {P : α → Prop}
  {ts : List Token} {as : List α}

/-- If the tokens tell something about each item, then they tell it about all. -/
theorem Separated.forall {separator : Kind} (h : Separated item separator ts as)
    (hitem : ∀ {us a}, item us a → (∀ t ∈ us, Q t) → P a) (hts : ∀ t ∈ ts, Q t) :
    ∀ a ∈ as, P a := by
  induction h with
  | one ha => exact List.forall_mem_singleton.mpr (hitem ha hts)
  | more ha _ _ ih =>
    obtain ⟨hfirst, hothers⟩ := List.forall_mem_append.mp hts
    have hothers := (List.forall_mem_cons.mp hothers).2
    exact List.forall_mem_cons.mpr ⟨hitem ha hfirst, ih hothers⟩

theorem Many.forall (h : Many item ts as)
    (hitem : ∀ {us a}, item us a → (∀ t ∈ us, Q t) → P a) (hts : ∀ t ∈ ts, Q t) :
    ∀ a ∈ as, P a := by
  induction h with
  | none => exact List.forall_mem_nil _
  | more ha _ ih =>
    obtain ⟨hfirst, hothers⟩ := List.forall_mem_append.mp hts
    exact List.forall_mem_cons.mpr ⟨hitem ha hfirst, ih hothers⟩

end

/-! ## Types and arguments -/

/-- An optional `const`, a name, and stars up to the limit of the dialect. -/
inductive BaseTypeOf (d : Dialect) : List Token → BaseType → Prop where
  | plain {name : Token} {stars : List Token} :
    name.kind = .identifier → (∀ s ∈ stars, s.kind = .star) → stars.length ≤ d.maxIndirection →
    BaseTypeOf d (name :: stars) ⟨false, name.text, stars.length⟩
  | const {const name : Token} {stars : List Token} :
    const.kind = .constWord → name.kind = .identifier → (∀ s ∈ stars, s.kind = .star) →
    stars.length ≤ d.maxIndirection →
    BaseTypeOf d (const :: name :: stars) ⟨true, name.text, stars.length⟩

/-- Arguments in parentheses, separated by commas. -/
inductive ArgumentsOf (argument : List Token → Argument → Prop) :
    List Token → List Argument → Prop where
  | none {l r : Token} : l.kind = .leftParen → r.kind = .rightParen → ArgumentsOf argument [l, r] []
  | some {l r : Token} {ts : List Token} {as : List Argument} :
    l.kind = .leftParen → Separated argument .comma ts as → r.kind = .rightParen →
    ArgumentsOf argument (l :: (ts ++ [r])) as

theorem ArgumentsOf.forall {argument : List Token → Argument → Prop} {Q : Token → Prop}
    {P : Argument → Prop} {ts : List Token} {as : List Argument} (h : ArgumentsOf argument ts as)
    (hitem : ∀ {us a}, argument us a → (∀ t ∈ us, Q t) → P a) (hts : ∀ t ∈ ts, Q t) :
    ∀ a ∈ as, P a := by
  cases h with
  | none => exact List.forall_mem_nil _
  | some _ has _ =>
    have hinside := (List.forall_mem_append.mp (List.forall_mem_cons.mp hts).2).1
    exact has.forall hitem hinside

/-- A base type and an optional name. -/
inductive PlainOf (d : Dialect) : List Token → Argument → Prop where
  | mk {ts us : List Token} {type : BaseType} {name? : Option String} :
    BaseTypeOf d ts type → OptionalName us name? → PlainOf d (ts ++ us) (.plain type name?)

/-- A function pointer whose name is optional. -/
inductive CallbackOf (d : Dialect) (argument : List Token → Argument → Prop) :
    List Token → Argument → Prop where
  | mk {l s r : Token} {ts us vs : List Token} {returns : BaseType} {name? : Option String}
      {as : List Argument} :
    BaseTypeOf d ts returns → l.kind = .leftParen → s.kind = .star → OptionalName us name? →
    r.kind = .rightParen → ArgumentsOf argument vs as →
    CallbackOf d argument (ts ++ l :: s :: (us ++ r :: vs)) (.callback returns name? as)

/-- An argument, with callbacks nested inside one another at most `n` deep.  Only
the newer dialect has callbacks. -/
def ArgumentOf (d : Dialect) : (n : Nat) → List Token → Argument → Prop
  | 0, ts, a => PlainOf d ts a
  | n + 1, ts, a => PlainOf d ts a ∨ d = .extension ∧ CallbackOf d (ArgumentOf d n) ts a

/-- A base type, a star and a name in parentheses, and arguments whose callbacks
nest at most 64 deep. -/
inductive SignatureOf (d : Dialect) : List Token → Signature → Prop where
  | mk {l s name r : Token} {ts us : List Token} {returns : BaseType} {as : List Argument} :
    BaseTypeOf d ts returns → l.kind = .leftParen → s.kind = .star → name.kind = .identifier →
    r.kind = .rightParen → ArgumentsOf (ArgumentOf d 64) us as →
    SignatureOf d (ts ++ l :: s :: name :: r :: us) ⟨returns, name.text, as⟩

/-! ## Enumerations -/

/-- What an enumerator is set to.  A number has to have 64 bits, with a sign. -/
inductive InitializerOf : Token → Initializer → Prop where
  | integer {t : Token} : t.kind = .integer →
    -0x8000000000000000 ≤ Literal.value t.text.toList →
    Literal.value t.text.toList ≤ 0x7fffffffffffffff →
    InitializerOf t (.integer (Literal.value t.text.toList))
  | reference {t : Token} : t.kind = .identifier → InitializerOf t (.reference t.text)

/-- A name, and perhaps an equals sign and what it is set to. -/
inductive EnumeratorOf : List Token → Enumerator → Prop where
  | implicit {name : Token} : name.kind = .identifier → EnumeratorOf [name] ⟨name.text, .implicit⟩
  | explicit {name e t : Token} {value : Initializer} :
    name.kind = .identifier → e.kind = .equals → InitializerOf t value →
    EnumeratorOf [name, e, t] ⟨name.text, value⟩

/-- Enumerators separated by commas.  A comma may follow the last. -/
inductive EnumeratorsOf : List Token → List Enumerator → Prop where
  | none : EnumeratorsOf [] []
  | some {ts : List Token} {es : List Enumerator} :
    Separated EnumeratorOf .comma ts es → EnumeratorsOf ts es
  | trailing {ts : List Token} {es : List Enumerator} {c : Token} :
    Separated EnumeratorOf .comma ts es → c.kind = .comma → EnumeratorsOf (ts ++ [c]) es

/-- Enumerators may follow a first one and a comma, and also if there are none. -/
theorem EnumeratorsOf.more {ts us : List Token} {c : Token} {e : Enumerator}
    {es : List Enumerator} (he : EnumeratorOf ts e) (hc : c.kind = .comma)
    (hes : EnumeratorsOf us es) : EnumeratorsOf (ts ++ c :: us) (e :: es) := by
  cases hes with
  | none => exact .trailing (.one he) hc
  | some h => exact .some (.more he hc h)
  | trailing h hc' =>
    have hall := EnumeratorsOf.trailing (.more he hc h) hc'
    rwa [List.append_assoc, List.cons_append] at hall

/-! ## Declarations -/

/-- A field, through its semicolon. -/
inductive FieldOf (d : Dialect) : List Token → Field → Prop where
  | plain {name semicolon : Token} {ts : List Token} {type : BaseType} :
    BaseTypeOf d ts type → name.kind = .identifier → semicolon.kind = .semicolon →
    FieldOf d (ts ++ [name, semicolon]) (.plain type name.text)
  | function {semicolon : Token} {ts : List Token} {f : Signature} :
    SignatureOf d ts f → semicolon.kind = .semicolon →
    FieldOf d (ts ++ [semicolon]) (.function f none)

/-- What is declared, between `typedef` and the semicolon. -/
inductive DeclaredOf (d : Dialect) : List Token → Declaration → Prop where
  | enumeration {word l r : Token} {ts us : List Token} {es : List Enumerator}
      {name? : Option String} :
    word.kind = .enumWord → l.kind = .leftBrace → EnumeratorsOf ts es → r.kind = .rightBrace →
    OptionalName us name? →
    DeclaredOf d (word :: l :: (ts ++ r :: us)) (.enumeration ⟨es, name?⟩)
  | struct {word l r name : Token} {ts : List Token} {fs : List Field} :
    word.kind = .structWord → l.kind = .leftBrace → Many (FieldOf d) ts fs →
    r.kind = .rightBrace → name.kind = .identifier →
    DeclaredOf d (word :: l :: (ts ++ [r, name])) (.struct ⟨name.text, fs⟩)
  | typeAlias {name : Token} {ts : List Token} {type : BaseType} :
    BaseTypeOf d ts type → name.kind = .identifier →
    DeclaredOf d (ts ++ [name]) (.typeAlias ⟨type, name.text⟩)
  | function {ts : List Token} {f : Signature} :
    SignatureOf d ts f → DeclaredOf d ts (.function f)

/-- A declaration, through its semicolon. -/
inductive DeclarationOf (d : Dialect) : List Token → Declaration → Prop where
  | mk {word semicolon : Token} {ts : List Token} {declared : Declaration} :
    word.kind = .typedefWord → DeclaredOf d ts declared → semicolon.kind = .semicolon →
    DeclarationOf d (word :: (ts ++ [semicolon])) declared

/-- The tokens derive the header. -/
def Derives (d : Dialect) (ts : List Token) (h : Header) : Prop :=
  Many (DeclarationOf d) ts h.declarations

end EngineHeader.Declaration.Grammar

namespace EngineHeader

/-! ## Trees without comments -/

/-- A field without its comment. -/
def Declaration.Field.withoutComment : Field → Field
  | .plain type name => .plain type name
  | .function signature _ => .function signature none

/-- A declaration without the comments inside.  A comment is none. -/
def Declaration.withoutComments? : Declaration → Option Declaration
  | .comment _ => none
  | .struct s => some (.struct ⟨s.name, s.fields.map Field.withoutComment⟩)
  | d => some d

/-- A header without its comments. -/
def Header.withoutComments (h : Header) : Header :=
  ⟨h.declarations.filterMap Declaration.withoutComments?⟩

/-- The tokens that are not comments. -/
def Token.significant (tokens : List Token) : List Token :=
  tokens.filter (·.kind ≠ .comment)

theorem Token.significant_append (ts us : List Token) :
    significant (ts ++ us) = significant ts ++ significant us := List.filter_append ts us

theorem Token.significant_eq_self {ts : List Token} :
    significant ts = ts ↔ ∀ t ∈ ts, t.kind ≠ .comment := by
  simp [significant]

@[simp] theorem Token.significant_significant (ts : List Token) :
    significant (significant ts) = significant ts := by simp [significant]

end EngineHeader
