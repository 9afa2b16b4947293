import EngineHeader.Proofs.Declaration.Inversion
import EngineHeader.Proofs.Declaration.Recognition

/-!
# The older dialect

The older dialect is the newer one without what it does not have.  A header is *native* if
each of its types has at most one star and none of its arguments is a callback.  A text is
read as a header in the older dialect exactly if it is read as this header in the newer one
and the header is native (`ofText_native_iff`).

There are two parts to it.  Whatever is read in the older dialect is native, since its
grammar derives nothing else (`Derives.isNative`).  And what is native is read alike in every
dialect (`declarationsFrom_transfer`).  Dialects take different words only where a type has
two stars or where a callback begins.  So a base type is compared where no star is left
behind it, and an argument where it has ended; there the grammar decides.  Everything above
follows the parser and needs no condition, since a type is never the last thing that is read.
-/

namespace EngineHeader

/-! ## Native trees -/

namespace Declaration

/-- The type has at most one star. -/
def BaseType.IsNative (t : BaseType) : Prop := t.indirection ≤ 1

/-- The argument is not a callback, and its type is native. -/
def Argument.IsNative : Argument → Prop
  | .plain type _ => type.IsNative
  | .callback _ _ _ => False

/-- What is returned is native, and so is each argument. -/
structure Signature.IsNative (s : Signature) : Prop where
  returns : s.returns.IsNative
  arguments : ∀ a ∈ s.arguments, a.IsNative

/-- The types of the field are native. -/
def Field.IsNative : Field → Prop
  | .plain type _ => type.IsNative
  | .function signature _ => signature.IsNative

end Declaration

/-- The types of the declaration are native.  A comment and an enumeration have none. -/
def Declaration.IsNative : Declaration → Prop
  | .comment _ => True
  | .enumeration _ => True
  | .typeAlias a => a.type.IsNative
  | .function s => s.IsNative
  | .struct s => ∀ f ∈ s.fields, f.IsNative

/-- Every declaration of the header is native. -/
def Header.IsNative (h : Header) : Prop := ∀ e ∈ h.declarations, e.IsNative

namespace Declaration

theorem Field.isNative_of_withoutComment {f : Field} (h : f.withoutComment.IsNative) :
    f.IsNative := by
  cases f with
  | plain type name => exact h
  | function signature comment? => exact h

theorem isNative_of_withoutComments? {e : Declaration}
    (h : ∀ bare, e.withoutComments? = some bare → bare.IsNative) : e.IsNative := by
  cases e with
  | comment text => trivial
  | enumeration e => trivial
  | typeAlias a => exact h _ rfl
  | function s => exact h _ rfl
  | struct s =>
    intro f hf
    exact f.isNative_of_withoutComment (h _ rfl _ (List.mem_map_of_mem hf))

/-! ## What the older dialect derives -/

namespace Grammar

variable {d : Dialect} {ts : List Token}

theorem BaseTypeOf.isNative {t : BaseType} (h : BaseTypeOf .native ts t) : t.IsNative := by
  cases h with
  | plain _ _ hl => exact hl
  | const _ _ _ hl => exact hl

theorem ArgumentOf.isNative {n : Nat} {a : Argument} (h : ArgumentOf .native n ts a) :
    a.IsNative := by
  have hplain : PlainOf .native ts a → a.IsNative := by
    rintro ⟨htype, _⟩
    exact htype.isNative
  cases n with
  | zero => exact hplain h
  | succ n =>
    rcases h with h | ⟨hd, _⟩
    · exact hplain h
    · cases hd

theorem SignatureOf.isNative {s : Signature} (h : SignatureOf .native ts s) : s.IsNative := by
  obtain ⟨htype, _, _, _, _, has⟩ := h
  exact ⟨htype.isNative, has.forall (fun h _ => h.isNative) (fun _ _ => trivial)⟩

theorem FieldOf.isNative {f : Field} (h : FieldOf .native ts f) : f.IsNative := by
  cases h with
  | plain htype _ _ => exact htype.isNative
  | function hs _ => exact hs.isNative

theorem DeclaredOf.isNative {e : Declaration} (h : DeclaredOf .native ts e) : e.IsNative := by
  cases h with
  | enumeration => trivial
  | struct _ _ hfs _ _ => exact hfs.forall (fun h _ => h.isNative) (fun _ _ => trivial)
  | typeAlias htype _ => exact htype.isNative
  | function hs => exact hs.isNative

/-- The older dialect derives native headers only. -/
theorem Derives.isNative {h : Header} (hd : Derives .native ts h) : h.IsNative := by
  refine hd.forall (fun he _ => ?_) (fun _ _ => trivial)
  obtain ⟨_, hdeclared, _⟩ := he
  exact hdeclared.isNative

/-! ## What every dialect derives -/

theorem BaseTypeOf.transfer {t : BaseType} (h : BaseTypeOf d ts t) (hn : t.IsNative)
    (d' : Dialect) : BaseTypeOf d' ts t := by
  have hle : t.indirection ≤ d'.maxIndirection := by
    cases d' with
    | native => exact hn
    | extension => exact Nat.le_trans hn (by decide)
  cases h with
  | plain hname hs _ => exact .plain hname hs hle
  | const hc hname hs _ => exact .const hc hname hs hle

theorem ArgumentOf.transfer {n : Nat} {a : Argument} (h : ArgumentOf d n ts a) (hn : a.IsNative)
    (d' : Dialect) : ArgumentOf d' n ts a := by
  have hplain : PlainOf d ts a → PlainOf d' ts a := by
    rintro ⟨htype, hname⟩
    exact .mk (htype.transfer hn d') hname
  cases n with
  | zero => exact hplain h
  | succ n =>
    rcases h with h | ⟨_, h⟩
    · exact .inl (hplain h)
    · cases h
      exact hn.elim

end Grammar

/-! ## What every dialect reads -/

namespace Parser

open Grammar
open Token (Kind Word Words)

variable {d : Dialect} {ws rest : List Word}

theorem baseType_transfer {t : BaseType} (h : Yields (baseType d ws) t rest) (hn : t.IsNative)
    (hr : startsWith .star rest = false) (d' : Dialect) : Yields (baseType d' ws) t rest := by
  obtain ⟨front, rfl, htype⟩ := baseType_sound h
  exact baseType_complete (htype.transfer hn d') hr

theorem argument_transfer {n : Nat} {a : Argument} (h : Yields (argument d n ws) a rest)
    (hn : a.IsNative) (hr : EndsArgument rest) (d' : Dialect) :
    Yields (argument d' n ws) a rest := by
  obtain ⟨front, rfl, ha⟩ := argument_sound n h
  exact argument_complete n (ha.transfer hn d') hr

theorem someArguments_transfer {n : Nat} {as : List Argument} {close : Word}
    (h : Yields (someArguments (argument d n) ws) (as, close) rest) (hn : ∀ a ∈ as, a.IsNative)
    (d' : Dialect) : Yields (someArguments (argument d' n) ws) (as, close) rest := by
  induction as generalizing ws with
  | nil =>
    obtain ⟨_, _, _, ⟨_, _, heq⟩ | ⟨_, _, _, _, _, _, heq⟩⟩ := yields_someArguments_iff.mp h
    · cases heq
    · cases heq
  | cons a as ih =>
    obtain ⟨hna, hnas⟩ := List.forall_mem_cons.mp hn
    rw [yields_someArguments_iff] at h ⊢
    obtain ⟨_, _, ha, ⟨rfl, hk, heq⟩ | ⟨comma, behind, _, rfl, hk, has, heq⟩⟩ := h
    · cases heq
      have ha := argument_transfer ha hna ⟨close, rest, rfl, .inr hk⟩ d'
      exact ⟨a, _, ha, .inl ⟨rfl, hk, rfl⟩⟩
    · cases heq
      have ha := argument_transfer ha hna ⟨comma, behind, rfl, .inl hk⟩ d'
      exact ⟨a, _, ha, .inr ⟨comma, behind, as, rfl, hk, ih has hnas, rfl⟩⟩

theorem arguments_transfer {as : List Argument} {close : Word}
    (h : Yields (arguments d ws) (as, close) rest) (hn : ∀ a ∈ as, a.IsNative) (d' : Dialect) :
    Yields (arguments d' ws) (as, close) rest := by
  rw [arguments, yields_argumentsOf_iff] at h ⊢
  obtain ⟨l, inside, rfl, hl, hnone | ⟨hopen, has⟩⟩ := h
  · exact ⟨l, inside, rfl, hl, .inl hnone⟩
  · exact ⟨l, inside, rfl, hl, .inr ⟨hopen, someArguments_transfer has hn d'⟩⟩

/-- A parenthesis behind a base type is not a star. -/
theorem baseType_transfer_of_paren {t : BaseType} (h : Yields (baseType d ws) t rest)
    (hn : t.IsNative) (hparen : startsWith .leftParen rest = true) (d' : Dialect) :
    Yields (baseType d' ws) t rest := by
  refine baseType_transfer h hn ?_ d'
  cases rest with
  | nil => rfl
  | cons w rest => exact startsWith_eq_false (startsWith_cons.mp hparen) (by decide)

theorem field_transfer {f : Field} (h : Yields (field d ws) f rest) (hn : f.IsNative)
    (d' : Dialect) : Yields (field d' ws) f rest := by
  rw [yields_field_iff] at h ⊢
  obtain ⟨type, ws₁, htype, hfield⟩ := h
  rcases hfield with ⟨hparen, name, ws₂, as, close, semicolon, hname, has, hk, rfl⟩ |
    ⟨name, semicolon, rfl, hnk, hk, rfl⟩
  · have htype := baseType_transfer_of_paren htype hn.returns hparen d'
    have has := arguments_transfer has hn.arguments d'
    exact ⟨type, ws₁, htype, .inl ⟨hparen, name, ws₂, as, close, semicolon, hname, has, hk, rfl⟩⟩
  · have htype := baseType_transfer htype hn (startsWith_eq_false hnk (by decide)) d'
    exact ⟨type, _, htype, .inr ⟨name, semicolon, rfl, hnk, hk, rfl⟩⟩

theorem fields_transfer {fs : List Field} (h : Yields (fields d ws) fs rest)
    (hn : ∀ f ∈ fs, f.IsNative) (d' : Dialect) : Yields (fields d' ws) fs rest := by
  induction fs generalizing ws with
  | nil =>
    rw [yields_fields_iff] at h ⊢
    rcases h with hnone | ⟨_, _, _, _, _, _, heq⟩
    · exact .inl hnone
    · cases heq
  | cons f fs ih =>
    obtain ⟨hnf, hnfs⟩ := List.forall_mem_cons.mp hn
    rw [yields_fields_iff] at h ⊢
    rcases h with ⟨_, _, _, heq⟩ | ⟨hopen, _, mid, _, hf, hfs, heq⟩
    · cases heq
    · cases heq
      exact .inr ⟨hopen, f, mid, fs, field_transfer hf hnf d', ih hfs hnfs, rfl⟩

theorem aliasOrFunction_transfer {e : Declaration} (h : Yields (aliasOrFunction d ws) e rest)
    (hn : e.IsNative) (d' : Dialect) : Yields (aliasOrFunction d' ws) e rest := by
  rw [yields_aliasOrFunction_iff] at h ⊢
  obtain ⟨type, ws₁, htype, ⟨hparen, name, ws₂, as, close, hname, has, rfl⟩ |
    ⟨name, rfl, hnk, rfl⟩⟩ := h
  · have htype := baseType_transfer_of_paren htype hn.returns hparen d'
    have has := arguments_transfer has hn.arguments d'
    exact ⟨type, ws₁, htype, .inl ⟨hparen, name, ws₂, as, close, hname, has, rfl⟩⟩
  · have htype := baseType_transfer htype hn (startsWith_eq_false hnk (by decide)) d'
    exact ⟨type, _, htype, .inr ⟨name, rfl, hnk, rfl⟩⟩

theorem declared_transfer {e : Declaration} (h : Yields (declared d ws) e rest) (hn : e.IsNative)
    (d' : Dialect) : Yields (declared d' ws) e rest := by
  rw [yields_declared_iff] at h ⊢
  rcases h with henum | ⟨word, behind, s, rfl, hk, hs, rfl⟩ | ⟨henum, hstruct, h⟩
  · exact .inl henum
  · rw [yields_struct_iff] at hs
    obtain ⟨l, inside, name, rfl, hl, hfs, hname⟩ := hs
    refine .inr (.inl ⟨word, _, s, rfl, hk, yields_struct_iff.mpr ?_, rfl⟩)
    exact ⟨l, inside, name, rfl, hl, fields_transfer hfs hn d', hname⟩
  · exact .inr (.inr ⟨henum, hstruct, aliasOrFunction_transfer h hn d'⟩)

theorem declaration_transfer {e : Declaration} {semicolon : Word}
    (h : Yields (declaration d ws) (e, semicolon) rest) (hn : e.IsNative) (d' : Dialect) :
    Yields (declaration d' ws) (e, semicolon) rest := by
  rw [yields_declaration_iff] at h ⊢
  obtain ⟨word, behind, rfl, hw, hdeclared, hk⟩ := h
  exact ⟨word, behind, rfl, hw, declared_transfer hdeclared hn d', hk⟩

/-- What was taken stays at the beginning of what is read. -/
theorem mem_of_mem_taken {taken ds : List Declaration} (h : declarationsFrom d taken ws = .ok ds)
    {e : Declaration} (he : e ∈ taken) : e ∈ ds := by
  obtain ⟨new, rfl, -⟩ := declarationsFrom_sound h
  exact List.mem_append_left _ (List.mem_reverse.mpr he)

/-- Native declarations are read alike in every dialect, with the same comments. -/
theorem declarationsFrom_transfer {taken ds : List Declaration}
    (h : declarationsFrom d taken ws = .ok ds) (hn : ∀ e ∈ ds, e.IsNative) (d' : Dialect) :
    declarationsFrom d' taken ws = .ok ds := by
  induction hlen : ws.length using Nat.strongRecOn generalizing ws taken with
  | ind n ih =>
  cases ws with
  | nil => rwa [declarationsFrom_nil] at h ⊢
  | cons w ws =>
    rw [declarationsFrom_cons_iff] at h ⊢
    obtain ⟨content, semicolon, behind, hread, hmore⟩ := h
    have hcontent : content.IsNative :=
      hn _ (mem_of_mem_taken hmore (List.mem_append_right _ List.mem_cons_self))
    have hshorter : behind.length < n := hlen ▸ hread.shorter
    have hmore := ih _ hshorter hmore rfl
    exact ⟨content, semicolon, behind, declaration_transfer hread hcontent d', hmore⟩

end Parser

end Declaration

namespace Header

open Declaration

theorem isNative_of_withoutComments {h : Header} (hn : h.withoutComments.IsNative) :
    h.IsNative := by
  intro e he
  refine isNative_of_withoutComments? fun bare hbare => hn bare ?_
  exact List.mem_filterMap.mpr ⟨e, he, hbare⟩

/-- A text is read as a header in the older dialect exactly if it is read as this header,
comments included, in the newer one, and the header is native. -/
theorem ofText_native_iff (text : String) (h : Header) :
    ofText .native text = .ok h ↔ ofText .extension text = .ok h ∧ h.IsNative := by
  rw [ofText_eq_ok_iff, ofText_eq_ok_iff]
  constructor
  · rintro ⟨hs, hread⟩
    have hn : h.IsNative := isNative_of_withoutComments (Parser.ofWords_sound hread).isNative
    exact ⟨⟨hs, Parser.declarationsFrom_transfer hread hn _⟩, hn⟩
  · rintro ⟨⟨hs, hread⟩, hn⟩
    exact ⟨hs, Parser.declarationsFrom_transfer hread hn _⟩

end Header

end EngineHeader
