import EngineHeader.Proofs.Declaration.Inversion

/-!
# The parser reads all that the grammar derives

If the tokens of some words derive a tree, then reading from these words yields
the tree and leaves what stands behind them.  What is read of the words, comments
included, does not depend on what stands behind, so where a result holds a comment
it is named in front of that.  There is one lemma for each function of the parser.

The parser takes as many stars as it may, and a name wherever one can stand.  So a
lemma asks what follows where that matters: no star behind a base type, a comma
or a parenthesis behind an argument.  In a derivation it is never otherwise.  The
parser also looks at the first word to tell a list that is over from one that goes
on.  For that it is enough that everything with a type in front begins with `const`
or with a name (`StartsType`).
-/

namespace EngineHeader.Declaration.Parser

open Grammar
open Token (Kind Word)

variable {d : Dialect} {front rest : List Word}

/-! ## The first token -/

/-- The tokens begin with `const` or with a name. -/
def StartsType (ts : List Token) : Prop :=
  ∃ t us, ts = t :: us ∧ (t.kind = .constWord ∨ t.kind = .identifier)

theorem StartsType.append {ts : List Token} (h : StartsType ts) (us : List Token) :
    StartsType (ts ++ us) := by
  obtain ⟨t, vs, rfl, hk⟩ := h
  exact ⟨t, vs ++ us, rfl, hk⟩

theorem BaseTypeOf.startsType {ts : List Token} {t : BaseType} (h : BaseTypeOf d ts t) :
    StartsType ts := by
  cases h with
  | plain hn => exact ⟨_, _, rfl, .inr hn⟩
  | const hc => exact ⟨_, _, rfl, .inl hc⟩

theorem ArgumentOf.startsType {n : Nat} {ts : List Token} {a : Argument}
    (h : ArgumentOf d n ts a) : StartsType ts := by
  have hplain : PlainOf d ts a → StartsType ts := by
    rintro ⟨htype, _⟩
    exact (BaseTypeOf.startsType htype).append _
  cases n with
  | zero => exact hplain h
  | succ n =>
    rcases h with h | ⟨_, ⟨htype, _, _, _, _, _⟩⟩
    · exact hplain h
    · exact (BaseTypeOf.startsType htype).append _

theorem EnumeratorOf.startsType {ts : List Token} {e : Enumerator} (h : EnumeratorOf ts e) :
    StartsType ts := by
  cases h with
  | implicit hn => exact ⟨_, _, rfl, .inr hn⟩
  | explicit hn => exact ⟨_, _, rfl, .inr hn⟩

theorem SignatureOf.startsType {ts : List Token} {f : Signature} (h : SignatureOf d ts f) :
    StartsType ts := by
  obtain ⟨htype, _, _, _, _, _⟩ := h
  exact (BaseTypeOf.startsType htype).append _

theorem FieldOf.startsType {ts : List Token} {f : Field} (h : FieldOf d ts f) : StartsType ts := by
  cases h with
  | plain htype => exact (BaseTypeOf.startsType htype).append _
  | function hsig => exact (SignatureOf.startsType hsig).append _

theorem Separated.startsType {α : Type} {item : List Token → α → Prop} {separator : Kind}
    (hitem : ∀ {ts a}, item ts a → StartsType ts) {ts : List Token} {as : List α}
    (h : Separated item separator ts as) : StartsType ts := by
  cases h with
  | one ha => exact hitem ha
  | more ha => exact (hitem ha).append _

/-- Words that begin with a type begin with nothing else. -/
theorem StartsType.startsWith_eq_false {kind : Kind} (h : StartsType (front.map Word.token))
    (hc : .constWord ≠ kind) (hi : .identifier ≠ kind) (rest : List Word) :
    startsWith kind (front ++ rest) = false := by
  obtain ⟨t, us, hts, hk⟩ := h
  obtain ⟨w, ws, rfl, rfl, _⟩ := List.map_eq_cons_iff.mp hts
  rcases hk with hk | hk
  · exact Parser.startsWith_eq_false hk hc
  · exact Parser.startsWith_eq_false hk hi

/-! ## Types and arguments -/

theorem optionalName_complete {name? : Option String}
    (h : OptionalName (front.map Word.token) name?) (hr : startsWith .identifier rest = false) :
    ∃ hle, optionalName (front ++ rest) = ⟨name?, rest, hle⟩ := by
  generalize hts : front.map Word.token = ts at h
  cases h with
  | absent =>
    obtain rfl := List.map_eq_nil_iff.mp hts
    rw [List.nil_append, optionalName, accept?_eq_none hr]
    exact ⟨_, rfl⟩
  | present hk =>
    obtain ⟨w, rfl, rfl⟩ := List.map_eq_singleton_iff.mp hts
    rw [List.singleton_append, optionalName, accept?_cons hk]
    exact ⟨_, rfl⟩

/-- Behind a name that may be left out nothing stands that was not there without it,
names apart. -/
theorem OptionalName.startsWith_eq_false {kind : Kind} {name? : Option String}
    (h : OptionalName (front.map Word.token) name?) (hk : .identifier ≠ kind)
    (hr : startsWith kind rest = false) : startsWith kind (front ++ rest) = false := by
  generalize hts : front.map Word.token = ts at h
  cases h with
  | absent =>
    obtain rfl := List.map_eq_nil_iff.mp hts
    exact hr
  | present hname =>
    obtain ⟨w, rfl, rfl⟩ := List.map_eq_singleton_iff.mp hts
    exact Parser.startsWith_eq_false hname hk

theorem stars_complete {limit : Nat} (hs : ∀ s ∈ front.map Word.token, s.kind = .star)
    (hl : (front.map Word.token).length ≤ limit) (hr : startsWith .star rest = false) :
    ∃ hle, stars limit (front ++ rest) = ⟨(front.map Word.token).length, rest, hle⟩ := by
  induction front generalizing limit with
  | nil =>
    cases limit with
    | zero => exact ⟨_, rfl⟩
    | succ limit =>
      rw [List.nil_append, stars, accept?_eq_none hr]
      exact ⟨_, rfl⟩
  | cons w front ih =>
    simp only [List.map_cons, List.forall_mem_cons] at hs
    cases limit with
    | zero => cases hl
    | succ limit =>
      obtain ⟨_, heq⟩ := ih hs.2 (Nat.le_of_succ_le_succ hl)
      rw [List.cons_append, stars, accept?_cons hs.1]
      dsimp only
      rw [heq]
      exact ⟨_, rfl⟩

theorem baseType_complete {t : BaseType} (h : BaseTypeOf d (front.map Word.token) t)
    (hr : startsWith .star rest = false) : Yields (baseType d (front ++ rest)) t rest := by
  generalize hts : front.map Word.token = ts at h
  cases h with
  | plain hn hs hl =>
    obtain ⟨w, front, rfl, rfl, rfl⟩ := List.map_eq_cons_iff.mp hts
    obtain ⟨_, heq⟩ := stars_complete hs hl hr
    have hconst : optionalConst (w :: (front ++ rest)) = ⟨false, _, Nat.le_refl _⟩ := by
      rw [optionalConst, accept?_eq_none (startsWith_eq_false hn (by decide))]
    rw [List.cons_append, baseType, hconst]
    refine Yields.bind (yields_name hn) fun _ => ?_
    dsimp only
    rw [heq]
    exact yields_pure _
  | const hc hn hs hl =>
    obtain ⟨c, ws, rfl, rfl, hws⟩ := List.map_eq_cons_iff.mp hts
    obtain ⟨w, front, rfl, rfl, rfl⟩ := List.map_eq_cons_iff.mp hws
    obtain ⟨_, heq⟩ := stars_complete hs hl hr
    rw [List.cons_append, List.cons_append, baseType, optionalConst, accept?_cons hc]
    refine Yields.bind (yields_name hn) fun _ => ?_
    dsimp only
    rw [heq]
    exact yields_pure _

/-- What may stand behind an argument: a comma or the closing parenthesis. -/
def EndsArgument (rest : List Word) : Prop :=
  ∃ w ws, rest = w :: ws ∧ (w.kind = .comma ∨ w.kind = .rightParen)

theorem EndsArgument.startsWith_eq_false {kind : Kind} (h : EndsArgument rest)
    (hc : .comma ≠ kind) (hr : .rightParen ≠ kind) : startsWith kind rest = false := by
  obtain ⟨w, ws, rfl, hk⟩ := h
  rcases hk with hk | hk
  · exact Parser.startsWith_eq_false hk hc
  · exact Parser.startsWith_eq_false hk hr

theorem startsCallback_eq_false {ws : List Word} (h : startsWith .leftParen ws = false) :
    startsCallback ws = false := by
  cases ws with
  | nil => rfl
  | cons w ws =>
    cases ws with
    | nil => rfl
    | cons v ws =>
      have hw : ¬ w.kind = .leftParen := by simpa [startsWith] using h
      simp [startsCallback, hw]

/-- Separated arguments are read through the parenthesis that closes them. -/
theorem someArguments_complete {argument : (ws : List Word) → Reading Argument ws}
    {item : List Token → Argument → Prop}
    (hitem : ∀ {front rest a}, item (front.map Word.token) a → EndsArgument rest →
      Yields (argument (front ++ rest)) a rest)
    {as : List Argument} {close : Word} (h : Separated item .comma (front.map Word.token) as)
    (hclose : close.kind = .rightParen) (rest : List Word) :
    Yields (someArguments argument (front ++ close :: rest)) (as, close) rest := by
  generalize hts : front.map Word.token = ts at h
  induction h generalizing front with
  | one ha =>
    subst hts
    have hfirst := hitem ha ⟨close, rest, rfl, .inr hclose⟩
    exact yields_someArguments_iff.mpr ⟨_, _, hfirst, .inl ⟨rfl, hclose, rfl⟩⟩
  | more ha hcomma _ ih =>
    obtain ⟨first, ws, rfl, rfl, hws⟩ := List.map_eq_append_iff.mp hts
    obtain ⟨comma, back, rfl, rfl, hback⟩ := List.map_eq_cons_iff.mp hws
    have hfirst := hitem ha ⟨comma, back ++ close :: rest, rfl, .inl hcomma⟩
    rw [List.append_assoc, List.cons_append]
    exact yields_someArguments_iff.mpr
      ⟨_, _, hfirst, .inr ⟨comma, _, _, rfl, hcomma, ih hback, rfl⟩⟩

theorem argumentsOf_complete {argument : (ws : List Word) → Reading Argument ws}
    {item : List Token → Argument → Prop}
    (hitem : ∀ {front rest a}, item (front.map Word.token) a → EndsArgument rest →
      Yields (argument (front ++ rest)) a rest)
    (hstart : ∀ {ts a}, item ts a → StartsType ts)
    {as : List Argument} (h : ArgumentsOf item (front.map Word.token) as) :
    ∃ close, ∀ rest, Yields (argumentsOf argument (front ++ rest)) (as, close) rest := by
  generalize hts : front.map Word.token = ts at h
  cases h with
  | none hl hr =>
    obtain ⟨l, ws, rfl, rfl, hws⟩ := List.map_eq_cons_iff.mp hts
    obtain ⟨r, rfl, rfl⟩ := List.map_eq_singleton_iff.mp hws
    refine ⟨r, fun rest => ?_⟩
    exact yields_argumentsOf_iff.mpr ⟨l, r :: rest, rfl, hl, .inl ⟨rfl, hr, rfl⟩⟩
  | some hl has hr =>
    obtain ⟨l, ws, rfl, rfl, hws⟩ := List.map_eq_cons_iff.mp hts
    obtain ⟨inside, ws, rfl, rfl, hr'⟩ := List.map_eq_append_iff.mp hws
    obtain ⟨r, rfl, rfl⟩ := List.map_eq_singleton_iff.mp hr'
    refine ⟨r, fun rest => ?_⟩
    have hopen : startsWith .rightParen (inside ++ r :: rest) = false :=
      (Separated.startsType hstart has).startsWith_eq_false (by decide) (by decide) _
    have hinside := someArguments_complete hitem has hr rest
    rw [List.cons_append, List.append_assoc, List.singleton_append]
    exact yields_argumentsOf_iff.mpr ⟨l, _, rfl, hl, .inr ⟨hopen, hinside⟩⟩

theorem plain_complete {n : Nat} {a : Argument} (h : PlainOf d (front.map Word.token) a)
    (hr : EndsArgument rest) : Yields (argument d n (front ++ rest)) a rest := by
  generalize hts : front.map Word.token = ts at h
  obtain ⟨htype, hname⟩ := h
  obtain ⟨type, name, rfl, rfl, rfl⟩ := List.map_eq_append_iff.mp hts
  obtain ⟨_, heq⟩ := optionalName_complete hname (hr.startsWith_eq_false (by decide) (by decide))
  have hstar : startsWith .star (name ++ rest) = false :=
    OptionalName.startsWith_eq_false hname (by decide)
      (hr.startsWith_eq_false (by decide) (by decide))
  have hparen : startsWith .leftParen (name ++ rest) = false :=
    OptionalName.startsWith_eq_false hname (by decide)
      (hr.startsWith_eq_false (by decide) (by decide))
  rw [List.append_assoc]
  unfold argument
  refine Yields.bind (baseType_complete htype hstar) fun _ => ?_
  dsimp only
  rw [startsCallback_eq_false hparen, Bool.and_false, if_neg Bool.false_ne_true, heq]
  exact yields_pure _

theorem argument_complete (n : Nat) {front rest : List Word} {a : Argument}
    (h : ArgumentOf d n (front.map Word.token) a) (hr : EndsArgument rest) :
    Yields (argument d n (front ++ rest)) a rest := by
  induction n generalizing front rest a with
  | zero => exact plain_complete h hr
  | succ n ih =>
    rcases h with h | ⟨rfl, h⟩
    · exact plain_complete h hr
    generalize hts : front.map Word.token = ts at h
    obtain ⟨htype, hl, hs, hname, hrk, has⟩ := h
    obtain ⟨type, ws₁, rfl, rfl, h₁⟩ := List.map_eq_append_iff.mp hts
    obtain ⟨l, ws₂, rfl, rfl, h₂⟩ := List.map_eq_cons_iff.mp h₁
    obtain ⟨s, ws₃, rfl, rfl, h₃⟩ := List.map_eq_cons_iff.mp h₂
    obtain ⟨name, ws₄, rfl, rfl, h₄⟩ := List.map_eq_append_iff.mp h₃
    obtain ⟨r, back, rfl, rfl, rfl⟩ := List.map_eq_cons_iff.mp h₄
    have hws : type ++ l :: s :: (name ++ r :: back) ++ rest =
        type ++ l :: s :: (name ++ r :: (back ++ rest)) := by simp
    have hstar : startsWith .star (l :: s :: (name ++ r :: (back ++ rest))) = false :=
      startsWith_eq_false hl (by decide)
    have hcallback : startsCallback (l :: s :: (name ++ r :: (back ++ rest))) = true := by
      simp [startsCallback, Word.kind, hl, hs]
    have hparen : startsWith .identifier (r :: (back ++ rest)) = false :=
      startsWith_eq_false hrk (by decide)
    obtain ⟨_, heq⟩ := optionalName_complete hname hparen
    obtain ⟨close, hargs⟩ := argumentsOf_complete ih ArgumentOf.startsType has
    rw [hws, argument]
    refine Yields.bind (baseType_complete htype hstar) fun _ => ?_
    dsimp only
    rw [hcallback, Bool.and_true, if_pos (show Dialect.extension.allowsCallbacks = true from rfl)]
    refine Yields.bind (yields_expect hl) fun _ => ?_
    refine Yields.bind (yields_expect hs) fun _ => ?_
    dsimp only
    rw [heq]
    refine Yields.bind (yields_expect hrk) fun _ => ?_
    refine Yields.bind (hargs rest) fun _ => ?_
    exact yields_pure _

theorem pointerName_complete {l s name r : Word} (hl : l.kind = .leftParen) (hs : s.kind = .star)
    (hname : name.kind = .identifier) (hr : r.kind = .rightParen) (rest : List Word) :
    Yields (pointerName (l :: s :: name :: r :: rest)) name.text rest := by
  rw [pointerName]
  refine Yields.bind (yields_expect hl) fun _ => ?_
  refine Yields.bind (yields_expect hs) fun _ => ?_
  refine Yields.bind (yields_name hname) fun _ => ?_
  refine Yields.bind (yields_expect hr) fun _ => ?_
  exact yields_pure _

/-- A signature is read in three steps: its base type, which an opening parenthesis
follows, then its name and then its arguments. -/
theorem signature_complete {f : Signature} (h : SignatureOf d (front.map Word.token) f) :
    ∃ close, ∀ rest, ∃ us vs, Yields (baseType d (front ++ rest)) f.returns us ∧
      startsWith .leftParen us = true ∧ Yields (pointerName us) f.name vs ∧
      Yields (arguments d vs) (f.arguments, close) rest := by
  generalize hts : front.map Word.token = ts at h
  obtain ⟨htype, hl, hs, hname, hr, has⟩ := h
  obtain ⟨type, ws₁, rfl, rfl, h₁⟩ := List.map_eq_append_iff.mp hts
  obtain ⟨l, ws₂, rfl, rfl, h₂⟩ := List.map_eq_cons_iff.mp h₁
  obtain ⟨s, ws₃, rfl, rfl, h₃⟩ := List.map_eq_cons_iff.mp h₂
  obtain ⟨name, ws₄, rfl, rfl, h₄⟩ := List.map_eq_cons_iff.mp h₃
  obtain ⟨r, back, rfl, rfl, rfl⟩ := List.map_eq_cons_iff.mp h₄
  obtain ⟨close, hargs⟩ :=
    argumentsOf_complete (argument_complete maxNesting) ArgumentOf.startsType has
  refine ⟨close, fun rest => ⟨l :: s :: name :: r :: (back ++ rest), back ++ rest, ?_⟩⟩
  refine ⟨?_, ?_, ?_, hargs rest⟩
  · rw [List.append_assoc]
    exact baseType_complete htype (startsWith_eq_false hl (by decide))
  · exact startsWith_cons.mpr hl
  · exact pointerName_complete hl hs hname hr _

/-! ## Enumerations -/

theorem initializer_complete {w : Word} {value : Initializer} (h : InitializerOf w.token value)
    (rest : List Word) : Yields (initializer (w :: rest)) value rest := by
  generalize ht : w.token = t at h
  cases h with
  | integer hk hlow hhigh =>
    subst ht
    have hkind : w.kind = .integer := hk
    have hrep : Literal.isRepresentable (Literal.value w.text.toList) = true := by
      rw [Literal.isRepresentable, Bool.and_eq_true, decide_eq_true_eq, decide_eq_true_eq]
      exact ⟨hlow, hhigh⟩
    rw [initializer, if_pos hkind]
    dsimp only
    rw [if_pos hrep]
    exact yields_pure _
  | reference hk =>
    subst ht
    have hkind : w.kind = .identifier := hk
    have hint : ¬ w.kind = .integer := by simp [hkind]
    rw [initializer, if_neg hint, if_pos hkind]
    exact yields_pure _

theorem enumerator_complete {e : Enumerator} (h : EnumeratorOf (front.map Word.token) e)
    (hr : startsWith .equals rest = false) : Yields (enumerator (front ++ rest)) e rest := by
  generalize hts : front.map Word.token = ts at h
  cases h with
  | implicit hn =>
    obtain ⟨name, rfl, rfl⟩ := List.map_eq_singleton_iff.mp hts
    rw [List.singleton_append, enumerator]
    refine Yields.bind (yields_name hn) fun _ => ?_
    dsimp only
    rw [accept?_eq_none hr]
    exact yields_pure _
  | explicit hn he hvalue =>
    obtain ⟨name, ws₁, rfl, rfl, h₁⟩ := List.map_eq_cons_iff.mp hts
    obtain ⟨eq, ws₂, rfl, rfl, h₂⟩ := List.map_eq_cons_iff.mp h₁
    obtain ⟨w, rfl, rfl⟩ := List.map_eq_singleton_iff.mp h₂
    rw [List.cons_append, List.cons_append, List.singleton_append, enumerator]
    refine Yields.bind (yields_name hn) fun _ => ?_
    dsimp only
    rw [accept?_cons he]
    refine Yields.bind (initializer_complete hvalue rest) fun _ => ?_
    exact yields_pure _

/-- No enumerators, at the brace that closes them. -/
theorem enumerators_nil {close : Word} (hclose : close.kind = .rightBrace) (rest : List Word) :
    Yields (enumerators (close :: rest)) [] rest := by
  rw [enumerators, accept?_cons hclose]
  exact yields_pure _

/-- Enumerators are read through the brace that closes them, also if a comma stands
in front of it. -/
theorem someEnumerators_complete {es : List Enumerator} {close : Word} {tail : List Word}
    (h : Separated EnumeratorOf .comma (front.map Word.token) es)
    (hclose : close.kind = .rightBrace)
    (htail : tail = close :: rest ∨ ∃ c, c.kind = .comma ∧ tail = c :: close :: rest) :
    Yields (enumerators (front ++ tail)) es rest := by
  generalize hts : front.map Word.token = ts at h
  induction h generalizing front with
  | one he =>
    subst hts
    have hopen : startsWith .rightBrace (front ++ tail) = false :=
      (EnumeratorOf.startsType he).startsWith_eq_false (by decide) (by decide) _
    rw [enumerators, accept?_eq_none hopen]
    rcases htail with rfl | ⟨c, hc, rfl⟩
    · refine Yields.bind (enumerator_complete he (startsWith_eq_false hclose (by decide)))
        fun _ => ?_
      dsimp only
      rw [accept?_eq_none (startsWith_eq_false hclose (by decide))]
      refine Yields.bind (yields_expect hclose) fun _ => ?_
      exact yields_pure _
    · refine Yields.bind (enumerator_complete he (startsWith_eq_false hc (by decide)))
        fun _ => ?_
      dsimp only
      rw [accept?_cons hc]
      refine Yields.bind (enumerators_nil hclose rest) fun _ => ?_
      exact yields_pure _
  | more he hcomma _ ih =>
    obtain ⟨first, ws, rfl, rfl, hws⟩ := List.map_eq_append_iff.mp hts
    obtain ⟨comma, back, rfl, rfl, hback⟩ := List.map_eq_cons_iff.mp hws
    have hopen : startsWith .rightBrace (first ++ comma :: (back ++ tail)) = false :=
      (EnumeratorOf.startsType he).startsWith_eq_false (by decide) (by decide) _
    rw [List.append_assoc, List.cons_append, enumerators, accept?_eq_none hopen]
    refine Yields.bind (enumerator_complete he (startsWith_eq_false hcomma (by decide)))
      fun _ => ?_
    dsimp only
    rw [accept?_cons hcomma]
    refine Yields.bind (ih hback) fun _ => ?_
    exact yields_pure _

theorem enumerators_complete {es : List Enumerator} {close : Word}
    (h : EnumeratorsOf (front.map Word.token) es) (hclose : close.kind = .rightBrace)
    (rest : List Word) : Yields (enumerators (front ++ close :: rest)) es rest := by
  generalize hts : front.map Word.token = ts at h
  cases h with
  | none =>
    obtain rfl := List.map_eq_nil_iff.mp hts
    exact enumerators_nil hclose rest
  | some hes =>
    subst hts
    exact someEnumerators_complete hes hclose (.inl rfl)
  | trailing hes hc =>
    obtain ⟨ws, last, rfl, rfl, hlast⟩ := List.map_eq_append_iff.mp hts
    obtain ⟨comma, rfl, rfl⟩ := List.map_eq_singleton_iff.mp hlast
    rw [List.append_assoc, List.singleton_append]
    exact someEnumerators_complete hes hclose (.inr ⟨comma, hc, rfl⟩)

theorem enumeration_complete {ts us : List Word} {l r : Word} {es : List Enumerator}
    {name? : Option String} (hl : l.kind = .leftBrace)
    (hes : EnumeratorsOf (ts.map Word.token) es) (hr : r.kind = .rightBrace)
    (hname : OptionalName (us.map Word.token) name?) (hrest : startsWith .identifier rest = false) :
    Yields (enumeration (l :: (ts ++ r :: (us ++ rest)))) ⟨es, name?⟩ rest := by
  obtain ⟨_, heq⟩ := optionalName_complete hname hrest
  rw [enumeration]
  refine Yields.bind (yields_expect hl) fun _ => ?_
  refine Yields.bind (enumerators_complete hes hr _) fun _ => ?_
  dsimp only
  rw [heq]
  exact yields_pure _

/-! ## Structures -/

theorem field_complete {f : Field} (h : FieldOf d (front.map Word.token) f) :
    ∃ f', (∀ rest, Yields (field d (front ++ rest)) f' rest) ∧ f'.withoutComment = f := by
  generalize hts : front.map Word.token = ts at h
  cases h with
  | plain htype hname hsemi =>
    obtain ⟨type, ws, rfl, rfl, hws⟩ := List.map_eq_append_iff.mp hts
    obtain ⟨name, ws₁, rfl, rfl, h₁⟩ := List.map_eq_cons_iff.mp hws
    obtain ⟨semicolon, rfl, rfl⟩ := List.map_eq_singleton_iff.mp h₁
    refine ⟨.plain _ name.text, fun rest => ?_, rfl⟩
    have hread : Yields (baseType d (type ++ name :: semicolon :: rest)) _ _ :=
      baseType_complete htype (startsWith_eq_false hname (by decide))
    rw [List.append_assoc, List.cons_append, List.singleton_append]
    exact yields_field_iff.mpr ⟨_, _, hread, .inr ⟨name, semicolon, rfl, hname, hsemi, rfl⟩⟩
  | function hsig hsemi =>
    obtain ⟨words, last, rfl, rfl, hlast⟩ := List.map_eq_append_iff.mp hts
    obtain ⟨semicolon, rfl, rfl⟩ := List.map_eq_singleton_iff.mp hlast
    obtain ⟨close, hread⟩ := signature_complete hsig
    refine ⟨.function _ (fieldComment? close semicolon), fun rest => ?_, rfl⟩
    obtain ⟨us, vs, htype, hparen, hname, hargs⟩ := hread (semicolon :: rest)
    rw [List.append_assoc, List.singleton_append]
    exact yields_field_iff.mpr ⟨_, us, htype,
      .inl ⟨hparen, _, vs, _, close, semicolon, hname, hargs, hsemi, rfl⟩⟩

/-- Fields are read through the brace that closes them. -/
theorem fields_complete {fs : List Field} {close : Word}
    (h : Many (FieldOf d) (front.map Word.token) fs) (hclose : close.kind = .rightBrace) :
    ∃ fs', (∀ rest, Yields (fields d (front ++ close :: rest)) fs' rest) ∧
      fs'.map Field.withoutComment = fs := by
  generalize hts : front.map Word.token = ts at h
  induction h generalizing front with
  | none =>
    obtain rfl := List.map_eq_nil_iff.mp hts
    exact ⟨[], fun _ => yields_fields_iff.mpr (.inl ⟨close, rfl, hclose, rfl⟩), rfl⟩
  | more hf _ ih =>
    obtain ⟨first, back, rfl, rfl, hback⟩ := List.map_eq_append_iff.mp hts
    obtain ⟨fs', hfs', hbare⟩ := ih hback
    obtain ⟨f', hf', rfl⟩ := field_complete hf
    refine ⟨f' :: fs', fun rest => ?_, by rw [List.map_cons, hbare]⟩
    have hopen : startsWith .rightBrace (first ++ (back ++ close :: rest)) = false :=
      (FieldOf.startsType hf).startsWith_eq_false (by decide) (by decide) _
    rw [List.append_assoc]
    exact yields_fields_iff.mpr (.inr ⟨hopen, f', _, fs', hf' _, hfs' rest, rfl⟩)

theorem struct_complete {ts : List Word} {l r name : Word} {fs : List Field}
    (hl : l.kind = .leftBrace) (hfs : Many (FieldOf d) (ts.map Word.token) fs)
    (hr : r.kind = .rightBrace) (hname : name.kind = .identifier) :
    ∃ fs', (∀ rest, Yields (struct d (l :: (ts ++ r :: name :: rest))) ⟨name.text, fs'⟩ rest) ∧
      fs'.map Field.withoutComment = fs := by
  obtain ⟨fs', hfs', hbare⟩ := fields_complete hfs hr
  refine ⟨fs', fun rest => ?_, hbare⟩
  exact yields_struct_iff.mpr ⟨l, _, name, rfl, hl, hfs' (name :: rest), hname, rfl⟩

/-! ## Declarations -/

/-- Words that begin with a type are neither an enumeration nor a structure. -/
theorem declared_of_aliasOrFunction {us : List Word} {content : Declaration}
    (h : StartsType (front.map Word.token))
    (hread : Yields (aliasOrFunction d (front ++ us)) content rest) :
    Yields (declared d (front ++ us)) content rest := by
  have henum : startsWith .enumWord (front ++ us) = false :=
    h.startsWith_eq_false (by decide) (by decide) us
  have hstruct : startsWith .structWord (front ++ us) = false :=
    h.startsWith_eq_false (by decide) (by decide) us
  exact yields_declared_iff.mpr (.inr (.inr ⟨henum, hstruct, hread⟩))

theorem typeAlias_complete {type : BaseType} {name : Word}
    (htype : BaseTypeOf d (front.map Word.token) type) (hname : name.kind = .identifier)
    (rest : List Word) :
    Yields (declared d (front ++ name :: rest)) (.typeAlias ⟨type, name.text⟩) rest := by
  have hread : Yields (baseType d (front ++ name :: rest)) _ _ :=
    baseType_complete htype (startsWith_eq_false hname (by decide))
  refine declared_of_aliasOrFunction (BaseTypeOf.startsType htype) ?_
  exact yields_aliasOrFunction_iff.mpr ⟨_, _, hread, .inr ⟨name, rfl, hname, rfl⟩⟩

theorem function_complete {s : Signature} (h : SignatureOf d (front.map Word.token) s)
    (rest : List Word) : Yields (declared d (front ++ rest)) (.function s) rest := by
  obtain ⟨close, hread⟩ := signature_complete h
  obtain ⟨us, vs, htype, hparen, hname, hargs⟩ := hread rest
  refine declared_of_aliasOrFunction (SignatureOf.startsType h) ?_
  exact yields_aliasOrFunction_iff.mpr
    ⟨_, us, htype, .inl ⟨hparen, _, vs, _, close, hname, hargs, rfl⟩⟩

/-- What is declared is read alike whatever is behind its semicolon. -/
theorem declared_complete {bare : Declaration} (h : DeclaredOf d (front.map Word.token) bare) :
    ∃ content, (∀ semicolon rest, semicolon.kind = .semicolon →
        Yields (declared d (front ++ semicolon :: rest)) content (semicolon :: rest)) ∧
      content.withoutComments? = some bare := by
  generalize hts : front.map Word.token = ts at h
  cases h with
  | enumeration hword hl hes hr hname =>
    obtain ⟨word, ws₁, rfl, rfl, h₁⟩ := List.map_eq_cons_iff.mp hts
    obtain ⟨l, ws₂, rfl, rfl, h₂⟩ := List.map_eq_cons_iff.mp h₁
    obtain ⟨es, ws₃, rfl, rfl, h₃⟩ := List.map_eq_append_iff.mp h₂
    obtain ⟨r, us, rfl, rfl, rfl⟩ := List.map_eq_cons_iff.mp h₃
    refine ⟨.enumeration _, fun semicolon rest hsemi => ?_, rfl⟩
    have hws : word :: l :: (es ++ r :: us) ++ semicolon :: rest =
        word :: l :: (es ++ r :: (us ++ semicolon :: rest)) := by simp
    have hnot : startsWith .identifier (semicolon :: rest) = false :=
      startsWith_eq_false hsemi (by decide)
    have hread := enumeration_complete hl hes hr hname hnot
    rw [hws]
    exact yields_declared_iff.mpr (.inl ⟨word, _, _, rfl, hword, hread, rfl⟩)
  | struct hword hl hfs hr hname =>
    obtain ⟨word, ws₁, rfl, rfl, h₁⟩ := List.map_eq_cons_iff.mp hts
    obtain ⟨l, ws₂, rfl, rfl, h₂⟩ := List.map_eq_cons_iff.mp h₁
    obtain ⟨fs, ws₃, rfl, rfl, h₃⟩ := List.map_eq_append_iff.mp h₂
    obtain ⟨r, ws₄, rfl, rfl, h₄⟩ := List.map_eq_cons_iff.mp h₃
    obtain ⟨name, rfl, rfl⟩ := List.map_eq_singleton_iff.mp h₄
    obtain ⟨fs', hread, hbare⟩ := struct_complete hl hfs hr hname
    refine ⟨.struct ⟨name.text, fs'⟩, fun semicolon rest _ => ?_, ?_⟩
    · have hws : word :: l :: (fs ++ [r, name]) ++ semicolon :: rest =
          word :: l :: (fs ++ r :: name :: semicolon :: rest) := by simp
      rw [hws]
      exact yields_declared_iff.mpr (.inr (.inl ⟨word, _, _, rfl, hword, hread _, rfl⟩))
    · rw [withoutComments?, hbare]
      rfl
  | typeAlias htype hname =>
    obtain ⟨type, last, rfl, rfl, hlast⟩ := List.map_eq_append_iff.mp hts
    obtain ⟨name, rfl, rfl⟩ := List.map_eq_singleton_iff.mp hlast
    refine ⟨.typeAlias ⟨_, name.text⟩, fun semicolon rest _ => ?_, rfl⟩
    rw [List.append_assoc, List.singleton_append]
    exact typeAlias_complete htype hname _
  | function hsig =>
    subst hts
    exact ⟨.function _, fun _ _ _ => function_complete hsig _, rfl⟩

theorem declaration_complete {bare : Declaration}
    (h : DeclarationOf d (front.map Word.token) bare) (rest : List Word) :
    ∃ content semicolon, Yields (declaration d (front ++ rest)) (content, semicolon) rest ∧
      content.withoutComments? = some bare := by
  generalize hts : front.map Word.token = ts at h
  obtain ⟨hword, hdeclared, hsemi⟩ := h
  obtain ⟨word, ws, rfl, rfl, hws⟩ := List.map_eq_cons_iff.mp hts
  obtain ⟨inside, last, rfl, rfl, hlast⟩ := List.map_eq_append_iff.mp hws
  obtain ⟨semicolon, rfl, rfl⟩ := List.map_eq_singleton_iff.mp hlast
  obtain ⟨content, hread, hbare⟩ := declared_complete hdeclared
  refine ⟨content, semicolon, ?_, hbare⟩
  rw [List.cons_append, List.append_assoc, List.singleton_append]
  exact yields_declaration_iff.mpr ⟨word, _, rfl, hword, hread semicolon rest hsemi, hsemi⟩

/-- Behind a declaration the others are read. -/
theorem Yields.declarationsFrom_eq {ws : List Word} {content : Declaration} {semicolon : Word}
    (h : Yields (declaration d ws) (content, semicolon) rest) (taken : List Declaration) :
    declarationsFrom d taken ws =
      declarationsFrom d ((comments semicolon.comments).reverse ++ content :: taken) rest := by
  obtain ⟨hshorter, hread⟩ := h
  obtain ⟨w, ws, rfl⟩ := List.exists_cons_of_length_pos (Nat.zero_lt_of_lt hshorter)
  rw [declarationsFrom, hread]
  rfl

/-- Declarations that are derived are read in front of other words, and go behind those already
taken. -/
theorem declarationsFrom_complete {bares : List Declaration}
    (h : Many (DeclarationOf d) (front.map Word.token) bares) (taken : List Declaration)
    (rest : List Word) :
    ∃ new : List Declaration, new.filterMap withoutComments? = bares ∧
      declarationsFrom d taken (front ++ rest) =
        declarationsFrom d (new.reverse ++ taken) rest := by
  generalize hts : front.map Word.token = ts at h
  induction h generalizing front taken with
  | none =>
    obtain rfl := List.map_eq_nil_iff.mp hts
    exact ⟨[], rfl, rfl⟩
  | more hd _ ih =>
    obtain ⟨first, back, rfl, rfl, hback⟩ := List.map_eq_append_iff.mp hts
    obtain ⟨content, semicolon, hread, hbare⟩ := declaration_complete hd (back ++ rest)
    obtain ⟨new, rfl, hnew⟩ := ih ((comments semicolon.comments).reverse ++ content :: taken) hback
    refine ⟨content :: (comments semicolon.comments ++ new), ?_, ?_⟩
    · rw [List.filterMap_cons_some hbare, List.filterMap_append, filterMap_comments,
        List.nil_append]
    · rw [List.append_assoc, hread.declarationsFrom_eq, hnew]
      simp

/-- A tree that the tokens of words derive is read from the words. -/
theorem ofWords_complete (words : Token.Words) {tree : Header}
    (h : Derives d (words.words.map Word.token) tree) :
    ∃ ds, ofWords d words = .ok ds ∧ Header.withoutComments ⟨ds⟩ = tree := by
  obtain ⟨new, hbare, hnew⟩ := declarationsFrom_complete h (comments words.leading).reverse []
  rw [List.append_nil, declarationsFrom_nil] at hnew
  refine ⟨_, hnew, ?_⟩
  rw [List.reverse_append, List.reverse_reverse, List.reverse_reverse, Header.withoutComments,
    List.filterMap_append, filterMap_comments, hbare, List.nil_append]

end EngineHeader.Declaration.Parser
