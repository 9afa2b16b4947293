import EngineHeader.Proofs.Checked.Literal
import EngineHeader.Proofs.Checked.Parser

/-!
# Enumerations, structures and headers by a cursor

The rest of the grammar over a list of tokens: enumerations with their integers, structures with the
comments of their fields, and declarations with the comments between them.  Outside of arguments no
callback is open, so the count is zero.

An integer is the one place where the parser looks into the spelling of a token.  There its digits
have to be good, so it is assumed of the tokens (`Integers`).
-/

namespace EngineHeader.Checked.Parser

open Declaration
open Token (Kind Word Words)
open Declaration.Parser (Reading startsWith accept? accept?_cons accept?_eq_some)

/-- All integers of the tokens are good. -/
def Integers (i : Input) : Prop :=
  ∀ t ∈ i.tokens, t.kind = .integer → IsInteger t.text.toList

variable {i : Input} {s : State} {ws : List Word} {leading : List Token}

/-! ## Enumerations -/

/-- The value of an integer. -/
def integer (t : Token) : Call Int := fun s => (value? t).map fun r => (r, s)

/-- What an enumerator is set to, behind its equals sign. -/
def initializer (i : Input) : Call Initializer := call do
  let kind? ← peek i
  if kind? = some .integer then
    let t ← demand i .integer
    let value ← integer t
    return .integer value
  else if kind? = some .identifier then
    let reference ← name i .enumeratorValue
    return .reference reference
  else throw (← errorHere i .enumeratorValue)

/-- An enumerator. -/
def enumerator (i : Input) : Call Enumerator := call do
  let name ← name i .enumerator
  if ← eat i .equals then
    let value ← initializer i
    return ⟨name, value⟩
  else return ⟨name, .implicit⟩

/-- A round of the loop for enumerators. -/
def enumeratorsRound (i : Input) (taken : List Enumerator) :
    Call (Step (List Enumerator) (List Enumerator)) := do
  if (← peek i) = some .rightBrace then return .done taken.reverse
  else
    let e ← enumerator i
    if ← eat i .comma then return .next (e :: taken) else return .done (e :: taken).reverse

/-- Enumerators, through the closing brace. -/
def enumerators (i : Input) : Call (List Enumerator) := do
  let values ← loop i (enumeratorsRound i) []
  let _ ← expect i .rightBrace .enumeratorsEnd
  return values

/-- An enumeration. -/
def enumeration (i : Input) : Call Enumeration := call do
  let _ ← demand i .enumWord
  let _ ← expect i .leftBrace .leftBrace
  let values ← enumerators i
  let name? ← optionalName i
  return ⟨values, name?⟩

theorem integer_eq {t : Token} (ht : IsInteger t.text.toList) :
    integer t s = some (narrow t (Literal.value t.text.toList), s) := by
  rw [integer, value?_eq ht]
  rfl

/-- An initializer is read as it is of words.  When the value of an integer turns out too large, the
cursor is behind the integer. -/
theorem initializer_agrees (hints : Integers i) (hdepth : s.depth = 0) (h : Behind i s ws) :
    Agrees i 0 (Same i) (Declaration.Parser.initializer ws) (initializer i s) := by
  obtain ⟨leading, hat⟩ := h
  obtain ⟨s₁, hpeek, hd₁, hat₁⟩ := peek_eq hat
  refine .call hdepth (.of_ok hpeek ?_)
  cases ws with
  | nil => exact agrees_error (hd₁.trans hdepth) hat₁.behind fun _ _ => rfl
  | cons w ws =>
    rw [Declaration.Parser.initializer, List.head?_cons, Option.map_some]
    by_cases hint : w.kind = .integer
    · obtain ⟨s₂, hdemand, hd₂, hat₂⟩ := demand_eq hat₁.behind (accept?_cons hint)
      have hgood : IsInteger w.token.text.toList := by
        cases hat₁.next with
        | word hsome _ _ => exact hints _ (List.mem_of_getElem? hsome) hint
      have hvalue := integer_eq (s := s₂) hgood
      rw [if_pos hint, if_pos (congrArg some hint), bind_ok hdemand]
      rw [narrow] at hvalue
      dsimp only [Word.text]
      split
      · next hfits =>
        rw [if_pos hfits] at hvalue
        rw [bind_ok hvalue]
        exact .taken ((hd₂.trans hd₁).trans hdepth) ⟨rfl, hat₂.behind⟩
      · next hfits =>
        rw [if_neg hfits] at hvalue
        rw [bind_error hvalue]
        exact .stuck ((hd₂.trans hd₁).trans hdepth) hat₂.next_le
    · have hint' : some w.kind ≠ some .integer := fun hsome => hint (Option.some.inj hsome)
      rw [if_neg hint, if_neg hint']
      by_cases hname : w.kind = .identifier
      · obtain ⟨s₂, hcall, hd₂, h₂⟩ := name_some hat₁.behind hname .enumeratorValue
        rw [if_pos hname, if_pos (congrArg some hname), bind_ok hcall]
        exact .taken ((hd₂.trans hd₁).trans hdepth) ⟨rfl, h₂⟩
      · have hname' : some w.kind ≠ some .identifier := fun hsome => hname (Option.some.inj hsome)
        rw [if_neg hname, if_neg hname']
        exact agrees_error (hd₁.trans hdepth) hat₁.behind fun _ _ => rfl

theorem enumerator_agrees (hints : Integers i) (hdepth : s.depth = 0) (h : Behind i s ws) :
    Agrees i 0 (Same i) (Declaration.Parser.enumerator ws) (enumerator i s) := by
  refine .call hdepth ((name_agrees hdepth h).bind ?_)
  rintro n ws₁ _ s₁ _ hd₁ ⟨rfl, h₁⟩
  dsimp only
  cases haccept : accept? .equals ws₁ with
  | none =>
    obtain ⟨s₂, heat, hd₂, hat₂⟩ := eat_none h₁ haccept
    exact .of_ok heat (.taken (hd₂.trans hd₁) ⟨rfl, hat₂.behind⟩)
  | some t =>
    obtain ⟨w, rest, hlt⟩ := t
    obtain ⟨s₂, heat, hd₂, hat₂⟩ := eat_some h₁ haccept
    refine .of_ok heat ?_
    refine (initializer_agrees hints (hd₂.trans hd₁) hat₂.behind).bind ?_
    rintro _ _ _ _ _ hd₃ ⟨hvalue, h₃⟩
    exact .taken hd₃ ⟨congrArg _ hvalue, h₃⟩

/-- The loop for enumerators, and the brace behind them. -/
theorem enumerators_agrees (hints : Integers i) (taken : List Enumerator) (hdepth : s.depth = 0)
    (h : Behind i s ws) :
    Agrees i 0 (fun es rest es' s => es' = taken.reverse ++ es ∧ Behind i s rest)
      (Declaration.Parser.enumerators ws)
      ((loop i (enumeratorsRound i) taken >>= fun es => do
        let _ ← expect i .rightBrace .enumeratorsEnd
        return es) s) := by
  induction hlen : ws.length using Nat.strongRecOn generalizing s ws taken with
  | ind n ih =>
  refine .of_round ?_
  rw [Declaration.Parser.enumerators, enumeratorsRound, bind_assoc]
  cases hbrace : accept? .rightBrace ws with
  | some t =>
    obtain ⟨w, rest, hlt⟩ := t
    obtain ⟨s₁, hpeek, hd₁, hat₁⟩ := peek_some h hbrace
    obtain ⟨-, hk⟩ := accept?_eq_some hbrace
    obtain ⟨s₂, hexpect, hd₂, hat₂⟩ := expect_some hat₁.behind (accept?_cons hk) .enumeratorsEnd
    refine .of_ok hpeek ?_
    rw [if_pos rfl, pure_bind, again_done, bind_ok hexpect]
    exact .taken ((hd₂.trans hd₁).trans hdepth) ⟨(List.append_nil _).symm, hat₂.behind⟩
  | none =>
    obtain ⟨k, s₁, hpeek, hk, hd₁, hat₁⟩ := peek_none h hbrace
    refine .of_ok hpeek ?_
    rw [if_neg hk, bind_assoc]
    refine (enumerator_agrees hints (hd₁.trans hdepth) hat₁.behind).bind ?_
    rintro first ws₁ e s₂ hlt hd₂ ⟨rfl, h₂⟩
    rw [bind_assoc]
    dsimp only
    cases hcomma : accept? .comma ws₁ with
    | none =>
      obtain ⟨s₃, heat, hd₃, hat₃⟩ := eat_none h₂ hcomma
      refine .of_ok heat ?_
      rw [if_neg Bool.false_ne_true, pure_bind, again_done]
      refine (expect_agrees (hd₃.trans hd₂) hat₃.behind).bind ?_
      rintro _ _ _ _ _ hd₄ ⟨_, hat₄⟩
      exact .taken hd₄ ⟨List.reverse_cons, hat₄.behind⟩
    | some t =>
      obtain ⟨comma, behind, hshorter⟩ := t
      obtain ⟨s₃, heat, hd₃, hat₃⟩ := eat_some h₂ hcomma
      have hmoved := next_lt h hat₃.behind (Nat.lt_trans hshorter hlt)
      refine .of_ok heat ?_
      rw [if_pos rfl, pure_bind, again_next hmoved hat₃.next_le]
      refine (ih _ (by omega) (e :: taken) (hd₃.trans hd₂) hat₃.behind rfl).map fun hlt₄ => ?_
      refine ⟨_, _, rfl, ?_⟩
      rintro _ _ ⟨hes, h₄⟩
      refine ⟨?_, h₄⟩
      rw [hes, List.reverse_cons, List.append_assoc]
      rfl

/-- An enumeration, in front of its keyword. -/
theorem enumeration_agrees {w : Word} (hints : Integers i) (hdepth : s.depth = 0)
    (h : Behind i s (w :: ws)) (hk : w.kind = .enumWord) :
    Agrees i 0 (Same i) (Declaration.Parser.enumeration ws) (enumeration i s) := by
  obtain ⟨s₁, hdemand, hd₁, hat₁⟩ := demand_eq h (accept?_cons hk)
  refine .call hdepth (.of_ok hdemand ?_)
  refine (expect_agrees (hd₁.trans hdepth) hat₁.behind).bind ?_
  rintro _ _ _ _ _ hd₂ ⟨_, hat₂⟩
  refine (enumerators_agrees hints [] hd₂ hat₂.behind).bind ?_
  rintro _ _ _ _ _ hd₃ ⟨hvalues, h₃⟩
  obtain ⟨s₄, hname, hd₄, h₄⟩ := optionalName_eq h₃
  refine .of_ok hname (.taken (hd₄.trans hd₃) ⟨?_, h₄⟩)
  rw [hvalues]
  rfl

/-! ## Structures -/

/-- A field, through its semicolon. -/
def field (i : Input) : Call Field := call do
  let type ← baseType i
  if (← peek i) = some .leftParen then
    let pointer ← pointerName i
    let arguments ← arguments i
    let comment ← comment? i none
    let semicolon ← expect i .semicolon .semicolon
    match comment with
    | some text => return .function ⟨type, pointer, arguments⟩ (some text)
    | none =>
      let comment ← comment? i (some semicolon.position.line)
      return .function ⟨type, pointer, arguments⟩ comment
  else
    let name ← name i .fieldName
    let _ ← expect i .semicolon .semicolon
    return .plain type name

/-- A round of the loop for fields. -/
def fieldsRound (i : Input) (taken : List Field) : Call (Step (List Field) (List Field)) := do
  if (← peek i) = some .rightBrace then return .done taken.reverse
  else
    let f ← field i
    return .next (f :: taken)

/-- Fields, through the closing brace. -/
def fields (i : Input) : Call (List Field) := do
  let fields ← loop i (fieldsRound i) []
  let _ ← demand i .rightBrace
  return fields

/-- A structure. -/
def struct (i : Input) : Call Struct := call do
  let _ ← demand i .structWord
  let _ ← expect i .leftBrace .leftBrace
  let fields ← fields i
  let name ← name i .structName
  return ⟨name, fields⟩

/-- The comment of a function pointer is looked for at two places. -/
theorem fieldComment?_eq (close semicolon : Word) :
    Declaration.Parser.fieldComment? close semicolon =
      match close.comments.head?.map Token.text with
      | some text => some text
      | none => semicolon.comments.head?.bind fun t =>
        if t.position.line == semicolon.token.position.line then some t.text else none := by
  rw [Declaration.Parser.fieldComment?]
  cases close.comments with
  | cons c cs => rfl
  | nil =>
    cases semicolon.comments with
    | nil => rfl
    | cons c cs => simp

theorem field_agrees (hdepth : s.depth = 0) (h : Behind i s ws) :
    Agrees i 0 (Same i) (Declaration.Parser.field i.dialect ws) (field i s) := by
  refine .call hdepth ((baseType_agrees hdepth h).bind ?_)
  rintro type ws₁ _ s₁ _ hd₁ ⟨rfl, h₁⟩
  obtain ⟨k, s₂, hpeek, hk, hd₂, hat₂⟩ := peek_startsWith h₁ .leftParen
  refine .of_ok hpeek ?_
  dsimp only
  by_cases hparen : startsWith .leftParen ws₁ = true
  · rw [if_pos hparen, if_pos (hk.mpr hparen)]
    refine (pointerName_agrees (hd₂.trans hd₁) hat₂.behind).bind ?_
    rintro _ _ _ _ _ hd₃ ⟨rfl, h₃⟩
    refine (arguments_agrees hd₃ h₃).bind ?_
    rintro ⟨as, close⟩ _ _ s₄ _ hd₄ ⟨rfl, hat₄⟩
    obtain ⟨s₅, hfirst, hd₅, h₅⟩ := comment?_eq hat₄ none
    refine .of_ok hfirst ?_
    refine (expect_agrees (hd₅.trans hd₄) h₅).bind ?_
    rintro semicolon _ _ s₆ _ hd₆ ⟨rfl, hat₆⟩
    dsimp only
    rw [fieldComment?_eq]
    cases close.comments.head? with
    | some t => exact .taken hd₆ ⟨rfl, hat₆.behind⟩
    | none =>
      obtain ⟨s₇, hsecond, hd₇, h₇⟩ := comment?_eq hat₆ (some semicolon.token.position.line)
      exact .of_ok hsecond (.taken (hd₇.trans hd₆) ⟨rfl, h₇⟩)
  · rw [if_neg hparen, if_neg (mt hk.mp hparen)]
    refine (name_agrees (hd₂.trans hd₁) hat₂.behind).bind ?_
    rintro _ _ _ _ _ hd₃ ⟨rfl, h₃⟩
    refine (expect_agrees hd₃ h₃).bind ?_
    rintro _ _ _ _ _ hd₄ ⟨_, hat₄⟩
    exact .taken hd₄ ⟨rfl, hat₄.behind⟩

/-- The loop for fields, and the brace behind them. -/
theorem fields_agrees (taken : List Field) (hdepth : s.depth = 0) (h : Behind i s ws) :
    Agrees i 0 (fun fs rest fs' s => fs' = taken.reverse ++ fs ∧ Behind i s rest)
      (Declaration.Parser.fields i.dialect ws)
      ((loop i (fieldsRound i) taken >>= fun fs => do
        let _ ← demand i .rightBrace
        return fs) s) := by
  induction hlen : ws.length using Nat.strongRecOn generalizing s ws taken with
  | ind n ih =>
  refine .of_round ?_
  rw [Declaration.Parser.fields, fieldsRound, bind_assoc]
  cases hbrace : accept? .rightBrace ws with
  | some t =>
    obtain ⟨w, rest, hlt⟩ := t
    obtain ⟨s₁, hpeek, hd₁, hat₁⟩ := peek_some h hbrace
    obtain ⟨-, hk⟩ := accept?_eq_some hbrace
    obtain ⟨s₂, hdemand, hd₂, hat₂⟩ := demand_eq hat₁.behind (accept?_cons hk)
    refine .of_ok hpeek ?_
    rw [if_pos rfl, pure_bind, again_done, bind_ok hdemand]
    exact .taken ((hd₂.trans hd₁).trans hdepth) ⟨(List.append_nil _).symm, hat₂.behind⟩
  | none =>
    obtain ⟨k, s₁, hpeek, hk, hd₁, hat₁⟩ := peek_none h hbrace
    refine .of_ok hpeek ?_
    rw [if_neg hk, bind_assoc]
    refine (field_agrees (hd₁.trans hdepth) hat₁.behind).bind ?_
    rintro first ws₁ f s₂ hlt hd₂ ⟨rfl, h₂⟩
    have hmoved := next_lt h h₂ hlt
    have hle : s₂.next ≤ i.tokens.length := h₂.choose_spec.next_le
    rw [pure_bind, again_next hmoved hle]
    refine (ih _ (hlen ▸ hlt) (f :: taken) hd₂ h₂ rfl).map fun hlt₃ => ?_
    refine ⟨_, _, rfl, ?_⟩
    rintro _ _ ⟨hfs, h₃⟩
    refine ⟨?_, h₃⟩
    rw [hfs, List.reverse_cons, List.append_assoc]
    rfl

/-- A structure, in front of its keyword. -/
theorem struct_agrees {w : Word} (hdepth : s.depth = 0) (h : Behind i s (w :: ws))
    (hk : w.kind = .structWord) :
    Agrees i 0 (Same i) (Declaration.Parser.struct i.dialect ws) (struct i s) := by
  obtain ⟨s₁, hdemand, hd₁, hat₁⟩ := demand_eq h (accept?_cons hk)
  refine .call hdepth (.of_ok hdemand ?_)
  refine (expect_agrees (hd₁.trans hdepth) hat₁.behind).bind ?_
  rintro _ _ _ _ _ hd₂ ⟨_, hat₂⟩
  refine (fields_agrees [] hd₂ hat₂.behind).bind ?_
  rintro _ _ _ _ _ hd₃ ⟨hfields, h₃⟩
  refine (name_agrees hd₃ h₃).bind ?_
  rintro _ _ _ _ _ hd₄ ⟨hname, h₄⟩
  exact .taken hd₄ ⟨congr (congrArg _ hname) hfields, h₄⟩

/-! ## Declarations -/

/-- A type alias or a function pointer. -/
def aliasOrFunction (i : Input) : Call Declaration := do
  let type ← baseType i
  if (← peek i) = some .leftParen then
    let pointer ← pointerName i
    let arguments ← arguments i
    return .function ⟨type, pointer, arguments⟩
  else
    let name ← name i .typedefName
    return .typeAlias ⟨type, name⟩

/-- What is declared, between the word that opens a declaration and the semicolon. -/
def declared (i : Input) : Call Declaration := do
  let kind? ← peek i
  if kind? = some .enumWord then
    let e ← enumeration i
    return .enumeration e
  else if kind? = some .structWord then
    let s ← struct i
    return .struct s
  else aliasOrFunction i

/-- A declaration and its semicolon. -/
def declaration (i : Input) : Call Declaration := call do
  let _ ← expect i .typedefWord .declaration
  let declared ← declared i
  let _ ← expect i .semicolon .semicolon
  return declared

/-- A round of the loop for declarations and the comments between them. -/
def headerRound (i : Input) (taken : List Declaration) :
    Call (Step (List Declaration) (List Declaration)) := do
  let n ← cursor
  match i.tokens[n]? with
  | none => return .done taken.reverse
  | some t =>
    if t.kind = .comment then
      moveTo i (n + 1)
      return .next (.comment t.text :: taken)
    else
      let declared ← declaration i
      return .next (declared :: taken)

/-- All declarations, and the comments between them. -/
def header (i : Input) : Call Header := call do
  let declarations ← loop i (headerRound i) []
  return ⟨declarations⟩

theorem aliasOrFunction_agrees (hdepth : s.depth = 0) (h : Behind i s ws) :
    Agrees i 0 (Same i) (Declaration.Parser.aliasOrFunction i.dialect ws)
      (aliasOrFunction i s) := by
  refine (baseType_agrees hdepth h).bind ?_
  rintro type ws₁ _ s₁ _ hd₁ ⟨rfl, h₁⟩
  obtain ⟨k, s₂, hpeek, hk, hd₂, hat₂⟩ := peek_startsWith h₁ .leftParen
  refine .of_ok hpeek ?_
  dsimp only
  by_cases hparen : startsWith .leftParen ws₁ = true
  · rw [if_pos hparen, if_pos (hk.mpr hparen)]
    refine (pointerName_agrees (hd₂.trans hd₁) hat₂.behind).bind ?_
    rintro _ _ _ _ _ hd₃ ⟨rfl, h₃⟩
    refine (arguments_agrees hd₃ h₃).bind ?_
    rintro ⟨as, close⟩ _ _ s₄ _ hd₄ ⟨has, hat₄⟩
    exact .taken hd₄ ⟨congrArg _ (congrArg _ has), hat₄.behind⟩
  · rw [if_neg hparen, if_neg (mt hk.mp hparen)]
    refine (name_agrees (hd₂.trans hd₁) hat₂.behind).bind ?_
    rintro _ _ _ _ _ hd₃ ⟨hname, h₃⟩
    exact .taken hd₃ ⟨congrArg _ (congrArg _ hname), h₃⟩

theorem declared_agrees (hints : Integers i) (hdepth : s.depth = 0) (h : Behind i s ws) :
    Agrees i 0 (Same i) (Declaration.Parser.declared i.dialect ws) (declared i s) := by
  obtain ⟨leading, hat⟩ := h
  obtain ⟨s₁, hpeek, hd₁, hat₁⟩ := peek_eq hat
  refine .of_ok hpeek ?_
  rw [Declaration.Parser.declared]
  cases henum : accept? .enumWord ws with
  | some t =>
    obtain ⟨w, rest, hlt⟩ := t
    obtain ⟨rfl, hk⟩ := accept?_eq_some henum
    rw [List.head?_cons, Option.map_some, if_pos (congrArg some hk)]
    refine (enumeration_agrees hints (hd₁.trans hdepth) hat₁.behind hk).bind ?_
    rintro _ _ _ _ _ hd₂ ⟨he, h₂⟩
    exact .taken hd₂ ⟨congrArg _ he, h₂⟩
  | none =>
    have hnoEnum := Bool.eq_false_iff.mp (Declaration.Parser.startsWith_of_accept? henum)
    rw [if_neg (mt head?_kind_iff.mp hnoEnum)]
    dsimp only
    cases hstruct : accept? .structWord ws with
    | some t =>
      obtain ⟨w, rest, hlt⟩ := t
      obtain ⟨rfl, hk⟩ := accept?_eq_some hstruct
      rw [List.head?_cons, Option.map_some, if_pos (congrArg some hk)]
      refine (struct_agrees (hd₁.trans hdepth) hat₁.behind hk).bind ?_
      rintro _ _ _ _ _ hd₂ ⟨hs, h₂⟩
      exact .taken hd₂ ⟨congrArg _ hs, h₂⟩
    | none =>
      have hnoStruct := Bool.eq_false_iff.mp (Declaration.Parser.startsWith_of_accept? hstruct)
      rw [if_neg (mt head?_kind_iff.mp hnoStruct)]
      exact aliasOrFunction_agrees (hd₁.trans hdepth) hat₁.behind

/-- The declaration is the same, and the comments behind the semicolon are in front. -/
def SameDeclaration (i : Input) (r : Declaration × Word) (rest : List Word) (d : Declaration)
    (s : State) : Prop :=
  d = r.1 ∧ At i s r.2.comments rest

theorem declaration_agrees (hints : Integers i) (hdepth : s.depth = 0) (h : Behind i s ws) :
    Agrees i 0 (SameDeclaration i) (Declaration.Parser.declaration i.dialect ws)
      (declaration i s) := by
  refine .call hdepth ((expect_agrees hdepth h).bind ?_)
  rintro _ _ _ _ _ hd₁ ⟨_, hat₁⟩
  refine (declared_agrees hints hd₁ hat₁.behind).bind ?_
  rintro _ _ _ _ _ hd₂ ⟨hdeclared, h₂⟩
  refine (expect_agrees hd₂ h₂).bind ?_
  rintro _ _ _ _ _ hd₃ ⟨_, hat₃⟩
  exact .taken hd₃ ⟨hdeclared, hat₃⟩

/-- A round of the loop at a comment. -/
theorem headerRound_comment {t : Token} {more : List Token} (taken : List Declaration)
    (hsome : i.tokens[s.next]? = some t) (hk : t.kind = .comment) (hat : At i s.step more ws) :
    headerRound i taken s = some (.ok (.next (.comment t.text :: taken)), s.step) := by
  rw [headerRound, bind_ok rfl, hsome]
  dsimp only
  rw [if_pos hk, bind_ok (moveTo_step hat)]
  rfl

/-- The loop goes over the comments in front. -/
theorem loop_comments (taken : List Declaration) (h : At i s leading ws) :
    ∃ s', loop i (headerRound i) taken s =
        loop i (headerRound i) ((Declaration.Parser.comments leading).reverse ++ taken) s' ∧
      s'.depth = s.depth ∧ At i s' [] ws := by
  induction leading generalizing s taken with
  | nil => exact ⟨s, rfl, rfl, h⟩
  | cons t more ih =>
    cases h.next with
    | comment hsome hk hat =>
      obtain ⟨s', hloop, hd, hat'⟩ := ih (.comment t.text :: taken) hat
      refine ⟨s', ?_, hd, hat'⟩
      have hround := headerRound_comment taken hsome hk hat
      have hcomments : Declaration.Parser.comments (t :: more) =
          .comment t.text :: Declaration.Parser.comments more := rfl
      rw [loop_next hround (Nat.lt_succ_self _) hat.next_le, hloop, hcomments, List.reverse_cons,
        List.append_assoc]
      rfl

/-- All declarations are as they are read of words.  The comments in front are taken by rounds of
their own, so the induction is on the words. -/
theorem loop_headerRound (hints : Integers i) (taken : List Declaration) (hdepth : s.depth = 0)
    (h : At i s leading ws) :
    ∃ s', loop i (headerRound i) taken s =
        some ((Declaration.Parser.declarationsFrom i.dialect
          ((Declaration.Parser.comments leading).reverse ++ taken) ws).mapError
            (·.error i.ending), s') ∧ s'.depth = 0 := by
  induction hlen : ws.length using Nat.strongRecOn generalizing s ws leading taken with
  | ind n ih =>
  obtain ⟨s₁, hloop, hd₁, hat₁⟩ := loop_comments taken h
  rw [hloop]
  generalize (Declaration.Parser.comments leading).reverse ++ taken = taken
  cases hat₁.next with
  | nothing hnone =>
    refine ⟨s₁, ?_, hd₁.trans hdepth⟩
    rw [loop_done, Declaration.Parser.declarationsFrom_nil]
    · rfl
    rw [headerRound, bind_ok rfl, hnone]
    rfl
  | word hsome hk hat =>
    have hfirst := declaration_agrees hints (hd₁.trans hdepth) hat₁.behind
    have hround : headerRound i taken s₁ =
        (declaration i >>= fun declared => return .next (declared :: taken)) s₁ := by
      rw [headerRound, bind_ok rfl, hsome]
      exact congrFun (if_neg hk) s₁
    rw [Declaration.Parser.declarationsFrom, List.isEmpty_cons, if_neg Bool.false_ne_true]
    generalize Declaration.Parser.declaration i.dialect _ = reading at hfirst
    generalize hp : declaration i s₁ = result at hfirst
    cases hfirst with
    | stuck hd hle =>
      rw [bind_error hp] at hround
      exact ⟨_, loop_error hround, hd⟩
    | @taken r rest hlt declared s₂ hd₂ hsame =>
      obtain ⟨rfl, hat₂⟩ := hsame
      rw [bind_ok hp] at hround
      obtain ⟨s₃, hloop, hd₃⟩ := ih _ (hlen ▸ hlt) (r.1 :: taken) hd₂ hat₂ rfl
      refine ⟨s₃, ?_, hd₃⟩
      have hmoved := next_lt hat₁.behind hat₂.behind hlt
      rw [loop_next hround hmoved hat₂.next_le, hloop]
      rfl

/-- A header is as it is read of words. -/
theorem header_eq (hints : Integers i) :
    ∃ s, header i ⟨0, 0⟩ =
      some (((Declaration.Parser.ofWords i.dialect (.ofTokens i.tokens)).mapError
        (·.error i.ending)).map Header.mk, s) := by
  have hat : At i ⟨0, 0⟩ (Words.ofTokens i.tokens).leading (Words.ofTokens i.tokens).words :=
    ⟨Nat.zero_le _, rfl⟩
  obtain ⟨s, hloop, hd⟩ := loop_headerRound hints [] rfl hat
  refine ⟨s, call_of_depth ?_ hd⟩
  rw [List.append_nil, ← Declaration.Parser.ofWords] at hloop
  generalize Declaration.Parser.ofWords i.dialect (.ofTokens i.tokens) = r at hloop ⊢
  cases r with
  | error stuck => exact bind_error hloop
  | ok declarations => exact bind_ok hloop

end EngineHeader.Checked.Parser
