import EngineHeader.Declaration.Encode
import EngineHeader.Proofs.Json.Reader

/-!
# Declarations from JSON

The tree of a header is read from its JSON.  Members are found by their keys, and where one is
absent it has its default: an empty list, no name or comment, an initializer that is not written, a
type that is not constant, an indirection of zero.  A value of several kinds is an object with one
member, whose key says which kind it is.

What is read of the JSON of a header is the header (`Header.ofJson?_toJson`).  Since the text of a
value is read back too, the text loses nothing (`Header.ofJsonText?_pretty`).
-/

namespace EngineHeader

namespace Json

/-! ## Parts of a value -/

/-- The members of an object. -/
def members? : Json → Option (List (String × Json))
  | .object members => some members
  | _ => none

/-- The kind of a value that is one of several, and the value. -/
def kind? : Json → Option (String × Json)
  | .object [member] => some member
  | _ => none

/-- A string. -/
def string? : Json → Option String
  | .string text => some text
  | _ => none

/-- A truth value. -/
def bool? : Json → Option Bool
  | .bool b => some b
  | _ => none

/-- A whole number. -/
def integer? : Json → Option Int
  | .number n => some n
  | _ => none

/-- A whole number that is not negative. -/
def natural? : Json → Option Nat
  | .number n => if 0 ≤ n then some n.toNat else none
  | _ => none

/-- The items of an array. -/
def items? : Json → Option (List Json)
  | .array items => some items
  | _ => none

/-- A member that has to be there. -/
def required {α : Type} (key : String) (read : Json → Option α) (members : List (String × Json)) :
    Option α :=
  (members.lookup key).bind read

/-- A member that has a default. -/
def defaulted {α : Type} (key : String) (default : α) (read : Json → Option α)
    (members : List (String × Json)) : Option α :=
  match members.lookup key with
  | none => some default
  | some v => read v

/-- A text that may be missing. -/
def optionalText (key : String) (members : List (String × Json)) : Option (Option String) :=
  defaulted key none (fun v => v.string?.map some) members

/-- A list that may be missing if it is empty. -/
def optionalItems (key : String) (members : List (String × Json)) : Option (List Json) :=
  defaulted key [] items? members

end Json

open Json (required defaulted optionalText optionalItems)

namespace Declaration

/-! ## Types and arguments -/

/-- A base type. -/
def BaseType.ofJson? (v : Json) : Option BaseType := do
  let members ← v.members?
  return ⟨← defaulted "is_const" false Json.bool? members, ← required "name" Json.string? members,
    ← defaulted "indirection" 0 Json.natural? members⟩

/-- What an argument is made of: a base type, or what a callback returns and the values of its
arguments. -/
inductive Argument.Parts where
  | plain (type : BaseType)
  | callback (returns : BaseType) (arguments : List Json)

/-- The parts of the type of an argument. -/
def Argument.Parts.ofJson? (v : Json) : Option Argument.Parts := do
  let (kind, type) ← v.kind?
  if kind = "Primitive" then return .plain (← BaseType.ofJson? type)
  else if kind = "Function" then
    let members ← type.members?
    return .callback (← required "return_type" BaseType.ofJson? members)
      (← optionalItems "arguments" members)
  else none

/-- The name of an argument and the parts of its type. -/
def Argument.split? (v : Json) : Option (Option String × Argument.Parts) := do
  let members ← v.members?
  return (← optionalText "name" members, ← required "type" Argument.Parts.ofJson? members)

end Declaration

/-! ## Sizes -/

namespace Json

variable {v : Json} {key : String} {ms : List (String × Json)}

theorem sizeOf_lookup_lt (h : ms.lookup key = some v) : sizeOf v < sizeOf ms := by
  obtain ⟨front, behind, rfl, _⟩ := List.lookup_eq_some_iff.mp h
  have hmem : (key, v) ∈ front ++ (key, v) :: behind :=
    List.mem_append_right front List.mem_cons_self
  have hlt := List.sizeOf_lt_of_mem hmem
  simp only [Prod.mk.sizeOf_spec] at hlt
  omega

theorem sizeOf_members?_lt (h : v.members? = some ms) : sizeOf ms < sizeOf v := by
  cases v with
  | object members =>
    obtain rfl : members = ms := Option.some.inj h
    simp
  | _ => cases h

theorem sizeOf_items?_lt {items : List Json} (h : v.items? = some items) :
    sizeOf items < sizeOf v := by
  cases v with
  | array items =>
    cases h
    simp
  | _ => cases h

theorem sizeOf_kind?_lt {kind : String} {inner : Json} (h : v.kind? = some (kind, inner)) :
    sizeOf inner < sizeOf v := by
  unfold kind? at h
  split at h
  · cases h
    simp
    omega
  · cases h

theorem sizeOf_optionalItems_lt {items : List Json} (h : optionalItems key ms = some items) :
    sizeOf items < sizeOf ms + 1 := by
  unfold optionalItems defaulted at h
  split at h
  · cases h
    cases ms with
    | nil => simp
    | cons m ms => simp
  · next hlookup =>
    have hitems := sizeOf_items?_lt h
    have hvalue := sizeOf_lookup_lt hlookup
    omega

/-- What is read of an object's member is smaller than the object. -/
theorem sizeOf_required {α : Type} {read : Json → Option α} {a : α}
    (h : required key read ms = some a) : ∃ v : Json, read v = some a ∧ sizeOf v < sizeOf ms := by
  obtain ⟨v, hlookup, hread⟩ := Option.bind_eq_some_iff.mp h
  exact ⟨v, hread, sizeOf_lookup_lt hlookup⟩

end Json

namespace Declaration

variable {v : Json} {returns : BaseType} {items : List Json}

theorem Argument.Parts.sizeOf_ofJson?_lt
    (h : Argument.Parts.ofJson? v = some (.callback returns items)) : sizeOf items < sizeOf v := by
  simp only [Argument.Parts.ofJson?, Option.bind_eq_bind, Option.bind_eq_some_iff] at h
  obtain ⟨⟨kind, type⟩, hkind, h⟩ := h
  have hinner := Json.sizeOf_kind?_lt hkind
  split at h
  · simp [Option.bind_eq_some_iff] at h
  split at h
  · simp only [Option.bind_eq_some_iff] at h
    obtain ⟨members, hmembers, _, _, items', hitems, hparts⟩ := h
    cases hparts
    have hobject := Json.sizeOf_members?_lt hmembers
    have hlist := Json.sizeOf_optionalItems_lt hitems
    omega
  · cases h

theorem Argument.sizeOf_split?_lt {name? : Option String}
    (h : Argument.split? v = some (name?, .callback returns items)) :
    sizeOf items < sizeOf v := by
  simp only [Argument.split?, Option.bind_eq_bind, Option.bind_eq_some_iff] at h
  obtain ⟨members, hmembers, _, _, parts, hparts, hsplit⟩ := h
  cases hsplit
  obtain ⟨type, htype, hlt⟩ := Json.sizeOf_required hparts
  have hitems := Argument.Parts.sizeOf_ofJson?_lt htype
  have hobject := Json.sizeOf_members?_lt hmembers
  omega

/-! ## Arguments -/

mutual

/-- An argument. -/
def Argument.ofJson? (v : Json) : Option Argument :=
  match hsplit : Argument.split? v with
  | none => none
  | some (name?, .plain type) => some (.plain type name?)
  | some (name?, .callback returns items) =>
    have := Argument.sizeOf_split?_lt hsplit
    (argumentsOfJson? items).map (.callback returns name?)
termination_by sizeOf v

/-- Each of a list of arguments. -/
def argumentsOfJson? : List Json → Option (List Argument)
  | [] => some []
  | v :: items => do return (← Argument.ofJson? v) :: (← argumentsOfJson? items)
termination_by items => sizeOf items

end

/-! ## Declarations -/

/-- A function pointer, from the members of an object that may have others. -/
def Signature.ofMembers? (members : List (String × Json)) : Option Signature := do
  return ⟨← required "return_type" BaseType.ofJson? members,
    ← required "name" Json.string? members,
    ← argumentsOfJson? (← optionalItems "arguments" members)⟩

/-- What an enumerator is set to. -/
def Initializer.ofJson? (v : Json) : Option Initializer := do
  let (kind, value) ← v.kind?
  if kind = "Int" then return .integer (← value.integer?)
  else if kind = "Ref" then return .reference (← value.string?)
  else none

/-- An enumerator. -/
def Enumerator.ofJson? (v : Json) : Option Enumerator := do
  let members ← v.members?
  return ⟨← required "name" Json.string? members,
    ← defaulted "value" .implicit Initializer.ofJson? members⟩

/-- A field. -/
def Field.ofJson? (v : Json) : Option Field := do
  let (kind, field) ← v.kind?
  let members ← field.members?
  if kind = "Variable" then
    return .plain (← required "type" BaseType.ofJson? members)
      (← required "name" Json.string? members)
  else if kind = "Function" then
    return .function (← Signature.ofMembers? members) (← optionalText "comment" members)
  else none

/-- A declaration. -/
def ofJson? (v : Json) : Option Declaration := do
  let (kind, declared) ← v.kind?
  if kind = "Comment" then return .comment (← declared.string?)
  let members ← declared.members?
  if kind = "Enum" then
    return .enumeration ⟨← (← optionalItems "values" members).mapM Enumerator.ofJson?,
      ← optionalText "name" members⟩
  else if kind = "Alias" then
    return .typeAlias ⟨← required "type" BaseType.ofJson? members,
      ← required "name" Json.string? members⟩
  else if kind = "Function" then return .function (← Signature.ofMembers? members)
  else if kind = "Struct" then
    return .struct ⟨← required "name" Json.string? members,
      ← (← optionalItems "fields" members).mapM Field.ofJson?⟩
  else none

end Declaration

/-- A header. -/
def Header.ofJson? (v : Json) : Option Header := do
  let members ← v.members?
  return ⟨← (← optionalItems "exprs" members).mapM Declaration.ofJson?⟩

/-- A header, from the text of its JSON. -/
def Header.ofJsonText? (text : String) : Option Header :=
  match Json.ofText text with
  | .ok v => Header.ofJson? v
  | .error _ => none

/-! ## What is read of what was written -/

namespace Json

variable {α : Type} {key other : String} {v : Json} {ms : List (String × Json)}
variable {items : List Json} {text? : Option String} {read : Json → Option α} {default : α}

@[simp] theorem kind?_tagged (kind : String) (v : Json) : (tagged kind v).kind? = some (kind, v) :=
  rfl

@[simp] theorem members?_object (ms : List (String × Json)) : (object ms).members? = some ms := rfl

@[simp] theorem string?_string (text : String) : (string text).string? = some text := rfl

@[simp] theorem bool?_bool (b : Bool) : (bool b).bool? = some b := rfl

@[simp] theorem integer?_number (n : Int) : (number n).integer? = some n := rfl

@[simp] theorem natural?_natCast (n : Nat) : (number n).natural? = some n := by
  simp [natural?]

@[simp] theorem required_cons_self : required key read ((key, v) :: ms) = read v := by
  simp [required]

theorem required_cons_ne (h : key ≠ other) :
    required key read ((other, v) :: ms) = required key read ms := by
  simp [required, List.lookup_cons, beq_false_of_ne h]

@[simp] theorem defaulted_nil : defaulted key default read [] = some default := rfl

@[simp] theorem defaulted_cons_self : defaulted key default read ((key, v) :: ms) = read v := by
  simp [defaulted]

theorem defaulted_cons_ne (h : key ≠ other) :
    defaulted key default read ((other, v) :: ms) = defaulted key default read ms := by
  simp [defaulted, List.lookup_cons, beq_false_of_ne h]

theorem defaulted_listMember_ne (h : key ≠ other) :
    defaulted key default read (listMember other items ++ ms) = defaulted key default read ms := by
  cases items with
  | nil => rfl
  | cons item items => exact defaulted_cons_ne h

theorem defaulted_textMember_ne (h : key ≠ other) :
    defaulted key default read (textMember other text?) = some default := by
  cases text? with
  | none => rfl
  | some text => exact defaulted_cons_ne h

/-- A text is told apart from a missing one. -/
@[simp] theorem optionalText_textMember : optionalText key (textMember key text?) = some text? := by
  cases text? with
  | none => rfl
  | some text => exact defaulted_cons_self

theorem optionalText_cons_ne (h : key ≠ other) :
    optionalText key ((other, v) :: ms) = optionalText key ms :=
  defaulted_cons_ne h

theorem optionalText_listMember_ne (h : key ≠ other) :
    optionalText key (listMember other items ++ ms) = optionalText key ms :=
  defaulted_listMember_ne h

theorem optionalItems_cons_ne (h : key ≠ other) :
    optionalItems key ((other, v) :: ms) = optionalItems key ms :=
  defaulted_cons_ne h

/-- A list is read back if nothing behind it has its key. -/
theorem optionalItems_listMember (items : List Json) (h : optionalItems key ms = some []) :
    optionalItems key (listMember key items ++ ms) = some items := by
  cases items with
  | nil => exact h
  | cons item items => exact defaulted_cons_self

@[simp] theorem optionalItems_listMember_self :
    optionalItems key (listMember key items) = some items := by
  have hnil : optionalItems key [] = some [] := rfl
  have hitems := optionalItems_listMember items hnil
  rwa [List.append_nil] at hitems

end Json

namespace Declaration

open Json

@[simp] theorem BaseType.ofJson?_toJson (t : BaseType) : BaseType.ofJson? t.toJson = some t := by
  obtain ⟨isConst, name, indirection⟩ := t
  by_cases hstars : indirection = 0
  all_goals cases isConst
  all_goals simp [BaseType.ofJson?, BaseType.toJson, required_cons_ne, defaulted_cons_ne, hstars]

/-- The name of an argument is read back, and what its type is read as. -/
theorem Argument.split?_object {type : Json} {parts : Argument.Parts} (name? : Option String)
    (h : Argument.Parts.ofJson? type = some parts) :
    Argument.split? (.object (("type", type) :: textMember "name" name?)) =
      some (name?, parts) := by
  simp [Argument.split?, optionalText_cons_ne, h]

theorem Argument.Parts.ofJson?_plain (type : BaseType) :
    Argument.Parts.ofJson? (tagged "Primitive" type.toJson) = some (.plain type) := by
  simp [Argument.Parts.ofJson?]

theorem Argument.Parts.ofJson?_callback (returns : BaseType) (items : List Json) :
    Argument.Parts.ofJson? (tagged "Function"
      (.object (("return_type", returns.toJson) :: listMember "arguments" items))) =
      some (.callback returns items) := by
  simp [Argument.Parts.ofJson?, optionalItems_cons_ne]

theorem Argument.ofJson?_of_plain {v : Json} {name? : Option String} {type : BaseType}
    (h : Argument.split? v = some (name?, .plain type)) :
    Argument.ofJson? v = some (.plain type name?) := by
  rw [Argument.ofJson?]
  split <;> simp_all

theorem Argument.ofJson?_of_callback {v : Json} {name? : Option String} {returns : BaseType}
    {items : List Json} (h : Argument.split? v = some (name?, .callback returns items)) :
    Argument.ofJson? v = (argumentsOfJson? items).map (.callback returns name?) := by
  rw [Argument.ofJson?]
  split <;> simp_all

mutual

/-- An argument is read back, whatever arguments the callbacks in it take. -/
theorem Argument.ofJson?_toJson : ∀ a : Argument, Argument.ofJson? a.toJson = some a
  | .plain type name? => by
    have hsplit := Argument.split?_object name? (Argument.Parts.ofJson?_plain type)
    exact Argument.ofJson?_of_plain hsplit
  | .callback returns name? arguments => by
    have hsplit := Argument.split?_object name?
      (Argument.Parts.ofJson?_callback returns (argumentsToJson arguments))
    rw [Argument.toJson, Argument.ofJson?_of_callback hsplit, argumentsOfJson?_toJson arguments]
    rfl

/-- Each of a list of arguments is read back. -/
theorem argumentsOfJson?_toJson : ∀ arguments : List Argument,
    argumentsOfJson? (argumentsToJson arguments) = some arguments
  | [] => by
    rw [argumentsToJson, argumentsOfJson?]
  | a :: arguments => by
    rw [argumentsToJson, argumentsOfJson?, Argument.ofJson?_toJson a,
      argumentsOfJson?_toJson arguments]
    rfl

end

/-- A function pointer is read back, whatever else the object has behind it. -/
theorem Signature.ofMembers?_members (s : Signature) {ms : List (String × Json)}
    (h : optionalItems "arguments" ms = some []) :
    Signature.ofMembers? (s.members ++ ms) = some s := by
  have hitems := optionalItems_listMember (argumentsToJson s.arguments) h
  simp [Signature.ofMembers?, Signature.members, required_cons_ne, optionalItems_cons_ne, hitems,
    argumentsOfJson?_toJson]

theorem Enumerator.ofJson?_toJson (e : Enumerator) : Enumerator.ofJson? e.toJson = some e := by
  obtain ⟨name, value⟩ := e
  cases value with
  | implicit => simp [Enumerator.ofJson?, Enumerator.toJson, defaulted_cons_ne]
  | integer n =>
    simp [Enumerator.ofJson?, Enumerator.toJson, defaulted_cons_ne, Initializer.ofJson?]
  | reference other =>
    simp [Enumerator.ofJson?, Enumerator.toJson, defaulted_cons_ne, Initializer.ofJson?]

theorem Field.ofJson?_toJson (f : Field) : Field.ofJson? f.toJson = some f := by
  cases f with
  | plain type name => simp [Field.ofJson?, Field.toJson, required_cons_ne]
  | function signature comment? =>
    have hnone : optionalItems "arguments" (textMember "comment" comment?) = some [] :=
      defaulted_textMember_ne (by decide)
    have hsignature := Signature.ofMembers?_members signature hnone
    have hcomment : optionalText "comment" (signature.members ++ textMember "comment" comment?) =
        some comment? := by
      simp [Signature.members, optionalText_cons_ne, optionalText_listMember_ne]
    simp [Field.ofJson?, Field.toJson, hsignature, hcomment]

/-- A list is read back if each of its items is. -/
theorem mapM_ofJson?_map {α : Type} {write : α → Json} {read : Json → Option α}
    (h : ∀ a, read (write a) = some a) (items : List α) :
    (items.map write).mapM read = some items := by
  induction items with
  | nil => rfl
  | cons item items ih => simp [h, ih]

theorem ofJson?_toJson (d : Declaration) : ofJson? d.toJson = some d := by
  cases d with
  | comment text => simp [ofJson?, toJson]
  | enumeration e =>
    have hnone : optionalItems "values" (textMember "name" e.name?) = some [] :=
      defaulted_textMember_ne (by decide)
    have hvalues := optionalItems_listMember (e.values.map Enumerator.toJson) hnone
    simp [ofJson?, toJson, hvalues, mapM_ofJson?_map Enumerator.ofJson?_toJson,
      optionalText_listMember_ne]
  | typeAlias a => simp [ofJson?, toJson, required_cons_ne]
  | function signature =>
    have hnone : optionalItems "arguments" [] = some [] := rfl
    have hsignature := Signature.ofMembers?_members signature hnone
    rw [List.append_nil] at hsignature
    simp [ofJson?, toJson, hsignature]
  | struct s =>
    simp [ofJson?, toJson, optionalItems_cons_ne, mapM_ofJson?_map Field.ofJson?_toJson]

end Declaration

/-- A header is read back from its JSON. -/
theorem Header.ofJson?_toJson (h : Header) : Header.ofJson? h.toJson = some h := by
  simp [Header.ofJson?, Header.toJson, Declaration.mapM_ofJson?_map Declaration.ofJson?_toJson]

/-- A header is read back from the text of its JSON.  So two headers with one text are one
header. -/
theorem Header.ofJsonText?_pretty :
    (∀ h : Header, Header.ofJsonText? h.toJson.pretty = some h) ∧
      Function.Injective fun h : Header => h.toJson.pretty := by
  have hread (h : Header) : Header.ofJsonText? h.toJson.pretty = some h := by
    rw [Header.ofJsonText?, Json.pretty, Json.ofText_write Json.isBlank_pretty]
    exact h.ofJson?_toJson
  refine ⟨hread, ?_⟩
  intro h₁ h₂ htext
  have heq : some h₁ = some h₂ := by
    rw [← hread h₁, ← hread h₂]
    exact congrArg Header.ofJsonText? htext
  exact Option.some.inj heq

end EngineHeader
