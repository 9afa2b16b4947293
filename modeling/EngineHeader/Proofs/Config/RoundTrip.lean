import EngineHeader.Config.Reader
import EngineHeader.Proofs.FirstOfEach
import EngineHeader.Proofs.Json.Reader

/-!
# Configurations that are written and read

The JSON of a configuration is read back as the configuration, in any layout of white space
(`Config.ofText_write`).  It has all three members, in their order, so none of the defaults of the
reader is used.  The names to define may be any strings.

The list of these names is read back as it was, with what is there twice.  Only the set that is made
of it has each name once (`toList_names`).
-/

namespace EngineHeader.Config.Reader

open Json (Yields Blank Layout blank_nil spelled spelledItems spelledMembers spelledString ok_bind
  yields_ok yields_visible yields_stringBody literal_append next_close next_first next_comma
  yields_colon_of_isBlank)

variable {α : Type} {text mid rest gap : List Char} {l : Layout}

/-- What a reader of JSON gives is given to the reader of configurations. -/
theorem yields_lift {us : List Char} {r : Json.Reading α us} {a : α} (h : Yields r a rest) :
    Yields (liftM r : Reading α us) a rest := h.mapError _

/-! ## Values -/

theorem yields_string (hgap : Blank gap) (s : String) (rest : List Char) :
    Yields (string (gap ++ spelledString s rest)) s rest := by
  have hbody := yields_stringBody s.toList rest
  refine (yields_lift (yields_visible hgap rfl _)).bind fun _ => ?_
  dsimp only
  rw [if_pos rfl]
  refine (yields_lift hbody).bind fun _ => ?_
  rw [String.ofList_toList]
  exact yields_ok _

theorem yields_dialect (hgap : Blank gap) (d : Dialect) (rest : List Char) :
    Yields (dialect (gap ++ spelledString d.name rest)) d rest := by
  have hbody := yields_stringBody d.name.toList rest
  refine (yields_lift (yields_visible hgap rfl _)).bind fun _ => ?_
  dsimp only
  rw [if_pos rfl]
  refine (yields_lift hbody).bind fun _ => ?_
  simp only [String.ofList_toList, dialectOf, Dialect.ofName?_name, ok_bind]
  exact yields_ok _

theorem yields_boolean (hgap : Blank gap) (b : Bool) (depth : Nat) (rest : List Char) :
    Yields (boolean (gap ++ spelled l depth rest (.bool b))) b rest := by
  cases b with
  | false =>
    obtain ⟨_, hliteral⟩ := literal_append ['a', 'l', 's', 'e'] rest
    simp only [List.cons_append, List.nil_append] at hliteral
    rw [spelled]
    refine (yields_lift (yields_visible hgap rfl _)).bind fun _ => ?_
    dsimp only
    rw [if_neg (by decide), if_pos rfl, hliteral]
    exact yields_ok _
  | true =>
    obtain ⟨_, hliteral⟩ := literal_append ['r', 'u', 'e'] rest
    simp only [List.cons_append, List.nil_append] at hliteral
    rw [spelled]
    refine (yields_lift (yields_visible hgap rfl _)).bind fun _ => ?_
    dsimp only
    rw [if_pos rfl, hliteral]
    exact yields_ok _

/-! ## Lists of strings -/

theorem strings_closed {first : Bool} {h : rest.length < text.length}
    (hnext : Json.next ']' first text = .ok (.closed rest h)) :
    Yields (strings first text) [] rest := by
  rw [strings, hnext]
  exact yields_ok _

theorem strings_item {first : Bool} {inner : List Char} {h : inner.length ≤ text.length}
    {s : String} {others : List String}
    (hnext : Json.next ']' first text = .ok (.item inner h)) (hs : Yields (string inner) s mid)
    (hothers : Yields (strings false mid) others rest) :
    Yields (strings first text) (s :: others) rest := by
  rw [strings, hnext]
  exact hs.bind fun _ => hothers.bind fun _ => yields_ok _

/-- More strings, through the closing bracket. -/
theorem yields_strings (hl : l.IsBlank) (depth : Nat) (behind : List Char) (names : List String) :
    Yields (strings false (spelledItems l (depth + 1) ((l.lineBreak depth).toList ++ ']' :: behind)
      (names.map .string))) names behind := by
  induction names with
  | nil =>
    obtain ⟨_, hnext⟩ := next_close ']' (hl.lineBreak depth) rfl false behind
    rw [List.map_nil, spelledItems]
    exact strings_closed hnext
  | cons name names ih =>
    obtain ⟨_, hnext⟩ := next_comma '"' ']' (hl.lineBreak (depth + 1)) rfl
      (by decide) (by decide) (name.toList.flatMap Json.escapeChar ++ '"' :: _)
    rw [List.map_cons, spelledItems, spelled]
    exact strings_item hnext (yields_string blank_nil name _) ih

/-- An array of strings. -/
theorem yields_defines (hl : l.IsBlank) (hgap : Blank gap) (depth : Nat) (behind : List Char)
    (names : List String) :
    Yields (defines (gap ++ spelled l depth behind (.array (names.map .string)))) names behind := by
  cases names with
  | nil =>
    obtain ⟨_, hnext⟩ := next_close ']' blank_nil rfl true behind
    rw [List.map_nil, spelled]
    refine (yields_lift (yields_visible hgap rfl _)).bind fun _ => ?_
    exact (strings_closed hnext).bind fun _ => yields_ok _
  | cons name names =>
    obtain ⟨_, hnext⟩ := next_first '"' ']' (hl.lineBreak (depth + 1)) rfl
      (by decide) (name.toList.flatMap Json.escapeChar ++ '"' :: _)
    have hstrings := strings_item hnext (yields_string blank_nil name _)
      (yields_strings hl depth behind names)
    rw [List.map_cons, spelled, spelled]
    refine (yields_lift (yields_visible hgap rfl _)).bind fun _ => ?_
    exact hstrings.bind fun _ => yields_ok _

/-! ## Members -/

variable {m m' m'' : Members}

theorem members_closed {first : Bool} {h : rest.length < text.length}
    (hnext : Json.next '\x7d' first text = .ok (.closed rest h)) :
    Yields (members m first text) m rest := by
  rw [members, hnext]
  exact yields_ok _

/-- A member whose key is known and new, and the members behind it. -/
theorem members_item {first : Bool} (field : Field) {inner behind : List Char}
    {h : (spelledString field.key inner).length ≤ text.length}
    (hnext : Json.next '\x7d' first text = .ok (.item (spelledString field.key inner) h))
    (hnew : m.has field = false) (hcolon : Yields (Json.colon inner) () mid)
    (hvalue : Yields (value m field mid) m' behind)
    (hmembers : Yields (members m' false behind) m'' rest) :
    Yields (members m first text) m'' rest := by
  have hfield : newField m field.key = .ok field := by
    have hkey : Field.ofKey? field.key = some field := by
      cases field with
      | dialect => rfl
      | cplusplus => rfl
      | defines => rfl
    rw [newField, hkey]
    simp [hnew]
  have hmember : Yields (member m (spelledString field.key inner)) m' behind := by
    rw [spelledString, member]
    refine (yields_lift (yields_stringBody field.key.toList inner)).bind fun _ => ?_
    dsimp only
    rw [String.ofList_toList, hfield, ok_bind]
    exact (yields_lift hcolon).bind fun _ => hvalue.bind fun _ => yields_ok _
  rw [members, hnext]
  exact hmember.bind fun _ => hmembers.bind fun _ => yields_ok _

theorem yields_value_dialect (hgap : Blank gap) (d : Dialect) (rest : List Char) :
    Yields (value m .dialect (gap ++ spelledString d.name rest)) { m with dialect? := some d }
      rest :=
  (yields_dialect hgap d rest).bind fun _ => yields_ok _

theorem yields_value_cplusplus (hgap : Blank gap) (b : Bool) (depth : Nat) (rest : List Char) :
    Yields (value m .cplusplus (gap ++ spelled l depth rest (.bool b)))
      { m with cplusplus? := some b } rest :=
  (yields_boolean hgap b depth rest).bind fun _ => yields_ok _

theorem yields_value_defines (hl : l.IsBlank) (hgap : Blank gap) (names : List String) (depth : Nat)
    (rest : List Char) :
    Yields (value m .defines (gap ++ spelled l depth rest (.array (names.map .string))))
      { m with defines? := some names } rest :=
  (yields_defines hl hgap depth rest names).bind fun _ => yields_ok _

end EngineHeader.Config.Reader

namespace EngineHeader.Config

open Json (Yields Layout blank_nil spelled spelledMembers spelledString next_close next_first
  next_comma yields_colon_of_isBlank)
open Reader

/-- The members of a configuration are read back. -/
theorem yields_members {l : Layout} (hl : l.IsBlank) (c : Config) :
    Yields (Reader.members ⟨none, none, none⟩ true ((l.lineBreak 1).toList ++
      spelledString "dialect" (l.colon.toList ++ spelledString c.dialect.name
        (spelledMembers l 1 ((l.lineBreak 0).toList ++ ['\x7d'])
          [("cplusplus", .bool c.cplusplus), ("defines", .array (c.defines.map .string))]))))
      ⟨some c.dialect, some c.cplusplus, some c.defines⟩ [] := by
  obtain ⟨_, hfirst⟩ := next_first '"' '\x7d' (hl.lineBreak 1) rfl (by decide)
    ("dialect".toList.flatMap Json.escapeChar ++ '"' :: _)
  obtain ⟨_, hsecond⟩ := next_comma '"' '\x7d' (hl.lineBreak 1) rfl (by decide)
    (by decide) ("cplusplus".toList.flatMap Json.escapeChar ++ '"' :: _)
  obtain ⟨_, hthird⟩ := next_comma '"' '\x7d' (hl.lineBreak 1) rfl (by decide)
    (by decide) ("defines".toList.flatMap Json.escapeChar ++ '"' :: _)
  obtain ⟨_, hclose⟩ := next_close '\x7d' (hl.lineBreak 0) rfl false []
  obtain ⟨gap₁, hgap₁, hcolon₁⟩ := yields_colon_of_isBlank hl _
  obtain ⟨gap₂, hgap₂, hcolon₂⟩ := yields_colon_of_isBlank hl _
  obtain ⟨gap₃, hgap₃, hcolon₃⟩ := yields_colon_of_isBlank hl _
  rw [spelledMembers, spelledMembers, spelledMembers]
  exact members_item .dialect hfirst rfl hcolon₁ (yields_value_dialect hgap₁ _ _) <|
    members_item .cplusplus hsecond rfl hcolon₂ (yields_value_cplusplus hgap₂ _ _ _) <|
    members_item .defines hthird rfl hcolon₃ (yields_value_defines hl hgap₃ _ _ _) <|
    members_closed hclose

/-- A configuration that was written in a layout of white space is read back. -/
theorem ofText_write {l : Layout} (hl : l.IsBlank) (c : Config) :
    ofText (Json.write l 0 "" c.toJson) = .ok c := by
  have hread : Reader.config (spelled l 0 [] c.toJson) = .ok (c, []) := by
    rw [toJson, spelled, spelled]
    refine (yields_lift (Json.yields_visible blank_nil rfl _)).bind_eq fun _ => ?_
    exact (yields_members hl c).bind_eq fun _ => rfl
  rw [ofText, Json.toList_write_empty, hread]
  rfl

/-- What counts as defined is the name of C++ compilers, if it is asked for, and then the listed
names, each where it comes first. -/
theorem toList_names (c : Config) :
    c.names.toList =
      firstOfEach id ((if c.cplusplus then ["__cplusplus"] else []) ++ c.defines) := by
  rw [← Names.toList_ofList, names]
  cases c.cplusplus with
  | false => rfl
  | true => rfl

/-- A configuration survives being written, and so do the names that count as defined. -/
theorem ofText_toJson (c : Config) :
    ofText (Json.compact c.toJson) = .ok c ∧ ofText (Json.pretty c.toJson) = .ok c ∧
      c.names.toList =
        firstOfEach id ((if c.cplusplus then ["__cplusplus"] else []) ++ c.defines) :=
  ⟨ofText_write Json.isBlank_compact c, ofText_write Json.isBlank_pretty c, toList_names c⟩

example : (names ⟨.native, true, ["A", "__cplusplus", "", "A"]⟩).toList =
    ["__cplusplus", "A", ""] := by decide

end EngineHeader.Config
