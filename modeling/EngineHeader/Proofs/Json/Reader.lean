import EngineHeader.Proofs.Json.Lexical

/-!
# Reading JSON back

A reader of JSON values (`Json.ofText`).  It takes any white space, and arrays and objects of any
depth.  The members of an object keep their order.  A number is read exactly, whatever its size, and
since values have no others it has to be whole.

A value that was written in a layout of white space is read back (`ofText_write`).  The writer adds
its text to what is written already.  So the text of a value is first told apart from that, in front
of whatever is written behind it (`toList_write`).  What is read of it does not depend on what
stands behind, as long as that does not continue a number (`yields_value`).
-/

namespace EngineHeader.Json

open Text

/-! ## The reader -/

namespace Reader

/-- A number behind its sign. -/
def number (negative : Bool) (text : List Char) : Reading Int text := do
  let ⟨whole, text₁, h₁⟩ ← wholePart text
  let ⟨fraction, text₂, h₂⟩ ← fraction text₁
  let ⟨exponent?, text₃, h₃⟩ ← exponent text₂
  have h := shorter_of_notLonger h₁ h₂
  match (Numeral.mk negative whole fraction exponent?).integer? with
  | some n => return ⟨n, text₃, shorter_of_notLonger h h₃⟩
  | none => .error .malformed

mutual

/-- A value. -/
def value (text : List Char) : Reading Json text := do
  let ⟨c, text₁, h₁⟩ ← visible text
  match c with
  | 'n' =>
    let ⟨_, rest, h⟩ ← literal ['u', 'l', 'l'] text₁
    return ⟨.null, rest, shorter_of_notLonger h₁ h⟩
  | 't' =>
    let ⟨_, rest, h⟩ ← literal ['r', 'u', 'e'] text₁
    return ⟨.bool true, rest, shorter_of_notLonger h₁ h⟩
  | 'f' =>
    let ⟨_, rest, h⟩ ← literal ['a', 'l', 's', 'e'] text₁
    return ⟨.bool false, rest, shorter_of_notLonger h₁ h⟩
  | '"' =>
    let ⟨chars, rest, h⟩ ← stringBody text₁
    return ⟨.string (String.ofList chars), rest, shorter_trans h₁ h⟩
  | '[' =>
    let ⟨items, rest, h⟩ ← items true text₁
    return ⟨.array items, rest, shorter_trans h₁ h⟩
  | '\x7b' =>
    let ⟨members, rest, h⟩ ← members true text₁
    return ⟨.object members, rest, shorter_trans h₁ h⟩
  | '-' =>
    let ⟨n, rest, h⟩ ← number true text₁
    return ⟨.number n, rest, shorter_trans h₁ h⟩
  | c =>
    let ⟨n, rest, h⟩ ← number false (c :: text₁)
    return ⟨.number n, rest, shorter_of_cons h₁ h⟩
termination_by 2 * text.length

/-- The items of an array, through its closing bracket. -/
def items (first : Bool) (text : List Char) : Reading (List Json) text := do
  match ← next ']' first text with
  | .closed rest h => return ⟨[], rest, h⟩
  | .item text₁ h₁ =>
    let ⟨item, text₂, h₂⟩ ← value text₁
    let ⟨others, text₃, h₃⟩ ← items false text₂
    have h := shorter_within h₁ h₂
    return ⟨item :: others, text₃, shorter_trans h h₃⟩
termination_by 2 * text.length + 1

/-- The members of an object, through its closing brace. -/
def members (first : Bool) (text : List Char) : Reading (List (String × Json)) text := do
  match ← next '\x7d' first text with
  | .closed rest h => return ⟨[], rest, h⟩
  | .item text₁ h₁ =>
    let ⟨quote, text₂, h₂⟩ ← visible text₁
    if quote = '"' then
      let ⟨key, text₃, h₃⟩ ← stringBody text₂
      let ⟨_, text₄, h₄⟩ ← colon text₃
      let ⟨value, text₅, h₅⟩ ← value text₄
      let ⟨others, text₆, h₆⟩ ← members false text₅
      have hquote := shorter_within h₁ h₂
      have hkey := shorter_trans hquote h₃
      have hcolon := shorter_trans hkey h₄
      have hvalue := shorter_trans hcolon h₅
      return ⟨(String.ofList key, value) :: others, text₆, shorter_trans hvalue h₆⟩
    else .error .malformed
termination_by 2 * text.length + 1

end

end Reader

/-- The value of a text. -/
def ofText (text : String) : Except Fault Json := do
  let ⟨value, rest, _⟩ ← Reader.value text.toList
  if rest.all isSpace then return value else throw .malformed

/-! ## Written values -/

/-- A layout that adds nothing but white space. -/
structure Layout.IsBlank (l : Layout) : Prop where
  lineBreak (depth : Nat) : Blank (l.lineBreak depth).toList
  colon : ∃ front behind, l.colon.toList = front ++ ':' :: behind ∧ Blank front ∧ Blank behind

theorem isBlank_compact : Layout.compact.IsBlank where
  lineBreak _ := blank_nil
  colon := ⟨[], [], rfl, blank_nil, blank_nil⟩

theorem isBlank_pretty : Layout.pretty.IsBlank where
  lineBreak depth c hc := by
    rw [Layout.pretty, String.toList_append] at hc
    rcases List.mem_append.mp hc with hc | hc
    · obtain rfl := List.mem_singleton.mp hc
      rfl
    · rw [String.toList_ofList] at hc
      obtain rfl := List.eq_of_mem_replicate hc
      rfl
  colon := ⟨[], [' '], rfl, blank_nil, by simp [Blank, isSpace]⟩

/-- A string in front of `behind`. -/
def spelledString (text : String) (behind : List Char) : List Char :=
  '"' :: (text.toList.flatMap escapeChar ++ '"' :: behind)

theorem toList_stringText (text : String) (behind : List Char) :
    (stringText text).toList ++ behind = spelledString text behind := by
  simp [stringText, spelledString]

theorem spelledString_append (text : String) (behind more : List Char) :
    spelledString text behind ++ more = spelledString text (behind ++ more) := by
  simp [spelledString]

mutual

/-- The text of a value at some depth, in front of `behind`. -/
def spelled (l : Layout) (depth : Nat) (behind : List Char) : Json → List Char
  | .null => 'n' :: 'u' :: 'l' :: 'l' :: behind
  | .bool true => 't' :: 'r' :: 'u' :: 'e' :: behind
  | .bool false => 'f' :: 'a' :: 'l' :: 's' :: 'e' :: behind
  | .number n => (toString n).toList ++ behind
  | .string text => spelledString text behind
  | .array [] => '[' :: ']' :: behind
  | .array (item :: items) =>
    let close := (l.lineBreak depth).toList ++ ']' :: behind
    '[' :: ((l.lineBreak (depth + 1)).toList ++
      spelled l (depth + 1) (spelledItems l (depth + 1) close items) item)
  | .object [] => '\x7b' :: '\x7d' :: behind
  | .object ((key, value) :: members) =>
    let close := (l.lineBreak depth).toList ++ '\x7d' :: behind
    '\x7b' :: ((l.lineBreak (depth + 1)).toList ++ spelledString key (l.colon.toList ++
      spelled l (depth + 1) (spelledMembers l (depth + 1) close members) value))

/-- The text of more items of an array, in front of `behind`. -/
def spelledItems (l : Layout) (depth : Nat) (behind : List Char) : List Json → List Char
  | [] => behind
  | item :: items =>
    ',' :: ((l.lineBreak depth).toList ++
      spelled l depth (spelledItems l depth behind items) item)

/-- The text of more members of an object, in front of `behind`. -/
def spelledMembers (l : Layout) (depth : Nat) (behind : List Char) :
    List (String × Json) → List Char
  | [] => behind
  | (key, value) :: members =>
    ',' :: ((l.lineBreak depth).toList ++ spelledString key (l.colon.toList ++
      spelled l depth (spelledMembers l depth behind members) value))

end

mutual

/-- The writer adds the text of a value to what is written already. -/
theorem toList_write (l : Layout) : ∀ (v : Json) (depth : Nat) (out : String) (behind : List Char),
    (write l depth out v).toList ++ behind = out.toList ++ spelled l depth behind v
  | .null, depth, out, behind => by simp [write, spelled]
  | .bool true, depth, out, behind => by simp [write, spelled]
  | .bool false, depth, out, behind => by simp [write, spelled]
  | .number n, depth, out, behind => by simp [write, spelled]
  | .string text, depth, out, behind => by simp [write, spelled, toList_stringText]
  | .array [], depth, out, behind => by simp [write, spelled]
  | .array (item :: items), depth, out, behind => by
      have hitems := toList_writeItems l items (depth + 1)
        (write l (depth + 1) (out ++ "[" ++ l.lineBreak (depth + 1)) item)
        ((l.lineBreak depth).toList ++ ']' :: behind)
      rw [toList_write l item] at hitems
      simpa [write, spelled] using hitems
  | .object [], depth, out, behind => by simp [write, spelled]
  | .object ((key, value) :: members), depth, out, behind => by
      have hmembers := toList_writeMembers l members (depth + 1)
        (write l (depth + 1)
          (out ++ "\x7b" ++ l.lineBreak (depth + 1) ++ stringText key ++ l.colon) value)
        ((l.lineBreak depth).toList ++ '\x7d' :: behind)
      rw [toList_write l value] at hmembers
      simpa [write, spelled, toList_stringText, spelledString_append] using hmembers

theorem toList_writeItems (l : Layout) : ∀ (items : List Json) (depth : Nat) (out : String)
    (behind : List Char),
    (writeItems l depth out items).toList ++ behind =
      out.toList ++ spelledItems l depth behind items
  | [], depth, out, behind => by simp [writeItems, spelledItems]
  | item :: items, depth, out, behind => by
      rw [writeItems, toList_writeItems l items, toList_write l item]
      simp [spelledItems]

theorem toList_writeMembers (l : Layout) : ∀ (members : List (String × Json)) (depth : Nat)
    (out : String) (behind : List Char),
    (writeMembers l depth out members).toList ++ behind =
      out.toList ++ spelledMembers l depth behind members
  | [], depth, out, behind => by simp [writeMembers, spelledMembers]
  | (key, value) :: members, depth, out, behind => by
      rw [writeMembers, toList_writeMembers l members, toList_write l value]
      simp [spelledMembers, toList_stringText, spelledString_append]

end

/-- The whole text of a value. -/
theorem toList_write_empty (l : Layout) (v : Json) :
    (write l 0 "" v).toList = spelled l 0 [] v := by
  have hwrite := toList_write l v 0 "" []
  rwa [List.append_nil, String.toList_empty, List.nil_append] at hwrite

/-! ## What is read, by the first character -/

variable {gap text mid rest : List Char}

theorem yields_value_string {chars : List Char} (hgap : Blank gap)
    (h : Yields (stringBody text) chars rest) :
    Yields (Reader.value (gap ++ '"' :: text)) (.string (String.ofList chars)) rest := by
  rw [Reader.value]
  exact (yields_visible hgap rfl text).bind fun _ => h.bind fun _ => yields_ok _

theorem yields_value_array {vs : List Json} (hgap : Blank gap)
    (h : Yields (Reader.items true text) vs rest) :
    Yields (Reader.value (gap ++ '[' :: text)) (.array vs) rest := by
  rw [Reader.value]
  exact (yields_visible hgap rfl text).bind fun _ => h.bind fun _ => yields_ok _

theorem yields_value_object {ms : List (String × Json)} (hgap : Blank gap)
    (h : Yields (Reader.members true text) ms rest) :
    Yields (Reader.value (gap ++ '\x7b' :: text)) (.object ms) rest := by
  rw [Reader.value]
  exact (yields_visible hgap rfl text).bind fun _ => h.bind fun _ => yields_ok _

theorem yields_value_null (hgap : Blank gap) (rest : List Char) :
    Yields (Reader.value (gap ++ 'n' :: 'u' :: 'l' :: 'l' :: rest)) .null rest := by
  obtain ⟨_, hliteral⟩ := literal_append ['u', 'l', 'l'] rest
  simp only [List.cons_append, List.nil_append] at hliteral
  rw [Reader.value]
  refine (yields_visible hgap rfl _).bind fun _ => ?_
  simp only [hliteral, bind, Except.bind]
  exact yields_ok _

theorem yields_value_true (hgap : Blank gap) (rest : List Char) :
    Yields (Reader.value (gap ++ 't' :: 'r' :: 'u' :: 'e' :: rest)) (.bool true) rest := by
  obtain ⟨_, hliteral⟩ := literal_append ['r', 'u', 'e'] rest
  simp only [List.cons_append, List.nil_append] at hliteral
  rw [Reader.value]
  refine (yields_visible hgap rfl _).bind fun _ => ?_
  simp only [hliteral, bind, Except.bind]
  exact yields_ok _

theorem yields_value_false (hgap : Blank gap) (rest : List Char) :
    Yields (Reader.value (gap ++ 'f' :: 'a' :: 'l' :: 's' :: 'e' :: rest)) (.bool false) rest := by
  obtain ⟨_, hliteral⟩ := literal_append ['a', 'l', 's', 'e'] rest
  simp only [List.cons_append, List.nil_append] at hliteral
  rw [Reader.value]
  refine (yields_visible hgap rfl _).bind fun _ => ?_
  simp only [hliteral, bind, Except.bind]
  exact yields_ok _

/-! ## Numbers -/

variable {behind : List Char}

/-- White space and punctuation do not continue a number. -/
theorem stops_blank {c : Char} (hgap : Blank gap) (hc : continuesNumber c = false) :
    Token.Stops continuesNumber (gap ++ c :: behind) := by
  intro x hx
  cases gap with
  | nil =>
    cases hx
    exact hc
  | cons d gap =>
    obtain rfl : d = x := Option.some.inj hx
    have hd := hgap d List.mem_cons_self
    simp only [isSpace, Bool.or_eq_true, beq_iff_eq] at hd
    rcases hd with ((rfl | rfl) | rfl) | rfl
    · rfl
    · rfl
    · rfl
    · rfl

/-- A natural number is read off its digits. -/
theorem yields_number (hb : Token.Stops continuesNumber behind) (negative : Bool) (n : Nat) :
    Yields (Reader.number negative (Nat.toDigits 10 n ++ behind))
      (if negative then -(n : Int) else n) behind := by
  have hdigit : Token.Stops Char.isDigit behind := by
    intro c hc
    have hall := hb c hc
    simp only [continuesNumber, Bool.or_eq_false_iff] at hall
    exact hall.1.1
  have hfraction : ∃ h, fraction behind = .ok ⟨[], behind, h⟩ := by
    cases behind with
    | nil => exact ⟨_, rfl⟩
    | cons c behind =>
      have hpoint : c ≠ '.' := by
        rintro rfl
        exact absurd (hb _ rfl) (by decide)
      refine ⟨Nat.le_refl _, ?_⟩
      rw [fraction.eq_2]
      rintro text ⟨⟩
      exact hpoint rfl
  have hexponent : ∃ h, exponent behind = .ok ⟨none, behind, h⟩ := by
    cases behind with
    | nil => exact ⟨_, rfl⟩
    | cons c behind =>
      have hmark : isExponentMark c = false := by
        have hall := hb c rfl
        simp only [continuesNumber, Bool.or_eq_false_iff] at hall
        exact hall.2
      refine ⟨Nat.le_refl _, ?_⟩
      rw [exponent, hmark]
      rfl
  obtain ⟨_, hfraction⟩ := hfraction
  obtain ⟨_, hexponent⟩ := hexponent
  rw [Reader.number]
  refine (yields_wholePart hdigit n).bind fun _ => ?_
  simp only [hfraction, hexponent, bind, Except.bind, Numeral.integer?, Numeral.isInteger,
    natural_toDigits, List.isEmpty_nil, Option.isNone_none, Bool.and_self, if_true]
  exact yields_ok _

theorem isSpace_of_isDigit {d : Char} (h : d.isDigit = true) : isSpace d = false := by
  cases hspace : isSpace d with
  | false => rfl
  | true =>
    simp only [isSpace, Bool.or_eq_true, beq_iff_eq] at hspace
    rcases hspace with ((rfl | rfl) | rfl) | rfl
    · cases h
    · cases h
    · cases h
    · cases h

theorem exists_toDigits (n : Nat) :
    ∃ d ds, Nat.toDigits 10 n = d :: ds ∧ d.isDigit = true := by
  cases hn : Nat.toDigits 10 n with
  | nil => exact absurd hn Nat.toDigits_ne_nil
  | cons d ds =>
    refine ⟨d, ds, rfl, Nat.isDigit_of_mem_toDigits (b := 10) (n := n) (by decide) (by decide) ?_⟩
    rw [hn]
    exact List.mem_cons_self

theorem yields_value_natural (hgap : Blank gap) (hb : Token.Stops continuesNumber behind)
    (n : Nat) :
    Yields (Reader.value (gap ++ (Nat.toDigits 10 n ++ behind))) (.number n) behind := by
  have hnumber := yields_number hb false n
  obtain ⟨d, ds, hn, hd⟩ := exists_toDigits n
  rw [hn] at hnumber ⊢
  rw [Reader.value]
  refine (yields_visible hgap (isSpace_of_isDigit hd) _).bind fun _ => ?_
  dsimp only
  split
  case h_8 => exact hnumber.bind fun _ => yields_ok _
  all_goals cases hd

theorem yields_value_negative (hgap : Blank gap) (hb : Token.Stops continuesNumber behind)
    (n : Nat) :
    Yields (Reader.value (gap ++ '-' :: (Nat.toDigits 10 n ++ behind))) (.number (-n)) behind := by
  rw [Reader.value]
  refine (yields_visible hgap rfl _).bind fun _ => ?_
  exact (yields_number hb true n).bind fun _ => yields_ok _

theorem toList_toString_int (n : Int) :
    (toString n).toList =
      if n < 0 then '-' :: Nat.toDigits 10 n.natAbs else Nat.toDigits 10 n.natAbs := by
  cases n with
  | ofNat n => simp [toString, Int.repr, Nat.repr_eq_ofList_toDigits]
  | negSucc n =>
    rw [if_pos (Int.negSucc_lt_zero n)]
    simp [toString, Int.repr, Nat.repr_eq_ofList_toDigits]

/-! ## Items and members -/

theorem yields_items_closed {first : Bool} {h : rest.length < text.length}
    (hnext : next ']' first text = .ok (.closed rest h)) :
    Yields (Reader.items first text) [] rest := by
  rw [Reader.items, hnext]
  exact yields_ok _

theorem yields_items_item {first : Bool} {inner : List Char} {h : inner.length ≤ text.length}
    {v : Json} {vs : List Json} (hnext : next ']' first text = .ok (.item inner h))
    (hv : Yields (Reader.value inner) v mid) (hvs : Yields (Reader.items false mid) vs rest) :
    Yields (Reader.items first text) (v :: vs) rest := by
  rw [Reader.items, hnext]
  exact hv.bind fun _ => hvs.bind fun _ => yields_ok _

theorem yields_members_closed {first : Bool} {h : rest.length < text.length}
    (hnext : next '\x7d' first text = .ok (.closed rest h)) :
    Yields (Reader.members first text) [] rest := by
  rw [Reader.members, hnext]
  exact yields_ok _

theorem yields_members_item {first : Bool} {key : String} {inner mid' : List Char}
    {h : (spelledString key inner).length ≤ text.length} {v : Json} {ms : List (String × Json)}
    (hnext : next '\x7d' first text = .ok (.item (spelledString key inner) h))
    (hcolon : Yields (colon inner) () mid) (hv : Yields (Reader.value mid) v mid')
    (hms : Yields (Reader.members false mid') ms rest) :
    Yields (Reader.members first text) ((key, v) :: ms) rest := by
  have hquote : Yields (visible (spelledString key inner)) '"'
      (key.toList.flatMap escapeChar ++ '"' :: inner) := yields_visible blank_nil rfl _
  rw [Reader.members, hnext, ok_bind]
  refine hquote.bind fun _ => ?_
  dsimp only
  rw [if_pos rfl]
  refine (yields_stringBody key.toList inner).bind fun _ => ?_
  refine hcolon.bind fun _ => hv.bind fun _ => hms.bind fun _ => ?_
  rw [String.ofList_toList]
  exact yields_ok _

/-! ## Reading back -/

variable {l : Layout}

theorem stops_spelledItems (hl : l.IsBlank) (depth : Nat) (items : List Json) (behind : List Char) :
    Token.Stops continuesNumber (spelledItems l (depth + 1)
      ((l.lineBreak depth).toList ++ ']' :: behind) items) := by
  cases items with
  | nil =>
    rw [spelledItems]
    exact stops_blank (hl.lineBreak depth) rfl
  | cons item items =>
    rw [spelledItems]
    exact stops_blank blank_nil rfl

theorem stops_spelledMembers (hl : l.IsBlank) (depth : Nat) (members : List (String × Json))
    (behind : List Char) :
    Token.Stops continuesNumber (spelledMembers l (depth + 1)
      ((l.lineBreak depth).toList ++ '\x7d' :: behind) members) := by
  cases members with
  | nil =>
    rw [spelledMembers]
    exact stops_blank (hl.lineBreak depth) rfl
  | cons member members =>
    rw [spelledMembers]
    exact stops_blank blank_nil rfl

/-- The text of a value begins neither with white space nor with a closing bracket. -/
theorem exists_spelled (l : Layout) (depth : Nat) (behind : List Char) (v : Json) :
    ∃ c text, spelled l depth behind v = c :: text ∧ isSpace c = false ∧ c ≠ ']' := by
  cases v with
  | null => exact ⟨_, _, by rw [spelled], rfl, by decide⟩
  | bool b =>
    cases b with
    | true => exact ⟨_, _, by rw [spelled], rfl, by decide⟩
    | false => exact ⟨_, _, by rw [spelled], rfl, by decide⟩
  | number n =>
    rw [spelled, toList_toString_int]
    split
    · exact ⟨_, _, rfl, rfl, by decide⟩
    · obtain ⟨d, ds, hn, hd⟩ := exists_toDigits n.natAbs
      refine ⟨d, ds ++ behind, by rw [hn, List.cons_append], isSpace_of_isDigit hd, ?_⟩
      rintro rfl
      cases hd
  | string text => exact ⟨_, _, by rw [spelled, spelledString], rfl, by decide⟩
  | array items =>
    cases items with
    | nil => exact ⟨_, _, by rw [spelled], rfl, by decide⟩
    | cons item items => exact ⟨_, _, by rw [spelled], rfl, by decide⟩
  | object members =>
    cases members with
    | nil => exact ⟨_, _, by rw [spelled], rfl, by decide⟩
    | cons member members => exact ⟨_, _, by rw [spelled], rfl, by decide⟩

/-- The colon of a layout, in front of a value. -/
theorem yields_colon_of_isBlank (hl : l.IsBlank) (text : List Char) :
    ∃ gap, Blank gap ∧ Yields (colon (l.colon.toList ++ text)) () (gap ++ text) := by
  obtain ⟨front, gap, hcolon, hfront, hgap⟩ := hl.colon
  refine ⟨gap, hgap, ?_⟩
  rw [hcolon, List.append_assoc, List.cons_append]
  exact yields_colon hfront _

mutual

/-- A value is read off its text. -/
theorem yields_value (hl : l.IsBlank) : ∀ (v : Json) (depth : Nat) {gap behind : List Char},
    Blank gap → Token.Stops continuesNumber behind →
    Yields (Reader.value (gap ++ spelled l depth behind v)) v behind
  | .null, depth, gap, behind, hgap, hb => by
      rw [spelled]
      exact yields_value_null hgap behind
  | .bool true, depth, gap, behind, hgap, hb => by
      rw [spelled]
      exact yields_value_true hgap behind
  | .bool false, depth, gap, behind, hgap, hb => by
      rw [spelled]
      exact yields_value_false hgap behind
  | .number n, depth, gap, behind, hgap, hb => by
      rw [spelled, toList_toString_int]
      by_cases hneg : n < 0
      · have hread := yields_value_negative hgap hb n.natAbs
        rw [if_pos hneg]
        rwa [show -(n.natAbs : Int) = n by omega] at hread
      · have hread := yields_value_natural hgap hb n.natAbs
        rw [if_neg hneg]
        rwa [show (n.natAbs : Int) = n by omega] at hread
  | .string text, depth, gap, behind, hgap, hb => by
      have hread := yields_value_string hgap (yields_stringBody text.toList behind)
      rwa [String.ofList_toList] at hread
  | .array [], depth, gap, behind, hgap, hb => by
      obtain ⟨_, hnext⟩ := next_close ']' blank_nil rfl true behind
      rw [spelled]
      exact yields_value_array hgap (yields_items_closed hnext)
  | .array (item :: items), depth, gap, behind, hgap, hb => by
      have hstops := stops_spelledItems hl depth items behind
      obtain ⟨c, text, htext, hspace, hclose⟩ := exists_spelled l (depth + 1)
        (spelledItems l (depth + 1) ((l.lineBreak depth).toList ++ ']' :: behind) items) item
      have hitem := yields_value hl item (depth + 1) blank_nil hstops
      obtain ⟨_, hnext⟩ := next_first _ _ (hl.lineBreak (depth + 1)) hspace hclose text
      rw [List.nil_append, htext] at hitem
      rw [spelled, htext]
      exact yields_value_array hgap
        (yields_items_item hnext hitem (yields_items hl items depth behind))
  | .object [], depth, gap, behind, hgap, hb => by
      obtain ⟨_, hnext⟩ := next_close '\x7d' blank_nil rfl true behind
      rw [spelled]
      exact yields_value_object hgap (yields_members_closed hnext)
  | .object ((key, value) :: members), depth, gap, behind, hgap, hb => by
      have hstops := stops_spelledMembers hl depth members behind
      obtain ⟨inner, hinner, hcolon⟩ := yields_colon_of_isBlank hl (spelled l (depth + 1)
        (spelledMembers l (depth + 1) ((l.lineBreak depth).toList ++ '\x7d' :: behind) members)
        value)
      have hvalue := yields_value hl value (depth + 1) hinner hstops
      obtain ⟨_, hnext⟩ := next_first '"' '\x7d' (hl.lineBreak (depth + 1)) rfl (by decide)
        (key.toList.flatMap escapeChar ++ '"' :: _)
      rw [spelled]
      exact yields_value_object hgap
        (yields_members_item hnext hcolon hvalue (yields_members hl members depth behind))

/-- More items are read off their text. -/
theorem yields_items (hl : l.IsBlank) : ∀ (items : List Json) (depth : Nat) (behind : List Char),
    Yields (Reader.items false (spelledItems l (depth + 1)
      ((l.lineBreak depth).toList ++ ']' :: behind) items)) items behind
  | [], depth, behind => by
      obtain ⟨_, hnext⟩ := next_close ']' (hl.lineBreak depth) rfl false behind
      rw [spelledItems]
      exact yields_items_closed hnext
  | item :: items, depth, behind => by
      have hstops := stops_spelledItems hl depth items behind
      obtain ⟨c, text, htext, hspace, hclose⟩ := exists_spelled l (depth + 1)
        (spelledItems l (depth + 1) ((l.lineBreak depth).toList ++ ']' :: behind) items) item
      have hitem := yields_value hl item (depth + 1) blank_nil hstops
      obtain ⟨_, hnext⟩ :=
        next_comma _ _ (hl.lineBreak (depth + 1)) hspace hclose (by decide) text
      rw [List.nil_append, htext] at hitem
      rw [spelledItems, htext]
      exact yields_items_item hnext hitem (yields_items hl items depth behind)

/-- More members are read off their text. -/
theorem yields_members (hl : l.IsBlank) : ∀ (members : List (String × Json)) (depth : Nat)
    (behind : List Char),
    Yields (Reader.members false (spelledMembers l (depth + 1)
      ((l.lineBreak depth).toList ++ '\x7d' :: behind) members)) members behind
  | [], depth, behind => by
      obtain ⟨_, hnext⟩ := next_close '\x7d' (hl.lineBreak depth) rfl false behind
      rw [spelledMembers]
      exact yields_members_closed hnext
  | (key, value) :: members, depth, behind => by
      have hstops := stops_spelledMembers hl depth members behind
      obtain ⟨inner, hinner, hcolon⟩ := yields_colon_of_isBlank hl (spelled l (depth + 1)
        (spelledMembers l (depth + 1) ((l.lineBreak depth).toList ++ '\x7d' :: behind) members)
        value)
      have hvalue := yields_value hl value (depth + 1) hinner hstops
      obtain ⟨_, hnext⟩ := next_comma '"' '\x7d' (hl.lineBreak (depth + 1)) rfl (by decide)
        (by decide) (key.toList.flatMap escapeChar ++ '"' :: _)
      rw [spelledMembers]
      exact yields_members_item hnext hcolon hvalue (yields_members hl members depth behind)

end

/-- A value that was written in a layout of white space is read back. -/
theorem ofText_write (hl : l.IsBlank) (v : Json) : ofText (write l 0 "" v) = .ok v := by
  have hread : Yields (Reader.value (write l 0 "" v).toList) v [] := by
    rw [toList_write_empty]
    exact yields_value hl v 0 blank_nil (fun _ hc => nomatch hc)
  exact hread.bind_eq fun _ => rfl

end EngineHeader.Json
