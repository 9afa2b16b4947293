import EngineHeader.Declaration.Literal
import EngineHeader.Proofs.Token.Ending
import EngineHeader.Proofs.Token.Spelling

/-!
# Integers of bounded size

The value of an integer literal, computed with numbers of bounded size.  The digits have to be a
number of 64 bits without a sign, and otherwise the literal is an error.  The number and its sign
make a value of 128 bits with a sign, and this is checked: a value that has more bits gives no
result.  A value that does not have 64 bits with a sign is an error.

The literals that the lexer finds have digits that are all good (`IsInteger`).  So only the size of
a literal can make it an error, and the value is exact (`value?_eq`).
-/

namespace EngineHeader.Checked

open Declaration Text
open Token (IsNumber Kind)

variable {c : Char} {text behind : List Char} {t : Token}

/-! ## Conversions -/

/-- The number that digits stand for, if there are any, all are digits in this base and the number
has 64 bits.  A plus may stand in front. -/
def fromDigits? (base : Nat) (text : List Char) : Option Nat :=
  let digits := if ['+'].isPrefixOf text then text.tail else text
  if digits ≠ [] ∧ digits.all (fun c => (hexDigit? c).any (· < base)) ∧
    Literal.ofDigits base digits < 2 ^ 64 then some (Literal.ofDigits base digits)
  else none

/-- The value of a literal without a sign. -/
def magnitude? : List Char → Option Nat
  | '0' :: mark :: digits =>
    if isHexMark mark then fromDigits? 16 digits else fromDigits? 10 ('0' :: mark :: digits)
  | digits => fromDigits? 10 digits

/-- A value in 128 bits with a sign. -/
def wide? (value : Int) : Option Int :=
  if -2 ^ 127 ≤ value ∧ value < 2 ^ 127 then some value else none

/-- A value in 64 bits with a sign, or an error. -/
def narrow (t : Token) (value : Int) : Except Error Int :=
  if Literal.isRepresentable value then .ok value else .error (.grammar t .representable)

/-- Whether a literal is negative, and what stands behind its sign. -/
def takeSign : List Char → Bool × List Char
  | '-' :: digits => (true, digits)
  | '+' :: digits => (false, digits)
  | digits => (false, digits)

/-- The value of an integer literal. -/
def value? (t : Token) : Option (Except Error Int) :=
  let (negative, digits) := takeSign t.text.toList
  match magnitude? digits with
  | none => some (.error (.grammar t .representable))
  | some n => (wide? (if negative then -(n : Int) else n)).map (narrow t)

/-! ## Good literals -/

/-- An integer literal: a number behind a sign, or without one. -/
def IsInteger (text : List Char) : Prop :=
  ∃ sign number behind, text = sign ++ number ∧ (∀ c ∈ sign, isSign c = true) ∧
    sign.length ≤ 1 ∧ IsNumber number behind

theorem hexDigit?_of_isDigit (h : c.isDigit = true) : (hexDigit? c).any (· < 10) = true := by
  have hdigit : (decide (c.val ≥ '0'.val) && decide (c.val ≤ '9'.val)) = true := h
  have hzero : '0'.val.toNat = 48 := rfl
  have hnine : '9'.val.toNat = 57 := rfl
  simp only [Bool.and_eq_true, decide_eq_true_eq, ge_iff_le, UInt32.le_iff_toNat_le] at hdigit
  have hrange : '0' ≤ c ∧ c ≤ '9' := by
    simp only [Char.le_def, UInt32.le_iff_toNat_le]
    exact hdigit
  rw [hexDigit?, if_pos hrange, Option.any_some, decide_eq_true_iff]
  change c.val.toNat - 48 < 10
  omega

theorem hexDigit?_lt {n : Nat} (h : hexDigit? c = some n) : n < 16 := by
  have hnine : '9'.val.toNat = 57 := rfl
  have hupper : 'F'.val.toNat = 70 := rfl
  have hlower : 'f'.val.toNat = 102 := rfl
  have hten : 'a'.toNat = 97 ∧ 'A'.toNat = 65 ∧ '0'.toNat = 48 := ⟨rfl, rfl, rfl⟩
  have hsame : c.toNat = c.val.toNat := rfl
  rw [hexDigit?] at h
  simp only [Char.le_def, UInt32.le_iff_toNat_le] at h
  split at h
  · cases h
    omega
  split at h
  · cases h
    omega
  split at h
  · cases h
    omega
  · cases h

theorem hexDigit?_of_isHexDigit (h : isHexDigit c = true) : (hexDigit? c).any (· < 16) = true := by
  obtain ⟨n, hn⟩ := Option.isSome_iff_exists.mp h
  rw [hn, Option.any_some]
  exact decide_eq_true (hexDigit?_lt hn)

theorem fromDigits?_eq {base : Nat} (hne : text ≠ []) (hplus : text.head? ≠ some '+')
    (hdigits : ∀ c ∈ text, (hexDigit? c).any (· < base) = true) :
    fromDigits? base text =
      if Literal.ofDigits base text < 2 ^ 64 then some (Literal.ofDigits base text) else none := by
  have hsign : (if ['+'].isPrefixOf text then text.tail else text) = text := by
    refine if_neg fun hpattern => hplus ?_
    obtain ⟨rest, rfl⟩ := List.isPrefixOf_iff_prefix.mp hpattern
    rfl
  simp only [fromDigits?, hsign, hne, ne_eq, not_false_eq_true, true_and,
    List.all_eq_true.mpr hdigits]

theorem head?_of_isDigit (hdigits : ∀ c ∈ text, c.isDigit = true) : text.head? ≠ some '+' := by
  intro hhead
  have hplus := hdigits '+' (List.mem_of_head? hhead)
  cases hplus

/-- Among decimal digits there is no mark. -/
theorem isHexMark_of_decimal {mark : Char} {rest : List Char}
    (hdigits : ∀ c ∈ '0' :: mark :: rest, c.isDigit = true) : isHexMark mark = false :=
  Token.isHexMark_of_isDigit (hdigits mark (List.mem_cons_of_mem _ List.mem_cons_self))

theorem magnitude?_of_decimal (hdigits : ∀ c ∈ text, c.isDigit = true) :
    magnitude? text = fromDigits? 10 text := by
  unfold magnitude?
  split
  · rw [isHexMark_of_decimal hdigits]
    rfl
  · rfl

theorem magnitude_of_decimal (hdigits : ∀ c ∈ text, c.isDigit = true) :
    Literal.magnitude text = Literal.ofDigits 10 text := by
  unfold Literal.magnitude
  split
  · rw [isHexMark_of_decimal hdigits]
    rfl
  · rfl

theorem magnitude?_eq (h : IsNumber text behind) :
    magnitude? text =
      if Literal.magnitude text < 2 ^ 64 then some (Literal.magnitude text) else none := by
  cases h with
  | decimal hne hdigits _ _ =>
    rw [magnitude?_of_decimal hdigits, magnitude_of_decimal hdigits]
    exact fromDigits?_eq hne (head?_of_isDigit hdigits)
      fun c hc => hexDigit?_of_isDigit (hdigits c hc)
  | @hexadecimal mark digits _ hmark hne hdigits _ =>
    have hplus : digits.head? ≠ some '+' := by
      intro hhead
      have hplus := hdigits '+' (List.mem_of_head? hhead)
      cases hplus
    rw [magnitude?, Literal.magnitude, if_pos hmark, if_pos hmark]
    exact fromDigits?_eq hne hplus fun c hc => hexDigit?_of_isHexDigit (hdigits c hc)

/-- The value of a literal by its sign and what stands behind it. -/
theorem value_eq_takeSign (text : List Char) :
    Literal.value text =
      if (takeSign text).1 then -(Literal.magnitude (takeSign text).2 : Int)
      else Literal.magnitude (takeSign text).2 := by
  unfold Literal.value
  split
  · rfl
  · rfl
  · next hminus hplus =>
    rw [takeSign.eq_3 text hminus hplus]
    rfl

/-- Behind the sign of a good literal is its number. -/
theorem takeSign_of_isInteger (h : IsInteger text) :
    ∃ behind, IsNumber (takeSign text).2 behind := by
  obtain ⟨sign, number, behind, rfl, hsign, hlength, hnumber⟩ := h
  cases sign with
  | nil =>
    have hstarts := hnumber.startsWithDigit []
    rw [List.append_nil] at hstarts
    rw [List.nil_append]
    refine ⟨behind, ?_⟩
    have hnone : (takeSign number).2 = number := by
      unfold takeSign
      split
      · cases hstarts
      · cases hstarts
      · rfl
    rwa [hnone]
  | cons c sign =>
    obtain rfl : sign = [] :=
      List.eq_nil_of_length_eq_zero (Nat.le_zero.mp (Nat.le_of_succ_le_succ hlength))
    rcases Token.eq_of_isSign (hsign c List.mem_cons_self) with rfl | rfl
    · exact ⟨behind, hnumber⟩
    · exact ⟨behind, hnumber⟩

/-- The value of a good literal is exact, or an error if it does not have 64 bits.  The sign takes
one bit more, so nothing is lost in 128 bits, and a number that is too large without its sign is too
large with it. -/
theorem value?_eq (h : IsInteger t.text.toList) :
    value? t = some (narrow t (Literal.value t.text.toList)) := by
  obtain ⟨behind, hnumber⟩ := takeSign_of_isInteger h
  have hwide : (2 : Int) ^ 127 = 170141183460469231731687303715884105728 := by norm_num
  have hbits : (2 : Nat) ^ 64 = 18446744073709551616 := by norm_num
  rw [value?, value_eq_takeSign]
  generalize takeSign t.text.toList = r at hnumber ⊢
  obtain ⟨negative, digits⟩ := r
  dsimp only at hnumber ⊢
  rw [magnitude?_eq hnumber]
  generalize Literal.magnitude digits = n
  by_cases hn : n < 2 ^ 64
  · rw [if_pos hn]
    have hgood : wide? (if negative then -(n : Int) else n) =
        some (if negative then -(n : Int) else n) := by
      refine if_pos ?_
      rw [hwide]
      split
      · omega
      · omega
    exact congrArg (Option.map (narrow t)) hgood
  · rw [if_neg hn]
    have hlarge : Literal.isRepresentable (if negative then -(n : Int) else n) = false := by
      rw [Literal.isRepresentable, Bool.and_eq_false_iff, decide_eq_false_iff_not,
        decide_eq_false_iff_not]
      split
      · omega
      · omega
    rw [narrow, hlarge]
    rfl

theorem integer_ne_of_punctuation? {kind : Kind} (h : Token.punctuation? c = some kind) :
    kind ≠ .integer := by
  unfold Token.punctuation? at h
  split at h
  case h_12 => cases h
  all_goals
    cases h
    decide

/-- An integer of a text is a good literal. -/
theorem isInteger_of_mem_scanText {source : String} (ht : t ∈ (Token.scanText source).items)
    (hk : t.kind = .integer) : IsInteger t.text.toList := by
  refine Token.scanFrom_forall (Q := fun t => t.kind = .integer → IsInteger t.text.toList) ?_ [] _
    (List.forall_mem_nil _) t ht hk
  intro c c' t hread hk
  obtain ⟨n, hscan, htext, _⟩ := Token.exists_of_read hread
  rw [hk] at hscan
  obtain ⟨lexeme, behind, hrest, rfl, hlexeme⟩ := Token.isLexeme_of_scan hscan (by decide)
  rw [htext, Cursor.peek, String.toList_ofList, hrest, List.take_left]
  generalize hkind : Kind.integer = kind at hlexeme
  cases hlexeme with
  | lineComment => cases hkind
  | blockComment => cases hkind
  | word =>
    obtain ⟨hother, hkeyword⟩ : Kind.integer ≠ .identifier ∧
        Kind.integer ∉ Token.keywords.map Prod.snd := by decide
    exact absurd hkind.symm (Token.ofWord_ne _ hother hkeyword)
  | ellipsis => cases hkind
  | integer hsign hlength hnumber => exact ⟨_, _, _, rfl, hsign, hlength, hnumber⟩
  | mark hmark => exact absurd hkind.symm (integer_ne_of_punctuation? hmark)

end EngineHeader.Checked
