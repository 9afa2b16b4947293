import EngineHeader.Proofs.Checked.Literal
import EngineHeader.Proofs.Token.Longest
import Mathlib.Data.Nat.Digits.Defs

/-!
# What integer literals denote

An integer literal is a sign, or none, and digits.  These are decimal, or they are hexadecimal and
stand behind a zero and a mark.  `Denotes` says so, and it says which number that is: the digits
are listed in the order of their values, and the first digit of a literal counts most.  Nothing is
said of how to compute it.

The literals that denote a number are the integers of the lexer (`lexeme_integer_iff`), and the
value of a literal is the number that it denotes (`Denotes.value_eq`).  So a literal denotes at most
one number.
-/

namespace EngineHeader.Declaration.Literal

open Text
open Token (Lexeme OptionalSign)

variable {base n : Nat} {c : Char} {text digits : List Char} {values : List Nat} {v : Int}

/-! ## Digits -/

/-- The digits, in the order of their values. -/
def lowerDigits : List Char :=
  ['0', '1', '2', '3', '4', '5', '6', '7', '8', '9', 'a', 'b', 'c', 'd', 'e', 'f']

/-- The digits where letters are in upper case. -/
def upperDigits : List Char :=
  ['0', '1', '2', '3', '4', '5', '6', '7', '8', '9', 'A', 'B', 'C', 'D', 'E', 'F']

/-- The character is a digit of the base, and this is its value. -/
def IsDigit (base : Nat) (c : Char) (n : Nat) : Prop :=
  n < base ∧ (lowerDigits[n]? = some c ∨ upperDigits[n]? = some c)

theorem IsDigit.mono {other : Nat} (h : IsDigit base c n) (hn : n < other) : IsDigit other c n :=
  ⟨hn, h.2⟩

/-- A character that is not in front of another one stands at some distance behind it. -/
theorem eq_ofNat_of_le {first : Char} (h : first ≤ c) :
    c = Char.ofNat (first.toNat + (c.toNat - first.toNat)) := by
  have hle : first.toNat ≤ c.toNat := h
  rw [Nat.add_sub_cancel' hle, Char.ofNat_toNat]

theorem isDigit_of_hexDigit? (h : hexDigit? c = some n) : IsDigit 16 c n := by
  have hdecimal : ∀ n < 10, lowerDigits[n]? = some (Char.ofNat ('0'.toNat + n)) := by decide
  have hlower : ∀ n < 6, lowerDigits[n + 10]? = some (Char.ofNat ('a'.toNat + n)) := by decide
  have hupper : ∀ n < 6, upperDigits[n + 10]? = some (Char.ofNat ('A'.toNat + n)) := by decide
  have hfirst : '0'.toNat = 48 ∧ 'a'.toNat = 97 ∧ 'A'.toNat = 65 := ⟨rfl, rfl, rfl⟩
  have hlast : '9'.toNat = 57 ∧ 'f'.toNat = 102 ∧ 'F'.toNat = 70 := ⟨rfl, rfl, rfl⟩
  refine ⟨Checked.hexDigit?_lt h, ?_⟩
  rw [hexDigit?] at h
  split at h
  · next hrange =>
    have hle : c.toNat ≤ '9'.toNat := hrange.2
    rw [eq_ofNat_of_le hrange.1, ← Option.some.inj h]
    exact .inl (hdecimal _ (by omega))
  split at h
  · next hrange =>
    have hle : c.toNat ≤ 'f'.toNat := hrange.2
    rw [eq_ofNat_of_le hrange.1, ← Option.some.inj h]
    exact .inl (hlower _ (by omega))
  split at h
  · next hrange =>
    have hle : c.toNat ≤ 'F'.toNat := hrange.2
    rw [eq_ofNat_of_le hrange.1, ← Option.some.inj h]
    exact .inr (hupper _ (by omega))
  · cases h

theorem hexDigit?_eq_some_iff : hexDigit? c = some n ↔ IsDigit 16 c n := by
  refine ⟨isDigit_of_hexDigit?, ?_⟩
  have hlower : ∀ n < 16, lowerDigits[n]?.bind hexDigit? = some n := by decide
  have hupper : ∀ n < 16, upperDigits[n]?.bind hexDigit? = some n := by decide
  rintro ⟨hn, hc | hc⟩
  · have hdigit := hlower n hn
    rwa [hc] at hdigit
  · have hdigit := hupper n hn
    rwa [hc] at hdigit

theorem isHexDigit_iff : isHexDigit c = true ↔ ∃ n, IsDigit 16 c n := by
  simp only [← hexDigit?_eq_some_iff]
  exact Option.isSome_iff_exists

theorem isDigit_iff : c.isDigit = true ↔ ∃ n, IsDigit 10 c n := by
  constructor
  · intro h
    obtain ⟨n, hn, hlt⟩ := (Option.any_eq_true _ _).mp (Checked.hexDigit?_of_isDigit h)
    exact ⟨n, (hexDigit?_eq_some_iff.mp hn).mono (of_decide_eq_true hlt)⟩
  · have hdigit : ∀ n < 10, lowerDigits[n]?.any Char.isDigit = true := by decide
    have hsame : ∀ n < 10, upperDigits[n]? = lowerDigits[n]? := by decide
    rintro ⟨n, hn, hc⟩
    rw [hsame n hn, or_self] at hc
    have hdigit := hdigit n hn
    rwa [hc] at hdigit

/-- In a base that has no more digits than there are, digits have the values that are listed. -/
theorem IsDigit.hexDigit?_eq (h : IsDigit base c n) (hbase : base ≤ 16) : hexDigit? c = some n :=
  hexDigit?_eq_some_iff.mpr (h.mono (Nat.lt_of_lt_of_le h.1 hbase))

/-- Digits stand for values. -/
theorem exists_values (h : ∀ c ∈ digits, ∃ n, IsDigit base c n) :
    ∃ values, List.Forall₂ (IsDigit base) digits values := by
  induction digits with
  | nil => exact ⟨[], .nil⟩
  | cons c digits ih =>
    obtain ⟨⟨n, hn⟩, hdigits⟩ := List.forall_mem_cons.mp h
    obtain ⟨values, hvalues⟩ := ih hdigits
    exact ⟨n :: values, .cons hn hvalues⟩

theorem exists_isDigit (h : List.Forall₂ (IsDigit base) digits values) :
    ∀ c ∈ digits, ∃ n, IsDigit base c n := by
  induction h with
  | nil => exact List.forall_mem_nil _
  | cons hc _ ih => exact List.forall_mem_cons.mpr ⟨⟨_, hc⟩, ih⟩

/-- Digits that are taken one after the other make the number whose digits they are. -/
theorem ofDigits_eq (h : List.Forall₂ (IsDigit base) digits values) (hbase : base ≤ 16) :
    ofDigits base digits = Nat.ofDigits base values.reverse := by
  have hvalues : digits.map (fun c => (hexDigit? c).getD 0) = values := by
    induction h with
    | nil => rfl
    | cons hc _ ih => rw [List.map_cons, ih, hc.hexDigit?_eq hbase, Option.getD_some]
  rw [← hvalues, Nat.ofDigits_eq_foldr, List.foldr_reverse, List.foldl_map, ofDigits]
  simp only [Nat.cast_id, Nat.add_comm]

/-! ## Literals -/

/-- The digits of a number, and the number. -/
inductive Magnitude : List Char → Nat → Prop where
  | decimal {digits : List Char} {values : List Nat} : digits ≠ [] →
    List.Forall₂ (IsDigit 10) digits values → Magnitude digits (Nat.ofDigits 10 values.reverse)
  | hexadecimal {mark : Char} {digits : List Char} {values : List Nat} :
    mark = 'x' ∨ mark = 'X' → digits ≠ [] → List.Forall₂ (IsDigit 16) digits values →
    Magnitude ('0' :: mark :: digits) (Nat.ofDigits 16 values.reverse)

/-- An integer literal, and the number that it denotes. -/
inductive Denotes : List Char → Int → Prop where
  | unsigned {text : List Char} {n : Nat} : Magnitude text n → Denotes text n
  | plus {text : List Char} {n : Nat} : Magnitude text n → Denotes ('+' :: text) n
  | minus {text : List Char} {n : Nat} : Magnitude text n → Denotes ('-' :: text) (-n)

theorem isHexMark_iff {mark : Char} : isHexMark mark = true ↔ mark = 'x' ∨ mark = 'X' := by
  simp [isHexMark]

theorem Magnitude.lexeme {sign : List Char} (h : Magnitude text n) (hsign : OptionalSign sign) :
    Lexeme .integer (sign ++ text) := by
  cases h with
  | decimal hne hdigits =>
    exact .decimal hsign hne fun c hc => isDigit_iff.mpr (exists_isDigit hdigits c hc)
  | hexadecimal hmark hne hdigits =>
    exact .hexadecimal hsign (isHexMark_iff.mpr hmark) hne
      fun c hc => isHexDigit_iff.mpr (exists_isDigit hdigits c hc)

theorem Magnitude.exists_denotes {sign : List Char} (h : Magnitude text n)
    (hsign : OptionalSign sign) : ∃ v, Denotes (sign ++ text) v := by
  rcases hsign with rfl | rfl | rfl
  · exact ⟨_, .unsigned h⟩
  · exact ⟨_, .minus h⟩
  · exact ⟨_, .plus h⟩

/-- The integers of the lexer are the literals that denote a number. -/
theorem lexeme_integer_iff : Lexeme .integer text ↔ ∃ v, Denotes text v := by
  constructor
  · intro h
    generalize hkind : Token.Kind.integer = kind at h
    cases h with
    | decimal hsign hne hdigits =>
      obtain ⟨_, hvalues⟩ := exists_values fun c hc => isDigit_iff.mp (hdigits c hc)
      exact (Magnitude.decimal hne hvalues).exists_denotes hsign
    | hexadecimal hsign hmark hne hdigits =>
      obtain ⟨_, hvalues⟩ := exists_values fun c hc => isHexDigit_iff.mp (hdigits c hc)
      exact (Magnitude.hexadecimal (isHexMark_iff.mp hmark) hne hvalues).exists_denotes hsign
    | keyword hmem =>
      subst hkind
      simp [Token.keywords] at hmem
    | mark hmem =>
      subst hkind
      simp [Token.marks] at hmem
    | lineComment => cases hkind
    | blockComment => cases hkind
    | name => cases hkind
    | ellipsis => cases hkind
  · rintro ⟨v, h | h | h⟩
    · exact h.lexeme (.inl rfl)
    · exact h.lexeme (.inr (.inr rfl))
    · exact h.lexeme (.inr (.inl rfl))

theorem Magnitude.magnitude_eq (h : Magnitude text n) : magnitude text = n := by
  cases h with
  | decimal _ hdigits =>
    rw [Checked.magnitude_of_decimal fun c hc => isDigit_iff.mpr (exists_isDigit hdigits c hc)]
    exact ofDigits_eq hdigits (by decide)
  | hexadecimal hmark _ hdigits =>
    rw [magnitude, if_pos (isHexMark_iff.mpr hmark)]
    exact ofDigits_eq hdigits (by decide)

/-- A number begins with a digit, so it has no sign. -/
theorem Magnitude.value_eq (h : Magnitude text n) : value text = n := by
  have hstarts : Token.startsWithDigit text = true := by
    cases h with
    | decimal hne hdigits =>
      obtain ⟨c, rest, rfl⟩ := List.exists_cons_of_ne_nil hne
      exact isDigit_iff.mpr (exists_isDigit hdigits c List.mem_cons_self)
    | hexadecimal => rfl
  unfold value
  split
  · cases hstarts
  · cases hstarts
  · exact congrArg _ h.magnitude_eq

/-- The value of a literal is the number that it denotes. -/
theorem Denotes.value_eq (h : Denotes text v) : value text = v := by
  cases h with
  | unsigned h => exact h.value_eq
  | plus h => exact congrArg _ h.magnitude_eq
  | minus h => exact congrArg (fun n : Nat => -(n : Int)) h.magnitude_eq

theorem Denotes.unique {u : Int} (hv : Denotes text v) (hu : Denotes text u) : v = u :=
  hv.value_eq.symm.trans hu.value_eq

theorem exists_denotes_of_isInteger (h : Checked.IsInteger text) : ∃ v, Denotes text v := by
  obtain ⟨sign, number, behind, rfl, hsign, hlength, hnumber⟩ := h
  exact lexeme_integer_iff.mp (Token.lexeme_of_isLexeme (.integer hsign hlength hnumber))

theorem isRepresentable_iff : isRepresentable v = true ↔ -2 ^ 63 ≤ v ∧ v ≤ 2 ^ 63 - 1 := by
  rw [isRepresentable, Bool.and_eq_true, decide_eq_true_iff, decide_eq_true_iff]
  norm_num

end EngineHeader.Declaration.Literal
