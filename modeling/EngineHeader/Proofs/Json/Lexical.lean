import EngineHeader.Json.Numeral
import EngineHeader.Json.Printer
import EngineHeader.Proofs.Token.Lexeme
import Mathlib

/-!
# Reading what was printed

What the readers of JSON give on text that a printer has written.  `Yields r a rest` says that a
reading gives `a` and leaves `rest`.

White space in front of anything is skipped (`yields_visible`), so it does not matter how much of it
a layout puts there.  The characters of a string come back from their escapes
(`yields_stringBody`), and the digits of a number from its decimal text (`yields_wholePart`).
Whatever stands behind is left, except that no digit may follow a number.
-/

namespace EngineHeader.Json

open Text

variable {ε ε' α β : Type} {text us mid rest : List Char} {a : α} {b : β} {c : Char}

/-! ## Readings -/

/-- The reading gives `a` and leaves `rest`. -/
def Yields (r : Except ε (Taken α text)) (a : α) (rest : List Char) : Prop :=
  ∃ h : rest.length < text.length, r = .ok ⟨a, rest, h⟩

theorem yields_ok (h : rest.length < text.length) :
    Yields (.ok ⟨a, rest, h⟩ : Except ε (Taken α text)) a rest := ⟨h, rfl⟩

theorem ok_bind (a : α) (f : α → Except ε β) : (Except.ok a >>= f) = f a := rfl

/-- One reading behind the other. -/
theorem Yields.bind {r : Except ε (Taken α us)} {f : Taken α us → Except ε (Taken β text)}
    (hr : Yields r a mid) (hf : ∀ h : mid.length < us.length, Yields (f ⟨a, mid, h⟩) b rest) :
    Yields (r >>= f) b rest := by
  obtain ⟨h, rfl⟩ := hr
  exact hf h

/-- What follows a reading gets what the reading gives. -/
theorem Yields.bind_eq {r : Except ε (Taken α us)} {f : Taken α us → Except ε β} {e : Except ε β}
    (hr : Yields r a mid) (hf : ∀ h : mid.length < us.length, f ⟨a, mid, h⟩ = e) :
    (r >>= f) = e := by
  obtain ⟨h, rfl⟩ := hr
  exact hf h

theorem Yields.mapError {r : Except ε (Taken α text)} (hr : Yields r a rest) (f : ε → ε') :
    Yields (r.mapError f) a rest := by
  obtain ⟨h, rfl⟩ := hr
  exact ⟨h, rfl⟩

/-! ## White space -/

/-- A text of white space. -/
def Blank (gap : List Char) : Prop := ∀ c ∈ gap, isSpace c = true

theorem blank_nil : Blank [] := List.forall_mem_nil _

theorem dropWhile_isSpace {gap : List Char} (hgap : Blank gap) (hc : isSpace c = false)
    (rest : List Char) : (gap ++ c :: rest).dropWhile isSpace = c :: rest := by
  rw [List.dropWhile_append_of_pos hgap, List.dropWhile_cons_of_neg (by simp [hc])]

/-- White space in front of a character is skipped. -/
theorem yields_visible {gap : List Char} (hgap : Blank gap) (hc : isSpace c = false)
    (rest : List Char) : Yields (visible (gap ++ c :: rest)) c rest := by
  have hdrop := dropWhile_isSpace hgap hc rest
  simp only [visible, skipSpace]
  split
  · next hnil _ =>
    rw [hdrop] at hnil
    cases hnil
  · next hcons _ =>
    rw [hdrop] at hcons
    cases hcons
    exact yields_ok _

theorem yields_colon {gap : List Char} (hgap : Blank gap) (rest : List Char) :
    Yields (colon (gap ++ ':' :: rest)) () rest :=
  (yields_visible hgap rfl rest).bind fun _ => yields_ok _

/-! ## Strings -/

theorem hexDigit?_hexDigitOf (n : Nat) : hexDigit? (hexDigitOf n) = some (n % 16) := by
  have hall : ∀ d < 16, hexDigit? (Nat.digitChar d) = some d := by decide
  exact hall _ (Nat.mod_lt n (by decide))

/-- A character below the space is read from its code. -/
theorem yields_unicode (hc : c < ' ') (rest : List Char) :
    Yields (unicode ('0' :: '0' :: hexDigitOf (c.toNat / 16) :: hexDigitOf c.toNat :: rest))
      c rest := by
  have hlt : c.toNat < 32 := UInt32.lt_iff_toNat_lt.mp hc
  have hzero : hexDigit? '0' = some 0 := rfl
  have hcode : ((0 * 16 + 0) * 16 + c.toNat / 16 % 16) * 16 + c.toNat % 16 = c.toNat := by omega
  have hread : Yields
      (hexCode ('0' :: '0' :: hexDigitOf (c.toNat / 16) :: hexDigitOf c.toNat :: rest))
      c.toNat rest := by
    simp only [hexCode, hzero, hexDigit?_hexDigitOf, hcode]
    exact yields_ok _
  have htrailing : isTrailing c.toNat = false := by simp [isTrailing]; omega
  have hleading : isLeading c.toNat = false := by simp [isLeading]; omega
  refine hread.bind fun _ => ?_
  simp only [htrailing, hleading, Bool.false_eq_true, if_false, Char.ofNat_toNat]
  exact yields_ok _

/-- A character comes back from the way in which it is written in a string. -/
theorem yields_stringBody_cons {chars : List Char} (h : Yields (stringBody text) chars rest)
    (c : Char) : Yields (stringBody (escapeChar c ++ text)) (c :: chars) rest := by
  have hescape {letter : Char} (hlookup : escapes.lookup letter = some c) :
      Yields (stringBody ('\\' :: letter :: text)) (c :: chars) rest := by
    rw [stringBody]
    have hletter : Yields (escape (letter :: text)) c text := by
      simp only [escape, hlookup]
      exact yields_ok _
    exact hletter.bind fun _ => h.bind fun _ => yields_ok _
  fun_cases escapeChar c with
  | case1 => exact hescape rfl
  | case2 => exact hescape rfl
  | case3 => exact hescape rfl
  | case4 => exact hescape rfl
  | case5 => exact hescape rfl
  | case6 => exact hescape rfl
  | case7 => exact hescape rfl
  | case8 _ _ _ _ _ _ _ _ hc =>
    have hnone : escapes.lookup 'u' = none := rfl
    have hletter : Yields (escape ('u' :: '0' :: '0' :: hexDigitOf (c.toNat / 16) ::
        hexDigitOf c.toNat :: text)) c text := by
      simp only [escape, hnone, if_true]
      exact (yields_unicode hc text).bind fun _ => yields_ok _
    rw [List.cons_append, stringBody]
    exact hletter.bind fun _ => h.bind fun _ => yields_ok _
  | case9 _ hquote hbackslash _ _ _ _ _ hc =>
    rw [List.singleton_append, stringBody]
    · rw [if_neg hc]
      exact h.bind fun _ => yields_ok _
    · exact hquote
    · exact hbackslash

/-- The characters of a string come back from the way in which they are written. -/
theorem yields_stringBody (chars rest : List Char) :
    Yields (stringBody (chars.flatMap escapeChar ++ '"' :: rest)) chars rest := by
  induction chars with
  | nil =>
    rw [List.flatMap_nil, List.nil_append, stringBody]
    exact yields_ok _
  | cons c chars ih =>
    rw [List.flatMap_cons, List.append_assoc]
    exact yields_stringBody_cons ih c

/-! ## Literals and numbers -/

/-- The rest of a literal is read off the text. -/
theorem literal_append (expected rest : List Char) :
    ∃ h, literal expected (expected ++ rest) = .ok ⟨(), rest, h⟩ := by
  induction expected with
  | nil => exact ⟨_, rfl⟩
  | cons e expected ih =>
    obtain ⟨h, heq⟩ := ih
    refine ⟨Nat.le_succ_of_le h, ?_⟩
    change literal (e :: expected) (e :: (expected ++ rest)) = _
    rw [literal, if_pos rfl, heq]
    rfl

/-- A character that may continue a number. -/
def continuesNumber (c : Char) : Bool := c.isDigit || c == '.' || isExponentMark c

theorem natural_toDigits (n : Nat) : natural (Nat.toDigits 10 n) = n := by
  have hfold := @Nat.ofDigitChars_ten_toDigits n
  rw [Nat.ofDigitChars_eq_foldl] at hfold
  exact hfold

/-- Only zero is written with a zero in front. -/
theorem toDigits_eq_zero_cons {n : Nat} {digits : List Char}
    (h : Nat.toDigits 10 n = '0' :: digits) : digits = [] := by
  induction n using Nat.strongRecOn generalizing digits with
  | ind n ih =>
  rw [Nat.toDigits_eq_if (by decide)] at h
  split at h
  · exact (List.cons.inj h).2.symm
  · next hten =>
    obtain ⟨front, hfront⟩ : ∃ front, Nat.toDigits 10 (n / 10) = '0' :: front := by
      cases hdigits : Nat.toDigits 10 (n / 10) with
      | nil => exact absurd hdigits Nat.toDigits_ne_nil
      | cons c front =>
        rw [hdigits] at h
        exact ⟨front, congrArg (· :: front) (List.cons.inj h).1⟩
    obtain rfl := ih _ (by omega) hfront
    have hvalue := natural_toDigits (n / 10)
    rw [hfront] at hvalue
    have hzero : natural ['0'] = 0 := rfl
    omega

/-- The whole part of a number is read off its digits. -/
theorem yields_wholePart (hrest : Token.Stops Char.isDigit rest) (n : Nat) :
    Yields (wholePart (Nat.toDigits 10 n ++ rest)) (Nat.toDigits 10 n) rest := by
  have hdigit : ∀ c ∈ Nat.toDigits 10 n, c.isDigit = true :=
    fun c hc => Nat.isDigit_of_mem_toDigits (by decide) (by decide) hc
  cases hn : Nat.toDigits 10 n with
  | nil => exact absurd hn Nat.toDigits_ne_nil
  | cons d ds =>
    rw [hn] at hdigit
    obtain ⟨hd, hds⟩ := List.forall_mem_cons.mp hdigit
    have hdigits : Yields (digits (d :: (ds ++ rest))) (d :: ds) rest := by
      have htake := Token.takeWhile_append_of_stops hds hrest
      have hdrop : (ds ++ rest).dropWhile Char.isDigit = rest := by
        have hsplit := List.takeWhile_append_dropWhile (p := Char.isDigit) (l := ds ++ rest)
        rw [htake] at hsplit
        exact List.append_cancel_left hsplit
      refine ⟨by simp, ?_⟩
      simp only [digits, hd, if_true, htake, hdrop]
    obtain ⟨h, hdigits⟩ := hdigits
    refine ⟨h, ?_⟩
    change wholePart (d :: (ds ++ rest)) = _
    rw [wholePart, hdigits]
    split
    · next heq => cases heq
    · next heq =>
      cases heq
      have hnone := toDigits_eq_zero_cons hn
      cases hnone
    · next heq =>
      cases heq
      rfl

/-! ## Brackets -/

/-- At the closing bracket there is no item. -/
theorem next_close {gap : List Char} (close : Char) (hgap : Blank gap)
    (hclose : isSpace close = false) (first : Bool) (rest : List Char) :
    ∃ h, next close first (gap ++ close :: rest) = .ok (.closed rest h) := by
  obtain ⟨h, heq⟩ := yields_visible hgap hclose rest
  refine ⟨h, ?_⟩
  rw [next, heq]
  simp only [bind, Except.bind, if_true]
  rfl

/-- The first item follows the opening bracket. -/
theorem next_first {gap : List Char} (c close : Char) (hgap : Blank gap) (hc : isSpace c = false)
    (hne : c ≠ close) (rest : List Char) :
    ∃ h, next close true (gap ++ c :: rest) = .ok (.item (c :: rest) h) := by
  obtain ⟨_, heq⟩ := yields_visible hgap hc rest
  refine ⟨by simp, ?_⟩
  rw [next, heq]
  simp only [bind, Except.bind, if_neg hne, if_true, skipSpace, dropWhile_isSpace hgap hc]
  rfl

/-- Another item follows a comma. -/
theorem next_comma {gap : List Char} (c close : Char) (hgap : Blank gap) (hc : isSpace c = false)
    (hne : c ≠ close) (hclose : ',' ≠ close) (rest : List Char) :
    ∃ h, next close false (',' :: (gap ++ c :: rest)) = .ok (.item (c :: rest) h) := by
  have hcomma : Yields (visible (',' :: (gap ++ c :: rest))) ',' (gap ++ c :: rest) :=
    yields_visible blank_nil rfl _
  obtain ⟨_, hcomma⟩ := hcomma
  obtain ⟨_, heq⟩ := yields_visible hgap hc rest
  refine ⟨by simp; omega, ?_⟩
  rw [next, hcomma]
  simp only [bind, Except.bind, if_neg hclose, heq, if_neg hne, if_true, skipSpace,
    dropWhile_isSpace hgap hc, Bool.false_eq_true, if_false]
  rfl

end EngineHeader.Json
