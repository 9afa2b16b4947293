import EngineHeader.Proofs.Declaration.RoundTrip

/-!
# Names for all arguments

An argument may be declared with a name even where the header gives it none.  The name is made
from the place of the argument.  If all arguments of a function pointer are written in this way
then the text is read back as the same function pointer, with these names
(`ofText_declarationText`).

Such a declaration is the text of the argument with its new name
(`Argument.declaration_eq_text`), and a name that is made from a number is a name
(`isName_of_index`).  So the function pointer with its new names fits the dialect as well, and it
is read back as in `RoundTrip`.  Inside of a callback nothing is changed.
-/

namespace EngineHeader.Declaration

open Text
open Token (IsName)

/-! ## Names made from numbers -/

/-- The digits of a number may stand in a word. -/
theorem isWordPart_of_mem_toDigits {n : Nat} {c : Char} (h : c ∈ Nat.toDigits 10 n) :
    isWordPart c = true := by
  have hdigit : c.isDigit = true := Nat.isDigit_of_mem_toDigits (by decide) (by decide) h
  simp [isWordPart, Char.isAlphanum, hdigit]

theorem toList_arg (index : Nat) :
    ("arg_" ++ toString index).toList = 'a' :: ('r' :: 'g' :: '_' :: Nat.toDigits 10 index) := by
  simp [Nat.toString_eq_repr]

/-- A name that is made from a number is a name.  No keyword begins as it does. -/
theorem isName_of_index (index : Nat) : IsName ("arg_" ++ toString index) := by
  constructor
  · refine ⟨'a', _, toList_arg index, rfl, ?_⟩
    intro c hc
    simp only [List.mem_cons] at hc
    rcases hc with rfl | rfl | rfl | hdigit
    · rfl
    · rfl
    · rfl
    · exact isWordPart_of_mem_toDigits hdigit
  · intro hmem
    obtain ⟨entry, hentry, hname⟩ := List.mem_map.mp hmem
    have hhead : ∀ entry ∈ Token.keywords, entry.1.toList.head? ≠ some 'a' := by decide
    apply hhead entry hentry
    rw [hname, toList_arg]
    rfl

/-! ## Arguments with their names -/

/-- The argument with a name, which is made from its place if it has none. -/
def Argument.named (a : Argument) (index : Nat) : Argument :=
  if a.name?.isNone then a.withName (some ("arg_" ++ toString index)) else a

theorem Argument.withName_name? (a : Argument) : a.withName a.name? = a := by
  cases a with
  | plain type name? => rfl
  | callback returns name? arguments => rfl

/-- The name is the one by which the argument goes where all have to be named. -/
theorem Argument.named_eq_withName (a : Argument) (index : Nat) :
    a.named index = a.withName (some (a.resolvedName index)) := by
  have hself := a.withName_name?
  unfold named resolvedName
  cases hname : a.name? with
  | none => rfl
  | some name =>
    rw [hname] at hself
    exact hself.symm

/-- An argument is declared as the argument with its name is written. -/
theorem Argument.declaration_eq_text (a : Argument) (index : Nat) :
    a.declaration index = (a.named index).text := by
  rw [named_eq_withName]
  cases a with
  | plain type name? => rw [declaration, withName, text]
  | callback returns name? arguments => rw [declaration, withName, text, Option.getD_some]

/-- Names for the arguments, in order. -/
def Signature.named (s : Signature) : Signature :=
  { s with arguments := s.arguments.mapIdx fun index a => a.named index }

/-- A typedef of a function pointer, with its arguments as they are declared by name. -/
def Signature.declarationText (s : Signature) : String :=
  "typedef " ++ s.returns.text ++ " (*" ++ s.name ++ ")(" ++
    String.intercalate ", " (s.arguments.mapIdx fun index a => a.declaration index) ++ ");"

theorem Signature.declarationText_eq_text (s : Signature) :
    s.declarationText = s.named.text := by
  have harguments : argumentTexts s.named.arguments =
      s.arguments.mapIdx fun index a => a.declaration index := by
    rw [argumentTexts_eq_map, named, Eq.comm, List.mapIdx_eq_iff]
    intro index
    simp [Argument.declaration_eq_text, Function.comp_def]
  rw [text, harguments, declarationText, pointerText]
  simp [named, String.append_assoc]

/-! ## What fits with its names -/

variable {d : Dialect}

theorem Argument.Fits.withName {n : Nat} {a : Argument} (h : a.Fits d n) {name : String}
    (hname : IsName name) : (a.withName (some name)).Fits d n := by
  cases h with
  | plain htype _ => exact .plain htype (by simpa using hname)
  | callback hd hreturns _ has => exact .callback hd hreturns (by simpa using hname) has

theorem Argument.Fits.named {n : Nat} {a : Argument} (h : a.Fits d n) (index : Nat) :
    (a.named index).Fits d n := by
  unfold Argument.named
  split
  · exact h.withName (isName_of_index index)
  · exact h

theorem Signature.Fits.named {s : Signature} (h : s.Fits d) : s.named.Fits d := by
  refine ⟨h.returns, h.name, ?_⟩
  intro a ha
  obtain ⟨index, hindex, rfl⟩ := List.mem_mapIdx.mp ha
  exact (h.arguments _ (List.getElem_mem hindex)).named index

end EngineHeader.Declaration

namespace EngineHeader.Header

open Declaration

/-- If each argument of a function pointer that was read is declared by a name, the whole is read
back as this function pointer, alone, where the arguments without a name have the ones made from
their places. -/
theorem ofText_declarationText {d : Dialect} {source : String} {h : Header} {s : Signature}
    (hread : ofText d source = .ok h) (hs : .function s ∈ h.declarations) :
    ofText d s.declarationText = .ok ⟨[.function s.named]⟩ := by
  have hfits : s.Fits d := Signature.fits_of_mem hread hs
  rw [s.declarationText_eq_text]
  exact hfits.named.ofText_eq

/-- A callback without a name that takes another, behind an argument that has a name and in front
of a pointer that has none. -/
theorem ofText_declarationText_callback :
    (ofText .extension "typedef T (*F)(T a, T (*)(T, T (*)()), T *);" =
        .ok ⟨[.function ⟨⟨false, "T", 0⟩, "F",
          [.plain ⟨false, "T", 0⟩ (some "a"),
            .callback ⟨false, "T", 0⟩ none [.plain ⟨false, "T", 0⟩ none,
              .callback ⟨false, "T", 0⟩ none []],
            .plain ⟨false, "T", 1⟩ none]⟩]⟩) ∧
      ofText .extension "typedef T (*F)(T a, T (*arg_1)(T, T (*)()), T *arg_2);" =
        .ok ⟨[.function ⟨⟨false, "T", 0⟩, "F",
          [.plain ⟨false, "T", 0⟩ (some "a"),
            .callback ⟨false, "T", 0⟩ (some "arg_1") [.plain ⟨false, "T", 0⟩ none,
              .callback ⟨false, "T", 0⟩ none []],
            .plain ⟨false, "T", 1⟩ (some "arg_2")]⟩]⟩ := by
  have hread : ofText .extension "typedef T (*F)(T a, T (*)(T, T (*)()), T *);" =
      .ok ⟨[.function ⟨⟨false, "T", 0⟩, "F",
        [.plain ⟨false, "T", 0⟩ (some "a"),
          .callback ⟨false, "T", 0⟩ none [.plain ⟨false, "T", 0⟩ none,
            .callback ⟨false, "T", 0⟩ none []],
          .plain ⟨false, "T", 1⟩ none]⟩]⟩ := by cbv
  have hnamed := ofText_declarationText hread List.mem_cons_self
  refine ⟨hread, ?_⟩
  have htext : Signature.declarationText ⟨⟨false, "T", 0⟩, "F",
      [.plain ⟨false, "T", 0⟩ (some "a"),
        .callback ⟨false, "T", 0⟩ none [.plain ⟨false, "T", 0⟩ none,
          .callback ⟨false, "T", 0⟩ none []],
        .plain ⟨false, "T", 1⟩ none]⟩ =
      "typedef T (*F)(T a, T (*arg_1)(T, T (*)()), T *arg_2);" := by cbv
  rw [htext] at hnamed
  exact hnamed

end EngineHeader.Header
