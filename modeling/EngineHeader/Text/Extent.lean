/-!
# Runs of units

Much of a header is read unit by unit: a blank, a comment, a line continuation.
A *unit* is given by a function from a text to the length of the unit at its
head, which is zero if there is none.  The *extent* of a unit at a text is the
length of the longest run of such units at its head.

The main statements are the two equations of `extent`.  Without a unit at the
head it is zero (`extent_of_eq_zero`), and otherwise it is the unit and the
extent of what follows (`extent_of_pos`).  Behind the run there is no unit
(`unit_drop_extent`).
-/

namespace EngineHeader.Text

/-- `n` more than the length of the longest run of units at the head of a text. -/
def extentFrom (unit : List Char → Nat) (n : Nat) : List Char → Nat
  | [] => n
  | c :: text =>
    match unit (c :: text) with
    | 0 => n
    | k + 1 => extentFrom unit (n + (k + 1)) (text.drop k)
termination_by text => text.length
decreasing_by simp only [List.length_drop, List.length_cons]; omega

/-- The length of the longest run of units at the head of a text. -/
def extent (unit : List Char → Nat) (text : List Char) : Nat := extentFrom unit 0 text

/-- What is left of a text behind the longest run of units at its head. -/
def dropUnits (unit : List Char → Nat) (text : List Char) : List Char :=
  text.drop (extent unit text)

/-! ## The equations of the extent -/

theorem extentFrom_eq_add (unit : List Char → Nat) (text : List Char) (n m : Nat) :
    extentFrom unit (n + m) text = n + extentFrom unit m text := by
  fun_induction extentFrom unit m text with
  | case1 m => rw [extentFrom]
  | case2 m c text h => rw [extentFrom, h]
  | case3 m c text k h ih =>
    rw [extentFrom, h]
    exact (congrArg (extentFrom unit · (text.drop k)) (Nat.add_assoc n m (k + 1))).trans ih

@[simp] theorem extent_nil (unit : List Char → Nat) : extent unit [] = 0 := by
  simp [extent, extentFrom]

/-- Without a unit at the head the extent is zero. -/
theorem extent_of_eq_zero {unit : List Char → Nat} {text : List Char} (h : unit text = 0) :
    extent unit text = 0 := by
  cases text with
  | nil => exact extent_nil unit
  | cons c text => rw [extent, extentFrom, h]

/-- A unit at the head counts, and then what follows it. -/
theorem extent_of_pos {unit : List Char → Nat} {text : List Char} (hne : text ≠ [])
    (h : 0 < unit text) :
    extent unit text = unit text + extent unit (text.drop (unit text)) := by
  cases text with
  | nil => exact absurd rfl hne
  | cons c text =>
    obtain ⟨k, hk⟩ := Nat.exists_eq_add_one.mpr h
    rw [extent, extentFrom, hk, List.drop_succ_cons]
    exact (congrArg (extentFrom unit · (text.drop k)) (Nat.add_comm 0 (k + 1))).trans
      (extentFrom_eq_add unit (text.drop k) (k + 1) 0)

theorem length_drop_lt {text : List Char} {n : Nat} (h : text ≠ []) (hn : 0 < n) :
    (text.drop n).length < text.length := by
  have := List.length_pos_iff.mpr h
  rw [List.length_drop]
  omega

/-- What holds between a text and itself, and is carried back over each unit, holds between a
text and what is behind the longest run. -/
theorem relates_drop_extent {unit : List Char → Nat} {R : List Char → List Char → Prop}
    (hrefl : ∀ text, R text text)
    (hunit : ∀ {text rest}, text ≠ [] → 0 < unit text → R (text.drop (unit text)) rest →
      R text rest) (text : List Char) : R text (text.drop (extent unit text)) := by
  rcases Nat.eq_zero_or_pos (unit text) with hzero | hpos
  · rw [extent_of_eq_zero hzero]
    exact hrefl text
  · by_cases hne : text = []
    · rw [hne, extent_nil]
      exact hrefl []
    · have hlt := length_drop_lt hne hpos
      rw [extent_of_pos hne hpos, ← List.drop_drop]
      exact hunit hne hpos (relates_drop_extent hrefl hunit (text.drop (unit text)))
termination_by text.length

/-- Behind the longest run there is no unit. -/
theorem unit_drop_extent {unit : List Char → Nat} (hnil : unit [] = 0) (text : List Char) :
    unit (text.drop (extent unit text)) = 0 := by
  rcases Nat.eq_zero_or_pos (unit text) with hzero | hpos
  · rwa [extent_of_eq_zero hzero]
  · have hne : text ≠ [] := by
      rintro rfl
      exact absurd hpos (by simp [hnil])
    have hlt := length_drop_lt hne hpos
    rw [extent_of_pos hne hpos, ← List.drop_drop]
    exact unit_drop_extent hnil (text.drop (unit text))
termination_by text.length

end EngineHeader.Text
