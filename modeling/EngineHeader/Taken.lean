/-!
# Reading from the front of a list

A reader takes something from the front of a list and gives back what is left.
The result says how that compares to the list it read from.  A reader that always
takes something leaves a shorter list, and so readers that call each other on
what is left come to an end.
-/

namespace EngineHeader

/-- Something read from the front of a list, which takes at least one item. -/
structure Taken {τ : Type} (α : Type) (input : List τ) where
  /-- What was read. -/
  value : α
  /-- The items that are left. -/
  rest : List τ
  /-- At least one item was read. -/
  shorter : rest.length < input.length

/-- Something read from the front of a list, which may take nothing. -/
structure Kept {τ : Type} (α : Type) (input : List τ) where
  /-- What was read. -/
  value : α
  /-- The items that are left. -/
  rest : List τ
  /-- No items were added. -/
  notLonger : rest.length ≤ input.length

/-! ## Reading one thing behind another -/

variable {τ : Type} {a b c : List τ}

theorem notLonger_refl (a : List τ) : a.length ≤ a.length := Nat.le_refl _

theorem shorter_trans (h₁ : b.length < a.length) (h₂ : c.length < b.length) :
    c.length < a.length := Nat.lt_trans h₂ h₁

theorem shorter_of_notLonger (h₁ : b.length < a.length) (h₂ : c.length ≤ b.length) :
    c.length < a.length := Nat.lt_of_le_of_lt h₂ h₁

theorem shorter_within (h₁ : b.length ≤ a.length) (h₂ : c.length < b.length) :
    c.length < a.length := Nat.lt_of_lt_of_le h₂ h₁

theorem shorter_of_cons {x : τ} (h₁ : b.length < a.length) (h₂ : c.length < (x :: b).length) :
    c.length < a.length := Nat.lt_of_le_of_lt (Nat.le_of_lt_succ h₂) h₁

theorem shorter_cons (x : τ) (h : b.length < a.length) : b.length < (x :: a).length :=
  Nat.lt_succ_of_lt h

end EngineHeader
