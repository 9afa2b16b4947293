/-!
# How large a binary64 number can be

A binary64 number has a significand of 53 bits.  A whole number is *rounded* to
the nearest one that has such a significand, and a tie goes to the even one.
Numbers from half a step beyond the largest on round to infinity.

Everything here is exact arithmetic of natural numbers.
-/

namespace EngineHeader.Json.Binary64

/-- The nearest number with a significand of 53 bits. -/
def round (n : Nat) : Nat :=
  let step := Nat.pow 2 (n.log2 + 1 - 53)
  let below := n / step
  let beyond := 2 * (n % step)
  if step < beyond ∨ (beyond = step ∧ below % 2 = 1) then (below + 1) * step else below * step

/-- A number that does not round to infinity. -/
def isFinite (n : Nat) : Bool := n < Nat.pow 2 1024 - Nat.pow 2 970

/-! ## Tests -/

example : round 0 = 0 := by decide
example : round (2 ^ 53 - 1) = 2 ^ 53 - 1 := by decide
example : round (2 ^ 53 + 1) = 2 ^ 53 := by decide
example : round (2 ^ 53 + 3) = 2 ^ 53 + 4 := by decide
example : round (2 ^ 64 - 1) = 2 ^ 64 := by decide

end EngineHeader.Json.Binary64
