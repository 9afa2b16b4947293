/-!
# White space at the end of a text

The text that trails a directive is reported without the white space at its
end.  White space here is the Unicode property White_Space, of 25 characters.
-/

namespace EngineHeader.Text

/-- The characters with the Unicode property White_Space, as closed ranges of
code points in ascending order. -/
def whiteSpaceRanges : List (Nat × Nat) :=
  [(0x09, 0x0d), (0x20, 0x20), (0x85, 0x85), (0xa0, 0xa0), (0x1680, 0x1680), (0x2000, 0x200a),
   (0x2028, 0x2029), (0x202f, 0x202f), (0x205f, 0x205f), (0x3000, 0x3000)]

/-- A character with the Unicode property White_Space. -/
def isWhiteSpace (c : Char) : Bool :=
  whiteSpaceRanges.any fun r => r.1 ≤ c.toNat && c.toNat ≤ r.2

/-- A text without the white space at its end. -/
def trimEnd (text : List Char) : List Char := (text.reverse.dropWhile isWhiteSpace).reverse

/-- There are 25 of them. -/
example : (whiteSpaceRanges.map fun r => r.2 + 1 - r.1).sum = 25 := by decide

end EngineHeader.Text
