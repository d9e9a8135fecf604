/-!
# White space

White space is the Unicode property of that name, 25 characters in ten ranges.

* `Text.isBlank`: whether a character is white space
* `Text.trim`: a text without the white space at its ends
-/

namespace Calculator.Text

/-- The code points of white space, as closed ranges in ascending order. -/
def blankRanges : List (Nat × Nat) :=
  [(0x09, 0x0D), (0x20, 0x20), (0x85, 0x85), (0xA0, 0xA0), (0x1680, 0x1680), (0x2000, 0x200A),
    (0x2028, 0x2029), (0x202F, 0x202F), (0x205F, 0x205F), (0x3000, 0x3000)]

/-- Whether a character is white space. -/
def isBlank (c : Char) : Bool :=
  blankRanges.any fun range => decide (range.1 ≤ c.toNat ∧ c.toNat ≤ range.2)

example : (blankRanges.map fun range => range.2 + 1 - range.1).sum = 25 := by decide

/-- A text without the white space at its start. -/
def trimStart (cs : List Char) : List Char := cs.dropWhile isBlank

/-- A text without the white space at its start and at its end. -/
def trim (cs : List Char) : List Char := (trimStart (trimStart cs).reverse).reverse

end Calculator.Text
