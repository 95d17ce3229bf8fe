/-!
# White space

The characters with the Unicode property White_Space.

* `isBlank_of_isWhitespace`: core's ASCII class is part of it.
-/

namespace Wireform.Text

/-- Whether a character is white space. -/
def isBlank (c : Char) : Bool :=
  let n := c.toNat
  (9 ≤ n && n ≤ 13) || n = 32 || n = 0x85 || n = 0xA0 || n = 0x1680 ||
    (0x2000 ≤ n && n ≤ 0x200A) || n = 0x2028 || n = 0x2029 || n = 0x202F || n = 0x205F ||
    n = 0x3000

theorem isBlank_of_isWhitespace {c : Char} (h : c.isWhitespace = true) : isBlank c = true := by
  simp only [Char.isWhitespace, Bool.or_eq_true, decide_eq_true_eq] at h
  rcases h with ((rfl | rfl) | rfl) | rfl <;> decide

/-- Drops white space in front. -/
def trimStart (s : List Char) : List Char := s.dropWhile isBlank

/-- Drops white space in front and behind. -/
def trim (s : List Char) : List Char := (trimStart (trimStart s).reverse).reverse

end Wireform.Text
