import CausalEquations.Text.Ranges

/-!
# Blank characters

The characters that separate tokens and are trimmed off statements: the control characters that
move the cursor, the information separators, and every space and line or paragraph separator of
Unicode. The zero-width space is not blank.

* `isBlank` — the class.
* `strip` — a text without leading and trailing blanks.
-/

namespace CausalEquations

/-- The code points of blank characters. -/
def blankRanges : List (Nat × Nat) :=
  [(9, 13), (28, 32), (133, 133), (160, 160), (5760, 5760), (8192, 8202), (8232, 8233),
   (8239, 8239), (8287, 8287), (12288, 12288)]

/-- Whether a character only separates. -/
def isBlank (c : Char) : Bool := inRanges c.toNat blankRanges

/-- The text without leading and trailing blanks. -/
def strip (cs : List Char) : List Char :=
  ((cs.dropWhile isBlank).reverse.dropWhile isBlank).reverse

end CausalEquations
