import CausalEquations.Text.Quoted

/-!
# Text in ASCII with escapes

A text is written between double quotation marks in ASCII alone. A code point above `U+FFFF` is
written as its two UTF-16 units.

* `escapedUnit` — one UTF-16 unit as backslash, `u` and four hexadecimal digits.
* `escapedChar` — one character.
* `escaped` — the text between its marks.
-/

namespace CausalEquations

/-- A UTF-16 unit in hexadecimal. -/
def escapedUnit (n : Nat) : List Char := backslash :: 'u' :: hexDigits 4 n

/-- A character inside the marks: the mark and the backslash are preceded by a backslash, five
control characters have letters, printable ASCII stands for itself. -/
def escapedChar (c : Char) : List Char :=
  let n := c.toNat
  if c = doubleMark ∨ c = backslash then [backslash, c]
  else if n = 8 then [backslash, 'b']
  else if n = 9 then [backslash, 't']
  else if n = 10 then [backslash, 'n']
  else if n = 12 then [backslash, 'f']
  else if n = 13 then [backslash, 'r']
  else if 32 ≤ n ∧ n < 127 then [c]
  else if n < 65536 then escapedUnit n
  else escapedUnit (55296 + (n - 65536) / 1024) ++ escapedUnit (56320 + (n - 65536) % 1024)

/-- The text between double quotation marks, in ASCII. -/
def escaped (text : String) : String :=
  String.ofList (doubleMark :: text.toList.flatMap escapedChar ++ [doubleMark])

end CausalEquations
