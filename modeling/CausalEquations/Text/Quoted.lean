import CausalEquations.Text.Printable

/-!
# Quoted text in messages

A message that shows a piece of the input puts it in quotation marks and makes every invisible
character visible.

* `quoted` — the text between single quotation marks, or between double ones if it holds a single
  mark and no double one.
* `quotedChar` — one character between the marks.
-/

namespace CausalEquations

/-- The single quotation mark. -/
def singleMark : Char := Char.ofNat 39

/-- The double quotation mark. -/
def doubleMark : Char := Char.ofNat 34

/-- The backslash. -/
def backslash : Char := Char.ofNat 92

/-- The hexadecimal digits of `n`, in lower case, filled up with zeros to `width`. -/
def hexDigits (width n : Nat) : List Char :=
  let digits := Nat.toDigits 16 n
  List.replicate (width - digits.length) '0' ++ digits

/-- A character between two `mark`s: the mark and the backslash are preceded by a backslash, a line
feed, a carriage return and a tabulator have letters, and other characters without a visible form
are written by code point in two, four or eight hexadecimal digits. -/
def quotedChar (mark c : Char) : List Char :=
  if c = mark ∨ c = backslash then [backslash, c]
  else if c = '\n' then [backslash, 'n']
  else if c = '\r' then [backslash, 'r']
  else if c = '\t' then [backslash, 't']
  else if isPrintable c then [c]
  else if c.toNat < 256 then backslash :: 'x' :: hexDigits 2 c.toNat
  else if c.toNat < 65536 then backslash :: 'u' :: hexDigits 4 c.toNat
  else backslash :: 'U' :: hexDigits 8 c.toNat

/-- The text in quotation marks. -/
def quoted (text : String) : String :=
  let cs := text.toList
  let mark := if cs.contains singleMark && !cs.contains doubleMark then doubleMark else singleMark
  String.ofList (mark :: cs.flatMap (quotedChar mark) ++ [mark])

end CausalEquations
