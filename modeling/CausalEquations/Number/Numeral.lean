import CausalEquations.Number.Scalar
import CausalEquations.Text.Digit

/-!
# Decimal numerals

How a number is written: digits with at most one point among them, and an optional exponent. Digits
of every script are read by their value.

* `takeNumeral?` — the longest numeral at the front of a text, and the rest.
* `digitsValue` — the natural number that a list of digits stands for.
* `readNumeral` — the number that a numeral stands for.
-/

namespace CausalEquations

/-- The digits at the front of a text, and the rest. -/
def takeDigits (cs : List Char) : List Char × List Char :=
  (cs.takeWhile isDigit, cs.dropWhile isDigit)

/-- Nothing is lost between the digits and the rest. -/
theorem takeDigits_append (cs : List Char) : (takeDigits cs).1 ++ (takeDigits cs).2 = cs :=
  List.takeWhile_append_dropWhile

/-- The exponent at the front of a text, if one is complete: the letter, a sign or none, and at
least one digit. -/
def takeExponent (cs : List Char) : List Char × List Char :=
  match cs with
  | e :: rest =>
    if e = 'e' ∨ e = 'E' then
      let sign := match rest with
        | s :: _ => if s = '+' ∨ s = '-' then [s] else []
        | [] => []
      let (digits, after) := takeDigits (rest.drop sign.length)
      if digits.isEmpty then ([], cs) else (e :: sign ++ digits, after)
    else ([], cs)
  | [] => ([], [])

/-- The digits and the point at the front of a text: digits with an optional point after or among
them, or a point with digits after it. -/
def takeMantissa? (cs : List Char) : Option (List Char × List Char) :=
  let (whole, rest) := takeDigits cs
  match rest with
  | c :: after =>
    if c = '.' then
      let (decimals, after) := takeDigits after
      if whole.isEmpty && decimals.isEmpty then none else some (whole ++ '.' :: decimals, after)
    else if whole.isEmpty then none else some (whole, rest)
  | [] => if whole.isEmpty then none else some (whole, rest)

/-- The longest numeral at the front of a text, and the rest of the text. -/
def takeNumeral? (cs : List Char) : Option (List Char × List Char) :=
  match takeMantissa? cs with
  | none => none
  | some (mantissa, rest) =>
    let (exponent, after) := takeExponent rest
    some (mantissa ++ exponent, after)

/-- The natural number that digits stand for; other characters count as zero. -/
def digitsValue (cs : List Char) : Nat :=
  cs.foldl (fun n c => 10 * n + (digitValue? c).getD 0) 0

/-- The number that a numeral stands for. -/
def readNumeral {α : Type} [Scalar α] (cs : List Char) : α :=
  let (whole, rest) := takeDigits cs
  let (decimals, rest) := match rest with
    | c :: after => if c = '.' then takeDigits after else ([], rest)
    | [] => ([], [])
  let exponent : Int := match rest with
    | _ :: s :: digits =>
      if s = '-' then Int.negOfNat (digitsValue digits)
      else if s = '+' then Int.ofNat (digitsValue digits)
      else Int.ofNat (digitsValue (s :: digits))
    | _ => 0
  Scalar.ofDecimal (digitsValue (whole ++ decimals)) (exponent - Int.ofNat decimals.length)

end CausalEquations
