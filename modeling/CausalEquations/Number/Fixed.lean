import CausalEquations.Number.Rounding

/-!
# Numbers with a fixed number of decimals

A number is written with at most so many decimals: rounded to them, a half to the even neighbour,
and without trailing zeros. What rounds to zero is written as zero, without a sign.

* `Fixed.units` — the rounded magnitude, counted in units of the last decimal.
* `Fixed.fractionDigits` — the decimals without trailing zeros.
* `Fixed.text` — the written number.
-/

namespace CausalEquations

namespace Fixed

/-- The magnitude of a number in units of `10 ^ -places`, rounded. -/
def units (places : Nat) (q : Rat) : Nat := divideHalfEven (q.num.natAbs * Nat.pow 10 places) q.den

/-- The characters of a fraction `n / 10 ^ places`, without trailing zeros. -/
def fractionDigits (places n : Nat) : List Char :=
  let digits := decimalDigits n
  let padded := List.replicate (places - digits.length) '0' ++ digits
  (padded.reverse.dropWhile fun c => c == '0').reverse

/-- The characters of a magnitude given in units of `10 ^ -places`. -/
def magnitudeText (places units : Nat) : List Char :=
  let whole := decimalDigits (units / Nat.pow 10 places)
  let fraction := units % Nat.pow 10 places
  if fraction = 0 then whole else whole ++ '.' :: fractionDigits places fraction

/-- The number with at most `places` decimals. -/
def text (places : Nat) (q : Rat) : List Char :=
  let n := units places q
  if q.num < 0 ∧ n ≠ 0 then '-' :: magnitudeText places n else magnitudeText places n

end Fixed

end CausalEquations
