/-!
# Rounding quotients

A quotient of two naturals is rounded to the nearest integer, a half to the even neighbour. On that
rule rest the two decimal forms of the library: a fixed number of decimals and a fixed number of
significant digits.

* `divideHalfEven` — the nearest integer to `n / d`.
* `Significant` — a decimal with a given number of digits, `digits · 10 ^ exponent`.
* `Significant.ofQuotient` — the decimal nearest to `n / d` with `count` digits.
* `two_mul_divideHalfEven_le`, `le_two_mul_divideHalfEven` — the result is within half a unit.
-/

namespace CausalEquations

/-- The integer nearest to `n / d`; of two equally near ones, the even one. -/
def divideHalfEven (n d : Nat) : Nat :=
  let q := n / d
  let twice := 2 * (n % d)
  if twice < d then q
  else if d < twice then q + 1
  else if q % 2 = 0 then q else q + 1

/-- Rounding goes up by at most half a unit. -/
theorem two_mul_divideHalfEven_le (n d : Nat) :
    2 * (d * divideHalfEven n d) ≤ 2 * n + d := by
  have h := Nat.div_add_mod n d
  simp only [divideHalfEven]
  split
  · omega
  · split
    · rw [Nat.mul_add]; omega
    · split
      · omega
      · rw [Nat.mul_add]; omega

/-- Rounding goes down by at most half a unit. -/
theorem le_two_mul_divideHalfEven (n d : Nat) (hd : 0 < d) :
    2 * n ≤ 2 * (d * divideHalfEven n d) + d := by
  have h := Nat.div_add_mod n d
  have hm := Nat.mod_lt n hd
  simp only [divideHalfEven]
  split
  · omega
  · split
    · rw [Nat.mul_add]; omega
    · split
      · omega
      · rw [Nat.mul_add]; omega

/-! ## Decimal digits -/

/-- The decimal digits of a natural number, most significant first, as characters. -/
def decimalDigits (n : Nat) : List Char := Nat.toDigits 10 n

/-- A decimal `digits · 10 ^ exponent`. -/
structure Significant where
  digits : Nat
  exponent : Int
  deriving DecidableEq, Repr

namespace Significant

/-- The integer nearest to `(n / d) · 10 ^ (-exponent)`. -/
def scaled (n d : Nat) (exponent : Int) : Nat :=
  match exponent with
  | .ofNat e => divideHalfEven n (d * Nat.pow 10 e)
  | .negSucc e => divideHalfEven (n * Nat.pow 10 (e + 1)) d

/-- Whether `10 ^ exponent ≤ n / d`. -/
def powerLe (n d : Nat) (exponent : Int) : Bool :=
  match exponent with
  | .ofNat e => decide (d * Nat.pow 10 e ≤ n)
  | .negSucc e => decide (d ≤ n * Nat.pow 10 (e + 1))

/-- The decimal with `count` digits that is nearest to the positive quotient `n / d`. The two
lengths determine the order of magnitude up to one; if rounding carries into a further digit, the
result is the next power of ten. -/
def ofQuotient (count n d : Nat) : Significant :=
  let order := Int.ofNat (decimalDigits n).length - Int.ofNat (decimalDigits d).length
  let order := if powerLe n d order then order else order - 1
  let exponent := order - (Int.ofNat count - 1)
  let digits := scaled n d exponent
  if digits = Nat.pow 10 count then ⟨Nat.pow 10 (count - 1), exponent + 1⟩ else ⟨digits, exponent⟩

end Significant

end CausalEquations
