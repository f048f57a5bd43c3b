import CausalEquations.Number.Scalar

/-!
# Binary64 numbers

The exact value of a floating point number is read off its bits: a sign, a natural significand and
a power of two. Everything that has to be exact (comparison with decimal thresholds, rounding to
decimals, remainders) is computed on that value.

* `Binary64.Decoded`, `Binary64.decode` — the number as sign, significand and exponent.
* `Binary64.toRat` — the exact value.
* `Binary64.ofDecimal` — the number nearest to a decimal of any size.
* `Binary64.remainder` — the exact remainder of a division truncated toward zero.
-/

namespace CausalEquations

namespace Binary64

/-- What 64 bits stand for. A finite number is `± significand · 2 ^ exponent`. -/
inductive Decoded where
  | finite (negative : Bool) (significand : Nat) (exponent : Int)
  | infinite (negative : Bool)
  | undefined
  deriving DecidableEq, Repr

/-- Splits the bits into the sign, the biased exponent (11 bits) and the fraction (52 bits). An
exponent field of zero marks a number without the hidden leading bit. -/
def decode (x : Float) : Decoded :=
  let bits := x.toBits.toNat
  let negative := decide (9223372036854775808 ≤ bits)
  let field := (bits >>> 52) % 2048
  let fraction := bits % 4503599627370496
  if field = 2047 then (if fraction = 0 then .infinite negative else .undefined)
  else if field = 0 then .finite negative fraction (-1074)
  else .finite negative (fraction + 4503599627370496) (Int.ofNat field - 1075)

/-- `significand · 2 ^ exponent` as a quotient of naturals. -/
def quotient (significand : Nat) (exponent : Int) : Nat × Nat :=
  match exponent with
  | .ofNat e => (significand <<< e, 1)
  | .negSucc e => (significand, 1 <<< (e + 1))

/-- The exact value of a finite number; zero for the others. -/
def toRat (x : Float) : Rat :=
  match decode x with
  | .finite negative significand exponent =>
    let (n, d) := quotient significand exponent
    mkRat (if negative then Int.negOfNat n else Int.ofNat n) d
  | _ => mkRat 0 1

/-- The number nearest to `mantissa · 10 ^ exponent`. Decimals outside `10 ^ ±400` are beyond the
range of the format on either side and need no arithmetic. -/
def ofDecimal (mantissa : Nat) (exponent : Int) : Float :=
  let order := Int.ofNat (Nat.toDigits 10 mantissa).length + exponent
  if mantissa = 0 ∨ order < -400 then 0.0
  else if 400 < order then 1.0 / 0.0
  else Float.ofScientific mantissa (decide (exponent < 0)) exponent.natAbs

/-- The remainder of the division truncated toward zero, with the sign of the dividend. It is
exact: with both significands on the smaller exponent it is a remainder of naturals. -/
def remainder (x y : Float) : Float :=
  match decode x, decode y with
  | .finite negative m e, .finite _ n f =>
    if n = 0 then 0.0 / 0.0
    else if x.abs < y.abs then x
    else
      let low := min e f
      let r := (m <<< (e - low).toNat) % (n <<< (f - low).toNat)
      let magnitude := Float.scaleB (Float.ofNat r) low
      if negative then -magnitude else magnitude
  | .finite _ _ _, .infinite _ => x
  | _, _ => 0.0 / 0.0

end Binary64

/-- Floating point arithmetic rounds every result to the nearest binary64 number. -/
instance : Scalar Float where
  add := Float.add
  sub := Float.sub
  mul := Float.mul
  div := Float.div
  neg := Float.neg
  beq := Float.beq
  ofDecimal := Binary64.ofDecimal
  abs := Float.abs
  isFinite := Float.isFinite
  toRat := Binary64.toRat
  lt a b := decide (a < b)
  le a b := decide (a ≤ b)

instance : Elementary Float where
  pow := Float.pow
  rem := Binary64.remainder
  sin := Float.sin
  cos := Float.cos
  log := Float.log
  exp := Float.exp

end CausalEquations
