/-!
# The numbers that equations compute with

Equations, regressions and samples are written once, for any type of numbers that offers the
operations of `Scalar`. Two instances matter: IEEE binary64 floating point
(`CausalEquations.Number.Binary64`), in which models are evaluated, and the rationals, in which no
operation rounds.

* `Scalar` — field operations, comparisons, decimal numerals and the exact value of a number.
* `Elementary` — the operations that only some numbers have: powers, remainders, `sin`, `exp`, ….
* `Scalar.epsilon` — the magnitude below which a number counts as zero.
* `Scalar.pi`, `Scalar.euler` — the two named constants, as fractions over a power of two.
-/

namespace CausalEquations

/-- Numbers in which equations are evaluated. -/
class Scalar (α : Type) extends Add α, Sub α, Mul α, Div α, Neg α, BEq α where
  /-- The number nearest to `mantissa · 10 ^ exponent`. -/
  ofDecimal : (mantissa : Nat) → (exponent : Int) → α
  /-- The distance from zero. -/
  abs : α → α
  /-- Neither infinite nor undefined. -/
  isFinite : α → Bool
  /-- The exact value of a finite number, and zero for the others. -/
  toRat : α → Rat
  /-- Whether the first number is smaller; an undefined number is neither smaller nor larger. -/
  lt : α → α → Bool
  /-- Whether the first number is smaller or equal. -/
  le : α → α → Bool

namespace Scalar

variable {α : Type} [Scalar α]

/-- A natural number. -/
def ofNat (n : Nat) : α := ofDecimal n 0

/-- Zero. -/
def zero : α := ofNat 0

/-- One. -/
def one : α := ofNat 1

/-- Numbers of a magnitude below `10⁻¹⁰` count as zero. -/
def epsilon : α := ofDecimal 1 (-10)

/-- The fraction over `2 ^ 48` that is nearest to the ratio of a circle's circumference to its
diameter. -/
def pi : α := ofNat 884279719003555 / ofNat 281474976710656

/-- The fraction over `2 ^ 51` that is nearest to the base of the natural logarithm. -/
def euler : α := ofNat 6121026514868073 / ofNat 2251799813685248

/-- A truth value as a number. -/
def ofBool (b : Bool) : α := if b then one else zero

/-- An undefined number differs from itself. -/
def isUndefined (x : α) : Bool := !(x == x)

/-- Zero and undefined numbers count as false, all others as true. -/
def isTrue (x : α) : Bool := !(x == zero) && !isUndefined x

/-- The sum of the numbers, added from left to right. -/
def sum (xs : List α) : α := xs.foldl (· + ·) zero

/-- The sum of the products of corresponding entries. -/
def dot (xs ys : List α) : α := sum (List.zipWith (· * ·) xs ys)

end Scalar

/-- Numbers with powers, remainders and the functions that an equation may call. -/
class Elementary (α : Type) where
  pow : α → α → α
  /-- The remainder of a division truncated toward zero: it has the sign of the dividend. -/
  rem : α → α → α
  sin : α → α
  cos : α → α
  log : α → α
  exp : α → α

/-! ## Rational numbers -/

/-- `mantissa · 10 ^ exponent` as a rational. -/
def decimalRat (mantissa : Nat) (exponent : Int) : Rat :=
  match exponent with
  | .ofNat e => mkRat (Int.ofNat (mantissa * Nat.pow 10 e)) 1
  | .negSucc e => mkRat (Int.ofNat mantissa) (Nat.pow 10 (e + 1))

/-- Rational arithmetic never rounds, and every rational is finite. -/
instance : Scalar Rat where
  add := Rat.add
  sub := Rat.sub
  mul := Rat.mul
  div := Rat.div
  neg := Rat.neg
  beq a b := a.num == b.num && a.den == b.den
  ofDecimal := decimalRat
  abs x := if Rat.blt x 0 then Rat.neg x else x
  isFinite _ := true
  toRat x := x
  lt := Rat.blt
  le a b := !(Rat.blt b a)

end CausalEquations
