import CausalEquations.Number.Binary64

/-!
# The tails of Student's t and of the normal distribution

The probability that a random number is farther from zero than a given one, in floating point. For
few degrees of freedom the tail of Student's t is an incomplete beta function, which a continued
fraction gives. For many it is a normal tail with corrections, and beyond `Student.manyDegrees` it
is the normal tail itself.

* `NormalTail.scaledErfc`, `NormalTail.erfc` — the complementary error function.
* `Student.betaTail` — the tail as an incomplete beta function.
* `Student.gammaTail` — the tail as a sum of incomplete gamma functions.
* `Student.isLost` — whether the tail is too small to be computed.
* `Student.twoSided` — the probability of both tails.
-/

namespace CausalEquations

/-- The square root of the ratio of a circle's circumference to its diameter. -/
def rootPi : Float := 1.7724538509055160273

/-! ## The normal distribution -/

namespace NormalTail

/-- Adds terms of the series `∑ (2 z²)ⁿ z / (1 · 3 ⋯ (2 n + 1))`, from the given term on. -/
def addTerms (z : Float) : (fuel : Nat) → (n term sum : Float) → Float
  | 0, _, _, sum => sum
  | fuel + 1, n, term, sum =>
    addTerms z fuel (n + 1.0) (term * (2.0 * z * z) / (2.0 * n + 3.0)) (sum + term)

/-- The continued fraction `z + (n / 2) / (z + ((n + 1) / 2) / (z + …))`, cut off after `fuel`
levels. -/
def fraction (z : Float) : (fuel : Nat) → (n : Float) → Float
  | 0, _ => z
  | fuel + 1, n => z + n / 2.0 / fraction z fuel (n + 1.0)

/-- The complementary error function of a number that is not negative, times `exp (z²)`. -/
def scaledErfc (z : Float) : Float :=
  if z < 2.0 then Float.exp (z * z) - 2.0 / rootPi * addTerms z 60 0.0 z 0.0
  else 1.0 / (rootPi * fraction z 120 1.0)

/-- The complementary error function of a number that is not negative. The factor `z` keeps the
digits of the large factor when the small one has few. -/
def erfc (z : Float) : Float :=
  if z < 1.0 then scaledErfc z * Float.exp (-(z * z))
  else z * scaledErfc z * (Float.exp (-(z * z)) / z)

/-- The probability that a normal random number exceeds `t` in magnitude. -/
def twoSided (t : Float) : Float := 2.0 * (erfc (t / Float.sqrt 2.0) / 2.0)

end NormalTail

/-! ## Student's distribution -/

namespace Student

/-- `log (1 + u)` without loss of digits for small `u`. -/
def logOnePlus (u : Float) : Float :=
  let w := 1.0 + u
  if w == 1.0 then u else Float.log w * (u / (w - 1.0))

/-- `Γ(a) / Γ(a + 1/2)`. For large `a` an asymptotic series is exact enough; a small `a` is raised
in at most `fuel` steps. -/
def gammaRatio : (fuel : Nat) → (a : Float) → Float
  | 0, a =>
    let v := 1.0 / a
    let series := 1.0 + v * (-0.125 + v * (1.0 / 128.0 + v * (5.0 / 1024.0 + v * (-21.0 / 32768.0
      + v * (-399.0 / 262144.0 + v * (869.0 / 4194304.0))))))
    1.0 / (Float.sqrt a * series)
  | fuel + 1, a =>
    if 40.0 < a then gammaRatio 0 a else (a + 0.5) / a * gammaRatio fuel (a + 1.0)

/-- The beta function of `a` and `1/2`. -/
def beta (a : Float) : Float := rootPi * gammaRatio 41 a

/-! ### Few degrees of freedom -/

/-- A number that is not too close to zero to divide by. -/
def awayFromZero (x : Float) : Float := if x.abs < 1e-300 then 1e-300 else x

/-- Evaluates the continued fraction of the incomplete beta function from its term number `m`, until
a step changes nothing. -/
def betaSteps (a b x : Float) : (fuel : Nat) → (m c d h : Float) → Float
  | 0, _, _, _, h => h
  | fuel + 1, m, c, d, h =>
    let twice := 2.0 * m
    let even := m * (b - m) * x / ((a + twice - 1.0) * (a + twice))
    let d := 1.0 / awayFromZero (1.0 + even * d)
    let c := awayFromZero (1.0 + even / c)
    let h := h * (d * c)
    let odd := -(a + m) * (a + b + m) * x / ((a + twice) * (a + twice + 1.0))
    let d := 1.0 / awayFromZero (1.0 + odd * d)
    let c := awayFromZero (1.0 + odd / c)
    let change := d * c
    let h := h * change
    if (change - 1.0).abs < 1e-16 then h else betaSteps a b x fuel (m + 1.0) c d h

/-- The continued fraction of the incomplete beta function. -/
def betaFraction (a b x : Float) : Float :=
  let d := 1.0 / awayFromZero (1.0 - (a + b) * x / (a + 1.0))
  betaSteps a b x 10000 1.0 1.0 d d

/-- The incomplete beta function at `freedom / (freedom + t²)` with parameters `freedom / 2` and
`1/2`, by the continued fraction that converges faster. -/
def betaTail (t freedom : Float) : Float :=
  let a := freedom / 2.0
  let square := t * t
  let x := freedom / (freedom + square)
  let y := square / (freedom + square)
  let logFront := -(a * logOnePlus (square / freedom)) + 0.5 * Float.log y
  let front := Float.exp logFront / beta a
  if x < (a + 1.0) / (a + 2.5) then front / a * betaFraction a 0.5 x
  else 1.0 - front / 0.5 * betaFraction 0.5 a y

/-! ### Many degrees of freedom

With `w = log (1 + s² / freedom)` in place of the random number `s`, the density of the tail is
`exp (-scale · w) / √w` times `√((w/2) / sinh (w/2))`, where `scale` is `(freedom - 1/2) / 2`. The
last factor is a power series in `w²`, and each of its terms gives an incomplete gamma function.
-/

/-- The coefficients of `√((w/2) / sinh (w/2))` as a power series in `w²`. -/
def densitySeries : List Float :=
  [1.0, -1.0 / 48.0, 1.0 / 2560.0, -61.0 / 7741440.0, 1261.0 / 7431782400.0]

/-- The incomplete gamma function `Γ(n + 1/2, u)`, times `exp u / √π`. -/
def scaledGamma (u : Float) : Nat → Float
  | 0 => NormalTail.scaledErfc (Float.sqrt u)
  | n + 1 =>
    (Float.ofNat n + 0.5) * scaledGamma u n + Float.pow u (Float.ofNat n) * Float.sqrt u / rootPi

/-- The tail beyond `u / scale`, but for a factor that depends on `scale` alone, times `exp u`. -/
def scaledTail (scale u : Float) : Float :=
  ((densitySeries.zip (List.range densitySeries.length)).map fun e =>
    e.1 * scaledGamma u (2 * e.2) / Float.pow scale (Float.ofNat (2 * e.2))).foldr (· + ·) 0.0

/-- The tail beyond `t`, in proportion to the whole. -/
def gammaTail (t freedom : Float) : Float :=
  let scale := (freedom - 0.5) / 2.0
  let u := scale * logOnePlus (t * t / freedom)
  Float.exp (-u) * (scaledTail scale u / scaledTail scale 0.0)

/-! ### Both tails -/

/-- The smallest positive number with all its digits. -/
def leastNormal : Float := Float.scaleB 1.0 (-1022)

/-- The factor that the tail starts from: for a `t` that is large against the degrees of freedom
that of the power series of the incomplete beta function, else that of the incomplete gamma
function. -/
def leadingFactor (t freedom : Float) : Float :=
  let a := freedom / 2.0
  let square := t * t
  let distance := logOnePlus (square / freedom)
  if 0.3 ≤ square / (freedom + square) then Float.exp (-(a * distance)) / beta a
  else
    let u := (a - 0.25) * distance
    Float.sqrt u * Float.exp (-u) / rootPi

/-- A tail is lost if the factor that it starts from has not all its digits. -/
def isLost (t freedom : Float) : Bool :=
  1.0 < t && leadingFactor t freedom < leastNormal

/-- From here on the incomplete gamma functions are used. -/
def severalDegrees : Float := 4000.0

/-- Beyond this number of degrees of freedom the distribution is normal to the last digit. -/
def manyDegrees : Float := Float.scaleB 1.0 52

/-- The probability that Student's t with `freedom` degrees of freedom exceeds `t` in magnitude. A
tail that is lost counts as zero. -/
def twoSided (t freedom : Float) : Float :=
  if manyDegrees < freedom then NormalTail.twoSided t
  else if isLost t freedom then 0.0
  else if freedom < severalDegrees then betaTail t freedom
  else gammaTail t freedom

end Student

end CausalEquations
