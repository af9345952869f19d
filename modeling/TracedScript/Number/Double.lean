/-
  Double precision magnitudes as exact fractions.

  A double is kept as the mantissa and the exponent of
  `mantissa * 2 ^ exponent`, so that rounding is plain
  arithmetic on natural numbers.

  Key definitions include:
    * `Double`
    * `Double.ofRatio?`: the double nearest to a fraction.
    * `Double.times?` and `Double.dividedBy`: product and
      quotient, rounded once.
    * `Double.scale?`: a whole number times a power of ten.
-/

------------------------------------------------------------
-- Doubles and Rounding
------------------------------------------------------------

namespace TracedScript

/- The non-negative number `mantissa * 2 ^ exponent`. -/
structure Double where
  mantissa : Nat
  exponent : Int
deriving DecidableEq, Repr, Inhabited

namespace Double

/- The least mantissa of full length: `2 ^ 52`. -/
def leastMantissa : Nat := 4503599627370496

/- The exponent of the smallest steps between doubles. -/
def leastExponent : Int := -1074

/- The exponent of the largest steps between doubles. -/
def greatestExponent : Int := 971

/- The number zero. -/
def zero : Double :=
  ⟨0, leastExponent⟩

/- The quotient as the nearest whole number, a half going to the even one. -/
def roundQuotient
    (numerator denominator : Nat) :
    Nat :=
  let quotient := numerator / denominator
  let twice := 2 * (numerator % denominator)
  if twice < denominator then quotient
  else if denominator < twice then quotient + 1
  else quotient + quotient % 2

/- The greatest power of two that is not above the fraction. -/
def log2Ratio
    (numerator denominator : Nat) :
    Int :=
  let high := Nat.log2 numerator
  let low := Nat.log2 denominator
  if denominator * Nat.pow 2 high ≤ numerator * Nat.pow 2 low then
    (high : Int) - low
  else
    (high : Int) - low - 1

/-
  The double nearest to a fraction, or nothing when it lies
  beyond the largest double.
-/
def ofRatio?
    (numerator denominator : Nat) :
    Option Double :=
  if numerator = 0 then some zero
  else
    let exponent :=
      max leastExponent (log2Ratio numerator denominator - 52)
    let mantissa :=
      roundQuotient
        (numerator * Nat.pow 2 (-exponent).toNat)
        (denominator * Nat.pow 2 exponent.toNat)
    let rounded : Double :=
      if mantissa = 2 * leastMantissa then
        ⟨leastMantissa, exponent + 1⟩
      else ⟨mantissa, exponent⟩
    if greatestExponent < rounded.exponent then none
    else some rounded

/- The numerator of a double as a fraction. -/
def numerator (number : Double) : Nat :=
  number.mantissa * Nat.pow 2 number.exponent.toNat

/- The denominator of a double as a fraction. -/
def denominator (number : Double) : Nat :=
  Nat.pow 2 (-number.exponent).toNat

/- The rounded product, or nothing beyond the largest double. -/
def times?
    (left right : Double) :
    Option Double :=
  ofRatio?
    (left.numerator * right.numerator)
    (left.denominator * right.denominator)

/- The rounded quotient by a number that is at least one. -/
def dividedBy
    (left right : Double) :
    Double :=
  (ofRatio?
    (left.numerator * right.denominator)
    (left.denominator * right.numerator)).getD zero

/- The double nearest to a whole number below `2 ^ 64`. -/
def ofNat (number : Nat) : Double :=
  (ofRatio? number 1).getD zero

/- The double nearest to a power of ten up to `10 ^ 308`. -/
def powerOfTen (power : Nat) : Double :=
  (ofRatio? (Nat.pow 10 power) 1).getD zero

/- The largest power of ten that is used as one factor. -/
def greatestPower : Nat := 308

/-
  The number `significand * 10 ^ power`, where the
  significand, the power of ten and their product are each
  rounded to a double.

  A division by more than `10 ^ 308` is made in two steps,
  and by more than its square gives zero.
-/
def scale?
    (significand : Nat)
    (power : Int) :
    Option Double :=
  let start := ofNat significand
  match power with
  | .ofNat factor =>
      if factor ≤ greatestPower then
        start.times? (powerOfTen factor)
      else if significand = 0 then some zero
      else none
  | .negSucc before =>
      let divisor := before + 1
      if divisor ≤ greatestPower then
        some (start.dividedBy (powerOfTen divisor))
      else if divisor ≤ 2 * greatestPower then
        some
          ((start.dividedBy (powerOfTen greatestPower)).dividedBy
            (powerOfTen (divisor - greatestPower)))
      else some zero

end Double

end TracedScript
