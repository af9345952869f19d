import TracedScript.Number.Double

/-
  The shortest decimal text of a double.

  Key definitions include:
    * `Double.shortest`: the fewest digits that round back
      to the number, and of those the nearest.
    * `DecimalLayout`: where the decimal point may stand, and
      how an exponent is written.
    * `Double.text`
-/

------------------------------------------------------------
-- Shortest Digits
------------------------------------------------------------

namespace TracedScript

/- The number `digits * 10 ^ power`. -/
structure Decimal where
  digits : Nat
  power : Int
deriving DecidableEq, Repr

/- The number of decimal digits of a natural number. -/
def decimalLength (number : Nat) : Nat :=
  if number = 0 then 0
  else (Nat.toDigits 10 number).length

namespace Double

/-
  The numbers that round to a double, in quarters of its
  step: the step below a power of two is half as wide.
-/
structure Basin where
  low : Nat
  center : Nat
  high : Nat
  closed : Bool
  denominator : Nat

/- The numbers that round to the given double. -/
def basin (number : Double) : Basin :=
  let scale := Nat.pow 2 (number.exponent - 2).toNat
  let center := 4 * number.mantissa
  let below :=
    if number.mantissa = leastMantissa
        ∧ leastExponent < number.exponent then 1
    else 2
  { low := (center - below) * scale
    center := center * scale
    high := (center + 2) * scale
    closed := number.mantissa % 2 = 0
    denominator := Nat.pow 2 (2 - number.exponent).toNat }

/- Whether a decimal rounds to the double of the basin. -/
def Basin.contains
    (basin : Basin)
    (decimal : Decimal) :
    Bool :=
  let value :=
    decimal.digits * Nat.pow 10 decimal.power.toNat
      * basin.denominator
  let unit := Nat.pow 10 (-decimal.power).toNat
  if basin.closed then
    basin.low * unit ≤ value && value ≤ basin.high * unit
  else
    basin.low * unit < value && value < basin.high * unit

/- The place of the first digit: the number is at least `10 ^ place`. -/
def Basin.leadingPlace (basin : Basin) : Int :=
  if basin.denominator ≤ basin.center then
    decimalLength (basin.center / basin.denominator) - 1
  else
    -decimalLength
      ((basin.denominator - 1) / basin.center)

/-
  The decimal with the given number of digits that is
  nearest to the double, if one rounds to it.
-/
def Basin.decimal?
    (basin : Basin)
    (count : Nat) :
    Option Decimal :=
  let power := basin.leadingPlace - count + 1
  let numerator := basin.center * Nat.pow 10 (-power).toNat
  let denominator := basin.denominator * Nat.pow 10 power.toNat
  let lower : Decimal := ⟨numerator / denominator, power⟩
  let upper : Decimal :=
    if lower.digits + 1 = Nat.pow 10 count then
      ⟨Nat.pow 10 (count - 1), power + 1⟩
    else
      ⟨lower.digits + 1, power⟩
  let twice := 2 * (numerator % denominator)
  let nearest :=
    if denominator < twice
        ∨ (denominator = twice ∧ lower.digits % 2 = 1) then
      [upper, lower]
    else
      [lower, upper]
  nearest.find? basin.contains

/-
  The decimal of fewest digits that rounds to a double that
  is not zero. Seventeen digits always suffice.
-/
def shortest (number : Double) : Decimal :=
  ((List.range 17).findSome? fun count =>
    number.basin.decimal? (count + 1)).getD ⟨0, 0⟩

end Double

------------------------------------------------------------
-- Layout
------------------------------------------------------------

/-
  When a decimal is written without an exponent: the decimal
  point may stand after at most `pointMax` digits, and fewer
  than `zerosMax` zeros may follow it. Otherwise an exponent
  follows, with `plusSign` before one that is not negative.
-/
structure DecimalLayout where
  pointMax : Int
  zerosMax : Int
  plusSign : List Char

namespace Decimal

/- The text of the exponent of a decimal. -/
def exponentText
    (layout : DecimalLayout)
    (exponent : Int) :
    List Char :=
  let sign := if 0 ≤ exponent then layout.plusSign else ['-']
  'e' :: sign ++ Nat.toDigits 10 exponent.natAbs

/- The text of a decimal that is not zero. -/
def text
    (layout : DecimalLayout)
    (decimal : Decimal) :
    String :=
  let digits := Nat.toDigits 10 decimal.digits
  let point := decimal.power + digits.length
  let zeros (count : Int) : List Char :=
    List.replicate count.toNat '0'
  let chars : List Char :=
    if 0 ≤ decimal.power ∧ point ≤ layout.pointMax then
      digits ++ zeros decimal.power ++ ['.', '0']
    else if 0 < point ∧ point ≤ layout.pointMax then
      digits.take point.toNat ++ '.' :: digits.drop point.toNat
    else if -layout.zerosMax < point ∧ point ≤ 0 then
      '0' :: '.' :: zeros (-point) ++ digits
    else
      let exponent := exponentText layout (point - 1)
      match digits with
      | first :: second :: rest =>
          first :: '.' :: second :: rest ++ exponent
      | digits => digits ++ exponent
  String.ofList chars

end Decimal

namespace Double

/-
  Sixteen places before the point, four zeros after it, and a
  sign before every exponent.
-/
def layout : DecimalLayout where
  pointMax := 16
  zerosMax := 5
  plusSign := ['+']

/- The shortest text of a double, with a point or an exponent. -/
def text (number : Double) : String :=
  if number.mantissa = 0 then "0.0"
  else number.shortest.text layout

end Double

end TracedScript
