import TracedScript.Number.Shortest

/-
  Numbers in a JSON text.

  Key definitions include:
    * `Json.Number`: a whole number of 64 bits or a double.
    * `Json.Numeral`: the digits of a number as written.
    * `Json.Numeral.scan`: the numeral at the start of a text.
    * `Json.Numeral.number?`: the number that a numeral stands
      for.

  The text left by `Numeral.scan` is shorter than the text it
  was given, by `Numeral.scan_shortens`.
-/

------------------------------------------------------------
-- Numbers and Numerals
------------------------------------------------------------

namespace TracedScript

namespace Json

/-
  A number: natural numbers below `2 ^ 64`, negative whole
  numbers down to `-2 ^ 63`, and doubles for all others.
-/
inductive Number where
  | natural (value : Nat)
  | negative (magnitude : Nat)
  | double (negative : Bool) (magnitude : Double)
deriving DecidableEq, Repr

/- The parts of a number as written, digit by digit. -/
structure Numeral where
  negative : Bool
  whole : List Nat
  fraction : Option (List Nat)
  exponent : Option Int
deriving DecidableEq, Repr

------------------------------------------------------------
-- Scanning
------------------------------------------------------------

/- The digits at the start of a text, and the text after them. -/
def digitRun : List Char → List Nat × List Char
  | [] => ([], [])
  | c :: rest =>
      if c.isDigit then
        let run := digitRun rest
        ((c.toNat - '0'.toNat) :: run.1, run.2)
      else
        ([], c :: rest)

/- The number that some digits stand for. -/
def ofDigits (digits : List Nat) : Nat :=
  digits.foldl (fun value digit => 10 * value + digit) 0

namespace Numeral

/- The whole part: no digit may follow a leading zero. -/
def scanWhole
    (text : List Char) :
    Option (List Nat × List Char) :=
  match (digitRun text).1 with
  | [] => none
  | 0 :: _ :: _ => none
  | _ => some (digitRun text)

/- The fraction, if there is a point: a digit must follow it. -/
def scanFraction
    (text : List Char) :
    Option (Option (List Nat) × List Char) :=
  match text with
  | '.' :: rest =>
      match digitRun rest with
      | ([], _) => none
      | (digits, rest) => some (some digits, rest)
  | text => some (none, text)

/- The sign of an exponent: minus or not. -/
def scanSign : List Char → Bool × List Char
  | '-' :: rest => (true, rest)
  | '+' :: rest => (false, rest)
  | text => (false, text)

/- The exponent, if there is its mark: a digit must follow. -/
def scanExponent
    (text : List Char) :
    Option (Option Int × List Char) :=
  match text with
  | c :: rest =>
      if c = 'e' ∨ c = 'E' then
        let sign := scanSign rest
        match digitRun sign.2 with
        | ([], _) => none
        | (digits, rest) =>
            let value : Int := ofDigits digits
            some (some (if sign.1 then -value else value), rest)
      else
        some (none, text)
  | [] => some (none, [])

/- The numeral at the start of a text, and the text after it. -/
def scan
    (text : List Char) :
    Option (Numeral × List Char) := do
  let (negative, text) :=
    match text with
    | '-' :: rest => (true, rest)
    | text => (false, text)
  let (whole, text) ← scanWhole text
  let (fraction, text) ← scanFraction text
  let (exponent, text) ← scanExponent text
  pure (⟨negative, whole, fraction, exponent⟩, text)

end Numeral

------------------------------------------------------------
-- The Text Left by Scanning
------------------------------------------------------------

/- What follows a run of digits is no longer than the text. -/
theorem digitRun_le
    (text : List Char) :
    (digitRun text).2.length + (digitRun text).1.length
      = text.length := by
  induction text with
  | nil => rfl
  | cons c rest ih =>
      by_cases hDigit : c.isDigit
      · simp only [digitRun, hDigit, if_true, List.length_cons]
        omega
      · simp [digitRun, hDigit]

namespace Numeral

theorem scanWhole_shortens
    {text rest : List Char}
    {digits : List Nat}
    (h : scanWhole text = some (digits, rest)) :
    rest.length < text.length := by
  have hRun := digitRun_le text
  unfold scanWhole at h
  split at h
  · cases h
  · cases h
  · rename_i hNil _
    have hEq : digitRun text = (digits, rest) :=
      Option.some.inj h
    rw [hEq] at hRun hNil
    have hLength : 0 < digits.length :=
      List.length_pos_iff.2 hNil
    simp only at hRun
    omega

theorem scanFraction_le
    {text rest : List Char}
    {fraction : Option (List Nat)}
    (h : scanFraction text = some (fraction, rest)) :
    rest.length ≤ text.length := by
  unfold scanFraction at h
  split at h
  · rename_i tail
    have hRun := digitRun_le tail
    split at h
    · cases h
    · rename_i digits after _ hEq
      cases h
      rw [hEq] at hRun
      simp only at hRun
      simp only [List.length_cons]
      omega
  · cases h
    exact Nat.le_refl _

theorem scanSign_le
    (text : List Char) :
    (scanSign text).2.length ≤ text.length := by
  unfold scanSign
  split <;> simp

theorem scanExponent_le
    {text rest : List Char}
    {exponent : Option Int}
    (h : scanExponent text = some (exponent, rest)) :
    rest.length ≤ text.length := by
  unfold scanExponent at h
  split at h
  · rename_i c tail
    split at h
    · have hSign := scanSign_le tail
      have hRun := digitRun_le (scanSign tail).2
      dsimp only at h
      split at h
      · cases h
      · rename_i digits after _ hEq
        cases h
        rw [hEq] at hRun
        simp only [List.length_cons]
        simp only at hRun
        omega
    · cases h
      exact Nat.le_refl _
  · cases h
    exact Nat.le_refl _

/- A numeral takes at least one character. -/
theorem scan_shortens
    {text rest : List Char}
    {numeral : Numeral}
    (h : scan text = some (numeral, rest)) :
    rest.length < text.length := by
  unfold scan at h
  simp only [Option.bind_eq_bind, Option.pure_def,
    Option.bind_eq_some_iff, Prod.exists] at h
  obtain ⟨whole, afterWhole, hWhole, fraction, afterFraction,
    hFraction, exponent, afterExponent, hExponent, hResult⟩ := h
  cases hResult
  have hW := scanWhole_shortens hWhole
  have hF := scanFraction_le hFraction
  have hE := scanExponent_le hExponent
  have hStart :
      (match text with
        | '-' :: rest => (true, rest)
        | text => (false, text)).2.length ≤ text.length := by
    split <;> simp
  omega

end Numeral

------------------------------------------------------------
-- Values
------------------------------------------------------------

/- The number `significand * 10 ^ power`. -/
structure Scaled where
  significand : Nat
  power : Int
deriving DecidableEq, Repr

namespace Scaled

/- The bound that the gathered digits stay below: `2 ^ 64`. -/
def limit : Nat := 18446744073709551616

/-
  The digits of the whole part, gathered until the first one
  that does not fit; it and all later ones count as zeros.
-/
def ofWhole (digits : List Nat) : Scaled :=
  digits.foldl
    (fun scaled digit =>
      let longer := 10 * scaled.significand + digit
      if scaled.power = 0 ∧ longer < limit then ⟨longer, 0⟩
      else ⟨scaled.significand, scaled.power + 1⟩)
    ⟨0, 0⟩

/-
  Adds the digits of the fraction up to the first one that
  does not fit.
-/
def addFraction : Scaled → List Nat → Scaled
  | scaled, [] => scaled
  | scaled, digit :: digits =>
      let longer := 10 * scaled.significand + digit
      if longer < limit then
        addFraction ⟨longer, scaled.power - 1⟩ digits
      else
        scaled

end Scaled

namespace Numeral

/- The magnitude of a numeral as a scaled number. -/
def scaled (numeral : Numeral) : Scaled :=
  let gathered :=
    (Scaled.ofWhole numeral.whole).addFraction
      (numeral.fraction.getD [])
  ⟨gathered.significand,
    gathered.power + numeral.exponent.getD 0⟩

/-
  The number that a numeral stands for, or nothing when its
  magnitude is beyond the largest double. A numeral without
  fraction and exponent is a whole number if 64 bits suffice
  and it is not a negative zero.
-/
def number? (numeral : Numeral) : Option Number :=
  let value := ofDigits numeral.whole
  if numeral.fraction.isNone ∧ numeral.exponent.isNone
      ∧ ¬ numeral.negative ∧ value < Scaled.limit then
    some (.natural value)
  else if numeral.fraction.isNone ∧ numeral.exponent.isNone
      ∧ numeral.negative ∧ 0 < value
      ∧ 2 * value ≤ Scaled.limit then
    some (.negative value)
  else
    let scaled := numeral.scaled
    (Double.scale? scaled.significand scaled.power).map
      (.double numeral.negative)

end Numeral

end Json

end TracedScript
