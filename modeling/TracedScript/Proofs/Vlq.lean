import Mathlib
import TracedScript.Vlq

/-
  Reading numbers of variable length undoes writing them.

  Main declarations:
    * `Base64.value?_digit`
    * `Vlq.number?_digits`
    * `Vlq.decode?_encode`
    * `Vlq.decodeAll?_flatMap_encode`
    * `Vlq.value?_isSome_of_mem_encode`: the text of a number
      has digits only.
-/

------------------------------------------------------------
-- Digits
------------------------------------------------------------

namespace TracedScript

namespace Base64

/- Reading a digit gives its value. -/
theorem value?_digit
    {value : Nat}
    (hValue : value < 64) :
    value? (digit value) = some value := by
  have hAll :
      ∀ number < 64, value? (digit number) = some number := by
    decide
  exact hAll value hValue

end Base64

------------------------------------------------------------
-- Numbers without Sign
------------------------------------------------------------

namespace Vlq

theorem digits_of_lt
    {number : Nat}
    (hSmall : number < 32) :
    digits number = [Base64.digit number] := by
  rw [digits, if_pos hSmall]

theorem digits_of_le
    {number : Nat}
    (hLarge : 32 ≤ number) :
    digits number =
      Base64.digit (32 + number % 32)
        :: digits (number / 32) := by
  rw [digits, if_neg (by omega)]

theorem digits_ne_nil
    (number : Nat) :
    digits number ≠ [] := by
  rw [digits]
  split <;> simp

/- The digits of a number are digits. -/
theorem value?_isSome_of_mem_digits
    {number : Nat}
    {c : Char}
    (hMember : c ∈ digits number) :
    (Base64.value? c).isSome := by
  induction number using digits.induct with
  | case1 number hSmall =>
      rw [digits_of_lt hSmall, List.mem_singleton] at hMember
      rw [hMember, Base64.value?_digit (by omega)]
      rfl
  | case2 number hLarge ih =>
      rw [digits_of_le (by omega), List.mem_cons] at hMember
      rcases hMember with hFirst | hRest
      · rw [hFirst, Base64.value?_digit (by omega)]
        rfl
      · exact ih hRest

/-
  The digits of a number are read back, whatever follows
  them, if there are no more of them than the limit.
-/
theorem number?_digits
    (limit number : Nat)
    (rest : List Char)
    (hNumber : number < 32 ^ (limit + 1)) :
    number? (limit + 1) (digits number ++ rest) =
      some (number, rest) := by
  induction limit generalizing number with
  | zero =>
      have hSmall : number < 32 := by simpa using hNumber
      rw [digits_of_lt hSmall]
      simp [number?, Base64.value?_digit
        (by omega : number < 64), hSmall]
  | succ limit ih =>
      by_cases hSmall : number < 32
      · rw [digits_of_lt hSmall]
        simp [number?, Base64.value?_digit
          (by omega : number < 64), hSmall]
      · have hRest : number / 32 < 32 ^ (limit + 1) := by
          rw [pow_succ] at hNumber
          omega
        have hDigit :
            Base64.value? (Base64.digit (32 + number % 32)) =
              some (32 + number % 32) :=
          Base64.value?_digit (by omega)
        rw [digits_of_le (by omega), List.cons_append,
          number?, hDigit]
        simp only [ih (number / 32) hRest, Option.map_some]
        rw [if_neg (by omega)]
        congr 2
        omega

------------------------------------------------------------
-- Numbers with Sign
------------------------------------------------------------

/- Moving the sign to the lowest bit can be undone. -/
theorem unzigzag_zigzag
    (value : Int) :
    unzigzag (zigzag value) = value := by
  unfold zigzag unzigzag
  split <;> split <;> omega

theorem zigzag_le
    (value : Int) :
    zigzag value ≤ 2 * value.natAbs + 1 := by
  unfold zigzag
  split <;> omega

theorem encode_ne_nil
    (value : Int) :
    encode value ≠ [] :=
  digits_ne_nil (zigzag value)

theorem value?_isSome_of_mem_encode
    {value : Int}
    {c : Char}
    (hMember : c ∈ encode value) :
    (Base64.value? c).isSome :=
  value?_isSome_of_mem_digits hMember

/- Numbers written one after the other are digits only. -/
theorem notMem_flatMap_encode
    {c : Char}
    (hNone : Base64.value? c = none)
    (values : List Int) :
    c ∉ values.flatMap encode := by
  intro hMember
  rcases List.mem_flatMap.mp hMember with ⟨value, _, hDigit⟩
  have hSome := value?_isSome_of_mem_encode hDigit
  rw [hNone] at hSome
  cases hSome

/- The greatest magnitude of a number that is read back. -/
def maxMagnitude : Nat := 2 ^ 59 - 1

/- A number is read back, whatever follows it. -/
theorem decode?_encode
    (value : Int)
    (rest : List Char)
    (hValue : value.natAbs ≤ maxMagnitude) :
    decode? (encode value ++ rest) = some (value, rest) := by
  have hNumber : zigzag value < 32 ^ (11 + 1) := by
    have hLe := zigzag_le value
    unfold maxMagnitude at hValue
    omega
  simp only [decode?, encode, maxDigits,
    number?_digits 11 (zigzag value) rest hNumber,
    Option.map_some, unzigzag_zigzag]

/- The numbers of a text are its first one and those of the rest. -/
theorem decodeAll?_eq_bind
    {text : List Char}
    (hNonempty : text ≠ []) :
    decodeAll? text =
      (decode? text).bind fun result =>
        (decodeAll? result.2).map (result.1 :: ·) := by
  rcases List.exists_cons_of_ne_nil hNonempty with
    ⟨c, tail, rfl⟩
  rw [decodeAll?]
  split
  · next hNone => rw [hNone, Option.bind_none]
  · next hSome => rw [hSome, Option.bind_some]

/- Numbers written one after the other are all read back. -/
theorem decodeAll?_flatMap_encode
    (values : List Int)
    (hValues : ∀ value ∈ values, value.natAbs ≤ maxMagnitude) :
    decodeAll? (values.flatMap encode) = some values := by
  induction values with
  | nil => simp [decodeAll?]
  | cons value values ih =>
      rw [List.forall_mem_cons] at hValues
      have hNonempty :
          encode value ++ values.flatMap encode ≠ [] := by
        simp [encode_ne_nil]
      rw [List.flatMap_cons, decodeAll?_eq_bind hNonempty,
        decode?_encode value _ hValues.1, Option.bind_some,
        ih hValues.2, Option.map_some]

end Vlq

end TracedScript
