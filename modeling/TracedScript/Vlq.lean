import TracedScript.Base64

/-
  Whole numbers of variable length in base 64.

  The sign is the lowest bit. Each digit holds five bits,
  lowest first, and a sixth bit that tells whether another
  digit follows.

  Key definitions include:
    * `Vlq.encode`
    * `Vlq.decode?`: the first number of a text, and the rest.
    * `Vlq.decodeAll?`: all numbers of a text.

  The text left by `decode?` is shorter than the text it was
  given, by `Vlq.decode?_shortens`.
-/

------------------------------------------------------------
-- Encoding
------------------------------------------------------------

namespace TracedScript

namespace Vlq

/- A number without sign that holds the sign in its lowest bit. -/
def zigzag (value : Int) : Nat :=
  if value < 0 then 2 * value.natAbs + 1 else 2 * value.natAbs

/- The number whose sign was moved to the lowest bit. -/
def unzigzag (number : Nat) : Int :=
  if number % 2 = 1 then -((number / 2 : Nat) : Int)
  else ((number / 2 : Nat) : Int)

/- The digits of a number, lowest first. -/
def digits (number : Nat) : List Char :=
  if number < 32 then [Base64.digit number]
  else Base64.digit (32 + number % 32) :: digits (number / 32)
termination_by number
decreasing_by omega

/- The digits of a number with a sign. -/
def encode (value : Int) : List Char :=
  digits (zigzag value)

------------------------------------------------------------
-- Decoding
------------------------------------------------------------

/- The greatest number of digits that are read as one number. -/
def maxDigits : Nat := 12

/-
  The number at the start of a text, of at most `limit`
  digits, and the text after it.
-/
def number? :
    (limit : Nat) → List Char → Option (Nat × List Char)
  | 0, _ => none
  | _ + 1, [] => none
  | limit + 1, c :: rest =>
      match Base64.value? c with
      | none => none
      | some value =>
          if value < 32 then some (value, rest)
          else
            (number? limit rest).map fun result =>
              (value - 32 + 32 * result.1, result.2)

/- The number with sign at the start of a text, and the text after it. -/
def decode? (text : List Char) : Option (Int × List Char) :=
  (number? maxDigits text).map fun result =>
    (unzigzag result.1, result.2)

/- Reading a number takes at least one character. -/
theorem number?_shortens
    {limit number : Nat}
    {text rest : List Char}
    (h : number? limit text = some (number, rest)) :
    rest.length < text.length := by
  fun_induction number? limit text
      generalizing number rest with
  | case1 => cases h
  | case2 => cases h
  | case3 => cases h
  | case4 limit c tail value hValue hSmall =>
      cases h
      simp
  | case5 limit c tail value hValue hLarge ih =>
      obtain ⟨result, hRest, hResult⟩ :=
        Option.map_eq_some_iff.1 h
      cases hResult
      have := ih hRest
      simp only [List.length_cons]
      omega

theorem decode?_shortens
    {value : Int}
    {text rest : List Char}
    (h : decode? text = some (value, rest)) :
    rest.length < text.length := by
  obtain ⟨result, hNumber, hResult⟩ :=
    Option.map_eq_some_iff.1 h
  cases hResult
  exact number?_shortens hNumber

/- All numbers of a text that is made up of numbers only. -/
def decodeAll? (text : List Char) : Option (List Int) :=
  match text with
  | [] => some []
  | c :: tail =>
      match _hDecode : decode? (c :: tail) with
      | none => none
      | some (value, rest) =>
          (decodeAll? rest).map (value :: ·)
termination_by text.length
decreasing_by exact decode?_shortens _hDecode

end Vlq

end TracedScript
