import TracedScript.Proofs.Cursor
import TracedScript.Proofs.Vlq

/-
  What is read as a number of variable length.

  A numeral is what the digits of one number may be, in the
  shortest form or not. Reading finds the numeral at the start
  of a text, if there is one that is not too long.

  Key definitions include:
    * `Vlq.Numeral`: the five bits of each digit.
    * `Vlq.decodeBytes?`: the first number of a text, and how
      many bytes it takes up.

  Main declarations:
    * `Vlq.length_digits_le_iff`
    * `Vlq.decode?_eq_some_iff`
    * `Vlq.decodeAll?_eq_some_iff`
    * `Vlq.Numeral.encode_value_eq_iff`
    * `Vlq.decodeBytes?_eq_some_iff`
    * `Vlq.decodeBytes?_encode_exact`
    * `Vlq.decodeBytes?_iff_numeral`
-/

------------------------------------------------------------
-- Digits
------------------------------------------------------------

namespace TracedScript

namespace Base64

/- A character found by its distance from another one. -/
theorem ofNat_add_sub
    {first : Nat}
    {c : Char}
    (hFirst : first ≤ c.toNat) :
    Char.ofNat (first + (c.toNat - first)) = c := by
  rw [Nat.add_sub_of_le hFirst, Char.ofNat_toNat]

/- A digit is that of the value read from it. -/
theorem digit_of_value?
    {c : Char}
    {value : Nat}
    (hValue : value? c = some value) :
    value < 64 ∧ digit value = c := by
  unfold value? at hValue
  simp only [Char.le_def, UInt32.le_iff_toNat_le] at hValue
  change
    (if 65 ≤ c.toNat ∧ c.toNat ≤ 90 then some (c.toNat - 65)
      else if 97 ≤ c.toNat ∧ c.toNat ≤ 122 then
        some (c.toNat - 97 + 26)
      else if 48 ≤ c.toNat ∧ c.toNat ≤ 57 then
        some (c.toNat - 48 + 52)
      else if c = '+' then some 62
      else if c = '/' then some 63
      else none) = some value at hValue
  split at hValue
  · next hUpper =>
      cases hValue
      refine ⟨by omega, ?_⟩
      rw [digit, if_pos (by omega)]
      exact ofNat_add_sub hUpper.1
  · split at hValue
    · next hLower =>
        cases hValue
        refine ⟨by omega, ?_⟩
        rw [digit, if_neg (by omega), if_pos (by omega),
          Nat.add_sub_cancel]
        exact ofNat_add_sub hLower.1
    · split at hValue
      · next hDecimal =>
          cases hValue
          refine ⟨by omega, ?_⟩
          rw [digit, if_neg (by omega), if_neg (by omega),
            if_pos (by omega), Nat.add_sub_cancel]
          exact ofNat_add_sub hDecimal.1
      · split at hValue
        · next hPlus =>
            cases hValue
            exact ⟨by decide, hPlus.symm⟩
        · split at hValue
          · next hSlash =>
              cases hValue
              exact ⟨by decide, hSlash.symm⟩
          · cases hValue

/- Every digit takes up one byte. -/
theorem length_utf8EncodeChar_digit
    {c : Char}
    (hDigit : (value? c).isSome) :
    (String.utf8EncodeChar c).length = 1 := by
  rcases Option.isSome_iff_exists.mp hDigit with ⟨value, hValue⟩
  rcases digit_of_value? hValue with ⟨hLess, rfl⟩
  have hAll :
      ∀ number < 64,
        (String.utf8EncodeChar (digit number)).length = 1 := by
    decide
  exact hAll value hLess

end Base64

namespace Text

/- Texts of digits have as many bytes as characters. -/
theorem length_bytes_of_digits
    {chars : List Char}
    (hDigits : ∀ c ∈ chars, (Base64.value? c).isSome) :
    (bytes (String.ofList chars)).length = chars.length := by
  rw [bytes_eq_flatMap, String.toList_ofList]
  induction chars with
  | nil => rfl
  | cons c chars ih =>
      rw [List.forall_mem_cons] at hDigits
      rw [List.flatMap_cons, List.length_append, ih hDigits.2,
        Base64.length_utf8EncodeChar_digit hDigits.1,
        List.length_cons, Nat.add_comm]

theorem bytes_of_toList_eq
    {text : String}
    {left right : List Char}
    (hText : text.toList = left ++ right) :
    bytes text =
      bytes (String.ofList left) ++ bytes (String.ofList right) := by
  simp [bytes_eq_flatMap, hText]

/- A text that begins with the bytes of another begins with it. -/
theorem bytes_prefix_iff
    (front text : String) :
    bytes front <+: bytes text ↔
      front.toList <+: text.toList := by
  constructor
  · rintro ⟨more, hMore⟩
    apply List.isPrefix_of_utf8Encode_append_eq_utf8Encode
      more.toByteArray
    apply ByteArray.ext
    apply Array.toList_inj.mp
    simpa [bytes] using hMore
  · rintro ⟨more, hMore⟩
    refine ⟨more.flatMap String.utf8EncodeChar, ?_⟩
    rw [bytes_eq_flatMap, bytes_eq_flatMap, ← hMore,
      List.flatMap_append]

end Text

------------------------------------------------------------
-- The Number of Digits
------------------------------------------------------------

namespace Vlq

/- A number has no more digits than it has groups of five bits. -/
theorem length_digits_le_iff
    (limit number : Nat) :
    (digits number).length ≤ limit + 1 ↔
      number < 32 ^ (limit + 1) := by
  induction limit generalizing number with
  | zero =>
      by_cases hSmall : number < 32
      · simp [digits_of_lt hSmall, hSmall]
      · have hRest := List.length_pos_iff.mpr
          (digits_ne_nil (number / 32))
        rw [digits_of_le (by omega), List.length_cons]
        omega
  | succ limit ih =>
      by_cases hSmall : number < 32
      · have hPow : 32 ^ 1 ≤ 32 ^ (limit + 1 + 1) :=
          Nat.pow_le_pow_right (by decide) (by omega)
        rw [digits_of_lt hSmall, List.length_singleton]
        omega
      · rw [digits_of_le (by omega), List.length_cons,
          Nat.add_le_add_iff_right, ih, pow_succ 32 (limit + 1)]
        omega

/- Too many digits are not read, whatever follows them. -/
theorem number?_digits_eq_none
    (limit number : Nat)
    (rest : List Char)
    (hNumber : 32 ^ limit ≤ number) :
    number? limit (digits number ++ rest) = none := by
  induction limit generalizing number with
  | zero => rfl
  | succ limit ih =>
      have hPow : 0 < 32 ^ limit := Nat.pow_pos (by decide)
      rw [pow_succ] at hNumber
      have hDigit :
          Base64.value? (Base64.digit (32 + number % 32)) =
            some (32 + number % 32) :=
        Base64.value?_digit (by omega)
      rw [digits_of_le (by omega), List.cons_append, number?,
        hDigit]
      simp only [ih (number / 32) (by omega), Option.map_none]
      rw [if_neg (by omega)]

------------------------------------------------------------
-- Numerals
------------------------------------------------------------

/-
  The five bits of each digit of a number, lowest first. Each
  digit of `front` is followed by another one.
-/
structure Numeral where
  front : List (Fin 32)
  last : Fin 32
deriving DecidableEq, Repr

namespace Numeral

/- The bits of all digits. -/
def bits (numeral : Numeral) : List Nat :=
  (numeral.front ++ [numeral.last]).map Fin.val

/- The number of digits. -/
def length (numeral : Numeral) : Nat :=
  numeral.front.length + 1

/- The digits, with a sixth bit where another one follows. -/
def chars (numeral : Numeral) : List Char :=
  numeral.front.map (fun bits => Base64.digit (32 + bits.val))
    ++ [Base64.digit numeral.last.val]

/- The number that is made up of the bits. -/
def number (numeral : Numeral) : Nat :=
  Nat.ofDigits 32 numeral.bits

/- Half of that number, negative if it is odd. -/
def value (numeral : Numeral) : Int :=
  if numeral.number % 2 = 1 then
    -((numeral.number / 2 : Nat) : Int)
  else ((numeral.number / 2 : Nat) : Int)

/- One more digit before those of a numeral. -/
def cons (bits : Fin 32) (numeral : Numeral) : Numeral :=
  { numeral with front := bits :: numeral.front }

@[simp] theorem length_single
    (last : Fin 32) :
    length ⟨[], last⟩ = 1 := rfl

@[simp] theorem length_cons
    (bits : Fin 32)
    (numeral : Numeral) :
    (cons bits numeral).length = numeral.length + 1 := rfl

theorem chars_cons
    (bits : Fin 32)
    (numeral : Numeral) :
    (cons bits numeral).chars =
      Base64.digit (32 + bits.val) :: numeral.chars := rfl

theorem number_single
    (last : Fin 32) :
    number ⟨[], last⟩ = last.val := by
  simp [number, bits]

theorem number_cons
    (bits : Fin 32)
    (numeral : Numeral) :
    (cons bits numeral).number =
      bits.val + 32 * numeral.number := by
  simp [number, Numeral.bits, cons, Nat.ofDigits_cons]

/- What holds of one digit, and of one more, holds of all numerals. -/
theorem induction
    {motive : Numeral → Prop}
    (single : ∀ last, motive ⟨[], last⟩)
    (cons : ∀ bits numeral,
      motive numeral → motive (numeral.cons bits))
    (numeral : Numeral) :
    motive numeral := by
  rcases numeral with ⟨front, last⟩
  induction front with
  | nil => exact single last
  | cons bits front ih => exact cons bits ⟨front, last⟩ ih

theorem length_chars
    (numeral : Numeral) :
    numeral.chars.length = numeral.length := by
  simp [chars, length]

theorem value?_isSome_of_mem_chars
    {numeral : Numeral}
    {c : Char}
    (hMember : c ∈ numeral.chars) :
    (Base64.value? c).isSome := by
  rw [chars, List.mem_append, List.mem_map,
    List.mem_singleton] at hMember
  rcases hMember with ⟨bits, _, rfl⟩ | rfl
  · rw [Base64.value?_digit (by omega)]
    rfl
  · rw [Base64.value?_digit (by omega)]
    rfl

theorem length_bytes
    (numeral : Numeral) :
    (Text.bytes (String.ofList numeral.chars)).length =
      numeral.length := by
  rw [Text.length_bytes_of_digits
    fun _ => numeral.value?_isSome_of_mem_chars, length_chars]

theorem lt_of_mem_map_val
    {digits : List (Fin 32)}
    {bits : Nat}
    (hMember : bits ∈ digits.map Fin.val) :
    bits < 32 := by
  rcases List.mem_map.mp hMember with ⟨digit, _, rfl⟩
  exact digit.isLt

/- Bits of at most so many digits make up a small number. -/
theorem ofDigits_take_lt
    (numeral : Numeral)
    {limit : Nat}
    (hLength : numeral.length ≤ limit)
    (count : Nat) :
    Nat.ofDigits 32 (numeral.bits.take count) < 32 ^ limit := by
  have hBits :
      ∀ bits ∈ numeral.bits.take count, bits < 32 := by
    intro bits hMember
    exact lt_of_mem_map_val (List.mem_of_mem_take hMember)
  have hTake : (numeral.bits.take count).length ≤ limit := by
    have hAll : numeral.bits.length = numeral.length := by
      simp [Numeral.bits, length]
    rw [List.length_take]
    omega
  exact
    (Nat.ofDigits_lt_base_pow_length (by decide) hBits).trans_le
      (Nat.pow_le_pow_right (by decide) hTake)

theorem number_lt
    (numeral : Numeral)
    {limit : Nat}
    (hLength : numeral.length ≤ limit) :
    numeral.number < 32 ^ limit := by
  have hTake :=
    numeral.ofDigits_take_lt hLength numeral.bits.length
  rwa [List.take_length] at hTake

end Numeral

------------------------------------------------------------
-- Reading Numerals
------------------------------------------------------------

/- A numeral is read as its number, whatever follows it. -/
theorem number?_chars
    (numeral : Numeral)
    {limit : Nat}
    (hLength : numeral.length ≤ limit)
    (rest : List Char) :
    number? limit (numeral.chars ++ rest) =
      some (numeral.number, rest) := by
  induction numeral using Numeral.induction generalizing limit with
  | single last =>
      rcases Nat.exists_eq_add_of_le' hLength with ⟨limit, rfl⟩
      have hDigit :
          Base64.value? (Base64.digit last.val) =
            some last.val :=
        Base64.value?_digit (by omega)
      simp [Numeral.chars, number?, hDigit, Numeral.number_single]
  | cons bits numeral ih =>
      rw [Numeral.length_cons] at hLength
      rcases Nat.exists_eq_add_of_le' hLength with ⟨more, rfl⟩
      have hDigit :
          Base64.value? (Base64.digit (32 + bits.val)) =
            some (32 + bits.val) :=
        Base64.value?_digit (by omega)
      have hRest :
          number? (more + numeral.length) (numeral.chars ++ rest) =
            some (numeral.number, rest) :=
        ih (by omega)
      rw [Numeral.chars_cons, List.cons_append, ← Nat.add_assoc,
        number?, hDigit]
      simp [hRest, Numeral.number_cons]

/- What is read as a number is a numeral. -/
theorem exists_numeral_of_number?
    {limit number : Nat}
    {text rest : List Char}
    (hNumber : number? limit text = some (number, rest)) :
    ∃ numeral : Numeral,
      numeral.length ≤ limit
        ∧ text = numeral.chars ++ rest
        ∧ number = numeral.number := by
  fun_induction number? limit text
      generalizing number rest with
  | case1 => cases hNumber
  | case2 => cases hNumber
  | case3 => cases hNumber
  | case4 limit c tail value hValue hSmall =>
      cases hNumber
      rcases Base64.digit_of_value? hValue with ⟨_, hDigit⟩
      refine ⟨⟨[], ⟨value, hSmall⟩⟩, by simp, ?_, ?_⟩
      · rw [← hDigit]
        rfl
      · rw [Numeral.number_single]
  | case5 limit c tail value hValue hLarge ih =>
      obtain ⟨result, hRest, hResult⟩ :=
        Option.map_eq_some_iff.mp hNumber
      cases hResult
      rcases Base64.digit_of_value? hValue with ⟨hLess, hDigit⟩
      rcases ih hRest with ⟨numeral, hLength, hTail, hTotal⟩
      refine
        ⟨numeral.cons ⟨value - 32, by omega⟩, by simpa using hLength,
          ?_, ?_⟩
      · have hValue : 32 + (value - 32) = value := by omega
        rw [Numeral.chars_cons, hValue, hDigit, hTail,
          List.cons_append]
      · rw [Numeral.number_cons, hTotal]

theorem decode?_eq_some_iff
    {text rest : List Char}
    {value : Int} :
    decode? text = some (value, rest) ↔
      ∃ numeral : Numeral,
        numeral.length ≤ maxDigits
          ∧ text = numeral.chars ++ rest
          ∧ value = numeral.value := by
  rw [decode?, Option.map_eq_some_iff]
  constructor
  · rintro ⟨⟨number, tail⟩, hNumber, hResult⟩
    cases hResult
    rcases exists_numeral_of_number? hNumber with
      ⟨numeral, hLength, hText, rfl⟩
    exact ⟨numeral, hLength, hText, rfl⟩
  · rintro ⟨numeral, hLength, rfl, rfl⟩
    exact
      ⟨(numeral.number, rest), number?_chars numeral hLength rest,
        rfl⟩

/- Numerals one after the other are all read. -/
theorem decodeAll?_flatMap_chars
    (numerals : List Numeral)
    (hLengths :
      ∀ numeral ∈ numerals, numeral.length ≤ maxDigits) :
    decodeAll? (numerals.flatMap Numeral.chars) =
      some (numerals.map Numeral.value) := by
  induction numerals with
  | nil => simp [decodeAll?]
  | cons numeral numerals ih =>
      rw [List.forall_mem_cons] at hLengths
      have hNonempty :
          numeral.chars ++ numerals.flatMap Numeral.chars ≠
            [] := by
        simp [Numeral.chars]
      have hDecode :
          decode?
              (numeral.chars
                ++ numerals.flatMap Numeral.chars) =
            some
              (numeral.value, numerals.flatMap Numeral.chars) :=
        decode?_eq_some_iff.mpr ⟨numeral, hLengths.1, rfl, rfl⟩
      rw [List.flatMap_cons, decodeAll?_eq_bind hNonempty, hDecode,
        Option.bind_some, ih hLengths.2, Option.map_some,
        List.map_cons]

/- A text of numbers only is one numeral after another. -/
theorem decodeAll?_eq_some_iff
    {text : List Char}
    {values : List Int} :
    decodeAll? text = some values ↔
      ∃ numerals : List Numeral,
        (∀ numeral ∈ numerals, numeral.length ≤ maxDigits)
          ∧ text = numerals.flatMap Numeral.chars
          ∧ values = numerals.map Numeral.value := by
  constructor
  · intro hValues
    fun_induction decodeAll? text generalizing values with
    | case1 =>
        cases hValues
        exact ⟨[], by simp⟩
    | case2 => cases hValues
    | case3 c tail value rest hDecode ih =>
        rcases Option.map_eq_some_iff.mp hValues with
          ⟨more, hMore, rfl⟩
        rcases decode?_eq_some_iff.mp hDecode with
          ⟨numeral, hLength, hText, rfl⟩
        rcases ih hMore with ⟨numerals, hLengths, rfl, rfl⟩
        refine ⟨numeral :: numerals, ?_, hText, rfl⟩
        exact List.forall_mem_cons.mpr ⟨hLength, hLengths⟩
  · rintro ⟨numerals, hLengths, rfl, rfl⟩
    exact decodeAll?_flatMap_chars numerals hLengths

------------------------------------------------------------
-- The Shortest Numeral
------------------------------------------------------------

namespace Numeral

/- A last digit without bits does not add to the number. -/
theorem number_lt_of_last_eq_zero
    {numeral : Numeral}
    (hLast : numeral.last = 0) :
    numeral.number < 32 ^ numeral.front.length := by
  have hNumber :
      numeral.number =
        Nat.ofDigits 32 (numeral.front.map Fin.val) := by
    simp [number, bits, hLast, Nat.ofDigits_append_zero]
  rw [hNumber, ← List.length_map Fin.val]
  exact Nat.ofDigits_lt_base_pow_length (by decide)
    fun _ => lt_of_mem_map_val

theorem number_pos
    {numeral : Numeral}
    (hLast : numeral.last ≠ 0) :
    0 < numeral.number := by
  induction numeral using Numeral.induction with
  | single last =>
      rw [number_single]
      exact Fin.pos_iff_ne_zero.mpr hLast
  | cons bits numeral ih =>
      have hRest := ih hLast
      rw [number_cons]
      omega

theorem digits_number_of_last
    {numeral : Numeral}
    (hLast : numeral.length = 1 ∨ numeral.last ≠ 0) :
    digits numeral.number = numeral.chars := by
  induction numeral using Numeral.induction with
  | single last =>
      rw [number_single, digits_of_lt last.isLt]
      rfl
  | cons bits numeral ih =>
      have hNonzero : numeral.last ≠ 0 := by
        rcases hLast with hOne | hNonzero
        · exact absurd hOne (by simp [length, cons])
        · exact hNonzero
      have hPositive := number_pos hNonzero
      have hBits := bits.isLt
      rw [number_cons, digits_of_le (by omega), chars_cons,
        ← ih (Or.inr hNonzero)]
      congr 2
      · omega
      · omega

/-
  The digits that are written for the number of a numeral are
  its own if the last one has bits or stands alone.
-/
theorem digits_number_iff
    (numeral : Numeral) :
    digits numeral.number = numeral.chars ↔
      numeral.length = 1 ∨ numeral.last ≠ 0 := by
  constructor
  · intro hDigits
    by_contra hNot
    rw [not_or, not_not] at hNot
    rcases hNot with ⟨hLong, hLast⟩
    have hLess := number_lt_of_last_eq_zero hLast
    have hFront : 0 < numeral.front.length := by
      unfold length at hLong
      omega
    rcases Nat.exists_eq_add_of_le' hFront with ⟨limit, hLimit⟩
    rw [hLimit, ← length_digits_le_iff, hDigits, length_chars,
      length] at hLess
    omega
  · exact digits_number_of_last

theorem value_eq_unzigzag
    (numeral : Numeral) :
    numeral.value = unzigzag numeral.number := rfl

theorem natAbs_value
    (numeral : Numeral) :
    numeral.value.natAbs = numeral.number / 2 := by
  unfold value
  split
  · rw [Int.natAbs_neg, Int.natAbs_natCast]
  · rw [Int.natAbs_natCast]

/- The negative zero is written like the zero. -/
theorem zigzag_value
    (numeral : Numeral) :
    zigzag numeral.value =
      if numeral.number = 1 then 0 else numeral.number := by
  rw [value_eq_unzigzag]
  unfold zigzag unzigzag
  split <;> split <;> split <;> omega

/- What is written for a numeral is never longer. -/
theorem length_encode_value_le
    (numeral : Numeral) :
    (encode numeral.value).length ≤ numeral.length := by
  have hNumber := numeral.number_lt (Nat.le_refl _)
  have hZigzag : zigzag numeral.value ≤ numeral.number := by
    rw [zigzag_value]
    split <;> omega
  rw [length] at hNumber ⊢
  rw [encode, length_digits_le_iff]
  omega

/- The digits that are written for a number are its numeral. -/
theorem number_of_chars_eq
    {numeral : Numeral}
    {number : Nat}
    (hChars : numeral.chars = digits number) :
    numeral.number = number := by
  have hLength :
      (digits number).length ≤ numeral.front.length + 1 := by
    rw [← hChars, length_chars, length]
  have hDigits :=
    number?_digits numeral.front.length number []
      ((length_digits_le_iff _ _).mp hLength)
  have hRead := number?_chars numeral (Nat.le_refl _) []
  rw [hChars, length, hDigits] at hRead
  cases hRead
  rfl

theorem encode_value_eq_iff
    (numeral : Numeral) :
    encode numeral.value = numeral.chars ↔
      (numeral.length = 1 ∨ numeral.last ≠ 0)
        ∧ numeral.chars ≠ ['B'] := by
  have hOne : digits 1 = ['B'] := digits_of_lt (by decide)
  rw [encode, zigzag_value, ← digits_number_iff, ← hOne]
  by_cases hNegative : numeral.number = 1
  · rw [if_pos hNegative, hNegative]
    constructor
    · intro hZero
      have hNumber := number_of_chars_eq hZero.symm
      omega
    · rintro ⟨hSame, hOther⟩
      exact absurd hSame.symm hOther
  · rw [if_neg hNegative]
    constructor
    · intro hSame
      refine ⟨hSame, ?_⟩
      intro hOther
      exact hNegative (number_of_chars_eq hOther)
    · intro hBoth
      exact hBoth.1

end Numeral

------------------------------------------------------------
-- Reading Bytes
------------------------------------------------------------

/-
  The number at the start of a text, and how many bytes of the
  text it takes up.
-/
def decodeBytes? (text : String) : Option (Int × Nat) :=
  (decode? text.toList).map fun result =>
    (result.1,
      (Text.bytes text).length
        - (Text.bytes (String.ofList result.2)).length)

/- A number takes up a byte for each of its digits. -/
theorem decodeBytes?_of_decode?
    {text : String}
    {digits rest : List Char}
    {value : Int}
    (hText : text.toList = digits ++ rest)
    (hDigits : ∀ c ∈ digits, (Base64.value? c).isSome)
    (hDecode : decode? text.toList = some (value, rest)) :
    decodeBytes? text = some (value, digits.length) := by
  rw [decodeBytes?, hDecode, Text.bytes_of_toList_eq hText,
    List.length_append, Text.length_bytes_of_digits hDigits]
  simp

theorem decodeBytes?_eq_some_iff
    {text : String}
    {value : Int}
    {count : Nat} :
    decodeBytes? text = some (value, count) ↔
      ∃ numeral : Numeral,
        numeral.length ≤ maxDigits
          ∧ numeral.chars <+: text.toList
          ∧ count = numeral.length
          ∧ value = numeral.value := by
  have hNumeral
      {numeral : Numeral}
      {rest : List Char}
      (hLength : numeral.length ≤ maxDigits)
      (hText : text.toList = numeral.chars ++ rest) :
      decodeBytes? text =
        some (numeral.value, numeral.length) := by
    have hDecode :
        decode? text.toList = some (numeral.value, rest) :=
      decode?_eq_some_iff.mpr ⟨numeral, hLength, hText, rfl⟩
    rw [← numeral.length_chars]
    exact decodeBytes?_of_decode? hText
      (fun _ => Numeral.value?_isSome_of_mem_chars) hDecode
  constructor
  · intro hDecode
    rcases Option.map_eq_some_iff.mp hDecode with
      ⟨⟨found, rest⟩, hFound, _⟩
    rcases decode?_eq_some_iff.mp hFound with
      ⟨numeral, hLength, hText, _⟩
    rw [hNumeral hLength hText] at hDecode
    cases hDecode
    exact ⟨numeral, hLength, ⟨rest, hText.symm⟩, rfl, rfl⟩
  · rintro ⟨numeral, hLength, ⟨rest, hText⟩, rfl, rfl⟩
    exact hNumeral hLength hText.symm

/-
  The bytes of the first number can be cut off: what is left
  are the bytes of a text, and the other numbers are those of
  that text.
-/
theorem decodeAll?_of_decodeBytes?
    {text : String}
    {value : Int}
    {count : Nat}
    (hDecode : decodeBytes? text = some (value, count)) :
    1 ≤ count
      ∧ count ≤ (Text.bytes text).length
      ∧ ∃ rest : String,
        (Text.bytes text).drop count = Text.bytes rest
          ∧ decodeAll? text.toList =
            (decodeAll? rest.toList).map (value :: ·) := by
  rcases decodeBytes?_eq_some_iff.mp hDecode with
    ⟨numeral, hLength, ⟨rest, hText⟩, rfl, rfl⟩
  have hNonempty : text.toList ≠ [] := by
    simp [← hText, Numeral.chars]
  have hFirst :
      decode? text.toList = some (numeral.value, rest) :=
    decode?_eq_some_iff.mpr ⟨numeral, hLength, hText.symm, rfl⟩
  have hBytes := Text.bytes_of_toList_eq hText.symm
  refine ⟨Nat.le_add_left 1 _, ?_, String.ofList rest, ?_, ?_⟩
  · rw [hBytes, List.length_append, numeral.length_bytes]
    exact Nat.le_add_right _ _
  · rw [hBytes, ← numeral.length_bytes, List.drop_left]
  · rw [decodeAll?_eq_bind hNonempty, hFirst, Option.bind_some,
      String.toList_ofList]

theorem decodeAll?_of_decodeBytes?_eq_none
    {text : String}
    (hNonempty : text ≠ "")
    (hDecode : decodeBytes? text = none) :
    decodeAll? text.toList = none := by
  have hChars : text.toList ≠ [] := by
    simpa using hNonempty
  have hFirst : decode? text.toList = none := by
    simpa [decodeBytes?] using hDecode
  rw [decodeAll?_eq_bind hChars, hFirst, Option.bind_none]

/-
  The first bytes of a text are those of a numeral, and there
  are not too many of them.
-/
def Numeral.Begins
    (numeral : Numeral)
    (text : String) :
    Prop :=
  numeral.length ≤ maxDigits
    ∧ (Text.bytes text).take numeral.length =
      Text.bytes (String.ofList numeral.chars)

instance
    (numeral : Numeral)
    (text : String) :
    Decidable (numeral.Begins text) := by
  unfold Numeral.Begins
  infer_instance

theorem Numeral.begins_iff
    {numeral : Numeral}
    {text : String} :
    numeral.Begins text ↔
      numeral.length ≤ maxDigits
        ∧ numeral.chars <+: text.toList := by
  have hPrefix :=
    Text.bytes_prefix_iff (String.ofList numeral.chars) text
  rw [String.toList_ofList, List.prefix_iff_eq_take,
    numeral.length_bytes] at hPrefix
  rw [Begins, ← hPrefix, eq_comm (a := List.take _ _)]

------------------------------------------------------------
-- Results
------------------------------------------------------------

/-
  A number whose magnitude is less than `2 ^ 62` has at most
  thirteen digits. It is read back, whatever follows it, if its
  magnitude is less than `2 ^ 59`; otherwise nothing is read. So
  all numbers of a text of such numbers are read back.
-/
theorem decodeBytes?_encode_exact :
    (∀ (value : Int) (rest : String),
        value.natAbs < 2 ^ 62 →
          (encode value).length ≤ 13
            ∧ (value.natAbs ≤ 2 ^ 59 - 1 →
              decodeBytes? (String.ofList (encode value) ++ rest) =
                some (value, (encode value).length))
            ∧ (2 ^ 59 ≤ value.natAbs →
              decodeBytes? (String.ofList (encode value) ++ rest) =
                none))
      ∧ ∀ values : List Int,
          (∀ value ∈ values, value.natAbs ≤ 2 ^ 59 - 1) →
            decodeAll? (values.flatMap encode) = some values := by
  refine ⟨?_, decodeAll?_flatMap_encode⟩
  intro value rest hValue
  have hText :
      (String.ofList (encode value) ++ rest).toList =
        encode value ++ rest.toList := by
    rw [String.toList_append, String.toList_ofList]
  refine ⟨?_, ?_, ?_⟩
  · have hZigzag := zigzag_le value
    rw [encode, length_digits_le_iff 12]
    omega
  · intro hSmall
    apply decodeBytes?_of_decode? hText
    · exact fun _ => value?_isSome_of_mem_encode
    · rw [hText]
      exact decode?_encode value rest.toList hSmall
  · intro hLarge
    have hNumber : 32 ^ maxDigits ≤ zigzag value := by
      unfold maxDigits zigzag
      split <;> omega
    rw [decodeBytes?, hText, decode?, encode,
      number?_digits_eq_none _ _ _ hNumber]
    rfl

/-
  The least number that is read back before a text that begins
  with a digit, the next one, which has a digit more, and three
  numbers in one text.
-/
theorem decodeBytes?_encode_exact_bounds :
    decodeBytes?
          (String.ofList (encode (-576460752303423487)) ++ "/é") =
        some (-576460752303423487, 12)
      ∧ decodeBytes?
          (String.ofList (encode (-576460752303423488)) ++ "/é") =
        none
      ∧ decodeAll?
          ([0, 576460752303423487, -16].flatMap encode) =
        some [0, 576460752303423487, -16] := by
  have hLength : (encode (-576460752303423487)).length = 12 := by
    cbv
  rcases decodeBytes?_encode_exact with ⟨hOne, hAll⟩
  rcases hOne (-576460752303423487) "/é" (by decide) with
    ⟨_, hRead, _⟩
  rcases hOne (-576460752303423488) "/é" (by decide) with
    ⟨_, _, hUnread⟩
  refine ⟨?_, hUnread (by decide), hAll _ (by decide)⟩
  rw [hRead (by decide), hLength]

/-
  What is read from a text is the numeral at its start, and
  nothing if there is none. The bits of a numeral that is read
  never make up a number of more than sixty bits. What is
  written for it is not longer, and the same if its last digit
  has bits or stands alone and it is not the negative zero.
-/
theorem decodeBytes?_iff_numeral
    (text : String) :
    (∀ (value : Int) (count : Nat),
        decodeBytes? text = some (value, count) ↔
          ∃ numeral : Numeral,
            numeral.Begins text
              ∧ count = numeral.length
              ∧ value = numeral.value)
      ∧ (decodeBytes? text = none ↔
        ∀ numeral : Numeral, ¬ numeral.Begins text)
      ∧ ∀ numeral : Numeral, numeral.Begins text →
        (1 ≤ numeral.length ∧ numeral.length ≤ 12)
          ∧ (∀ count,
            Nat.ofDigits 32 (numeral.bits.take count) < 2 ^ 60)
          ∧ numeral.value.natAbs ≤ 2 ^ 59 - 1
          ∧ (encode numeral.value).length ≤ numeral.length
          ∧ (encode numeral.value =
              text.toList.take numeral.length ↔
            (numeral.length = 1 ∨ numeral.last ≠ 0)
              ∧ text.toList.take numeral.length ≠ ['B']) := by
  have hSome (value : Int) (count : Nat) :
      decodeBytes? text = some (value, count) ↔
        ∃ numeral : Numeral,
          numeral.Begins text
            ∧ count = numeral.length
            ∧ value = numeral.value := by
    simp only [decodeBytes?_eq_some_iff, Numeral.begins_iff,
      and_assoc]
  refine ⟨hSome, ?_, ?_⟩
  · rw [Option.eq_none_iff_forall_ne_some]
    constructor
    · intro hNone numeral hBegins
      exact hNone _ ((hSome _ _).mpr ⟨numeral, hBegins, rfl, rfl⟩)
    · rintro hNone ⟨value, count⟩ hDecode
      rcases (hSome value count).mp hDecode with
        ⟨numeral, hBegins, _⟩
      exact hNone numeral hBegins
  · intro numeral hBegins
    rcases Numeral.begins_iff.mp hBegins with ⟨hLength, hPrefix⟩
    have hChars :
        text.toList.take numeral.length = numeral.chars := by
      rw [← numeral.length_chars]
      exact (List.prefix_iff_eq_take.mp hPrefix).symm
    have hNumber := numeral.number_lt hLength
    have hAbs := numeral.natAbs_value
    unfold maxDigits at hLength hNumber
    refine ⟨⟨?_, hLength⟩, ?_, ?_, ?_, ?_⟩
    · exact Nat.le_add_left 1 _
    · exact numeral.ofDigits_take_lt hLength
    · omega
    · exact numeral.length_encode_value_le
    · rw [hChars]
      exact numeral.encode_value_eq_iff

/-
  A numeral of two digits, the last one without bits, before a
  character of two bytes: the zero is written otherwise.
-/
theorem decodeBytes?_iff_numeral_padded :
    Numeral.Begins ⟨[1], 0⟩ "hAé"
      ∧ decodeBytes? "hAé" = some (0, 2)
      ∧ encode 0 ≠ "hAé".toList.take 2 := by
  have hBegins : Numeral.Begins ⟨[1], 0⟩ "hAé" := by decide
  rcases decodeBytes?_iff_numeral "hAé" with
    ⟨hSome, _, hNumeral⟩
  rcases hNumeral ⟨[1], 0⟩ hBegins with ⟨_, _, _, _, hSame⟩
  refine ⟨hBegins, ?_, ?_⟩
  · exact (hSome 0 2).mpr ⟨⟨[1], 0⟩, hBegins, rfl, by decide⟩
  · intro hEncode
    exact absurd (hSame.mp hEncode).1 (by decide)

end Vlq

end TracedScript
