import TracedScript.Proofs.Base64
import TracedScript.Proofs.VlqNumerals

/-
  Base64 is a regrouping of bits.

  Bytes are read as one row of bits, eight for each byte, and
  every digit stands for the next six of them. The last digit
  is filled up with zero bits, and the last group of four with
  padding.

  Key definitions include:
    * `Text.bits`: the lowest bits of a number.
    * `Base64.alphabet`: the digits in the order of their
      values.
    * `Base64.padding`: how many characters fill up the last
      group.

  Main declarations:
    * `Text.bits_append`: two rows of bits as one.
    * `Base64.exists_values`
    * `Base64.decode?_eq_some_iff`
    * `Base64.chars_append`
    * `Base64.encode_regroups_bits`
-/

------------------------------------------------------------
-- Bits
------------------------------------------------------------

namespace TracedScript

namespace Text

/- The lowest bits of a number, the highest of them first. -/
def bits : (width : Nat) → (value : Nat) → List Bool
  | 0, _ => []
  | width + 1, value => value.testBit width :: bits width value

/- Two rows of bits are the row of one number. -/
theorem bits_append
    (front : Nat)
    {back low : Nat}
    (high : Nat)
    (hLow : low < 2 ^ back) :
    bits front high ++ bits back low =
      bits (front + back) (2 ^ back * high + low) := by
  have hBit := Nat.testBit_two_pow_mul_add high hLow
  induction front with
  | zero =>
      have hSame :
          ∀ width ≤ back,
            bits width low =
              bits width (2 ^ back * high + low) := by
        intro width hWidth
        induction width with
        | zero => rfl
        | succ width ih =>
            rw [bits, bits, hBit, if_pos (by omega), ih (by omega)]
      rw [bits, List.nil_append, Nat.zero_add]
      exact hSame back le_rfl
  | succ front ih =>
      rw [bits, List.cons_append, ih, Nat.succ_add, bits, hBit,
        if_neg (by omega), Nat.add_sub_cancel]

theorem bits_zero
    (width : Nat) :
    bits width 0 = List.replicate width false := by
  induction width with
  | zero => rfl
  | succ width ih =>
      rw [bits, ih, Nat.zero_testBit, List.replicate_succ]

end Text

open Text (bits bits_append bits_zero)

namespace Base64

------------------------------------------------------------
-- Alphabet
------------------------------------------------------------

/- The digits in the order of their values. -/
def alphabet : List Char :=
  ("ABCDEFGHIJKLMNOPQRSTUVWXYZ" ++ "abcdefghijklmnopqrstuvwxyz"
    ++ "0123456789+/").toList

theorem alphabet_eq : alphabet = (List.range 64).map digit := by
  cbv

theorem digit_mem_alphabet
    {value : Nat}
    (hValue : value < 64) :
    digit value ∈ alphabet := by
  rw [alphabet_eq]
  exact List.mem_map_of_mem (List.mem_range.mpr hValue)

theorem nodup_alphabet : alphabet.Nodup := by
  rw [alphabet_eq]
  apply List.nodup_range.map_on
  intro left hLeft right hRight hSame
  rw [List.mem_range] at hLeft hRight
  have hValues := value?_digit hLeft
  rw [hSame, value?_digit hRight] at hValues
  exact (Option.some.inj hValues).symm

/- The value of a digit is its place in the alphabet. -/
theorem idxOf_digit
    {value : Nat}
    (hValue : value < 64) :
    alphabet.idxOf (digit value) = value := by
  have hLength : alphabet.length = 64 := by
    rw [alphabet_eq, List.length_map, List.length_range]
  have hPlace :=
    nodup_alphabet.idxOf_getElem value (hLength ▸ hValue)
  simpa only [alphabet_eq, List.getElem_map,
    List.getElem_range] using hPlace

/- The six bits that a digit stands for. -/
def digitBits (c : Char) : List Bool :=
  bits 6 (alphabet.idxOf c)

/- The eight bits of a byte. -/
def byteBits (byte : UInt8) : List Bool :=
  bits 8 byte.toNat

------------------------------------------------------------
-- Encoding
------------------------------------------------------------

/- How many characters fill up the last group of four. -/
def padding (length : Nat) : Nat :=
  (3 - length % 3) % 3

/-
  The digits of a byte, of two bytes and of three. Both rows of
  bits are those of one number.
-/
theorem bits_digits_one
    (a : Nat) :
    bits 6 (a / 4) ++ bits 6 (a % 4 * 16) =
      bits 8 a ++ bits 4 0 := by
  rw [bits_append 6 _ (by omega), bits_append 8 _ (by omega)]
  congr 1
  omega

theorem bits_digits_two
    (a : Nat)
    {b : Nat}
    (hB : b < 256) :
    bits 6 (a / 4) ++ bits 6 (a % 4 * 16 + b / 16)
        ++ bits 6 (b % 16 * 4) =
      bits 8 a ++ bits 8 b ++ bits 2 0 := by
  rw [bits_append 6 _ (by omega), bits_append 12 _ (by omega),
    bits_append 8 _ (by omega), bits_append 16 _ (by omega)]
  congr 1
  omega

theorem bits_digits_three
    (a : Nat)
    {b c : Nat}
    (hB : b < 256)
    (hC : c < 256) :
    bits 6 (a / 4) ++ bits 6 (a % 4 * 16 + b / 16)
          ++ bits 6 (b % 16 * 4 + c / 64)
        ++ bits 6 (c % 64) =
      bits 8 a ++ bits 8 b ++ bits 8 c := by
  rw [bits_append 6 _ (by omega), bits_append 12 _ (by omega),
    bits_append 18 _ (by omega), bits_append 8 _ (by omega),
    bits_append 16 _ (by omega)]
  congr 1
  omega

/- The digits of some bytes by their values. -/
theorem exists_values
    (bytes : List UInt8) :
    ∃ values : List Nat,
      (∀ value ∈ values, value < 64)
        ∧ chars bytes =
          values.map digit
            ++ List.replicate (padding bytes.length) '='
        ∧ values.flatMap (bits 6) =
          bytes.flatMap byteBits
            ++ List.replicate (2 * padding bytes.length) false := by
  fun_induction chars bytes with
  | case1 => exact ⟨[], List.forall_mem_nil _, rfl, rfl⟩
  | case2 a =>
      have hA := a.toNat_lt
      refine
        ⟨[a.toNat / 4, a.toNat % 4 * 16], ?_, rfl,
          bits_digits_one a.toNat⟩
      simp only [List.forall_mem_cons]
      exact ⟨by omega, by omega, List.forall_mem_nil _⟩
  | case3 a b =>
      have hA := a.toNat_lt
      have hB := b.toNat_lt
      refine
        ⟨[a.toNat / 4, a.toNat % 4 * 16 + b.toNat / 16,
            b.toNat % 16 * 4], ?_, rfl, ?_⟩
      · simp only [List.forall_mem_cons]
        exact
          ⟨by omega, by omega, by omega, List.forall_mem_nil _⟩
      · simpa [byteBits, padding, bits_zero] using
          bits_digits_two a.toNat hB
  | case4 a b c rest ih =>
      have hA := a.toNat_lt
      have hB := b.toNat_lt
      have hC := c.toNat_lt
      rcases ih with ⟨values, hValues, hChars, hBits⟩
      have hPadding :
          padding (a :: b :: c :: rest).length =
            padding rest.length := by
        simp only [padding, List.length_cons]
        omega
      refine
        ⟨a.toNat / 4 :: (a.toNat % 4 * 16 + b.toNat / 16)
            :: (b.toNat % 16 * 4 + c.toNat / 64)
            :: c.toNat % 64 :: values, ?_, ?_, ?_⟩
      · simp only [List.forall_mem_cons]
        exact
          ⟨by omega, by omega, by omega, by omega, hValues⟩
      · rw [hPadding, hChars]
        rfl
      · rw [hPadding]
        simp only [List.flatMap_cons, hBits, ← List.append_assoc]
        rw [bits_digits_three a.toNat hB hC]
        rfl

theorem length_chars
    (bytes : List UInt8) :
    (chars bytes).length = 4 * (bytes.length ⌈/⌉ 3) := by
  rw [Nat.ceilDiv_eq_add_pred_div]
  fun_induction chars bytes with
  | case1 => simp
  | case2 a => simp
  | case3 a b => simp
  | case4 a b c rest ih =>
      simp only [List.length_cons, ih]
      omega

/- Whole groups of three bytes are written on their own. -/
theorem chars_append
    {front : List UInt8}
    (hFront : 3 ∣ front.length)
    (back : List UInt8) :
    chars (front ++ back) = chars front ++ chars back := by
  fun_induction chars front with
  | case1 => rfl
  | case2 a => simp at hFront
  | case3 a b => simp at hFront
  | case4 a b c rest ih =>
      have hRest : 3 ∣ rest.length := by
        simp only [List.length_cons] at hFront
        omega
      simp [chars, ih hRest]

------------------------------------------------------------
-- Decoding
------------------------------------------------------------

theorem toNat_byte
    {number : Nat}
    (hNumber : number < 256) :
    (UInt8.ofNat number).toNat = number :=
  UInt8.toNat_ofNat_of_lt' hNumber

/- Three bytes made of four values are written as these. -/
theorem chars_group
    {p q r s : Nat}
    (rest : List UInt8)
    (hP : p < 64)
    (hQ : q < 64)
    (hR : r < 64)
    (hS : s < 64) :
    chars (group p q r s ++ rest) =
      digit p :: digit q :: digit r :: digit s :: chars rest := by
  have hFirst :
      (UInt8.ofNat (p * 4 + q / 16)).toNat = p * 4 + q / 16 :=
    toNat_byte (by omega)
  have hSecond :
      (UInt8.ofNat (q % 16 * 16 + r / 4)).toNat =
        q % 16 * 16 + r / 4 :=
    toNat_byte (by omega)
  have hThird :
      (UInt8.ofNat (r % 4 * 64 + s)).toNat = r % 4 * 64 + s :=
    toNat_byte (by omega)
  rw [group, List.cons_append, List.cons_append,
    List.cons_append, List.nil_append, chars, hFirst, hSecond,
    hThird]
  congr <;> omega

theorem chars_one
    {p q : Nat}
    (hP : p < 64)
    (hQ : q < 64)
    (hFill : q % 16 = 0) :
    chars ((group p q 0 0).take 1) =
      [digit p, digit q, '=', '='] := by
  have hFirst :
      (UInt8.ofNat (p * 4 + q / 16)).toNat = p * 4 + q / 16 :=
    toNat_byte (by omega)
  rw [group, List.take_succ_cons, List.take_zero, chars, hFirst]
  congr <;> omega

theorem chars_two
    {p q r : Nat}
    (hP : p < 64)
    (hQ : q < 64)
    (hR : r < 64)
    (hFill : r % 4 = 0) :
    chars ((group p q r 0).take 2) =
      [digit p, digit q, digit r, '='] := by
  have hFirst :
      (UInt8.ofNat (p * 4 + q / 16)).toNat = p * 4 + q / 16 :=
    toNat_byte (by omega)
  have hSecond :
      (UInt8.ofNat (q % 16 * 16 + r / 4)).toNat =
        q % 16 * 16 + r / 4 :=
    toNat_byte (by omega)
  rw [group, List.take_succ_cons, List.take_succ_cons,
    List.take_zero, chars, hFirst, hSecond]
  congr <;> omega

/-
  A text that is read is the one that its bytes are written
  as: the padding is where it has to be, and the bits that fill
  up the last digit are zero.
-/
theorem eq_chars_of_bytes?
    {text : List Char}
    {bytes : List UInt8}
    (hBytes : bytes? text = some bytes) :
    text = chars bytes := by
  fun_induction bytes? text generalizing bytes with
  | case1 =>
      cases hBytes
      rfl
  | case2 first second =>
      simp only [Option.bind_eq_bind,
        Option.bind_eq_some_iff] at hBytes
      rcases hBytes with ⟨p, hP, q, hQ, hBytes⟩
      split at hBytes
      · next hFill =>
          cases hBytes
          rcases digit_of_value? hP with ⟨hPLess, rfl⟩
          rcases digit_of_value? hQ with ⟨hQLess, rfl⟩
          exact (chars_one hPLess hQLess hFill).symm
      · cases hBytes
  | case3 first second third _ =>
      simp only [Option.bind_eq_bind,
        Option.bind_eq_some_iff] at hBytes
      rcases hBytes with ⟨p, hP, q, hQ, r, hR, hBytes⟩
      split at hBytes
      · next hFill =>
          cases hBytes
          rcases digit_of_value? hP with ⟨hPLess, rfl⟩
          rcases digit_of_value? hQ with ⟨hQLess, rfl⟩
          rcases digit_of_value? hR with ⟨hRLess, rfl⟩
          exact (chars_two hPLess hQLess hRLess hFill).symm
      · cases hBytes
  | case4 first second third fourth rest _ _ ih =>
      simp only [Option.bind_eq_bind,
        Option.bind_eq_some_iff] at hBytes
      rcases hBytes with
        ⟨p, hP, q, hQ, r, hR, s, hS, more, hMore, hBytes⟩
      cases hBytes
      rcases digit_of_value? hP with ⟨hPLess, rfl⟩
      rcases digit_of_value? hQ with ⟨hQLess, rfl⟩
      rcases digit_of_value? hR with ⟨hRLess, rfl⟩
      rcases digit_of_value? hS with ⟨hSLess, rfl⟩
      rw [ih hMore]
      exact (chars_group more hPLess hQLess hRLess hSLess).symm
  | case5 => cases hBytes

/- Exactly the texts of bytes are read. -/
theorem decode?_eq_some_iff
    (text : String)
    (bytes : List UInt8) :
    decode? text = some bytes ↔ text = encode bytes := by
  constructor
  · intro hBytes
    rw [encode, ← eq_chars_of_bytes? hBytes, String.ofList_toList]
  · rintro rfl
    exact decode?_encode bytes

------------------------------------------------------------
-- Texts
------------------------------------------------------------

/-
  The text of some bytes has four characters for every three of
  them or fewer at the end. All are digits of the alphabet but
  for the padding, and the bits of the digits are those of the
  bytes with two zero bits for each padding. So the bytes are
  read back, no other text is read as these bytes, and whole
  groups of three bytes are written on their own.
-/
theorem encode_regroups_bits :
    (∀ bytes : List UInt8,
        (encode bytes).length = 4 * (bytes.length ⌈/⌉ 3)
          ∧ ∃ digits : List Char,
            (encode bytes).toList =
                digits
                  ++ List.replicate (padding bytes.length) '='
              ∧ (∀ c ∈ digits, c ∈ alphabet)
              ∧ digits.flatMap digitBits =
                bytes.flatMap byteBits
                  ++ List.replicate (2 * padding bytes.length)
                    false)
      ∧ (∀ text bytes,
        decode? text = some bytes ↔ text = encode bytes)
      ∧ Function.Injective encode
      ∧ ∀ front back : List UInt8,
        3 ∣ front.length →
          encode (front ++ back) = encode front ++ encode back := by
  refine ⟨?_, decode?_eq_some_iff, ?_, ?_⟩
  · intro bytes
    rcases exists_values bytes with
      ⟨values, hValues, hChars, hBits⟩
    refine ⟨?_, values.map digit, ?_, ?_, ?_⟩
    · rw [encode, String.length_ofList, length_chars]
    · rw [encode, String.toList_ofList, hChars]
    · rw [List.forall_mem_map]
      intro value hValue
      exact digit_mem_alphabet (hValues value hValue)
    · rw [List.flatMap_map, ← hBits]
      apply List.flatMap_congr
      intro value hValue
      rw [digitBits, idxOf_digit (hValues value hValue)]
  · intro left right hSame
    have hLeft := decode?_encode left
    rw [hSame, decode?_encode right] at hLeft
    exact (Option.some.inj hLeft).symm
  · intro front back hFront
    rw [encode, chars_append hFront, String.ofList_append]
    rfl

/- A group of three bytes and one byte more. -/
def sampleBytes : List UInt8 := [255, 0, 233, 128]

theorem encode_regroups_bits_sample :
    ∃ digits : List Char,
      (encode sampleBytes).toList = digits ++ ['=', '=']
        ∧ (∀ c ∈ digits, c ∈ alphabet)
        ∧ digits.flatMap digitBits =
          sampleBytes.flatMap byteBits
            ++ [false, false, false, false]
        ∧ (encode sampleBytes).length = 8
        ∧ decode? (encode sampleBytes) = some sampleBytes
        ∧ encode sampleBytes =
          encode [255, 0, 233] ++ encode [128] := by
  rcases encode_regroups_bits with ⟨hShape, hRead, _, hGroups⟩
  rcases hShape sampleBytes with
    ⟨hLength, digits, hText, hDigits, hBits⟩
  exact
    ⟨digits, hText, hDigits, hBits, hLength,
      (hRead _ _).mpr rfl,
      hGroups [255, 0, 233] [128] (by decide)⟩

example : encode sampleBytes = "/wDpgA==" := by
  cbv

end Base64

end TracedScript
