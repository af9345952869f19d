import TracedScript.Proofs.Vlq
import TracedScript.Text.Bytes

/-
  Base64 texts give back the bytes they were made of.

  Main declarations:
    * `Base64.decode?_encode`
    * `Base64.printable_of_mem_encode`: a text in Base64 has
      neither line breaks nor any other control characters.
    * `Text.ofBytes?_bytes`
-/

------------------------------------------------------------
-- Groups of Digits
------------------------------------------------------------

namespace TracedScript

namespace Base64

theorem digit_ne_padding
    {value : Nat}
    (hValue : value < 64) :
    digit value ≠ '=' := by
  intro hPadding
  have hDigit := value?_digit hValue
  rw [hPadding] at hDigit
  cases hDigit

/- Four digits give their three bytes. -/
theorem bytes?_digits
    {p q r s : Nat}
    (rest : List Char)
    (hP : p < 64)
    (hQ : q < 64)
    (hR : r < 64)
    (hS : s < 64) :
    bytes? (digit p :: digit q :: digit r :: digit s :: rest) =
      (bytes? rest).map (group p q r s ++ ·) := by
  rw [bytes?]
  · simp only [value?_digit, hP, hQ, hR, hS]
    cases bytes? rest with
    | none => rfl
    | some bytes => rfl
  · intro _ hPadding _
    exact digit_ne_padding hS hPadding
  · intro hPadding _
    exact digit_ne_padding hS hPadding

theorem bytes?_one
    {p q : Nat}
    (hP : p < 64)
    (hQ : q < 64)
    (hFill : q % 16 = 0) :
    bytes? [digit p, digit q, '=', '='] =
      some [UInt8.ofNat (p * 4 + q / 16)] := by
  rw [bytes?]
  simp only [value?_digit, hP, hQ]
  simp [hFill, group]

theorem bytes?_two
    {p q r : Nat}
    (hP : p < 64)
    (hQ : q < 64)
    (hR : r < 64)
    (hFill : r % 4 = 0) :
    bytes? [digit p, digit q, digit r, '='] =
      some
        [UInt8.ofNat (p * 4 + q / 16),
          UInt8.ofNat (q % 16 * 16 + r / 4)] := by
  rw [bytes?]
  · simp only [value?_digit, hP, hQ, hR]
    simp [hFill, group]
  · exact digit_ne_padding hR

------------------------------------------------------------
-- Texts
------------------------------------------------------------

theorem bytes?_chars
    (bytes : List UInt8) :
    bytes? (chars bytes) = some bytes := by
  fun_induction chars bytes with
  | case1 => rw [bytes?]
  | case2 a =>
      have hA := a.toNat_lt
      rw [bytes?_one (by omega) (by omega) (by omega)]
      have hFirst :
          a.toNat / 4 * 4 + a.toNat % 4 * 16 / 16 = a.toNat := by
        omega
      rw [hFirst, UInt8.ofNat_toNat]
  | case3 a b =>
      have hA := a.toNat_lt
      have hB := b.toNat_lt
      rw [bytes?_two (by omega) (by omega) (by omega) (by omega)]
      have hFirst :
          a.toNat / 4 * 4
            + (a.toNat % 4 * 16 + b.toNat / 16) / 16 =
            a.toNat := by
        omega
      have hSecond :
          (a.toNat % 4 * 16 + b.toNat / 16) % 16 * 16
            + b.toNat % 16 * 4 / 4 =
            b.toNat := by
        omega
      rw [hFirst, hSecond, UInt8.ofNat_toNat, UInt8.ofNat_toNat]
  | case4 a b c rest ih =>
      have hA := a.toNat_lt
      have hB := b.toNat_lt
      have hC := c.toNat_lt
      rw [bytes?_digits (chars rest) (by omega) (by omega)
        (by omega) (by omega), ih, Option.map_some, group]
      have hFirst :
          a.toNat / 4 * 4
            + (a.toNat % 4 * 16 + b.toNat / 16) / 16 =
            a.toNat := by
        omega
      have hSecond :
          (a.toNat % 4 * 16 + b.toNat / 16) % 16 * 16
            + (b.toNat % 16 * 4 + c.toNat / 64) / 4 =
            b.toNat := by
        omega
      have hThird :
          (b.toNat % 16 * 4 + c.toNat / 64) % 4 * 64
            + c.toNat % 64 =
            c.toNat := by
        omega
      rw [hFirst, hSecond, hThird, UInt8.ofNat_toNat,
        UInt8.ofNat_toNat, UInt8.ofNat_toNat]
      rfl

/- Reading a text in Base64 gives the bytes it was made of. -/
theorem decode?_encode
    (bytes : List UInt8) :
    decode? (encode bytes) = some bytes := by
  rw [decode?, encode, String.toList_ofList, bytes?_chars]

end Base64

------------------------------------------------------------
-- Printable Characters
------------------------------------------------------------

/- A character of ASCII that is no control character. -/
def Text.Printable (c : Char) : Prop :=
  0x20 ≤ c.toNat ∧ c.toNat < 0x7f

instance : DecidablePred Text.Printable := fun c =>
  inferInstanceAs (Decidable (0x20 ≤ c.toNat ∧ c.toNat < 0x7f))

namespace Base64

theorem printable_digit
    (value : Nat) :
    Text.Printable (digit value) := by
  have hAll :
      ∀ number < 64, Text.Printable (digit number) := by
    decide
  by_cases hValue : value < 64
  · exact hAll value hValue
  · rw [digit, if_neg (by omega), if_neg (by omega),
      if_neg (by omega), if_neg (by omega)]
    decide

theorem printable_of_mem_chars
    (bytes : List UInt8) :
    ∀ c ∈ chars bytes, Text.Printable c := by
  have hPadding : Text.Printable '=' := by
    decide
  fun_induction chars bytes with
  | case1 => simp
  | case2 a => simp [printable_digit, hPadding]
  | case3 a b => simp [printable_digit, hPadding]
  | case4 a b c rest ih =>
      simp only [List.forall_mem_cons, printable_digit,
        true_and]
      exact ih

/- A text in Base64 has no line breaks. -/
theorem printable_of_mem_encode
    (bytes : List UInt8) :
    ∀ c ∈ (encode bytes).toList, Text.Printable c := by
  rw [encode, String.toList_ofList]
  exact printable_of_mem_chars bytes

end Base64

------------------------------------------------------------
-- Bytes of a Text
------------------------------------------------------------

/- The bytes of a text give the text. -/
theorem Text.ofBytes?_bytes
    (text : String) :
    ofBytes? (bytes text) = some text := by
  have hBytes :
      ofBytes? (bytes text) = String.fromUTF8? text.toUTF8 := by
    rw [ofBytes?, bytes, Array.toArray_toList]
  rw [hBytes, String.fromUTF8?, String.toUTF8_eq_toByteArray,
    dif_pos text.isValidUTF8]
  rfl

/- Only the bytes of a text give it. -/
theorem Text.ofBytes?_eq_some_iff
    {content : List UInt8}
    {text : String} :
    ofBytes? content = some text ↔ content = bytes text := by
  constructor
  · intro hText
    rw [ofBytes?, String.fromUTF8?] at hText
    split at hText
    · cases hText
      rfl
    · cases hText
  · rintro rfl
    exact ofBytes?_bytes text

theorem Text.bytes_inj
    {left right : String} :
    bytes left = bytes right ↔ left = right := by
  rw [← ofBytes?_eq_some_iff, ofBytes?_bytes, Option.some.injEq]

end TracedScript
