/-
  Base64 with padding.

  Key definitions include:
    * `Base64.digit` and `Base64.value?`: the alphabet.
    * `Base64.encode`
    * `Base64.decode?`
-/

------------------------------------------------------------
-- Alphabet
------------------------------------------------------------

namespace TracedScript

namespace Base64

/- The digit of a value below 64. -/
def digit (value : Nat) : Char :=
  if value < 26 then Char.ofNat ('A'.toNat + value)
  else if value < 52 then Char.ofNat ('a'.toNat + (value - 26))
  else if value < 62 then Char.ofNat ('0'.toNat + (value - 52))
  else if value = 62 then '+'
  else '/'

/- The value of a digit. -/
def value? (c : Char) : Option Nat :=
  if 'A' ≤ c ∧ c ≤ 'Z' then some (c.toNat - 'A'.toNat)
  else if 'a' ≤ c ∧ c ≤ 'z' then some (c.toNat - 'a'.toNat + 26)
  else if '0' ≤ c ∧ c ≤ '9' then some (c.toNat - '0'.toNat + 52)
  else if c = '+' then some 62
  else if c = '/' then some 63
  else none

------------------------------------------------------------
-- Encoding
------------------------------------------------------------

/- The digits of some bytes, filled up to groups of four. -/
def chars : List UInt8 → List Char
  | [] => []
  | [a] =>
      [digit (a.toNat / 4), digit (a.toNat % 4 * 16), '=', '=']
  | [a, b] =>
      [digit (a.toNat / 4),
        digit (a.toNat % 4 * 16 + b.toNat / 16),
        digit (b.toNat % 16 * 4), '=']
  | a :: b :: c :: rest =>
      digit (a.toNat / 4)
        :: digit (a.toNat % 4 * 16 + b.toNat / 16)
        :: digit (b.toNat % 16 * 4 + c.toNat / 64)
        :: digit (c.toNat % 64)
        :: chars rest

/- The text of some bytes. -/
def encode (bytes : List UInt8) : String :=
  String.ofList (chars bytes)

------------------------------------------------------------
-- Decoding
------------------------------------------------------------

/- The three bytes of four values. -/
def group (p q r s : Nat) : List UInt8 :=
  [UInt8.ofNat (p * 4 + q / 16),
    UInt8.ofNat (q % 16 * 16 + r / 4),
    UInt8.ofNat (r % 4 * 64 + s)]

/-
  The bytes of some digits. The bits that fill up the last
  digit must be zero.
-/
def bytes? : List Char → Option (List UInt8)
  | [] => some []
  | [p, q, '=', '='] => do
      let p ← value? p
      let q ← value? q
      if q % 16 = 0 then pure ((group p q 0 0).take 1) else none
  | [p, q, r, '='] => do
      let p ← value? p
      let q ← value? q
      let r ← value? r
      if r % 4 = 0 then pure ((group p q r 0).take 2) else none
  | p :: q :: r :: s :: rest => do
      let p ← value? p
      let q ← value? q
      let r ← value? r
      let s ← value? s
      let bytes ← bytes? rest
      pure (group p q r s ++ bytes)
  | _ => none

/- The bytes of a text. -/
def decode? (text : String) : Option (List UInt8) :=
  bytes? text.toList

end Base64

end TracedScript
