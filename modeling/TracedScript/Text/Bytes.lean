/-
  The bytes of a text.

  Key definitions include:
    * `Text.bytes` and `Text.ofBytes?`: a text in UTF-8.
    * `Text.lossy`: the text that is shown for any bytes.
    * `Text.units`: the length of bytes in units of UTF-16.
    * `Text.width`: the same, with a short way for ASCII.
-/

------------------------------------------------------------
-- Bytes and Units
------------------------------------------------------------

namespace TracedScript

namespace Text

/- The bytes of a text in UTF-8. -/
def bytes (text : String) : List UInt8 :=
  text.toUTF8.data.toList

/- The text with some bytes in UTF-8, if there is one. -/
def ofBytes? (bytes : List UInt8) : Option String :=
  String.fromUTF8? ⟨bytes.toArray⟩

/- The number of bytes that a character has after its first one. -/
def restLength (first : UInt8) : Nat :=
  if 0xc2 ≤ first ∧ first < 0xe0 then 1
  else if 0xe0 ≤ first ∧ first < 0xf0 then 2
  else if 0xf0 ≤ first ∧ first < 0xf5 then 3
  else 0

/- Whether a byte can be the second one of a character. -/
def isSecond (first second : UInt8) : Bool :=
  let least :=
    if first = 0xe0 then 0xa0
    else if first = 0xf0 then 0x90
    else 0x80
  let bound :=
    if first = 0xed then 0xa0
    else if first = 0xf4 then 0x90
    else 0xc0
  least ≤ second && second < bound

/- Whether a byte can be the third or fourth one of a character. -/
def isLater (byte : UInt8) : Bool :=
  0x80 ≤ byte && byte < 0xc0

/-
  The number of bytes after a first one that may belong to the
  same character, up to the first that may not.
-/
def runLength (first : UInt8) : List UInt8 → Nat
  | [] => 0
  | second :: rest =>
      if restLength first = 0 ∨ ¬ isSecond first second then 0
      else
        ((rest.take (restLength first - 1)).takeWhile
          isLater).length + 1

/-
  The text that is shown for some bytes. What is no character
  is replaced, as far as it could have been the start of one.
-/
def lossy : List UInt8 → String
  | [] => ""
  | first :: rest =>
      let count := runLength first rest
      (ofBytes? (first :: rest.take count)).getD "\ufffd"
        ++ lossy (rest.drop count)
termination_by bytes => bytes.length
decreasing_by
  rw [List.length_drop, List.length_cons]
  omega

/-
  The units of UTF-16 of the character that starts with a
  byte: none if the byte continues a character, two if four
  bytes make up the character.
-/
def byteUnits (byte : UInt8) : Nat :=
  if 0x80 ≤ byte ∧ byte < 0xc0 then 0
  else if 0xf0 ≤ byte then 2
  else 1

/- The number of units of UTF-16 of some bytes. -/
def units (bytes : List UInt8) : Nat :=
  bytes.foldr (fun byte total => byteUnits byte + total) 0

/- A byte that is a character of its own. -/
def isAscii (byte : UInt8) : Bool :=
  byte < 0x80

/-
  The number of units of UTF-16 of some bytes. Where each byte
  is a character of its own, there are as many units as bytes.
-/
def width (bytes : List UInt8) : Nat :=
  if bytes.all isAscii then bytes.length else units bytes

/- The number of units of UTF-16 of a character. -/
def charUnits (c : Char) : Nat :=
  if c.toNat < 0x10000 then 1 else 2

end Text

end TracedScript
