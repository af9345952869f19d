/-
  Blank characters and trimming.

  Key definitions include:
    * `Text.isBlank`: the White_Space property of characters.
    * `Text.trim`: a text without its outer blanks.
    * `Text.lower`: a text in lower case, as far as the
      letters of the Latin alphabet go.
-/

------------------------------------------------------------
-- Blank Characters
------------------------------------------------------------

namespace TracedScript

namespace Text

/- The code points with the White_Space property, as ranges. -/
def blankRanges : List (Nat × Nat) :=
  [(0x9, 0xd), (0x20, 0x20), (0x85, 0x85), (0xa0, 0xa0),
   (0x1680, 0x1680), (0x2000, 0x200a), (0x2028, 0x2029),
   (0x202f, 0x202f), (0x205f, 0x205f), (0x3000, 0x3000)]

/- Whether a code point lies in one of some ranges. -/
def inRanges
    (ranges : List (Nat × Nat))
    (point : Nat) :
    Bool :=
  ranges.any fun range =>
    range.1 ≤ point && point ≤ range.2

/- Whether a character is blank. -/
def isBlank (c : Char) : Bool :=
  inRanges blankRanges c.toNat

/- Whether a text has no character that is not blank. -/
def allBlank (text : String) : Bool :=
  text.toList.all isBlank

------------------------------------------------------------
-- Trimming
------------------------------------------------------------

/- The characters without the blanks at both ends. -/
def trimChars (chars : List Char) : List Char :=
  ((chars.dropWhile isBlank).reverse.dropWhile
    isBlank).reverse

/- The text without the blanks at both ends. -/
def trim (text : String) : String :=
  String.ofList (trimChars text.toList)

/- The text with every capital Latin letter made small. -/
def lower (text : String) : String :=
  String.ofList (text.toList.map Char.toLower)

end Text

end TracedScript
