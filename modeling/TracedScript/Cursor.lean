import TracedScript.Text.Bytes

/-
  Places in a generated text.

  Key definitions include:
    * `Cursor`
    * `Cursor.advance`: the place after a text, found from
      its bytes.
    * `Cursor.step`: the place after a character.
-/

------------------------------------------------------------
-- Cursors
------------------------------------------------------------

namespace TracedScript

/-
  A place in a generated text: lines count from one, columns
  count units of UTF-16 from zero. Both are words of 32 bits,
  and begin again from zero when they outgrow them.
-/
structure Cursor where
  line : UInt32
  column : UInt32
deriving DecidableEq, Repr, Inhabited

namespace Cursor

/- The place where a text begins. -/
def start : Cursor := ⟨1, 0⟩

/- The byte that ends a line. -/
def lineFeed : UInt8 := 10

/- What follows the last line feed, if there is one. -/
def lastLine? : List UInt8 → Option (List UInt8)
  | [] => none
  | byte :: rest =>
      match lastLine? rest with
      | some line => some line
      | none => if byte = lineFeed then some rest else none

/- The place after a text that begins at a place. -/
def advance
    (cursor : Cursor)
    (text : String) :
    Cursor :=
  let bytes := Text.bytes text
  match lastLine? bytes with
  | some line =>
      ⟨cursor.line + UInt32.ofNat (bytes.count lineFeed),
        UInt32.ofNat (Text.width line)⟩
  | none =>
      ⟨cursor.line,
        cursor.column + UInt32.ofNat (Text.width bytes)⟩

/- The place after a character that stands at a place. -/
def step
    (cursor : Cursor)
    (c : Char) :
    Cursor :=
  if c = '\n' then ⟨cursor.line + 1, 0⟩
  else
    ⟨cursor.line,
      cursor.column + UInt32.ofNat (Text.charUnits c)⟩

/- One place is not after the other. -/
def Le (left right : Cursor) : Prop :=
  left.line < right.line
    ∨ (left.line = right.line ∧ left.column ≤ right.column)

instance
    (left right : Cursor) :
    Decidable (Le left right) := by
  unfold Le
  infer_instance

end Cursor

end TracedScript
