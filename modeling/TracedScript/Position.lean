import TracedScript.Json.Reader
import TracedScript.Json.Value

/-
  Positions in source files.

  Key definitions include:
    * `Position`: a line and a column.
    * `Position.Le`: the order of positions in a text.
    * `Position.reader`, `Position.value`: positions in JSON.
    * `FileId`: the number of a source file.
-/

------------------------------------------------------------
-- Positions
------------------------------------------------------------

namespace TracedScript

/- A place in a source: lines count from one, columns from zero. -/
structure Position where
  line : UInt32
  column : UInt32
deriving DecidableEq, Repr, Inhabited

namespace Position

/- The text of a position. -/
def text (position : Position) : String :=
  toString position.line.toNat ++ ":"
    ++ toString position.column.toNat

/- One position is not after the other. -/
def Le (left right : Position) : Prop :=
  left.line < right.line
    ∨ (left.line = right.line ∧ left.column ≤ right.column)

instance
    (left right : Position) :
    Decidable (Le left right) := by
  unfold Le
  infer_instance

/- Positions in the order in which they stand in a text. -/
def sort (positions : List Position) : List Position :=
  positions.mergeSort fun left right => decide (Le left right)

------------------------------------------------------------
-- Positions in JSON
------------------------------------------------------------

/- The fields of a position. -/
def layout : Json.Layout where
  name := "SourcePosition"
  keys := ["line", "column"]

/- Reads a position. -/
def reader : Json.Reader Position :=
  .record layout fun entry =>
    Position.mk
      <$> entry.required "line" .word32
      <*> entry.required "column" .word32

/- A position as a JSON value. -/
def value (position : Position) : Json.Value :=
  .object
    [("line", .number position.line.toNat),
      ("column", .number position.column.toNat)]

end Position

------------------------------------------------------------
-- File Numbers
------------------------------------------------------------

/- The number of a source file in a table. -/
structure FileId where
  index : UInt32
deriving DecidableEq, Repr, Inhabited

/- The text of a file number. -/
def FileId.text (file : FileId) : String :=
  "#" ++ toString file.index.toNat

end TracedScript
