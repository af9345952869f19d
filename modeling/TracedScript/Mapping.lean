import TracedScript.Vlq

/-
  Mappings from generated to source positions, and their
  text.

  Key definitions include:
    * `Mapping`
    * `Mapping.Le`: the order of generated positions.
    * `Mapping.sort`: the stable sort by that order.
    * `Mapping.encode`: the text of a list of mappings.
-/

------------------------------------------------------------
-- Mappings
------------------------------------------------------------

namespace TracedScript

/-
  A generated position and the position in a source that it
  comes from. All numbers count from zero.
-/
structure Mapping where
  generatedLine : Nat
  generatedColumn : Nat
  sourceIndex : Nat
  sourceLine : Nat
  sourceColumn : Nat
deriving DecidableEq, Repr, Inhabited

namespace Mapping

/- The numbers of a mapping stay below `2 ^ 32`. -/
def bound : Nat := 4294967296

/- All numbers of a mapping are below the bound. -/
def InRange (mapping : Mapping) : Prop :=
  mapping.generatedLine < bound
    ∧ mapping.generatedColumn < bound
    ∧ mapping.sourceIndex < bound
    ∧ mapping.sourceLine < bound
    ∧ mapping.sourceColumn < bound

instance
    (mapping : Mapping) :
    Decidable mapping.InRange := by
  unfold InRange
  infer_instance

/- One generated position is not after the other. -/
def Le (left right : Mapping) : Prop :=
  left.generatedLine < right.generatedLine
    ∨ (left.generatedLine = right.generatedLine
      ∧ left.generatedColumn ≤ right.generatedColumn)

instance
    (left right : Mapping) :
    Decidable (Le left right) := by
  unfold Le
  infer_instance

/-
  The mappings in the order of their generated positions;
  mappings of one position keep their order.
-/
def sort (mappings : List Mapping) : List Mapping :=
  mappings.mergeSort fun left right => decide (Le left right)

------------------------------------------------------------
-- Encoding
------------------------------------------------------------

/-
  The numbers from which the next differences are taken: the
  column on the line so far, and the source position.
-/
structure Totals where
  column : Int
  source : Int
  sourceLine : Int
  sourceColumn : Int
deriving DecidableEq, Repr

namespace Totals

/- The totals at the start of a text. -/
def zero : Totals := ⟨0, 0, 0, 0⟩

/- The totals at the start of the next line. -/
def newLine (totals : Totals) : Totals :=
  { totals with column := 0 }

end Totals

/- The numbers of a mapping, apart from its generated line. -/
def totals (mapping : Mapping) : Totals where
  column := mapping.generatedColumn
  source := mapping.sourceIndex
  sourceLine := mapping.sourceLine
  sourceColumn := mapping.sourceColumn

/- The four differences of a mapping. -/
def segment
    (before : Totals)
    (mapping : Mapping) :
    List Char :=
  Vlq.encode (mapping.totals.column - before.column)
    ++ Vlq.encode (mapping.totals.source - before.source)
    ++ Vlq.encode (mapping.totals.sourceLine - before.sourceLine)
    ++ Vlq.encode
      (mapping.totals.sourceColumn - before.sourceColumn)

/-
  The text of sorted mappings, after the text of those up to
  a given line; `fresh` tells that the line has none so far.
-/
def encodeFrom
    (line : Nat)
    (fresh : Bool)
    (before : Totals) :
    List Mapping → List Char
  | [] => []
  | mapping :: mappings =>
      let gap := mapping.generatedLine - line
      let before := if gap = 0 then before else before.newLine
      List.replicate gap ';'
        ++ (if gap = 0 ∧ fresh = false then [','] else [])
        ++ mapping.segment before
        ++ encodeFrom (line + gap) false mapping.totals mappings

/- The text of some mappings: lines end in `;`, segments in `,`. -/
def encode (mappings : List Mapping) : String :=
  String.ofList (encodeFrom 0 true .zero (sort mappings))

end Mapping

end TracedScript
