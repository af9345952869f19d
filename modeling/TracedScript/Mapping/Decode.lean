import TracedScript.Mapping

/-
  Reading mappings from their text.

  Key definitions include:
    * `Mapping.Fault`: what is wrong with a segment.
    * `Mapping.Fault.message`
    * `Mapping.decode`
-/

------------------------------------------------------------
-- Faults
------------------------------------------------------------

namespace TracedScript

namespace Mapping

/- Why a segment cannot be read. -/
inductive Cause where
  | invalidVlq
  | fieldCount (count : Nat)
  | outOfRange
deriving DecidableEq, Repr

/- A segment that cannot be read, with its generated line. -/
structure Fault where
  segment : String
  line : Nat
  cause : Cause
deriving DecidableEq, Repr

/- The message for a segment that cannot be read. -/
def Fault.message (fault : Fault) : String :=
  let segment := "segment `" ++ fault.segment ++ "`"
  let place := " on generated line " ++ toString fault.line
  match fault.cause with
  | .invalidVlq => "invalid VLQ data in " ++ segment ++ place
  | .fieldCount count =>
      segment ++ place ++ " has " ++ toString count
        ++ " fields (expected 1, 4 or 5)"
  | .outOfRange =>
      segment ++ place ++ " decodes to a negative position"

------------------------------------------------------------
-- Decoding
------------------------------------------------------------

/- A number within the range of mappings. -/
def inRange? (number : Int) : Option Nat :=
  if 0 ≤ number ∧ number < bound then some number.toNat else none

/- The mapping at some totals, if all of them are in range. -/
def ofTotals?
    (line : Nat)
    (totals : Totals) :
    Option Mapping := do
  let column ← inRange? totals.column
  let source ← inRange? totals.source
  let sourceLine ← inRange? totals.sourceLine
  let sourceColumn ← inRange? totals.sourceColumn
  pure ⟨line, column, source, sourceLine, sourceColumn⟩

/-
  Reads one segment: the totals after it, and its mapping. A
  single number moves the generated column only; a fifth
  number is not used.
-/
def decodeSegment
    (line : Nat)
    (totals : Totals)
    (segment : List Char) :
    Except Fault (Totals × Option Mapping) :=
  let fault (cause : Cause) : Fault :=
    ⟨String.ofList segment, line, cause⟩
  match Vlq.decodeAll? segment with
  | none => .error (fault .invalidVlq)
  | some numbers =>
      match numbers with
      | [column] =>
          .ok ({ totals with column := totals.column + column }, none)
      | column :: source :: sourceLine :: sourceColumn :: more =>
          if 1 < more.length then
            .error (fault (.fieldCount numbers.length))
          else
            let totals : Totals :=
              ⟨totals.column + column,
                totals.source + source,
                totals.sourceLine + sourceLine,
                totals.sourceColumn + sourceColumn⟩
            match ofTotals? line totals with
            | none => .error (fault .outOfRange)
            | some mapping => .ok (totals, some mapping)
      | numbers => .error (fault (.fieldCount numbers.length))

/- Reads the segments of one line; empty ones are passed over. -/
def decodeSegments
    (line : Nat) :
    Totals → List (List Char) →
      Except Fault (Totals × List Mapping)
  | totals, [] => .ok (totals, [])
  | totals, segment :: segments =>
      if segment = [] then decodeSegments line totals segments
      else do
        let (totals, mapping) ← decodeSegment line totals segment
        let (totals, mappings) ←
          decodeSegments line totals segments
        pure (totals, mapping.toList ++ mappings)

/- Reads the lines from a given one on. -/
def decodeLines :
    (line : Nat) → Totals → List (List Char) →
      Except Fault (List Mapping)
  | _, _, [] => .ok []
  | line, totals, text :: texts => do
      let (totals, mappings) ←
        decodeSegments line totals.newLine (text.splitOn ',')
      let more ← decodeLines (line + 1) totals texts
      pure (mappings ++ more)

/- The mappings of a text. -/
def decode (text : String) : Except Fault (List Mapping) :=
  decodeLines 0 .zero (text.toList.splitOn ';')

end Mapping

end TracedScript
