import TracedScript.Cursor
import TracedScript.Fragment

/-
  Generated code with the trace of where it comes from.

  Key definitions include:
    * `Record`: a generated place and its source position.
    * `Fragment.code`: the text of a fragment.
    * `Fragment.records`: a record for each tag.
    * `Fragment.render`
-/

------------------------------------------------------------
-- Records
------------------------------------------------------------

namespace TracedScript

/- A generated place and the tag of the text that begins there. -/
structure Record where
  place : Cursor
  tag : Tag
deriving DecidableEq, Repr

/- Code and its records, in the order of the code. -/
structure Rendered where
  code : String
  records : List Record
deriving DecidableEq, Repr

------------------------------------------------------------
-- Rendering
------------------------------------------------------------

namespace Fragment

/- The text of some pieces. -/
def codeOf : List Piece → String
  | [] => ""
  | .mark _ :: pieces => codeOf pieces
  | .text text :: pieces => text ++ codeOf pieces

/- The records of some pieces, the first of which begins at a place. -/
def recordsFrom
    (cursor : Cursor) :
    List Piece → List Record
  | [] => []
  | .mark tag :: pieces =>
      ⟨cursor, tag⟩ :: recordsFrom cursor pieces
  | .text text :: pieces =>
      recordsFrom (cursor.advance text) pieces

/- The text of a fragment. -/
def code (fragment : Fragment) : String :=
  codeOf fragment.pieces

/- The records of a fragment that begins a text. -/
def records (fragment : Fragment) : List Record :=
  recordsFrom .start fragment.pieces

/- The code of a fragment with its records. -/
def render (fragment : Fragment) : Rendered where
  code := fragment.code
  records := fragment.records

end Fragment

end TracedScript
