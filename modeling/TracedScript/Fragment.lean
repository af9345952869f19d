import TracedScript.Position

/-
  Pieces of generated text that know where they come from.

  Key definitions include:
    * `Tag`: a position in a source file.
    * `Fragment`: a text or a list of fragments, with or
      without a tag.
    * `Fragment.push`: adding a fragment at the end.
    * `Fragment.pieces`: tags and texts in their order.
-/

------------------------------------------------------------
-- Fragments
------------------------------------------------------------

namespace TracedScript

/- A position in a source file. -/
structure Tag where
  position : Position
  file : FileId
deriving DecidableEq, Repr

/- A tree of texts; a tag tells where the text comes from. -/
inductive Fragment where
  | leaf (tag : Option Tag) (text : String)
  | composite (tag : Option Tag) (children : List Fragment)
deriving Repr

namespace Fragment

/- A text without a tag. -/
def plain (text : String) : Fragment :=
  .leaf none text

/- A text with a tag. -/
def tagged
    (tag : Tag)
    (text : String) :
    Fragment :=
  .leaf (some tag) text

/- Some fragments one after the other, without a tag. -/
def concat (children : List Fragment) : Fragment :=
  .composite none children

/- The fragment without any text. -/
def empty : Fragment :=
  concat []

/-
  Adds a fragment at the end. A text becomes the first of two
  children, and its tag stays with the whole.
-/
def push
    (fragment child : Fragment) :
    Fragment :=
  match fragment with
  | .leaf tag text => .composite tag [plain text, child]
  | .composite tag children => .composite tag (children ++ [child])

/- Adds some fragments at the end, one after the other. -/
def pushAll
    (fragment : Fragment)
    (children : List Fragment) :
    Fragment :=
  children.foldl push fragment

mutual

/- The number of tags in a fragment. -/
def tagCount : Fragment → Nat
  | .leaf tag _ => tag.toList.length
  | .composite tag children =>
      tag.toList.length + tagCounts children

/- The number of tags in some fragments. -/
def tagCounts : List Fragment → Nat
  | [] => 0
  | child :: children => child.tagCount + tagCounts children

end

------------------------------------------------------------
-- Pieces
------------------------------------------------------------

/- A tag, or a text that stands after it. -/
inductive Piece where
  | mark (tag : Tag)
  | text (text : String)
deriving DecidableEq, Repr

mutual

/- The tags and texts of a fragment, each tag before its text. -/
def pieces : Fragment → List Piece
  | .leaf tag text => tag.toList.map .mark ++ [.text text]
  | .composite tag children =>
      tag.toList.map .mark ++ piecesOf children

/- The tags and texts of some fragments. -/
def piecesOf : List Fragment → List Piece
  | [] => []
  | child :: children => child.pieces ++ piecesOf children

end

end Fragment

end TracedScript
