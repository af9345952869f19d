import TracedScript.Text.Bytes

/-
  Absolute paths as they are spelled.

  A path is made of bytes, which need not be a text. Joining
  only appends: nothing is simplified, so a spelling with empty
  steps, `.` or `..` stays visible.

  Key definitions include:
    * `Path` and `Location`: a spelling, and a place without
      any such freedom.
    * `Path.join`, `Path.parent?`
    * `Path.names`: the steps that count in comparisons.
    * `Path.fits`: whether a path can lead anywhere.
    * `Path.sort`
-/

------------------------------------------------------------
-- Paths
------------------------------------------------------------

namespace TracedScript

/- A part of a path, as the bytes that are stored. -/
abbrev Name := List UInt8

/- An absolute path: its first byte is a slash. -/
structure Path where
  bytes : Name
deriving DecidableEq, Repr, Inhabited

/- The names that lead from the root to a file or directory. -/
abbrev Location := List Name

namespace Path

/- The path that is spelled as a text. -/
def ofText (text : String) : Path :=
  ⟨Text.bytes text⟩

/- The byte that ends a step. -/
def slash : UInt8 := 0x2f

/- The step that leads back. -/
def upward : Name := [0x2e, 0x2e]

/- A step that leads nowhere. -/
def isInert (step : Name) : Bool :=
  step = [] || step = [0x2e]

/- The parts of a path between its slashes, after the first one. -/
def steps (path : Path) : List Name :=
  (path.bytes.splitOn slash).drop 1

/- The path with the given steps. -/
def ofSteps (steps : List Name) : Path :=
  ⟨slash :: [slash].intercalate steps⟩

/- The steps that lead somewhere. -/
def leading (steps : List Name) : List Name :=
  steps.filter fun step => !isInert step

/- The steps of a path that lead somewhere. -/
def names (path : Path) : List Name :=
  leading path.steps

/- The last step of a path, if it is a name. -/
def fileName? (path : Path) : Option Name :=
  path.names.getLast?.filter fun name => name ≠ upward

/- The number of bytes that a path in use stays below. -/
def lengthLimit : Nat := 4096

/- Whether a path is short enough to lead anywhere. -/
def fits (path : Path) : Bool :=
  path.bytes.length < lengthLimit

/-
  A path followed by more bytes. If they are an absolute path
  they take its place, and else they are set off by one slash.
-/
def join
    (path : Path)
    (more : Name) :
    Path :=
  if more.head? = some slash then ⟨more⟩
  else if path.bytes.getLast? = some slash then
    ⟨path.bytes ++ more⟩
  else ⟨path.bytes ++ slash :: more⟩

/-
  The path without its last name, and without the inert steps
  around it; the root has no parent.
-/
def parent? (path : Path) : Option Path :=
  match path.steps.reverse.dropWhile isInert with
  | [] => none
  | _ :: before =>
      some (ofSteps (before.dropWhile isInert).reverse)

/- A path followed by some names. -/
def extend
    (path : Path)
    (names : List Name) :
    Path :=
  names.foldl join path

/- The path with another last name. -/
def withName
    (path : Path)
    (name : Name) :
    Path :=
  match path.parent? with
  | none => path.join name
  | some parent => parent.join name

/-
  What is left of some steps after the names of a directory,
  if they lead through it by these names.
-/
def stepsBelow? :
    (directory steps : List Name) → Option (List Name)
  | [], [] => some []
  | _ :: _, [] => none
  | directory, step :: steps =>
      if isInert step then stepsBelow? directory steps
      else
        match directory with
        | [] => some (step :: steps)
        | name :: names =>
            if name = step then stepsBelow? names steps else none

/- A path as messages show it. -/
def text (path : Path) : String :=
  Text.lossy path.bytes

------------------------------------------------------------
-- Order
------------------------------------------------------------

/- What names are compared by: going back comes before all. -/
def nameKey (name : Name) : List Nat :=
  if name = upward then [] else name.map UInt8.toNat

/-
  What paths are compared by: names one by one, so that what
  lies in a directory stays together.
-/
def key (path : Path) : List (List Nat) :=
  path.names.map nameKey

/- One path is not after the other. -/
def Le (left right : Path) : Prop :=
  ¬ right.key < left.key

instance
    (left right : Path) :
    Decidable (Le left right) := by
  unfold Le
  infer_instance

/- Leaves out paths with the names of the one before. -/
def dropRepeatsAfter (last : Path) : List Path → List Path
  | [] => []
  | path :: paths =>
      if path.names = last.names then dropRepeatsAfter last paths
      else path :: dropRepeatsAfter path paths

/- Leaves out paths that follow one with the same names. -/
def dropRepeats : List Path → List Path
  | [] => []
  | path :: paths => path :: dropRepeatsAfter path paths

/- The paths in their order, each of them once. -/
def sort (paths : List Path) : List Path :=
  dropRepeats
    (paths.mergeSort fun left right => decide (Le left right))

end Path

------------------------------------------------------------
-- Locations
------------------------------------------------------------

namespace Location

/- The location whose names are texts. -/
def ofTexts (texts : List String) : Location :=
  texts.map Text.bytes

/- The shortest spelling of a location. -/
def path (location : Location) : Path :=
  .ofSteps location

end Location

end TracedScript
