import TracedScript.Path

/-
  Trees of files, directories and links.

  The contents of files are kept apart from their names, so
  that a file can have several names. A link leads to another
  path when it is met on the way.

  Key definitions include:
    * `FileTree` and `FileTree.WellFormed`
    * `FileTree.reach`: the location that a path leads to.
    * `FileTree.resolve?`, `FileTree.readFile`
    * `FileTree.canonical`: the shortest spelling of a path.
    * `FileTree.makeDirectories?`, `FileTree.writeFile?`
    * `FileTree.changes`: what one tree has that another has
      not.
-/

------------------------------------------------------------
-- Trees
------------------------------------------------------------

namespace TracedScript

/- What a name stands for; a file is known by a number. -/
inductive Entry where
  | file (node : Nat)
  | directory
  | link (target : Name)
deriving DecidableEq, Repr

/- Whether a name leads to another path. -/
def Entry.isLink : Entry → Bool
  | .file _ => false
  | .directory => false
  | .link _ => true

/- The names below the root, and the contents of the files. -/
structure FileTree where
  entries : List (Location × Entry) := []
  nodes : List (List UInt8) := []
deriving DecidableEq, Repr

namespace FileTree

/- What is at a location; the root is a directory. -/
def get?
    (tree : FileTree)
    (location : Location) :
    Option Entry :=
  if location = [] then some .directory
  else tree.entries.lookup location

/- Whether a location is a directory. -/
def isDirectory
    (tree : FileTree)
    (location : Location) :
    Bool :=
  tree.get? location = some .directory

/- The number of the file at a location. -/
def node?
    (tree : FileTree)
    (location : Location) :
    Option Nat :=
  match tree.get? location with
  | some (.file node) => some node
  | _ => none

/- The contents of the file at a location. -/
def contents?
    (tree : FileTree)
    (location : Location) :
    Option (List UInt8) :=
  (tree.node? location).map fun node => tree.nodes[node]?.getD []

/- What is in a directory, by name. -/
def children
    (tree : FileTree)
    (directory : Location) :
    List (Name × Entry) :=
  tree.entries.filterMap fun (location, entry) =>
    match location.getLast? with
    | none => none
    | some name =>
        if location.dropLast = directory then some (name, entry)
        else none

/-
  A tree as a disk can hold it: every location is named once,
  by names that lead somewhere, and lies in a directory.
-/
def WellFormed (tree : FileTree) : Prop :=
  (tree.entries.map Prod.fst).Nodup
    ∧ (∀ location ∈ tree.entries.map Prod.fst,
      location ≠ []
        ∧ (∀ name ∈ location,
          Path.isInert name = false ∧ name ≠ Path.upward
            ∧ Path.slash ∉ name)
        ∧ tree.isDirectory location.dropLast = true)
    ∧ ∀ node ∈ tree.entries.filterMap fun pair =>
        tree.node? pair.1,
      node < tree.nodes.length

instance
    (tree : FileTree) :
    Decidable tree.WellFormed := by
  unfold WellFormed
  infer_instance

/- A tree in which no name is a link. -/
def LinkFree (tree : FileTree) : Prop :=
  ∀ pair ∈ tree.entries, pair.2.isLink = false

instance
    (tree : FileTree) :
    Decidable tree.LinkFree := by
  unfold LinkFree
  infer_instance

------------------------------------------------------------
-- Following Paths
------------------------------------------------------------

/- Why a path leads nowhere. -/
inductive Refusal where
  | missing
  | notDirectory
  | isDirectory
  | tooLong
  | tooManyLinks
deriving DecidableEq, Repr

/- What the system says of a path that leads nowhere. -/
def Refusal.text : Refusal → String
  | .missing => "No such file or directory (os error 2)"
  | .notDirectory => "Not a directory (os error 20)"
  | .isDirectory => "Is a directory (os error 21)"
  | .tooLong => "File name too long (os error 36)"
  | .tooManyLinks =>
      "Too many levels of symbolic links (os error 40)"

/-
  What a path is followed for: to find what is there, to write
  a file, to make a directory, or to spell it out. Only the
  middle two go on to a last name that is not there.
-/
inductive Manner where
  | find
  | write
  | make
  | spell
deriving DecidableEq, Repr

/- Whether the last name of a path may be new. -/
def Manner.allowsNew : Manner → Bool
  | .find => false
  | .write => true
  | .make => true
  | .spell => false

/- The greatest length of a name in bytes. -/
def nameLimit : Nat := 255

/- Whether a file or directory can have a name. -/
def isName (name : Name) : Bool :=
  name.length ≤ nameLimit && !name.contains 0

/-
  Where a name in a directory leads, with some steps after it;
  `onward` is where they lead from there. If it is a link, the
  rest of the way is left to `next`; only a directory to be
  made does not go through a link in its place. Spelling a path
  out looks at every location on the way by its own path.
-/
def enter
    (tree : FileTree)
    (manner : Manner)
    (next : Location → List Name → Except Refusal Location)
    (location : Location)
    (name : Name)
    (steps : List Name)
    (onward : Except Refusal Location) :
    Except Refusal Location :=
  let here := location ++ [name]
  if manner = .spell ∧ (Location.path here).fits = false then
    .error .tooLong
  else
    match tree.get? here with
    | none =>
        if isName name = false then .error .tooLong
        else if manner.allowsNew = true ∧ steps = [] then
          .ok here
        else .error .missing
    | some (.link target) =>
        if manner = .make ∧ steps = [] then .ok here
        else
          next
            (if target.head? = some Path.slash then []
              else location)
            (target.splitOn Path.slash ++ steps)
    | some _ => onward

/-
  Where some steps lead from a location. Every step must start
  in a directory, and two points lead back.
-/
def followWith
    (tree : FileTree)
    (manner : Manner)
    (next : Location → List Name → Except Refusal Location) :
    Location → List Name → Except Refusal Location
  | location, [] => .ok location
  | location, step :: steps =>
      if tree.isDirectory location = false then
        .error .notDirectory
      else if Path.isInert step then
        tree.followWith manner next location steps
      else if step = Path.upward then
        tree.followWith manner next location.dropLast steps
      else
        tree.enter manner next location step steps
          (tree.followWith manner next (location ++ [step]) steps)

/- Where some steps lead through a number of links at most. -/
def follow
    (tree : FileTree)
    (manner : Manner) :
    (links : Nat) →
      Location → List Name → Except Refusal Location
  | 0 =>
      tree.followWith manner fun _ _ => .error .tooManyLinks
  | links + 1 =>
      tree.followWith manner (tree.follow manner links)

/- The number of links that a path can lead through. -/
def linkLimit : Nat := 40

/-
  The location that a path leads to. A path that is too long
  leads nowhere, unless it is only spelled out: that is done
  step by step.
-/
def reach
    (tree : FileTree)
    (manner : Manner)
    (path : Path) :
    Except Refusal Location :=
  if manner = .spell || path.fits then
    tree.follow manner linkLimit [] path.steps
  else .error .tooLong

/- The location of the file or directory that a path leads to. -/
def resolve?
    (tree : FileTree)
    (path : Path) :
    Option Location :=
  (tree.reach .find path).toOption

/- The contents of the file that a path leads to. -/
def readFile
    (tree : FileTree)
    (path : Path) :
    Except Refusal (List UInt8) := do
  let location ← tree.reach .find path
  match tree.contents? location with
  | none => .error .isDirectory
  | some contents => .ok contents

/- Whether a path leads to a directory. -/
def hasDirectory
    (tree : FileTree)
    (path : Path) :
    Bool :=
  (tree.resolve? path).any tree.isDirectory

/- Whether a path leads to a file. -/
def hasFile
    (tree : FileTree)
    (path : Path) :
    Bool :=
  (tree.resolve? path).any fun location =>
    (tree.node? location).isSome

/- The shortest spelling of a path, if it can be spelled out. -/
def canonical
    (tree : FileTree)
    (path : Path) :
    Path :=
  match tree.reach .spell path with
  | .ok location => Location.path location
  | .error _ => path

------------------------------------------------------------
-- Writing
------------------------------------------------------------

/- A tree with one more directory. -/
def addDirectory
    (tree : FileTree)
    (location : Location) :
    FileTree :=
  { tree with entries := tree.entries ++ [(location, .directory)] }

/- A tree with one more file. -/
def addFile
    (tree : FileTree)
    (location : Location)
    (contents : List UInt8) :
    FileTree where
  entries := tree.entries ++ [(location, .file tree.nodes.length)]
  nodes := tree.nodes ++ [contents]

/- A tree in which a file has other contents, by all its names. -/
def setContents
    (tree : FileTree)
    (node : Nat)
    (contents : List UInt8) :
    FileTree :=
  { tree with nodes := tree.nodes.set node contents }

/- Makes a directory, if it is not there. -/
def makeDirectory?
    (tree : FileTree)
    (path : Path) :
    Option FileTree :=
  if tree.hasDirectory path then some tree
  else
    match tree.reach .make path with
    | .error _ => none
    | .ok location =>
        match tree.get? location with
        | none => some (tree.addDirectory location)
        | some _ => none

/- Makes the directories along some steps, one after the other. -/
def makeAlong? :
    FileTree → (passed steps : List Name) → Option FileTree
  | tree, _, [] => some tree
  | tree, passed, step :: steps => do
      let tree ← tree.makeDirectory? (.ofSteps (passed ++ [step]))
      makeAlong? tree (passed ++ [step]) steps

/- Makes a directory and all directories on the way to it. -/
def makeDirectories?
    (tree : FileTree)
    (path : Path) :
    Option FileTree :=
  makeAlong? tree [] path.steps

/- Writes a file into a directory that is there. -/
def writeFile?
    (tree : FileTree)
    (path : Path)
    (contents : List UInt8) :
    Option FileTree :=
  match tree.reach .write path with
  | .error _ => none
  | .ok location =>
      match tree.get? location with
      | none => some (tree.addFile location contents)
      | some (.file node) => some (tree.setContents node contents)
      | some _ => none

/- The files of a tree that another does not have as they are. -/
def changes
    (before after : FileTree) :
    List (Location × List UInt8) :=
  after.entries.filterMap fun (location, _) =>
    match after.contents? location with
    | none => none
    | some contents =>
        if before.contents? location = some contents then none
        else some (location, contents)

end FileTree

end TracedScript
