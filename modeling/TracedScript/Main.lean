import TracedScript.CommandLine

/-
  The command itself: it loads the files that a build looks
  at, runs the build on them, and writes what has changed.
-/

------------------------------------------------------------
-- Loading
------------------------------------------------------------

namespace TracedScript

namespace Disk

/- Where the name at a location leads to, if it leads anywhere. -/
def target? (location : Location) : IO (Option Path) := do
  try
    let path ← IO.FS.realPath (Location.path location).text
    return some (.ofText path.toString)
  catch _ => return none

mutual

/-
  Adds what is at a location, and all that is in it if asked. A
  link is taken to lead to where it ends, or to itself if it
  leads nowhere.
-/
partial def addLocation
    (deep : Bool)
    (tree : FileTree)
    (location : Location) :
    IO FileTree := do
  let own := Location.path location
  let target := (← target? location).getD ⟨[]⟩
  if target = own then
    let path ← IO.FS.realPath own.text
    let known := (tree.get? location).isSome
    if ← path.isDir then
      let mut tree :=
        if known then tree else tree.addDirectory location
      if deep then
        for entry in ← path.readDir do
          tree ←
            addLocation deep tree
              (location ++ [Text.bytes entry.fileName])
      return tree
    else if known then return tree
    else
      let contents ← IO.FS.readBinFile path
      return tree.addFile location contents.toList
  else if (tree.get? location).isSome then return tree
  else
    let leadsOn := target ≠ ⟨[]⟩
    let link := if leadsOn then target.bytes else own.bytes
    let tree :=
      { tree with
        entries := tree.entries ++ [(location, .link link)] }
    if leadsOn then addSteps true tree [] target.steps
    else return tree

/-
  Adds the directories on the way along some steps, and what
  is at the end of it. A step that leads nowhere ends the way.
-/
partial def addSteps
    (deep : Bool)
    (tree : FileTree)
    (location : Location) :
    List Name → IO FileTree
  | [] => addLocation deep tree location
  | step :: steps => do
      if Path.isInert step then
        addSteps deep tree location steps
      else if step = Path.upward then
        addSteps deep tree location.dropLast steps
      else
        let next := location ++ [step]
        match ← target? next with
        | none => return tree
        | some target =>
            let tree ← addLocation false tree next
            if target = Location.path next then
              addSteps deep tree next steps
            else addSteps deep tree [] (target.steps ++ steps)

end

/- Adds what a path leads to. -/
def addPath
    (deep : Bool)
    (tree : FileTree)
    (path : Path) :
    IO FileTree :=
  addSteps deep tree [] path.steps

/- Loads all that a build in a working directory looks at. -/
def load
    (cwd : Path)
    (request : Request) :
    IO FileTree := do
  let named := cwd.join (request.project.getD [])
  let tree ← addPath false {} cwd
  let tree ← addPath false tree named
  let tree ←
    addPath false tree
      (named.join (Text.bytes Settings.fileName))
  match Build.setup tree cwd request with
  | .error _ => return tree
  | .ok setup =>
      let tree ← setup.roots.foldlM (addPath true) tree
      match setup.context.outDir with
      | none => return tree
      | some outDir => addPath true tree outDir

/- Writes the files that are new or have changed. -/
def store (before after : FileTree) : IO Unit :=
  for (location, contents) in FileTree.changes before after do
    IO.FS.createDirAll (Location.path location.dropLast).text
    IO.FS.writeBinFile (Location.path location).text
      ⟨contents.toArray⟩

------------------------------------------------------------
-- Surroundings
------------------------------------------------------------

/- The variables that the command looks at. -/
def variableNames : List String :=
  ["CLICOLOR", "CLICOLOR_FORCE", "NO_COLOR"]

/- What the command finds apart from files and words. -/
def surroundings : IO CommandLine.Surroundings := do
  let environment ←
    variableNames.filterMapM fun name => do
      let value ← IO.getEnv name
      pure (value.map fun value => (name, value))
  let outputIsTerminal ← (← IO.getStdout).isTty
  let errorsAreTerminal ← (← IO.getStderr).isTty
  pure { environment, outputIsTerminal, errorsAreTerminal }

end Disk

end TracedScript

------------------------------------------------------------
-- The Command
------------------------------------------------------------

open TracedScript in
/- Runs the command with the words of the command line. -/
def main (words : List String) : IO UInt32 := do
  let directory ← IO.currentDir
  let cwd := Path.ofText directory.toString
  let tree ←
    match Arguments.parse words with
    | .error _ => pure {}
    | .ok arguments => Disk.load cwd arguments.request
  let answer :=
    CommandLine.run (← Disk.surroundings) tree cwd words
  Disk.store tree answer.tree
  IO.print answer.output
  IO.eprint answer.errors
  return UInt32.ofNat answer.exitCode
