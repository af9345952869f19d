import TracedScript.Build.Failure

/-
  What a build finds: its settings and its inputs.

  The inputs are a set: it does not matter in which order, how
  often or by which spelling their paths are given.

  Key definitions include:
    * `Build.settingsPath`, `Build.readSettings`
    * `Build.roots`: the paths to look for inputs.
    * `Build.inputs`: all inputs in their order.
-/

------------------------------------------------------------
-- Settings
------------------------------------------------------------

namespace TracedScript

namespace Build

/-
  The path of the settings: the file or directory that is
  asked for, or else the file in the working directory, which
  need not be there.
-/
def settingsPath
    (tree : FileTree)
    (cwd : Path) :
    (project : Option Name) → Except Failure (Option Path)
  | none =>
      let path := cwd.join (Text.bytes Settings.fileName)
      if tree.hasFile path then .ok (some (tree.canonical path))
      else .ok none
  | some project =>
      let named := cwd.join project
      let path :=
        if tree.hasDirectory named then
          named.join (Text.bytes Settings.fileName)
        else named
      if (tree.resolve? path).isNone then
        .error (.settingsNotFound path)
      else if tree.hasFile path then
        .ok (some (tree.canonical path))
      else .error (.settingsNotFile path)

/- The settings in the file that a path leads to. -/
def readSettings
    (tree : FileTree)
    (path : Path) :
    Except Failure Settings :=
  match (tree.readFile path).toOption.bind Text.ofBytes? with
  | none => .error (.settingsUnreadable path)
  | some text =>
      (Settings.parse text).mapError (.settingsInvalid path)

------------------------------------------------------------
-- Inputs
------------------------------------------------------------

/- What the names of inputs end in. -/
def inputEnding : String := ".ast.json"

/- What is left of a name before an ending. -/
def beforeEnding?
    (ending name : String) :
    Option String :=
  let count := name.toList.length - ending.toList.length
  if name.toList.drop count = ending.toList then
    some (String.ofList (name.toList.take count))
  else none

/- Whether a file with a name is an input where it is found. -/
def isInputName (name : String) : Bool :=
  match beforeEnding? inputEnding name with
  | none => false
  | some stem => stem ≠ ""

/- The last name of a path, if it is a text. -/
def nameText? (path : Path) : Option String :=
  path.fileName?.bind Text.ofBytes?

/- The inputs that a path names: a file, or those in a directory. -/
def inputsAt
    (tree : FileTree)
    (root : Path) :
    Except Failure (List Path) :=
  match tree.resolve? root with
  | none => .error (.inputNotFound root)
  | some location =>
      if tree.isDirectory location then do
        let found ←
          (tree.search [] root location).mapError
            (.inputsNotSearched root)
        pure
          ((found.filter fun path =>
            (nameText? path).any isInputName).map tree.canonical)
      else .ok [tree.canonical root]

/-
  The paths to look for inputs: those of the command line, or
  else those of the settings, or else the base directory.
-/
def roots
    (request : Request)
    (cwd base : Path)
    (settings : Settings) :
    List Path :=
  if request.files ≠ [] then request.files.map cwd.join
  else
    match settings.files with
    | some files => files.map fun file => base.join (Text.bytes file)
    | none => [base]

/- All inputs in their order, each of them once. -/
def inputs
    (tree : FileTree)
    (roots : List Path) :
    Except Failure (List Path) := do
  let found ← roots.mapM (inputsAt tree)
  pure (Path.sort found.flatten)

end Build

end TracedScript
