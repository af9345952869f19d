import TracedScript.Build.Output

/-
  Builds: from a tree of files to a tree with outputs.

  All inputs are compiled before anything is written, and
  nothing is written if any of them has an error.

  Key definitions include:
    * `Build.setup`: what the settings ask for.
    * `Build.plan`: all that a build does but writing.
    * `Build.run`
-/

------------------------------------------------------------
-- Plans
------------------------------------------------------------

namespace TracedScript

namespace Build

/- All that a build does but writing. -/
structure Plan where
  diagnostics : List Diagnostic
  read : List Path
  outputs : List Output
  noEmit : Bool
deriving DecidableEq, Repr

namespace Plan

/- Whether any input has an error. -/
def hasErrors (plan : Plan) : Bool :=
  plan.diagnostics.any Diagnostic.isError

/- The files that are to be written. -/
def toWrite (plan : Plan) : List Output :=
  if plan.noEmit || plan.hasErrors then [] else plan.outputs

end Plan

/- Compiles all inputs in their order. -/
def planInputs
    (tree : FileTree)
    (context : Context)
    (warnings : List Diagnostic)
    (inputs : List Path) :
    Plan :=
  let compiled :=
    inputs.map fun input => (input, compileInput tree context input)
  { diagnostics :=
      warnings ++ compiled.flatMap fun pair => pair.2.diagnostics
    read :=
      (compiled.filter fun pair => pair.2.wasRead).map Prod.fst
    outputs := compiled.flatMap fun pair => pair.2.outputs
    noEmit := context.options.noEmit }

/- The plan of a build without inputs. -/
def emptyPlan (warnings : List Diagnostic) : Plan where
  diagnostics := warnings ++ [.error "" "no input files found"]
  read := []
  outputs := []
  noEmit := true

/- What a build knows once its settings are read. -/
structure Setup where
  context : Context
  warnings : List Diagnostic
  roots : List Path
deriving DecidableEq, Repr

/- Finds and reads the settings. -/
def setup
    (tree : FileTree)
    (cwd : Path)
    (request : Request) :
    Except Failure Setup := do
  let cwd := tree.canonical cwd
  let path ← settingsPath tree cwd request.project
  let settings ←
    match path with
    | none => pure {}
    | some path => readSettings tree path
  let base := (path.bind Path.parent?).getD cwd
  let (options, warnings) :=
    (settings.resolved.override request).settle
  pure
    { context := ⟨base, options.outDir.map base.join, options⟩
      warnings
      roots := roots request cwd base settings }

/- Finds the settings and the inputs, and compiles all inputs. -/
def plan
    (tree : FileTree)
    (cwd : Path)
    (request : Request) :
    Except Failure Plan := do
  let setup ← setup tree cwd request
  let inputs ← inputs tree setup.roots
  if inputs = [] then pure (emptyPlan setup.warnings)
  else
    pure (planInputs tree setup.context setup.warnings inputs)

------------------------------------------------------------
-- Running
------------------------------------------------------------

/- What a build has done. -/
structure Result where
  diagnostics : List Diagnostic
  read : List Path
  emitted : List Path
deriving DecidableEq, Repr

/- Whether a build had an error. -/
def Result.hasErrors (result : Result) : Bool :=
  result.diagnostics.any Diagnostic.isError

/- Writes one output, and makes its directory first. -/
def writeOutput
    (tree : FileTree)
    (output : Output) :
    Except Failure FileTree := do
  let tree ←
    match output.path.parent? with
    | none => pure tree
    | some parent =>
        match tree.makeDirectories? parent with
        | none => throw (.directoryNotMade parent)
        | some tree => pure tree
  match tree.writeFile? output.path (Text.bytes output.contents) with
  | none => throw (.fileNotWritten output.path)
  | some tree => pure tree

/-
  Writes outputs one after the other, and stops at the first
  one that cannot be written.
-/
def writeAll :
    FileTree → List Output → FileTree × Except Failure Unit
  | tree, [] => (tree, .ok ())
  | tree, output :: outputs =>
      match writeOutput tree output with
      | .error failure => (tree, .error failure)
      | .ok tree => writeAll tree outputs

/- Runs a build in a working directory: the tree after it, and its result. -/
def run
    (tree : FileTree)
    (cwd : Path)
    (request : Request) :
    FileTree × Except Failure Result :=
  match plan tree cwd request with
  | .error failure => (tree, .error failure)
  | .ok plan =>
      let (tree, written) := writeAll tree plan.toWrite
      (tree,
        written.map fun _ =>
          { diagnostics := plan.diagnostics
            read := plan.read
            emitted := plan.toWrite.map Output.path })

end Build

end TracedScript
