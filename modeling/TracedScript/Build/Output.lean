import TracedScript.Build.Inputs
import TracedScript.Emission
import TracedScript.Node.Reader

/-
  What a build makes of one input.

  Key definitions include:
    * `Build.Output`: a file to be written.
    * `Build.outputs`: the code and its source map.
    * `Build.compileInput`
-/

------------------------------------------------------------
-- Outputs
------------------------------------------------------------

namespace TracedScript

namespace Build

/- A file to be written. -/
structure Output where
  path : Path
  contents : String
deriving DecidableEq, Repr

/- The name of an input without its ending. -/
def stem (name : String) : String :=
  ((beforeEnding? inputEnding name)
    <|> (beforeEnding? ".json" name)).getD name

/- The rest of a path to a directory after another; empty if it is not inside. -/
def pathInside (base directory : Path) : Name :=
  match Path.stepsBelow? base.names directory.steps with
  | some steps => [Path.slash].intercalate steps
  | none => []

/-
  The directory for the output of an input: that of the input,
  or the same one below the output directory.
-/
def outputDirectory?
    (base : Path)
    (outDir : Option Path)
    (input : Path) :
    Option Path :=
  input.parent?.map fun directory =>
    match outDir with
    | none => directory
    | some outDir => outDir.join (pathInside base directory)

/- The name of the code for an input, if one can be found. -/
def codeName? (input : Path) : Option String :=
  match nameText? input with
  | none => none
  | some name =>
      if stem name = "" then none else some (stem name ++ ".js")

/- The name of the code for an input, and the path to it. -/
def codePath?
    (base : Path)
    (outDir : Option Path)
    (input : Path) :
    Option (String × Path) := do
  let name ← codeName? input
  let directory ← outputDirectory? base outDir input
  pure (name, directory.join (Text.bytes name))

/- A text with one more line. -/
def appendLine
    (text line : String) :
    String :=
  let before :=
    if text = "" ∨ text.toList.getLast? = some '\n' then text
    else text ++ "\n"
  before ++ line ++ "\n"

/- The outputs for the code of an input, with its source map. -/
def outputs
    (options : Options)
    (path : Path)
    (name : String)
    (emission : Emission) :
    List Output :=
  if options.inlineSourceMap then
    [⟨path, appendLine emission.code emission.map.inlineComment⟩]
  else if options.sourceMap then
    let mapName := name ++ ".map"
    [⟨path,
        appendLine emission.code
          (MapBuilder.commentStart ++ mapName)⟩,
      ⟨path.withName (Text.bytes mapName), emission.map.json⟩]
  else [⟨path, emission.code⟩]

------------------------------------------------------------
-- Compiling
------------------------------------------------------------

/- What the options and directories of a build are. -/
structure Context where
  base : Path
  outDir : Option Path
  options : Options
deriving DecidableEq, Repr

/- What comes of one input; a faulty one may have been read. -/
inductive Compiled where
  | done (outputs : List Output)
  | failed (wasRead : Bool) (diagnostic : Diagnostic)
deriving DecidableEq, Repr

/- What is said of an input that is no document. -/
def invalidDocument : Json.Fault → String
  | .malformed => "invalid AST document"
  | .misfit cause => "invalid AST document: " ++ cause.message

/- The diagnostic for a document that has no code. -/
def emitDiagnostic
    (input : String)
    (document : Document) :
    EmitError → Diagnostic
  | .node error =>
      ⟨.error, document.source, some error.position,
        "malformed " ++ error.kind.label ++ " node: "
          ++ error.reason.message⟩
  | .map error => .error input error.message

/- Compiles the text of an input. -/
def compileText
    (context : Context)
    (input : Path)
    (text : String) :
    Compiled :=
  match Document.parse text with
  | .error fault =>
      .failed true (.error input.text (invalidDocument fault))
  | .ok document =>
      match codePath? context.base context.outDir input with
      | none =>
          .failed true
            (.error input.text "cannot derive an output file name")
      | some (name, path) =>
          let options : EmitOptions :=
            { outputFile := name
              map :=
                { sourceRoot := context.options.sourceRoot
                  includeContent :=
                    context.options.inlineSources } }
          match document.emit options with
          | .error error =>
              .failed true
                (emitDiagnostic input.text document error)
          | .ok emission =>
              .done (outputs context.options path name emission)

/- The diagnostic for an input that cannot be read. -/
def unreadable
    (input : Path)
    (reason : String) :
    Compiled :=
  .failed false
    (.error input.text ("cannot read file: " ++ reason))

/- Compiles an input. -/
def compileInput
    (tree : FileTree)
    (context : Context)
    (input : Path) :
    Compiled :=
  match tree.readFile input with
  | .error refusal => unreadable input refusal.text
  | .ok contents =>
      match Text.ofBytes? contents with
      | none =>
          unreadable input "stream did not contain valid UTF-8"
      | some text => compileText context input text

namespace Compiled

/- The outputs of an input. -/
def outputs : Compiled → List Output
  | .done outputs => outputs
  | .failed _ _ => []

/- The diagnostic of an input, if it has one. -/
def diagnostics : Compiled → List Diagnostic
  | .done _ => []
  | .failed _ diagnostic => [diagnostic]

/- Whether an input could be read. -/
def wasRead : Compiled → Bool
  | .done _ => true
  | .failed wasRead _ => wasRead

end Compiled

end Build

end TracedScript
