import TracedScript.Arguments
import TracedScript.Diagnostic
import TracedScript.Json.Tagged
import TracedScript.Path
import TracedScript.Text.Blank

/-
  The settings of a build.

  Key definitions include:
    * `Settings`: a settings file as it is written.
    * `Settings.parse`
    * `Request`: what the command line asks for.
    * `Options`: the options that a build goes by.
    * `Settings.options`, `Options.override`
    * `Options.settle`: options that exclude each other.
-/

------------------------------------------------------------
-- Settings Files
------------------------------------------------------------

namespace TracedScript

/- The options of a settings file; each may be left out. -/
structure RawOptions where
  outDir : Option String := none
  sourceMap : Option Bool := none
  inlineSourceMap : Option Bool := none
  inlineSources : Option Bool := none
  sourceRoot : Option String := none
  noEmit : Option Bool := none
deriving DecidableEq, Repr

/- A settings file. -/
structure Settings where
  options : Option RawOptions := none
  files : Option (List String) := none
deriving DecidableEq, Repr

namespace Settings

/- The name of a settings file. -/
def fileName : String := "quill.json"

/- The words for yes and no, whatever their case. -/
def switchWord? (text : String) : Option Bool :=
  let word := Text.lower (Text.trim text)
  if ["true", "1", "yes", "on"].contains word then some true
  else if ["false", "0", "no", "off"].contains word then some false
  else none

/- Reads a truth value, or a word for it. -/
def switchReader : Json.Reader Bool := fun access draft =>
  if access.admits draft then
    match draft with
    | .bool value => .ok value
    | .string (some text) =>
        match switchWord? text with
        | some value => .ok value
        | none => .error (.misfit (.notBoolean text))
    | _ => .error (.misfit (.noVariant "BoolOrString"))
  else .error .malformed

/- Reads the options of a settings file. -/
def optionsReader : Json.Reader RawOptions :=
  .record
    ⟨"CompilerOptions",
      ["outDir", "sourceMap", "inlineSourceMap",
        "inlineSources", "sourceRoot", "noEmit"]⟩
    fun entry =>
      RawOptions.mk
        <$> entry.optional "outDir" .text
        <*> entry.optional "sourceMap" switchReader
        <*> entry.optional "inlineSourceMap" switchReader
        <*> entry.optional "inlineSources" switchReader
        <*> entry.optional "sourceRoot" .text
        <*> entry.optional "noEmit" switchReader

/- Reads a settings file. -/
def reader : Json.Reader Settings :=
  .record ⟨"QuillConfig", ["compilerOptions", "files"]⟩
    fun entry =>
      Settings.mk
        <$> entry.optional "compilerOptions" optionsReader
        <*> entry.optional "files" (.list .text)

/- Reads a settings file from its text. -/
def parse (text : String) : Except Json.Fault Settings :=
  Json.read reader text

end Settings

------------------------------------------------------------
-- Requests
------------------------------------------------------------

/- What a build is asked for; its paths need not be texts. -/
structure Request where
  project : Option Name := none
  outDir : Option Name := none
  sourceMap : Bool := false
  inlineSourceMap : Bool := false
  inlineSources : Bool := false
  sourceRoot : Option String := none
  noEmit : Bool := false
  files : List Name := []
deriving DecidableEq, Repr

/- What some arguments ask for. -/
def Arguments.request (arguments : Arguments) : Request where
  project := arguments.project.map Text.bytes
  outDir := arguments.outDir.map Text.bytes
  sourceMap := arguments.sourceMap
  inlineSourceMap := arguments.inlineSourceMap
  inlineSources := arguments.inlineSources
  sourceRoot := arguments.sourceRoot
  noEmit := arguments.noEmit
  files := arguments.files.map Text.bytes

------------------------------------------------------------
-- Options
------------------------------------------------------------

/- The options that a build goes by. -/
structure Options where
  outDir : Option Name := none
  sourceMap : Bool := false
  inlineSourceMap : Bool := false
  inlineSources : Bool := false
  sourceRoot : Option String := none
  noEmit : Bool := false
deriving DecidableEq, Repr

namespace Options

/- Whether any source map is written. -/
def writesMap (options : Options) : Bool :=
  options.sourceMap || options.inlineSourceMap

/-
  The options of a settings file. A blank output directory
  counts as none, and switches are off unless turned on.
-/
def ofRaw (raw : RawOptions) : Options where
  outDir :=
    ((raw.outDir.map Text.trim).filter fun directory =>
      directory ≠ "").map Text.bytes
  sourceMap := raw.sourceMap.getD false
  inlineSourceMap := raw.inlineSourceMap.getD false
  inlineSources := raw.inlineSources.getD false
  sourceRoot := raw.sourceRoot
  noEmit := raw.noEmit.getD false

/- What the command line asks for goes before the settings file. -/
def override
    (options : Options)
    (request : Request) :
    Options where
  outDir := request.outDir <|> options.outDir
  sourceMap := request.sourceMap || options.sourceMap
  inlineSourceMap :=
    request.inlineSourceMap || options.inlineSourceMap
  inlineSources := request.inlineSources || options.inlineSources
  sourceRoot := request.sourceRoot <|> options.sourceRoot
  noEmit := request.noEmit || options.noEmit

/- Of two kinds of source maps only the inline one is written. -/
def settleMaps (options : Options) : Options × List Diagnostic :=
  if options.sourceMap && options.inlineSourceMap then
    ({ options with sourceMap := false },
      [.warning
        ("'sourceMap' and 'inlineSourceMap' are both set; "
          ++ "emitting the inline map only")])
  else (options, [])

/- Source texts are not written without a source map. -/
def settleSources (options : Options) : Options × List Diagnostic :=
  if options.inlineSources && !options.writesMap then
    ({ options with inlineSources := false },
      [.warning
        ("'inlineSources' has no effect without "
          ++ "'sourceMap' or 'inlineSourceMap'")])
  else (options, [])

/- Drops options that have no effect, with a warning for each. -/
def settle (options : Options) : Options × List Diagnostic :=
  let (options, first) := options.settleMaps
  let (options, second) := options.settleSources
  (options, first ++ second)

end Options

/- The options of a settings file. -/
def Settings.resolved (settings : Settings) : Options :=
  match settings.options with
  | none => {}
  | some raw => .ofRaw raw

end TracedScript
