import TracedScript.LineGroups
import TracedScript.Node.Compile

/-
  From a document to code and its source map.

  Key definitions include:
    * `EmitOptions`
    * `Emission`
    * `Document.emit`
-/

------------------------------------------------------------
-- Emission
------------------------------------------------------------

namespace TracedScript

/- The name of the output, and what goes into its source map. -/
structure EmitOptions where
  outputFile : String := ""
  map : LineGroups.MapOptions := {}
deriving DecidableEq, Repr

/- The code of a document, its records and its source map. -/
structure Emission where
  code : String
  records : List Record
  map : MapBuilder
deriving DecidableEq, Repr

/- Why a document has no code or no source map. -/
inductive EmitError where
  | node (error : NodeError)
  | map (error : UnknownFile)
deriving DecidableEq, Repr

namespace Document

/- The table of the one source file of a document. -/
def sourceFiles
    (document : Document) :
    FileId × SourceFiles :=
  match document.sourceText with
  | some text => SourceFiles.addText {} document.source text
  | none => SourceFiles.add {} document.source

/- The code of a document with its source map. -/
def emit
    (document : Document)
    (options : EmitOptions) :
    Except EmitError Emission := do
  let (file, table) := document.sourceFiles
  let fragment ←
    (document.program.compile file).mapError .node
  let rendered := fragment.render
  let groups ←
    (LineGroups.assemble table rendered.records).mapError .map
  let map ←
    (groups.mapBuilder options.outputFile table
      options.map).mapError .map
  pure ⟨rendered.code, rendered.records, map⟩

end Document

end TracedScript
