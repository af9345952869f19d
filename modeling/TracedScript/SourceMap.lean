import TracedScript.Json.Reader
import TracedScript.Json.Value

/-
  Source map documents of version 3.

  Key definitions include:
    * `SourceMap`
    * `SourceMap.parse`, `SourceMap.write`
-/

------------------------------------------------------------
-- Documents
------------------------------------------------------------

namespace TracedScript

/- A source map: the mappings are kept as text. -/
structure SourceMap where
  version : UInt32
  file : String
  sourceRoot : Option String
  sources : List String
  sourcesContent : Option (List (Option String))
  names : List String
  mappings : String
deriving DecidableEq, Repr

namespace SourceMap

/- The fields of a source map. -/
def layout : Json.Layout where
  name := "SourceMapDocument"
  keys :=
    ["version", "file", "sourceRoot", "sources",
      "sourcesContent", "names", "mappings"]

/- Reads a source map. -/
def reader : Json.Reader SourceMap :=
  .record layout fun entry =>
    SourceMap.mk
      <$> entry.required "version" .word32
      <*> entry.defaulted "file" .text ""
      <*> entry.optional "sourceRoot" .text
      <*> entry.required "sources" (.list .text)
      <*> entry.optional "sourcesContent" (.list (.optional .text))
      <*> entry.defaulted "names" (.list .text) []
      <*> entry.required "mappings" .text

/- Reads a source map from a text. -/
def parse (text : String) : Except Json.Fault SourceMap :=
  Json.read reader text

/- A source map as a JSON value. -/
def value (map : SourceMap) : Json.Value :=
  .object
    ([("version", .number map.version.toNat),
        ("file", .string map.file)]
      ++ Json.memberIfSome "sourceRoot" .string map.sourceRoot
      ++ [("sources", Json.texts map.sources)]
      ++ Json.memberIfSome "sourcesContent"
          (fun contents =>
            .array (contents.map (Json.orNull .string)))
          map.sourcesContent
      ++ [("names", Json.texts map.names),
        ("mappings", .string map.mappings)])

/- The text of a source map. -/
def write (map : SourceMap) : String :=
  map.value.write

end SourceMap

end TracedScript
