import TracedScript.Mapping
import TracedScript.SourceMap
import TracedScript.Text.Bytes

/-
  Source maps that are being built up.

  Key definitions include:
    * `MapBuilder`
    * `MapBuilder.addSource`, `MapBuilder.addContent`,
      `MapBuilder.addMapping`
    * `MapBuilder.sourceMap`: the finished source map.
    * `MapBuilder.inlineComment`: the source map as a comment.
-/

------------------------------------------------------------
-- Builders
------------------------------------------------------------

namespace TracedScript

/-
  A source map that is being built up. The names of the sources
  and their texts stand in two lists, and the number of each
  name in a dictionary, of which an entry hides all entries for
  its name that come after it.
-/
structure MapBuilder where
  file : String
  sourceRoot : Option String := none
  sources : List String := []
  sourcesContent : List (Option String) := []
  sourceIndices : List (String × Nat) := []
  mappings : List Mapping := []
deriving DecidableEq, Repr

namespace MapBuilder

/- Sets the root of the sources. -/
def setRoot
    (builder : MapBuilder)
    (root : String) :
    MapBuilder :=
  { builder with sourceRoot := some root }

/- The number of a source; a new source takes the next one. -/
def addSource
    (builder : MapBuilder)
    (name : String) :
    Nat × MapBuilder :=
  match builder.sourceIndices.lookup name with
  | some index => (index, builder)
  | none =>
      let index := builder.sources.length
      (index,
        { builder with
          sources := builder.sources ++ [name]
          sourcesContent := builder.sourcesContent ++ [none]
          sourceIndices :=
            (name, index) :: builder.sourceIndices })

/- The number of a source whose text is given; the last text stays. -/
def addContent
    (builder : MapBuilder)
    (name content : String) :
    Nat × MapBuilder :=
  let (index, builder) := builder.addSource name
  (index,
    { builder with
      sourcesContent :=
        builder.sourcesContent.set index (some content) })

/- Adds a mapping after all others. -/
def addMapping
    (builder : MapBuilder)
    (mapping : Mapping) :
    MapBuilder :=
  { builder with mappings := builder.mappings ++ [mapping] }

/- The text of the mappings. -/
def encodedMappings (builder : MapBuilder) : String :=
  Mapping.encode builder.mappings

/- The texts of the sources, unless none is known. -/
def contents
    (builder : MapBuilder) :
    Option (List (Option String)) :=
  if builder.sourcesContent.any Option.isSome then
    some builder.sourcesContent
  else none

/- The finished source map. -/
def sourceMap (builder : MapBuilder) : SourceMap where
  version := 3
  file := builder.file
  sourceRoot := builder.sourceRoot
  sources := builder.sources
  sourcesContent := builder.contents
  names := []
  mappings := builder.encodedMappings

/- The text of the finished source map. -/
def json (builder : MapBuilder) : String :=
  builder.sourceMap.write

/- What a comment with a source map starts with. -/
def commentStart : String :=
  "//# sourceMappingURL="

/- What comes before the data of a source map in a comment. -/
def dataStart : String :=
  "data:application/json;base64,"

/- The finished source map as a comment of one line. -/
def inlineComment (builder : MapBuilder) : String :=
  commentStart ++ dataStart
    ++ Base64.encode (Text.bytes builder.json)

end MapBuilder

end TracedScript
