import TracedScript.SourceFiles
import TracedScript.SourceMap.Builder
import TracedScript.Trace

/-
  Records grouped by their generated line.

  Key definitions include:
    * `LineGroups`
    * `LineGroups.assemble`: the groups of some records.
    * `LineGroups.mapBuilder`: the source map of the groups.
-/

------------------------------------------------------------
-- Groups
------------------------------------------------------------

namespace TracedScript

/- The records of one generated line. -/
structure LineGroup where
  line : UInt32
  records : List Record
deriving DecidableEq, Repr

/-
  The records by line, and the files that they refer to in
  the order in which the files first appear.
-/
structure LineGroups where
  groups : List LineGroup
  files : List FileId
deriving DecidableEq, Repr

/- A record that refers to a file that is not in the table. -/
structure UnknownFile where
  file : FileId
deriving DecidableEq, Repr

/- The message for a file that is not in the table. -/
def UnknownFile.message (error : UnknownFile) : String :=
  "mapping refers to unknown source file " ++ error.file.text

namespace LineGroups

/- The records in the order of their generated places. -/
def sort (records : List Record) : List Record :=
  records.mergeSort fun left right =>
    decide (Cursor.Le left.place right.place)

/- Neighbouring records of one line put together. -/
def group : List Record → List LineGroup
  | [] => []
  | record :: records =>
      match group records with
      | [] => [⟨record.place.line, [record]⟩]
      | first :: groups =>
          if first.line = record.place.line then
            ⟨first.line, record :: first.records⟩ :: groups
          else
            ⟨record.place.line, [record]⟩ :: first :: groups

/-
  The groups of some records. The first record that refers to
  an unknown file is reported.
-/
def assemble
    (table : SourceFiles)
    (records : List Record) :
    Except UnknownFile LineGroups :=
  match records.find? fun record =>
      !table.contains record.tag.file with
  | some record => .error ⟨record.tag.file⟩
  | none =>
      .ok
        { groups := group (sort records)
          files :=
            (records.map fun record => record.tag.file).eraseDups }

/- All records, line by line. -/
def records (groups : LineGroups) : List Record :=
  groups.groups.flatMap LineGroup.records

/- The number of records. -/
def count (groups : LineGroups) : Nat :=
  groups.groups.foldr
    (fun group total => group.records.length + total) 0

------------------------------------------------------------
-- Source Maps
------------------------------------------------------------

/- What goes into a source map apart from the mappings. -/
structure MapOptions where
  sourceRoot : Option String := none
  includeContent : Bool := false
deriving DecidableEq, Repr

/- The number of each file among the sources of a source map. -/
abbrev SourceIndices := List (FileId × Nat)

/- Adds the files to a source map, and notes their numbers. -/
def addFiles
    (table : SourceFiles)
    (options : MapOptions) :
    List FileId → MapBuilder × SourceIndices →
      Except UnknownFile (MapBuilder × SourceIndices)
  | [], state => .ok state
  | file :: files, (builder, indices) =>
      match table.get? file with
      | none => .error ⟨file⟩
      | some source =>
          let (index, builder) :=
            match source.text, options.includeContent with
            | some text, true => builder.addContent source.name text
            | _, _ => builder.addSource source.name
          addFiles table options files
            (builder, indices ++ [(file, index)])

/- The mapping of a record: its lines count from zero. -/
def mapping
    (indices : SourceIndices)
    (record : Record) :
    Except UnknownFile Mapping :=
  match indices.lookup record.tag.file with
  | none => .error ⟨record.tag.file⟩
  | some index =>
      .ok
        { generatedLine := record.place.line.toNat - 1
          generatedColumn := record.place.column.toNat
          sourceIndex := index
          sourceLine := record.tag.position.line.toNat - 1
          sourceColumn := record.tag.position.column.toNat }

/- The source map of the groups, for a file with the given name. -/
def mapBuilder
    (groups : LineGroups)
    (outputFile : String)
    (table : SourceFiles)
    (options : MapOptions) :
    Except UnknownFile MapBuilder := do
  let start : MapBuilder :=
    { file := outputFile, sourceRoot := options.sourceRoot }
  let (builder, indices) ←
    addFiles table options groups.files (start, [])
  let mappings ← groups.records.mapM (mapping indices)
  pure { builder with mappings := mappings }

end LineGroups

end TracedScript
