import TracedScript.Proofs.Emission
import TracedScript.Proofs.FileRuns
import TracedScript.Proofs.GroupedRecords

/-
  The sources of a source map are the files of its groups.

  A file is known by its number in a table, by its place among
  the files of the groups, and by its number among the sources
  of the source map. The last two are the same, since no two
  files of a table have one name.

  Key definitions include:
    * `MapBuilder.ofSources`: a source map of some files.
    * `Record.mappingAmong`: what a source map of several files
      says of a record.
    * `LineGroups.FirstUnknown`: the first file that a table
      does not have.
    * `LineGroups.Indexes`: a source map of some groups.

  Main declarations:
    * `LineGroups.addFiles_known`
    * `LineGroups.FirstUnknown.addFiles_eq`
    * `LineGroups.mapBuilder_known`
    * `LineGroups.indexes_sourceMapOf`
    * `LineGroups.mapBuilder_indexes_files`
-/

------------------------------------------------------------
-- Adding Files
------------------------------------------------------------

namespace TracedScript

/- What a source map has as the text of a file. -/
def SourceFile.content
    (options : LineGroups.MapOptions)
    (source : SourceFile) :
    Option String :=
  if options.includeContent then source.text else none

namespace MapBuilder

/- A source map of some files, without mappings. -/
def ofSources
    (outputFile : String)
    (options : LineGroups.MapOptions)
    (sources : List SourceFile) :
    MapBuilder where
  file := outputFile
  sourceRoot := options.sourceRoot
  sources := sources.map SourceFile.name
  sourcesContent := sources.map (SourceFile.content options)
  sourceIndices := (sources.map SourceFile.name).zipIdx.reverse

/- A file with a new name is added last. -/
theorem addSource_ofSources
    {sources : List SourceFile}
    {name : String}
    (hDistinct : (sources.map SourceFile.name).Nodup)
    (hNew : name ∉ sources.map SourceFile.name)
    (outputFile : String)
    (options : LineGroups.MapOptions) :
    (ofSources outputFile options sources).addSource name =
      (sources.length,
        { ofSources outputFile options sources with
          sources := sources.map SourceFile.name ++ [name]
          sourcesContent :=
            sources.map (SourceFile.content options) ++ [none]
          sourceIndices :=
            (name, sources.length)
              :: (sources.map SourceFile.name).zipIdx.reverse }) := by
  have hIndexes := Dictionary.indexes_zipIdx hDistinct
  have hLookup :
      (ofSources outputFile options sources).sourceIndices.lookup
          name =
        none :=
    (hIndexes.lookup_eq_none_iff name).mpr hNew
  rw [addSource, hLookup]
  simp [ofSources]

end MapBuilder

namespace LineGroups

variable {table : SourceFiles} {options : MapOptions}
variable {indices : SourceIndices} {outputFile : String}
variable {file : FileId} {files : List FileId}

theorem addFiles_cons_new
    {source : SourceFile}
    {sources : List SourceFile}
    (hSource : table.get? file = some source)
    (hDistinct : (sources.map SourceFile.name).Nodup)
    (hNew : source.name ∉ sources.map SourceFile.name) :
    addFiles table options (file :: files)
        (MapBuilder.ofSources outputFile options sources,
          indices) =
      addFiles table options files
        (MapBuilder.ofSources outputFile options
            (sources ++ [source]),
          indices ++ [(file, sources.length)]) := by
  have hAdd :=
    MapBuilder.addSource_ofSources hDistinct hNew outputFile
      options
  rcases source with ⟨name, text⟩
  rcases options with ⟨root, includeContent⟩
  rw [addFiles, hSource]
  cases text with
  | none =>
      simp only [hAdd]
      simp [MapBuilder.ofSources, SourceFile.content,
        List.zipIdx_append]
  | some text =>
      cases includeContent with
      | false =>
          simp only [hAdd]
          simp [MapBuilder.ofSources, SourceFile.content,
            List.zipIdx_append]
      | true =>
          simp only [MapBuilder.addContent, hAdd]
          simp [MapBuilder.ofSources, SourceFile.content,
            List.zipIdx_append]

/-
  Files with different names are added one after the other, and
  get the numbers after those in use.
-/
theorem addFiles_known
    {sources more : List SourceFile}
    (hMore : files.map table.get? = more.map some)
    (hDistinct : ((sources ++ more).map SourceFile.name).Nodup) :
    addFiles table options files
        (MapBuilder.ofSources outputFile options sources,
          indices) =
      .ok
        (MapBuilder.ofSources outputFile options (sources ++ more),
          indices ++ files.zipIdx sources.length) := by
  induction files generalizing indices sources more with
  | nil =>
      rw [List.map_nil, eq_comm, List.map_eq_nil_iff] at hMore
      subst hMore
      simp [addFiles]
  | cons file files ih =>
      cases more with
      | nil => cases hMore
      | cons source more =>
          rw [List.map_cons, List.map_cons,
            List.cons.injEq] at hMore
          rw [List.append_cons] at hDistinct
          have hNodup := hDistinct
          rw [List.map_append, List.map_append] at hNodup
          have hFront := hNodup.of_append_left
          rw [List.map_singleton, List.nodup_append] at hFront
          have hNew :
              source.name ∉ sources.map SourceFile.name := by
            intro hName
            exact hFront.2.2 _ hName _
              (List.mem_singleton_self _) rfl
          rw [addFiles_cons_new hMore.1 hFront.1 hNew,
            ih hMore.2 hDistinct]
          simp [List.zipIdx_cons]

/- A file that is known does not keep the others from being added. -/
theorem exists_addFiles_cons
    (hKnown : table.contains file = true)
    (files : List FileId)
    (state : MapBuilder × SourceIndices) :
    ∃ next,
      addFiles table options (file :: files) state =
        addFiles table options files next := by
  rw [SourceFiles.contains_iff_isSome_get?,
    Option.isSome_iff_exists] at hKnown
  rcases hKnown with ⟨source, hSource⟩
  rcases state with ⟨builder, indices⟩
  rw [addFiles, hSource]
  exact ⟨_, rfl⟩

/- The first of some files that a table does not have. -/
def FirstUnknown
    (table : SourceFiles)
    (files : List FileId)
    (file : FileId) : Prop :=
  ∃ before after,
    files = before ++ file :: after
      ∧ (∀ earlier ∈ before, table.contains earlier = true)
      ∧ table.contains file = false

/- All files are known, or there is a first one that is not. -/
theorem known_or_unknown
    (table : SourceFiles)
    (files : List FileId) :
    (∀ file ∈ files, table.contains file = true)
      ∨ ∃ file, FirstUnknown table files file := by
  cases hFind : files.find? fun file => !table.contains file with
  | none =>
      refine .inl ?_
      simpa using List.find?_eq_none.mp hFind
  | some file =>
      rcases List.find?_eq_some_iff_append.mp hFind with
        ⟨hUnknown, before, after, hFiles, hBefore⟩
      refine .inr ⟨file, before, after, hFiles, ?_, ?_⟩
      · simpa using hBefore
      · simpa using hUnknown

/- The first unknown file is the one reported. -/
theorem FirstUnknown.addFiles_eq
    (hFirst : FirstUnknown table files file)
    (options : MapOptions)
    (state : MapBuilder × SourceIndices) :
    addFiles table options files state = .error ⟨file⟩ := by
  rcases hFirst with ⟨before, after, rfl, hBefore, hFile⟩
  induction before generalizing state with
  | nil =>
      have hNone : table.get? file = none := by
        simpa [SourceFiles.contains, SourceFiles.get?] using hFile
      rcases state with ⟨builder, indices⟩
      rw [List.nil_append, addFiles, hNone]
  | cons earlier before ih =>
      rw [List.forall_mem_cons] at hBefore
      rcases exists_addFiles_cons hBefore.1
          (before ++ file :: after) state with
        ⟨next, hNext⟩
      rw [List.cons_append, hNext]
      exact ih next hBefore.2

/- Files are added only if all of them are known. -/
theorem known_of_addFiles
    {state next : MapBuilder × SourceIndices}
    (hAdd : addFiles table options files state = .ok next) :
    ∀ file ∈ files, table.contains file = true := by
  rcases known_or_unknown table files with
    hKnown | ⟨file, hFirst⟩
  · exact hKnown
  · rw [hFirst.addFiles_eq] at hAdd
    cases hAdd

------------------------------------------------------------
-- Known Files
------------------------------------------------------------

/- The files with some numbers. -/
def sourcesOf
    (table : SourceFiles)
    (files : List FileId) :
    List SourceFile :=
  files.filterMap table.get?

theorem map_get?_eq
    (hKnown : ∀ file ∈ files, table.contains file = true) :
    files.map table.get? = (sourcesOf table files).map some := by
  unfold sourcesOf
  induction files with
  | nil => rfl
  | cons file files ih =>
      rw [List.forall_mem_cons,
        SourceFiles.contains_iff_isSome_get?,
        Option.isSome_iff_exists] at hKnown
      rcases hKnown with ⟨⟨source, hSource⟩, hRest⟩
      rw [List.map_cons, ih hRest,
        List.filterMap_cons_some hSource, hSource,
        List.map_cons]

theorem map_name_sourcesOf
    (hKnown : ∀ file ∈ files, table.contains file = true) :
    ((sourcesOf table files).map SourceFile.name).map some =
      files.map table.name? := by
  have hFiles := map_get?_eq hKnown
  calc
    ((sourcesOf table files).map SourceFile.name).map some =
        ((sourcesOf table files).map some).map
          (Option.map SourceFile.name) := by
      simp
    _ = files.map table.name? := by
      rw [← hFiles, List.map_map]
      rfl

/- Different files of a table have different names. -/
theorem nodup_name_sourcesOf
    (hTable : table.Mirrors)
    (hNodup : files.Nodup)
    (hKnown : ∀ file ∈ files, table.contains file = true) :
    ((sourcesOf table files).map SourceFile.name).Nodup := by
  apply List.Nodup.of_map some
  rw [map_name_sourcesOf hKnown]
  apply hNodup.map_on
  intro left hLeft right _ hSame
  have hThere := hKnown left hLeft
  rw [SourceFiles.contains_iff_isSome_get?,
    Option.isSome_iff_exists] at hThere
  rcases hThere with ⟨source, hSource⟩
  have hName : table.name? left = some source.name := by
    rw [SourceFiles.name?, hSource, Option.map_some]
  exact hTable.eq_of_name? hName (hSame ▸ hName)

/- The number of a file is its place among the files. -/
theorem lookup_zipIdx
    (hFile : file ∈ files)
    (start : Nat) :
    (files.zipIdx start).lookup file =
      some (start + files.idxOf file) := by
  induction files generalizing start with
  | nil => cases hFile
  | cons first files ih =>
      rw [List.zipIdx_cons]
      by_cases hFirst : file = first
      · simp [hFirst]
      · have hRest : file ∈ files := by
          simpa [hFirst] using hFile
        have hOther : (file == first) = false :=
          beq_eq_false_iff_ne.mpr hFirst
        rw [List.lookup_cons, hOther,
          List.idxOf_cons_ne files (Ne.symm hFirst)]
        simp only [ih hRest, Nat.add_assoc, Nat.add_comm 1]

end LineGroups

------------------------------------------------------------
-- Mappings
------------------------------------------------------------

/- The mapping of a record whose file is one of several. -/
def Record.mappingAmong
    (files : List FileId)
    (record : Record) :
    Mapping :=
  { record.mapping with
    sourceIndex := files.idxOf record.tag.file }

namespace LineGroups

variable {table : SourceFiles} {options : MapOptions}
variable {groups : LineGroups}

theorem mapping_zipIdx
    {files : List FileId}
    {record : Record}
    (hFile : record.tag.file ∈ files) :
    mapping files.zipIdx record =
      .ok (record.mappingAmong files) := by
  rw [mapping, lookup_zipIdx hFile 0, Nat.zero_add]
  rfl

/- Files have words as numbers, so their places are words too. -/
theorem idxOf_lt_bound
    {files : List FileId}
    {file : FileId}
    (hNodup : files.Nodup)
    (hFile : file ∈ files) :
    files.idxOf file < Mapping.bound := by
  have hIndices :
      (files.map fun other => other.index.toNat).Nodup := by
    apply hNodup.map
    intro left right hSame
    exact congrArg FileId.mk (UInt32.toNat_inj.mp hSame)
  have hSubset :
      (files.map fun other => other.index.toNat) ⊆
        List.range Mapping.bound := by
    intro index hIndex
    rcases List.mem_map.mp hIndex with ⟨other, _, rfl⟩
    exact List.mem_range.mpr other.index.toNat_lt
  have hLength := (hIndices.subperm hSubset).length_le
  rw [List.length_map, List.length_range] at hLength
  exact (List.idxOf_lt_length_of_mem hFile).trans_le hLength

/- The source map of groups whose files are all known. -/
def sourceMapOf
    (groups : LineGroups)
    (outputFile : String)
    (table : SourceFiles)
    (options : MapOptions) :
    MapBuilder :=
  { MapBuilder.ofSources outputFile options
      (sourcesOf table groups.files) with
    mappings :=
      groups.records.map (Record.mappingAmong groups.files) }

theorem addFiles_files
    (hTable : table.Mirrors)
    (hNodup : groups.files.Nodup)
    (hKnown :
      ∀ file ∈ groups.files, table.contains file = true)
    (outputFile : String)
    (options : MapOptions) :
    addFiles table options groups.files
        ({ file := outputFile
           sourceRoot := options.sourceRoot }, []) =
      .ok
        (MapBuilder.ofSources outputFile options
            (sourcesOf table groups.files),
          groups.files.zipIdx) := by
  have hNames := nodup_name_sourcesOf hTable hNodup hKnown
  rw [← List.nil_append (sourcesOf table groups.files)] at hNames
  exact addFiles_known (map_get?_eq hKnown) hNames

theorem mapBuilder_known
    (hTable : table.Mirrors)
    (hNodup : groups.files.Nodup)
    (hFiles :
      ∀ record ∈ groups.records,
        record.tag.file ∈ groups.files)
    (hKnown :
      ∀ file ∈ groups.files, table.contains file = true)
    (outputFile : String)
    (options : MapOptions) :
    groups.mapBuilder outputFile table options =
      .ok (groups.sourceMapOf outputFile table options) := by
  have hAdd :=
    addFiles_files hTable hNodup hKnown outputFile options
  rw [mapBuilder_eq_ok hAdd fun record hRecord =>
    mapping_zipIdx (hFiles record hRecord)]
  rfl

theorem FirstUnknown.mapBuilder_eq
    {file : FileId}
    (hFirst : FirstUnknown table groups.files file)
    (outputFile : String)
    (options : MapOptions) :
    groups.mapBuilder outputFile table options =
      .error ⟨file⟩ := by
  rw [mapBuilder, hFirst.addFiles_eq]
  rfl

------------------------------------------------------------
-- Groups of Records
------------------------------------------------------------

section Assembled

variable {known : SourceFiles} {records : List Record}

theorem records_of_assemble
    (hGroups : assemble known records = .ok groups) :
    groups.records = sort records := by
  rcases (assemble_eq_ok_iff known records groups).mp hGroups with
    ⟨_, rfl⟩
  exact flatMap_group (sort records)

theorem nodup_files_of_assemble
    (hGroups : assemble known records = .ok groups) :
    groups.files.Nodup := by
  rcases (assemble_eq_ok_iff known records groups).mp hGroups with
    ⟨_, rfl⟩
  exact nodup_eraseDups _

/- The files of the groups are those of their records. -/
theorem mem_files_of_assemble
    (hGroups : assemble known records = .ok groups)
    (file : FileId) :
    file ∈ groups.files ↔
      ∃ record ∈ groups.records, record.tag.file = file := by
  have hRecords := records_of_assemble hGroups
  rcases (assemble_eq_ok_iff known records groups).mp hGroups with
    ⟨_, rfl⟩
  simp [hRecords, (stablySorted_sort records).perm.mem_iff]

/-
  Lines that count from one stay different when they count from
  zero, so the mappings are in the order of the records.
-/
theorem pairwise_mappingAmong
    (hGroups : assemble known records = .ok groups)
    (hLines :
      ∀ record ∈ groups.records,
        1 ≤ record.place.line.toNat) :
    (groups.records.map
      (Record.mappingAmong groups.files)).Pairwise Mapping.Le := by
  have hOrdered :
      groups.records.Pairwise (PlaceLe lineOf columnOf) := by
    rw [records_of_assemble hGroups]
    exact (stablySorted_sort records).ordered
  rw [List.pairwise_map]
  refine hOrdered.imp_of_mem ?_
  intro left right hLeft hRight hLe
  have hLeftLine := hLines left hLeft
  have hRightLine := hLines right hRight
  simp only [PlaceLe, lineOf, columnOf] at hLe
  simp only [Mapping.Le, Record.mappingAmong, Record.mapping]
  omega

theorem inRange_mappingAmong
    (hGroups : assemble known records = .ok groups)
    {record : Record}
    (hRecord : record ∈ groups.records) :
    (record.mappingAmong groups.files).InRange := by
  have hIndex :=
    idxOf_lt_bound (nodup_files_of_assemble hGroups)
      ((mem_files_of_assemble hGroups _).mpr
        ⟨record, hRecord, rfl⟩)
  rcases record.inRange_mapping with
    ⟨hLine, hColumn, _, hSourceLine, hSourceColumn⟩
  exact ⟨hLine, hColumn, hIndex, hSourceLine, hSourceColumn⟩

end Assembled

end LineGroups

------------------------------------------------------------
-- Source Maps
------------------------------------------------------------

/- The text of the file with a number, if it is known. -/
def SourceFiles.text?
    (table : SourceFiles)
    (file : FileId) :
    Option String :=
  (table.get? file).bind SourceFile.text

namespace LineGroups

variable {table : SourceFiles} {options : MapOptions}
variable {groups : LineGroups}

/-
  A source map of some groups. It has a source for each file
  and a mapping for each record, which has the place of the
  file of the record. If no two lines become one, reading the
  text of the mappings gives them as they are.
-/
structure Indexes
    (groups : LineGroups)
    (outputFile : String)
    (table : SourceFiles)
    (options : MapOptions)
    (builder : MapBuilder) : Prop where
  file : builder.file = outputFile
  root : builder.sourceRoot = options.sourceRoot
  sources :
    builder.sources.map some = groups.files.map table.name?
  distinct : builder.sources.Nodup
  contents :
    builder.sourceMap.sourcesContent =
      if options.includeContent = true
          ∧ ∃ file ∈ groups.files,
            (table.text? file).isSome = true then
        some (groups.files.map table.text?)
      else none
  mappings :
    builder.mappings =
      groups.records.map (Record.mappingAmong groups.files)
  places :
    ∀ record ∈ groups.records,
      groups.files[
          (record.mappingAmong groups.files).sourceIndex]? =
        some record.tag.file
  decoded :
    (∀ record ∈ groups.records, 1 ≤ record.place.line) →
      Mapping.decode builder.sourceMap.mappings =
        .ok builder.mappings

theorem map_text_sourcesOf
    {files : List FileId}
    (hKnown : ∀ file ∈ files, table.contains file = true) :
    (sourcesOf table files).map SourceFile.text =
      files.map table.text? := by
  have hTexts :=
    congrArg (List.map fun source =>
      Option.bind source SourceFile.text) (map_get?_eq hKnown)
  rw [List.map_map, List.map_map] at hTexts
  exact hTexts.symm

theorem contents_sourceMapOf
    (hKnown :
      ∀ file ∈ groups.files, table.contains file = true)
    (outputFile : String) :
    (groups.sourceMapOf outputFile table options).contents =
      if options.includeContent = true
          ∧ ∃ file ∈ groups.files,
            (table.text? file).isSome = true then
        some (groups.files.map table.text?)
      else none := by
  have hContents :
      (groups.sourceMapOf outputFile table options).sourcesContent =
        (sourcesOf table groups.files).map fun source =>
          if options.includeContent then source.text
          else none :=
    rfl
  simp only [MapBuilder.contents, hContents]
  cases options.includeContent with
  | false => simp
  | true =>
      simp only [if_true, true_and]
      rw [map_text_sourcesOf hKnown]
      simp [List.any_eq_true]

theorem indexes_sourceMapOf
    {known : SourceFiles}
    {records : List Record}
    (hGroups : assemble known records = .ok groups)
    (hTable : table.Mirrors)
    (hKnown :
      ∀ file ∈ groups.files, table.contains file = true)
    (outputFile : String) :
    groups.Indexes outputFile table options
      (groups.sourceMapOf outputFile table options) := by
  have hNodup := nodup_files_of_assemble hGroups
  have hSources :
      (groups.sourceMapOf outputFile table options).sources =
        (sourcesOf table groups.files).map SourceFile.name :=
    rfl
  constructor
  case file => rfl
  case root => rfl
  case sources => rw [hSources, map_name_sourcesOf hKnown]
  case distinct =>
    rw [hSources]
    exact nodup_name_sourcesOf hTable hNodup hKnown
  case contents => exact contents_sourceMapOf hKnown outputFile
  case mappings => rfl
  case places =>
    intro record hRecord
    exact List.getElem?_idxOf
      ((mem_files_of_assemble hGroups _).mpr
        ⟨record, hRecord, rfl⟩)
  case decoded =>
    intro hLines
    have hMappings :
        ∀ mapped ∈
            groups.records.map (Record.mappingAmong groups.files),
          mapped.InRange := by
      rw [List.forall_mem_map]
      intro record hRecord
      exact inRange_mappingAmong hGroups hRecord
    refine (Mapping.decode_encode _ hMappings).trans ?_
    rw [Mapping.sort_eq_self
      (pairwise_mappingAmong hGroups hLines)]
    rfl

theorem mapBuilder_eq_error_iff
    (hTable : table.Mirrors)
    (hNodup : groups.files.Nodup)
    (hFiles :
      ∀ record ∈ groups.records,
        record.tag.file ∈ groups.files)
    (outputFile : String)
    (options : MapOptions)
    (file : FileId) :
    groups.mapBuilder outputFile table options =
        .error ⟨file⟩ ↔
      FirstUnknown table groups.files file := by
  constructor
  · intro hError
    rcases known_or_unknown table groups.files with
      hKnown | ⟨first, hFirst⟩
    · rw [mapBuilder_known hTable hNodup hFiles hKnown] at hError
      cases hError
    · rw [hFirst.mapBuilder_eq] at hError
      cases hError
      exact hFirst
  · intro hFirst
    exact hFirst.mapBuilder_eq outputFile options

theorem known_of_mapBuilder
    {outputFile : String}
    {builder : MapBuilder}
    (hOk :
      groups.mapBuilder outputFile table options = .ok builder) :
    ∀ file ∈ groups.files, table.contains file = true := by
  rcases known_or_unknown table groups.files with
    hKnown | ⟨file, hFirst⟩
  · exact hKnown
  · rw [hFirst.mapBuilder_eq] at hOk
    cases hOk

/-
  The groups of some records have a source map for any table of
  files that was built up by calls, if it has all files of the
  groups, and otherwise the first file that it does not have is
  reported; no record is the reason, once all files are added.
  The source map has the files as its sources.
-/
theorem mapBuilder_indexes_files
    {known : SourceFiles}
    {records : List Record}
    {groups : LineGroups}
    (hGroups : assemble known records = .ok groups)
    (operations : List FileOperation)
    {table : SourceFiles}
    (hTable : table = SourceFiles.run operations)
    (outputFile : String)
    (options : MapOptions) :
    (∀ file,
        groups.mapBuilder outputFile table options =
            .error ⟨file⟩ ↔
          FirstUnknown table groups.files file)
      ∧ ((∃ builder,
          groups.mapBuilder outputFile table options =
            .ok builder) ↔
        ∀ file ∈ groups.files, table.contains file = true)
      ∧ (∀ builder indices,
        addFiles table options groups.files
            ({ file := outputFile
               sourceRoot := options.sourceRoot }, []) =
            .ok (builder, indices) →
          ∀ record ∈ groups.records,
            ∃ mapped, mapping indices record = .ok mapped)
      ∧ ∀ builder,
        groups.mapBuilder outputFile table options = .ok builder →
          groups.Indexes outputFile table options builder := by
  have hMirrors : table.Mirrors :=
    hTable ▸ SourceFiles.mirrors_run operations
  have hNodup := nodup_files_of_assemble hGroups
  have hFiles :
      ∀ record ∈ groups.records,
        record.tag.file ∈ groups.files := by
    intro record hRecord
    exact (mem_files_of_assemble hGroups _).mpr
      ⟨record, hRecord, rfl⟩
  refine ⟨?_, ⟨?_, ?_⟩, ?_, ?_⟩
  · exact mapBuilder_eq_error_iff hMirrors hNodup hFiles outputFile
      options
  · rintro ⟨builder, hOk⟩
    exact known_of_mapBuilder hOk
  · intro hKnown
    exact
      ⟨_, mapBuilder_known hMirrors hNodup hFiles hKnown
        outputFile options⟩
  · intro builder indices hAdd record hRecord
    have hKnown := known_of_addFiles hAdd
    rw [addFiles_files hMirrors hNodup hKnown] at hAdd
    cases hAdd
    exact ⟨_, mapping_zipIdx (hFiles record hRecord)⟩
  · intro builder hOk
    have hKnown := known_of_mapBuilder hOk
    rw [mapBuilder_known hMirrors hNodup hFiles hKnown] at hOk
    cases hOk
    exact indexes_sourceMapOf hGroups hMirrors hKnown outputFile

theorem exists_groups_scattered :
    ∃ groups,
      assemble twoFiles scatteredRecords = .ok groups
        ∧ groups.files = [⟨1⟩, ⟨0⟩]
        ∧ groups.records =
          [⟨⟨1, 0⟩, ⟨⟨2, 0⟩, ⟨0⟩⟩⟩, ⟨⟨3, 0⟩, ⟨⟨5, 0⟩, ⟨1⟩⟩⟩,
            ⟨⟨3, 4⟩, ⟨⟨1, 0⟩, ⟨1⟩⟩⟩, ⟨⟨3, 4⟩, ⟨⟨0, 9⟩, ⟨0⟩⟩⟩] := by
  have hGroups :=
    (assemble_eq_ok_iff twoFiles scatteredRecords _).mpr
      ⟨by decide, rfl⟩
  refine ⟨_, hGroups, by decide, ?_⟩
  rw [records_of_assemble hGroups]
  cbv

/- Two tables for records of two files: one has the first file only. -/
theorem mapBuilder_indexes_files_scattered :
    ∃ groups,
      assemble twoFiles scatteredRecords = .ok groups
        ∧ groups.mapBuilder "out.js"
            (SourceFiles.run [.add "x"]) ⟨none, true⟩ =
          .error ⟨⟨1⟩⟩
        ∧ ∃ builder,
          groups.mapBuilder "out.js"
              (SourceFiles.run [.addText "x" "t", .add "y"])
              ⟨none, true⟩ =
            .ok builder
          ∧ builder.sources = ["y", "x"]
          ∧ builder.sourceMap.sourcesContent =
            some [none, some "t"]
          ∧ Mapping.decode builder.sourceMap.mappings =
            .ok
              [⟨0, 0, 1, 1, 0⟩, ⟨2, 0, 0, 4, 0⟩,
                ⟨2, 4, 0, 0, 0⟩, ⟨2, 4, 1, 0, 9⟩] := by
  rcases exists_groups_scattered with
    ⟨groups, hGroups, hFiles, hRecords⟩
  refine ⟨groups, hGroups, ?_, ?_⟩
  · refine
      ((mapBuilder_indexes_files hGroups [.add "x"] rfl "out.js"
        ⟨none, true⟩).1 ⟨1⟩).mpr ?_
    exact ⟨[], [⟨0⟩], hFiles, List.forall_mem_nil _, rfl⟩
  · rcases mapBuilder_indexes_files hGroups
        [.addText "x" "t", .add "y"] rfl "out.js"
        ⟨none, true⟩ with
      ⟨_, hKnown, _, hIndexes⟩
    rw [hFiles] at hKnown
    rcases hKnown.mpr (by decide) with ⟨builder, hOk⟩
    rcases hIndexes builder hOk with
      ⟨_, _, hSources, _, hContents, hMappings, _, hDecoded⟩
    rw [hFiles] at hSources hContents hMappings
    rw [hMappings, hRecords] at hDecoded
    refine ⟨builder, hOk, ?_, hContents, ?_⟩
    · exact List.map_injective_iff.mpr
        (Option.some_injective String) hSources
    · exact hDecoded (by decide)

end LineGroups

end TracedScript
