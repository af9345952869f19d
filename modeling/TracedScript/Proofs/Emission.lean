import TracedScript.Emission
import TracedScript.Proofs.Boundaries
import TracedScript.Proofs.LineGroups
import TracedScript.Proofs.MappingText

/-
  From a document to a source map that can be read back.

  Key definitions include:
    * `Record.mapping`: what a source map says of a record.
    * `Document.mapBuilder`: the source map of some records.

  Main declarations:
    * `Document.emit_eq_ok`
    * `Record.decode_encode_map`
    * `Document.decode_emitted_map`
-/

------------------------------------------------------------
-- Mappings of Records
------------------------------------------------------------

namespace TracedScript

namespace Record

/- The mapping of a record of the first source. -/
def mapping (record : Record) : Mapping where
  generatedLine := record.place.line.toNat - 1
  generatedColumn := record.place.column.toNat
  sourceIndex := 0
  sourceLine := record.tag.position.line.toNat - 1
  sourceColumn := record.tag.position.column.toNat

/- The numbers of a record are words. -/
theorem inRange_mapping
    (record : Record) :
    record.mapping.InRange := by
  have hPlaceLine := record.place.line.toNat_lt
  have hPlaceColumn := record.place.column.toNat_lt
  have hLine := record.tag.position.line.toNat_lt
  have hColumn := record.tag.position.column.toNat_lt
  simp only [Mapping.InRange, Mapping.bound, mapping]
  omega

/-
  The mappings of records are in their order. The lines of the
  records count from one, so no two of them become the same.
-/
theorem pairwise_mapping
    {fragment : Fragment}
    (hShort : Text.Short fragment.code) :
    (fragment.records.map mapping).Pairwise Mapping.Le := by
  rw [List.pairwise_map]
  refine (Fragment.pairwise_records hShort).imp_of_mem ?_
  intro left right hLeft hRight hLe
  have hLeftLine :=
    Fragment.one_le_line_of_mem_records hShort hLeft
  have hRightLine :=
    Fragment.one_le_line_of_mem_records hShort hRight
  rw [Cursor.le_iff_toPlace_le] at hLe
  simp only [Place.Le, Cursor.toPlace] at hLe
  simp only [Mapping.Le, mapping]
  omega

/- Reading the mappings of records gives them as they were. -/
theorem decode_encode_map
    {fragment : Fragment}
    (hShort : Text.Short fragment.code) :
    Mapping.decode
        (Mapping.encode (fragment.records.map mapping)) =
      .ok (fragment.records.map mapping) := by
  have hRange :
      ∀ mapped ∈ fragment.records.map mapping,
        mapped.InRange := by
    rw [List.forall_mem_map]
    intro record _
    exact inRange_mapping record
  rw [Mapping.decode_encode _ hRange,
    Mapping.sort_eq_self (pairwise_mapping hShort)]

end Record

------------------------------------------------------------
-- Records of a Program
------------------------------------------------------------

/- Records that stand for boundaries are of the given file. -/
theorem Record.file_of_forall₂_standsFor
    {file : FileId}
    {code : String}
    {records : List Record}
    {boundaries : List Boundary}
    (hStands :
      List.Forall₂ (StandsFor file code) records boundaries) :
    ∀ record ∈ records, record.tag.file = file := by
  induction hStands with
  | nil =>
      intro record hRecord
      cases hRecord
  | cons hFirst _ ih =>
      rw [List.forall_mem_cons]
      exact ⟨hFirst.file, ih⟩

namespace Program

/- All records of a program are of its file. -/
theorem file_of_mem_records
    {file : FileId}
    {program : Program}
    {fragment : Fragment}
    (hCompile : program.compile file = .ok fragment) :
    ∀ record ∈ fragment.records, record.tag.file = file :=
  Record.file_of_forall₂_standsFor
    (Node.records_standFor hCompile)

/- A program has a record for the place where it begins. -/
theorem records_ne_nil
    {file : FileId}
    {program : Program}
    {fragment : Fragment}
    (hCompile : program.compile file = .ok fragment) :
    fragment.records ≠ [] := by
  have hStands := Node.records_standFor hCompile
  intro hNone
  rw [hNone, Program.node, Node.boundaries] at hStands
  cases hStands

/- So its records refer to one file. -/
theorem eraseDups_files
    {file : FileId}
    {program : Program}
    {fragment : Fragment}
    (hCompile : program.compile file = .ok fragment) :
    (fragment.records.map fun record =>
        record.tag.file).eraseDups = [file] := by
  have hFile := file_of_mem_records hCompile
  cases hRecords : fragment.records with
  | nil => exact absurd hRecords (records_ne_nil hCompile)
  | cons record records =>
      rw [hRecords, List.forall_mem_cons] at hFile
      have hRest :
          (records.map fun record => record.tag.file).filter
              (fun other => !other == file) = [] := by
        simpa using hFile.2
      rw [List.map_cons, List.eraseDups_cons, hFile.1, hRest,
        List.eraseDups_nil]

end Program

------------------------------------------------------------
-- Documents
------------------------------------------------------------

namespace Document

/- The source map of some records of a document. -/
def mapBuilder
    (document : Document)
    (options : EmitOptions)
    (records : List Record) :
    MapBuilder where
  file := options.outputFile
  sourceRoot := options.map.sourceRoot
  sources := [document.source]
  sourcesContent :=
    [if options.map.includeContent then
        document.sourceText
      else
        none]
  sourceIndices := [(document.source, 0)]
  mappings := records.map Record.mapping

/- The texts of its sources, of which there is just the one. -/
theorem contents_mapBuilder
    (document : Document)
    (options : EmitOptions)
    (records : List Record) :
    (document.mapBuilder options records).contents =
      if options.map.includeContent then
        document.sourceText.map fun text => [some text]
      else
        none := by
  unfold MapBuilder.contents mapBuilder
  cases options.map.includeContent with
  | false => rfl
  | true =>
      cases document.sourceText with
      | none => rfl
      | some text => rfl

/- The source of a document is the first file of its table. -/
theorem sourceFiles_eq
    (document : Document) :
    document.sourceFiles =
      (⟨0⟩,
        { files := [⟨document.source, document.sourceText⟩]
          numbers := [(document.source, ⟨0⟩)] }) := by
  unfold sourceFiles
  cases document.sourceText with
  | none => rfl
  | some text => rfl

/- Groups of records of that file have a source map. -/
theorem mapBuilder_groups
    (document : Document)
    (options : EmitOptions)
    {groups : LineGroups}
    (hFiles : groups.files = [document.sourceFiles.1])
    (hFile :
      ∀ record ∈ groups.records,
        record.tag.file = document.sourceFiles.1) :
    groups.mapBuilder options.outputFile
        document.sourceFiles.2 options.map =
      .ok (document.mapBuilder options groups.records) := by
  rw [sourceFiles_eq] at hFiles hFile ⊢
  have hAdd :
      LineGroups.addFiles
          { files := [⟨document.source, document.sourceText⟩]
            numbers := [(document.source, ⟨0⟩)] }
          options.map groups.files
          ({ file := options.outputFile
             sourceRoot := options.map.sourceRoot }, []) =
        .ok (document.mapBuilder options [], [(⟨0⟩, 0)]) := by
    rw [hFiles]
    have hSource :
        SourceFiles.get?
            { files := [⟨document.source, document.sourceText⟩]
              numbers := [(document.source, ⟨0⟩)] } ⟨0⟩ =
          some ⟨document.source, document.sourceText⟩ :=
      rfl
    exact
      LineGroups.addFiles_singleton hSource options.map
        options.outputFile
  have hMapping :
      ∀ record ∈ groups.records,
        LineGroups.mapping [(⟨0⟩, 0)] record =
          .ok record.mapping := by
    intro record hRecord
    rw [LineGroups.mapping, hFile record hRecord]
    rfl
  rw [LineGroups.mapBuilder_eq_ok hAdd hMapping]
  rfl

/-
  A document whose program has code is emitted with that code,
  its records and the source map of the records in the order of
  their places.
-/
theorem emit_eq_ok
    {document : Document}
    (options : EmitOptions)
    {fragment : Fragment}
    (hCompile :
      document.program.compile document.sourceFiles.1 =
        .ok fragment) :
    document.emit options =
      .ok
        ⟨fragment.code, fragment.records,
          document.mapBuilder options
            (LineGroups.sort fragment.records)⟩ := by
  have hFile := Program.file_of_mem_records hCompile
  have hKnown :
      ∀ record ∈ fragment.records,
        document.sourceFiles.2.contains record.tag.file := by
    intro record hRecord
    rw [hFile record hRecord, sourceFiles_eq]
    rfl
  rcases LineGroups.assemble_eq_ok hKnown with
    ⟨groups, hAssemble, hRecords, hFiles⟩
  rw [Program.eraseDups_files hCompile] at hFiles
  have hSorted :
      ∀ record ∈ groups.records,
        record.tag.file = document.sourceFiles.1 := by
    intro record hRecord
    rw [hRecords, LineGroups.sort, List.mem_mergeSort] at hRecord
    exact hFile record hRecord
  have hMap := document.mapBuilder_groups options hFiles hSorted
  rw [hRecords] at hMap
  simp only [emit, Fragment.render, hCompile, hAssemble, hMap,
    Except.mapError, bind, Except.bind, pure, Except.pure]

/- A document whose program has no code is not emitted. -/
theorem emit_eq_error
    {document : Document}
    (options : EmitOptions)
    {error : NodeError}
    (hCompile :
      document.program.compile document.sourceFiles.1 =
        .error error) :
    document.emit options = .error (.node error) := by
  simp only [emit, hCompile, Except.mapError, bind, Except.bind]

/-
  A document is emitted exactly if its program has code, with
  the error of the program otherwise: no record refers to an
  unknown file. Reading the mappings of its source map gives
  back the records, one by one and in their order, with lines
  that count from zero. Code of this size keeps all places
  within the range of a mapping.
-/
theorem decode_emitted_map
    (document : Document)
    (options : EmitOptions) :
    (∀ fragment,
        document.program.compile document.sourceFiles.1 =
            .ok fragment →
          ∃ emission,
            document.emit options = .ok emission
              ∧ emission.code = fragment.render.code
              ∧ emission.records = fragment.render.records
              ∧ emission.map.sourceMap.sources =
                [document.source]
              ∧ emission.map.sourceMap.sourcesContent =
                (if options.map.includeContent then
                  document.sourceText.map fun text =>
                    [some text]
                else
                  none)
              ∧ ((Text.bytes emission.code).length <
                    2 ^ 32 - 1 →
                  Mapping.decode
                      emission.map.sourceMap.mappings =
                    .ok
                      (emission.records.map Record.mapping)))
      ∧ (∀ error,
          document.program.compile document.sourceFiles.1 =
              .error error →
            document.emit options = .error (.node error))
      ∧ ∀ error,
          document.emit options ≠ .error (.map error) := by
  refine ⟨?_, ?_, ?_⟩
  · intro fragment hCompile
    refine ⟨_, emit_eq_ok options hCompile, rfl, rfl, rfl,
      contents_mapBuilder document options _, ?_⟩
    intro hShort
    change
      Mapping.decode
          (Mapping.encode
            ((LineGroups.sort fragment.records).map
              Record.mapping)) =
        .ok (fragment.records.map Record.mapping)
    rw [LineGroups.sort_eq_self (Fragment.pairwise_records hShort)]
    exact Record.decode_encode_map hShort
  · intro error hCompile
    exact emit_eq_error options hCompile
  · intro error hEmit
    cases hCompile :
        document.program.compile document.sourceFiles.1 with
    | ok fragment =>
        rw [emit_eq_ok options hCompile] at hEmit
        cases hEmit
    | error nodeError =>
        rw [emit_eq_error options hCompile] at hEmit
        cases hEmit

/-
  A call on the line of its assignment, after a name with a
  character of two bytes, a position on line zero, and a body
  that is empty.
-/
def callSample : Document where
  source := "main.src"
  sourceText := some "é = f(x)"
  program :=
    ⟨⟨1, 0⟩,
      [.loop ⟨0, 9⟩ "x" [] ⟨7, 3⟩,
        .callAssignment ⟨4, 2⟩ "é" ⟨⟨4, 8⟩, "f", ["x"]⟩],
      ⟨4294967295, 1⟩⟩

theorem decode_emitted_map_call :
    ∃ emission,
      callSample.emit ⟨"out.js", none, true⟩ = .ok emission
        ∧ (Text.bytes emission.code).length < 2 ^ 32 - 1
        ∧ emission.map.sourceMap.sources = ["main.src"]
        ∧ emission.map.sourceMap.sourcesContent =
          some [some "é = f(x)"]
        ∧ Mapping.decode emission.map.sourceMap.mappings =
          .ok
            [⟨0, 0, 0, 0, 0⟩,
              ⟨1, 4, 0, 0, 9⟩,
              ⟨2, 4, 0, 6, 3⟩,
              ⟨3, 4, 0, 3, 2⟩,
              ⟨3, 12, 0, 3, 8⟩,
              ⟨4, 0, 0, 4294967294, 1⟩] := by
  have hYields :=
    callSample.program.node.yields_compile
      callSample.sourceFiles.1 0
  have hViolations :
      callSample.program.node.violations = [] := by
    cbv
  rcases hYields.exists_ok_iff.mpr hViolations with
    ⟨fragment, hCompile⟩
  have hPieces := hYields.view_eq hCompile
  rcases
      (decode_emitted_map callSample
        ⟨"out.js", ⟨none, true⟩⟩).1 fragment hCompile with
    ⟨emission, hEmit, hCode, hRecords, hSources, hContents,
      hDecode⟩
  have hSize :
      (Text.bytes emission.code).length < 2 ^ 32 - 1 := by
    rw [hCode]
    change
      (Text.bytes
        (Fragment.codeOf fragment.pieces)).length < _
    rw [hPieces]
    cbv
  refine ⟨emission, hEmit, hSize, hSources, hContents, ?_⟩
  rw [hDecode hSize, hRecords]
  change
    Except.ok
        ((Fragment.recordsFrom .start fragment.pieces).map
          Record.mapping) = _
  rw [hPieces]
  cbv

end Document

end TracedScript
