import TracedScript.LineGroups
import TracedScript.Proofs.Cursor
import TracedScript.Proofs.Results
import TracedScript.Proofs.StableSort

/-
  Grouping records by line and turning them into mappings.

  Main declarations:
    * `LineGroups.flatMap_group`: grouping loses nothing.
    * `LineGroups.sort_eq_self`
    * `LineGroups.assemble_eq_ok_iff`
    * `LineGroups.assemble_eq_ok`
    * `LineGroups.addFiles_singleton`
    * `LineGroups.mapBuilder_eq_ok`
-/

------------------------------------------------------------
-- Groups
------------------------------------------------------------

namespace TracedScript

namespace LineGroups

/- The groups hold the records in the order they were in. -/
theorem flatMap_group
    (records : List Record) :
    (group records).flatMap LineGroup.records = records := by
  induction records with
  | nil => rfl
  | cons record records ih =>
      rw [group]
      split
      · next hGroup =>
          rw [hGroup] at ih
          rw [← ih]
          rfl
      · next first groups hGroup =>
          rw [hGroup, List.flatMap_cons] at ih
          split
          · rw [List.flatMap_cons, List.cons_append, ih]
          · rw [List.flatMap_cons, List.flatMap_cons, ih]
            rfl

/- The order of records is the one of the numbers of their places. -/
theorem le_place_iff
    (left right : Record) :
    decide (Cursor.Le left.place right.place) = true ↔
      PlaceLe (fun record : Record => record.place.line.toNat)
        (fun record => record.place.column.toNat)
        left right := by
  rw [decide_eq_true_iff, Cursor.le_iff_toPlace_le]
  rfl

/- Records that are in the order of their places stay so. -/
theorem sort_eq_self
    {records : List Record}
    (hOrdered :
      records.Pairwise fun left right =>
        Cursor.Le left.place right.place) :
    sort records = records := by
  apply mergeSort_eq_self le_place_iff
  refine hOrdered.imp ?_
  intro left right hLe
  exact (Cursor.le_iff_toPlace_le left.place right.place).mp hLe

/- Records are put into groups if all of their files are known. -/
theorem assemble_eq_ok_iff
    (table : SourceFiles)
    (records : List Record)
    (groups : LineGroups) :
    assemble table records = .ok groups ↔
      (∀ record ∈ records,
          table.contains record.tag.file = true)
        ∧ groups =
          { groups := group (sort records)
            files :=
              (records.map fun record =>
                record.tag.file).eraseDups } := by
  rw [assemble]
  split
  · next record hFind =>
      have hUnknown := List.find?_some hFind
      have hMember := List.mem_of_find?_eq_some hFind
      constructor
      · intro hSame
        cases hSame
      · rintro ⟨hKnown, _⟩
        rw [hKnown record hMember] at hUnknown
        cases hUnknown
  · next hFind =>
      rw [List.find?_eq_none] at hFind
      have hKnown :
          ∀ record ∈ records,
            table.contains record.tag.file = true := by
        simpa using hFind
      constructor
      · intro hSame
        cases hSame
        exact ⟨hKnown, rfl⟩
      · rintro ⟨_, rfl⟩
        rfl

/- Records of known files are all kept, in the order of places. -/
theorem assemble_eq_ok
    {table : SourceFiles}
    {records : List Record}
    (hKnown :
      ∀ record ∈ records, table.contains record.tag.file) :
    ∃ groups,
      assemble table records = .ok groups
        ∧ groups.records = sort records
        ∧ groups.files =
          (records.map fun record => record.tag.file).eraseDups := by
  refine
    ⟨_, (assemble_eq_ok_iff table records _).mpr ⟨hKnown, rfl⟩,
      ?_, rfl⟩
  rw [LineGroups.records, flatMap_group]

------------------------------------------------------------
-- Mappings
------------------------------------------------------------

/- The one file of a source map is its first source. -/
theorem addFiles_singleton
    {table : SourceFiles}
    {file : FileId}
    {source : SourceFile}
    (hSource : table.get? file = some source)
    (options : MapOptions)
    (outputFile : String) :
    addFiles table options [file]
        ({ file := outputFile
           sourceRoot := options.sourceRoot }, []) =
      .ok
        ({ file := outputFile
           sourceRoot := options.sourceRoot
           sources := [source.name]
           sourcesContent :=
            [if options.includeContent then
                source.text
              else
                none]
           sourceIndices := [(source.name, 0)] },
          [(file, 0)]) := by
  rcases source with ⟨name, text⟩
  rcases options with ⟨root, includeContent⟩
  rw [addFiles, hSource]
  cases text with
  | none =>
      rw [ite_self]
      rfl
  | some text =>
      cases includeContent with
      | false => rfl
      | true => rfl

/- Records whose files are numbered all have a mapping. -/
theorem mapM_mapping_eq_ok
    {indices : SourceIndices}
    {toMapping : Record → Mapping}
    {records : List Record}
    (hMapping :
      ∀ record ∈ records,
        mapping indices record = .ok (toMapping record)) :
    records.mapM (mapping indices) =
      .ok (records.map toMapping) := by
  rw [mapM_eq_ok_iff, List.forall₂_map_right_iff,
    List.forall₂_same]
  exact hMapping

/- The source map of groups whose files are all added. -/
theorem mapBuilder_eq_ok
    {groups : LineGroups}
    {outputFile : String}
    {table : SourceFiles}
    {options : MapOptions}
    {builder : MapBuilder}
    {indices : SourceIndices}
    {toMapping : Record → Mapping}
    (hFiles :
      addFiles table options groups.files
          ({ file := outputFile
             sourceRoot := options.sourceRoot }, []) =
        .ok (builder, indices))
    (hMapping :
      ∀ record ∈ groups.records,
        mapping indices record = .ok (toMapping record)) :
    groups.mapBuilder outputFile table options =
      .ok
        { builder with
          mappings := groups.records.map toMapping } := by
  rw [mapBuilder, hFiles]
  change (groups.records.mapM (mapping indices) >>= _) = _
  rw [mapM_mapping_eq_ok hMapping]
  rfl

end LineGroups

end TracedScript
