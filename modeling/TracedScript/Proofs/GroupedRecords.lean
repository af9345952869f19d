import TracedScript.Proofs.Composition
import TracedScript.Proofs.Distinct
import TracedScript.Proofs.LineGroups

/-
  Grouping records by line loses nothing and keeps ties.

  Records are sorted before they are grouped. A record is put
  into a group only if its line is that of its neighbour, so
  that a line has one group rests on the sort.

  Main declarations:
    * `LineGroups.sound_of_mem_group`
    * `LineGroups.pairwise_line_group`: one group for a line.
    * `LineGroups.stablySorted_sort`
    * `LineGroups.assemble_eq_error_iff`
    * `LineGroups.assemble_groups_stably`
-/

------------------------------------------------------------
-- Groups
------------------------------------------------------------

namespace TracedScript

/- A group has records, all of them of its line. -/
structure LineGroup.Sound (found : LineGroup) : Prop where
  nonempty : found.records ≠ []
  ofLine :
    ∀ record ∈ found.records, record.place.line = found.line

namespace LineGroups

theorem sound_singleton
    (record : Record) :
    LineGroup.Sound ⟨record.place.line, [record]⟩ := by
  constructor <;> simp

theorem sound_of_mem_group
    (records : List Record) :
    ∀ found ∈ group records, found.Sound := by
  induction records with
  | nil => exact List.forall_mem_nil _
  | cons record records ih =>
      rw [group]
      split
      · rw [List.forall_mem_singleton]
        exact sound_singleton record
      · next first groups hGroup =>
          rw [hGroup, List.forall_mem_cons] at ih
          split
          · next hLine =>
              rw [List.forall_mem_cons]
              refine ⟨⟨List.cons_ne_nil _ _, ?_⟩, ih.2⟩
              exact
                List.forall_mem_cons.mpr
                  ⟨hLine.symm, ih.1.ofLine⟩
          · rw [List.forall_mem_cons, List.forall_mem_cons]
            exact ⟨sound_singleton record, ih⟩

/- The line of a group is that of a record. -/
theorem exists_mem_of_mem_group
    {records : List Record}
    {found : LineGroup}
    (hFound : found ∈ group records) :
    ∃ record ∈ records, record.place.line = found.line := by
  have hSound := sound_of_mem_group records found hFound
  rcases List.exists_mem_of_ne_nil _ hSound.nonempty with
    ⟨record, hRecord⟩
  refine ⟨record, ?_, hSound.ofLine record hRecord⟩
  rw [← flatMap_group records]
  exact List.mem_flatMap_of_mem hFound hRecord

/-
  Records in the order of their lines give one group for each
  line, in that order. A new group is begun only where the
  line is another one, and so before all that follow.
-/
theorem pairwise_line_group
    {records : List Record}
    (hOrdered :
      records.Pairwise fun left right =>
        left.place.line ≤ right.place.line) :
    (group records).Pairwise fun left right =>
      left.line < right.line := by
  induction records with
  | nil => exact List.Pairwise.nil
  | cons record records ih =>
      rw [List.pairwise_cons] at hOrdered
      have hRest := ih hOrdered.2
      have hLe :
          ∀ found ∈ group records,
            record.place.line ≤ found.line := by
        intro found hFound
        rcases exists_mem_of_mem_group hFound with
          ⟨other, hOther, hLine⟩
        rw [← hLine]
        exact hOrdered.1 other hOther
      rw [group]
      split
      · exact List.pairwise_singleton _ _
      · next first groups hGroup =>
          rw [hGroup] at hRest hLe
          split
          · rw [List.pairwise_cons] at hRest ⊢
            exact hRest
          · next hLine =>
              have hFirst : record.place.line < first.line :=
                UInt32.lt_of_le_of_ne
                  (hLe first List.mem_cons_self) (Ne.symm hLine)
              refine List.pairwise_cons.mpr ⟨?_, hRest⟩
              rw [List.forall_mem_cons]
              refine ⟨hFirst, ?_⟩
              intro later hLater
              exact UInt32.lt_trans hFirst
                ((List.pairwise_cons.mp hRest).1 later hLater)

------------------------------------------------------------
-- Sorted Records
------------------------------------------------------------

/- The line of the place of a record. -/
abbrev lineOf (record : Record) : Nat :=
  record.place.line.toNat

/- The column of the place of a record. -/
abbrev columnOf (record : Record) : Nat :=
  record.place.column.toNat

theorem stablySorted_sort
    (records : List Record) :
    StablySorted lineOf columnOf records (sort records) := by
  exact stablySorted_mergeSort le_place_iff records

theorem pairwise_line_sort
    (records : List Record) :
    (sort records).Pairwise fun left right =>
      left.place.line ≤ right.place.line := by
  refine (stablySorted_sort records).ordered.imp ?_
  intro left right hOrder
  unfold PlaceLe lineOf at hOrder
  rw [UInt32.le_iff_toNat_le]
  omega

/- All records of the groups are counted. -/
theorem count_eq_length
    (groups : LineGroups) :
    groups.count = groups.records.length := by
  rw [count, records, List.length_flatMap, List.sum,
    List.foldr_map]

------------------------------------------------------------
-- Assembling
------------------------------------------------------------

/- The first record of an unknown file is the one reported. -/
theorem assemble_eq_error_iff
    (table : SourceFiles)
    (records : List Record)
    (file : FileId) :
    assemble table records = .error ⟨file⟩ ↔
      ∃ before record after,
        records = before ++ record :: after
          ∧ (∀ earlier ∈ before,
            table.contains earlier.tag.file = true)
          ∧ table.contains record.tag.file = false
          ∧ record.tag.file = file := by
  have hFirst :
      assemble table records = .error ⟨file⟩ ↔
        ∃ record,
          (records.find? fun record =>
              !table.contains record.tag.file) = some record
            ∧ record.tag.file = file := by
    rw [assemble]
    split
    · next hFind => simp [hFind]
    · next hFind => simp [hFind]
  rw [hFirst]
  constructor
  · rintro ⟨record, hFind, hFile⟩
    rcases List.find?_eq_some_iff_append.mp hFind with
      ⟨hUnknown, before, after, hRecords, hKnown⟩
    refine ⟨before, record, after, hRecords, ?_, ?_, hFile⟩
    · simpa using hKnown
    · simpa using hUnknown
  · rintro ⟨before, record, after, hRecords, hKnown, hUnknown,
      hFile⟩
    refine ⟨record, List.find?_eq_some_iff_append.mpr ?_, hFile⟩
    refine ⟨?_, before, after, hRecords, ?_⟩
    · simpa using hUnknown
    · simpa using hKnown

/-
  Records are put into groups if all of their files are known;
  otherwise the first one of an unknown file is reported. The
  groups are those of the lines, in their order, and hold the
  records in the order of their places, with ties in the order
  in which they were. Files come once each, in the order in
  which the records first refer to them, sorted or not. The
  records of a rendered fragment stay as they are, if its code
  is short.
-/
theorem assemble_groups_stably
    (table : SourceFiles)
    (records : List Record) :
    (∀ file,
        assemble table records = .error ⟨file⟩ ↔
          ∃ before record after,
            records = before ++ record :: after
              ∧ (∀ earlier ∈ before,
                table.contains earlier.tag.file = true)
              ∧ table.contains record.tag.file = false
              ∧ record.tag.file = file)
      ∧ ((∃ groups, assemble table records = .ok groups) ↔
        ∀ record ∈ records,
          table.contains record.tag.file = true)
      ∧ ∀ groups, assemble table records = .ok groups →
        (groups.groups.Pairwise fun left right =>
            left.line < right.line)
          ∧ (∀ found ∈ groups.groups, found.Sound)
          ∧ (∀ sorted,
            StablySorted lineOf columnOf records sorted ↔
              groups.records = sorted)
          ∧ groups.records.Perm records
          ∧ groups.count = records.length
          ∧ groups.files.Nodup
          ∧ (∀ file, file ∈ groups.files ↔
            ∃ record ∈ records, record.tag.file = file)
          ∧ (groups.files.Pairwise fun left right =>
            (records.map fun record => record.tag.file).idxOf
                left <
              (records.map fun record => record.tag.file).idxOf
                right)
          ∧ ∀ fragment : Fragment,
            Text.Short fragment.render.code →
              fragment.render.records = records →
                groups.records = records := by
  refine ⟨assemble_eq_error_iff table records, ?_, ?_⟩
  · simp [assemble_eq_ok_iff]
  · intro groups hGroups
    rcases (assemble_eq_ok_iff table records groups).mp hGroups with
      ⟨_, rfl⟩
    have hSorted := stablySorted_sort records
    have hRecords :
        LineGroups.records
            ⟨group (sort records),
              (records.map fun record =>
                record.tag.file).eraseDups⟩ =
          sort records :=
      flatMap_group (sort records)
    rw [count_eq_length, hRecords]
    refine
      ⟨pairwise_line_group (pairwise_line_sort records),
        sound_of_mem_group (sort records), ?_, hSorted.perm,
        hSorted.perm.length_eq, nodup_eraseDups _, ?_,
        pairwise_idxOf_eraseDups _, ?_⟩
    · intro sorted
      constructor
      · exact hSorted.unique
      · rintro rfl
        exact hSorted
    · simp
    · rintro fragment hShort rfl
      exact sort_eq_self (Fragment.pairwise_records hShort)

/-
  Records of two files that are not in the order of their
  places, with two at one place.
-/
def scatteredRecords : List Record :=
  [⟨⟨3, 4⟩, ⟨⟨1, 0⟩, ⟨1⟩⟩⟩, ⟨⟨1, 0⟩, ⟨⟨2, 0⟩, ⟨0⟩⟩⟩,
    ⟨⟨3, 4⟩, ⟨⟨0, 9⟩, ⟨0⟩⟩⟩, ⟨⟨3, 0⟩, ⟨⟨5, 0⟩, ⟨1⟩⟩⟩]

/- Two tags on one line. -/
def inlineFragment : Fragment :=
  .concat
    [.tagged ⟨⟨7, 0⟩, ⟨1⟩⟩ "var x = ",
      .tagged ⟨⟨7, 8⟩, ⟨0⟩⟩ "true"]

/- A table of one file. -/
def oneFile : SourceFiles where
  files := [⟨"a", none⟩]
  numbers := [("a", ⟨0⟩)]

/- A table of two files. -/
def twoFiles : SourceFiles where
  files := [⟨"a", none⟩, ⟨"b", none⟩]
  numbers := [("b", ⟨1⟩), ("a", ⟨0⟩)]

theorem assemble_groups_stably_scattered :
    assemble oneFile scatteredRecords = .error ⟨⟨1⟩⟩
      ∧ (∃ groups,
        assemble twoFiles scatteredRecords = .ok groups
          ∧ groups.records =
            [⟨⟨1, 0⟩, ⟨⟨2, 0⟩, ⟨0⟩⟩⟩, ⟨⟨3, 0⟩, ⟨⟨5, 0⟩, ⟨1⟩⟩⟩,
              ⟨⟨3, 4⟩, ⟨⟨1, 0⟩, ⟨1⟩⟩⟩, ⟨⟨3, 4⟩, ⟨⟨0, 9⟩, ⟨0⟩⟩⟩]
          ∧ groups.count = 4)
      ∧ ∃ groups,
        assemble twoFiles inlineFragment.render.records =
            .ok groups
          ∧ groups.records =
            [⟨⟨1, 0⟩, ⟨⟨7, 0⟩, ⟨1⟩⟩⟩,
              ⟨⟨1, 8⟩, ⟨⟨7, 8⟩, ⟨0⟩⟩⟩] := by
  have hSort :
      sort scatteredRecords =
        [⟨⟨1, 0⟩, ⟨⟨2, 0⟩, ⟨0⟩⟩⟩, ⟨⟨3, 0⟩, ⟨⟨5, 0⟩, ⟨1⟩⟩⟩,
          ⟨⟨3, 4⟩, ⟨⟨1, 0⟩, ⟨1⟩⟩⟩, ⟨⟨3, 4⟩, ⟨⟨0, 9⟩, ⟨0⟩⟩⟩] := by
    cbv
  have hRendered :
      inlineFragment.render.records =
        [⟨⟨1, 0⟩, ⟨⟨7, 0⟩, ⟨1⟩⟩⟩, ⟨⟨1, 8⟩, ⟨⟨7, 8⟩, ⟨0⟩⟩⟩] := by
    cbv
  refine ⟨?_, ?_, ?_⟩
  · refine
      ((assemble_groups_stably oneFile
        scatteredRecords).1 ⟨1⟩).mpr ?_
    exact ⟨[], _, _, rfl, List.forall_mem_nil _, rfl, rfl⟩
  · rcases assemble_groups_stably twoFiles scatteredRecords with
      ⟨_, hKnown, hGroups⟩
    rcases hKnown.mpr (by decide) with ⟨groups, hOk⟩
    rcases hGroups groups hOk with
      ⟨_, _, hSorted, _, hCount, _⟩
    refine ⟨groups, hOk, ?_, hCount⟩
    rw [← hSort]
    exact (hSorted _).mp (stablySorted_sort scatteredRecords)
  · have hShort : Text.Short inlineFragment.render.code := by
      cbv
    rw [hRendered]
    rcases assemble_groups_stably twoFiles
        [⟨⟨1, 0⟩, ⟨⟨7, 0⟩, ⟨1⟩⟩⟩, ⟨⟨1, 8⟩, ⟨⟨7, 8⟩, ⟨0⟩⟩⟩] with
      ⟨_, hKnown, hGroups⟩
    rcases hKnown.mpr (by decide) with ⟨groups, hOk⟩
    exact
      ⟨groups, hOk,
        (hGroups groups hOk).2.2.2.2.2.2.2.2 _ hShort hRendered⟩

/- Two tags where the columns of a line begin again from zero. -/
def longLine : Fragment :=
  .concat
    [.plain (Fragment.repeated 4294967292 'x'),
      .tagged ⟨⟨1, 0⟩, ⟨0⟩⟩ "var x = ",
      .tagged ⟨⟨1, 0⟩, ⟨0⟩⟩ "y"]

theorem records_longLine :
    longLine.records =
      [⟨⟨1, 4294967292⟩, ⟨⟨1, 0⟩, ⟨0⟩⟩⟩,
        ⟨⟨1, 4⟩, ⟨⟨1, 0⟩, ⟨0⟩⟩⟩] := by
  have hEight (cursor : Cursor) :
      cursor.advance "var x = " =
        ⟨cursor.line, cursor.column + 8⟩ := by
    rw [Cursor.advance_eq_ite]
    rfl
  simp [longLine, Fragment.records, Fragment.recordsFrom,
    Fragment.advance_repeated_x, hEight, Cursor.start]

/-
  A tag after the 2 ^ 32 characters that a word can count is
  recorded before a tag in front of it, and the two records
  change places.
-/
theorem assemble_moves_records :
    ∃ groups,
      assemble oneFile longLine.render.records = .ok groups
        ∧ longLine.render.records =
          [⟨⟨1, 4294967292⟩, ⟨⟨1, 0⟩, ⟨0⟩⟩⟩,
            ⟨⟨1, 4⟩, ⟨⟨1, 0⟩, ⟨0⟩⟩⟩]
        ∧ groups.records =
          [⟨⟨1, 4⟩, ⟨⟨1, 0⟩, ⟨0⟩⟩⟩,
            ⟨⟨1, 4294967292⟩, ⟨⟨1, 0⟩, ⟨0⟩⟩⟩] := by
  change
    ∃ groups,
      assemble oneFile longLine.records = .ok groups
        ∧ longLine.records = _ ∧ groups.records = _
  rw [records_longLine]
  refine ⟨_, rfl, rfl, ?_⟩
  rw [records, flatMap_group]
  cbv

/- The files are not in the order of the sorted records. -/
example :
    (scatteredRecords.map fun record =>
        record.tag.file).eraseDups = [⟨1⟩, ⟨0⟩] := by
  decide

end LineGroups

end TracedScript
