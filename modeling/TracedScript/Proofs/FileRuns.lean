import TracedScript.Proofs.Dictionary
import TracedScript.SourceFiles

/-
  What a table of source files holds after a run of calls.

  A table keeps names in a list and their numbers in a
  dictionary. That the two agree is an invariant of the calls,
  and holds of no table by itself. With it, looking a name up
  in the dictionary is a search of the list, and the number
  that is found is that of a file.

  Key definitions include:
    * `FileOperation`: one call that adds a file.
    * `FileOperation.names`, `FileOperation.firstText`: what
      some calls gave, told from the calls alone.
    * `SourceFiles.run`: a new table after some calls.
    * `SourceFiles.Mirrors`: the dictionary has the places of
      the names in the list.
    * `SourceFiles.Holds`: a table with what some calls gave.

  Main declarations:
    * `SourceFiles.Mirrors.addFile`: what one more call keeps.
    * `SourceFiles.mirrors_run`
    * `SourceFiles.files_run`
    * `SourceFiles.Mirrors.find?_eq_some_iff`
    * `SourceFiles.run_holds_files`
-/

------------------------------------------------------------
-- Calls
------------------------------------------------------------

namespace TracedScript

/- A call that adds a file to a table. -/
inductive FileOperation where
  | add (name : String)
  | addText (name text : String)
deriving DecidableEq, Repr

namespace FileOperation

/- The name of the file that a call adds. -/
def name : FileOperation → String
  | .add name => name
  | .addText name _ => name

/- The text that a call gives. -/
def text? : FileOperation → Option String
  | .add _ => none
  | .addText _ text => some text

/- The text that a call gives for a file. -/
def textOf?
    (file : String)
    (operation : FileOperation) :
    Option String :=
  if operation.name = file then operation.text? else none

/- The different names, in the order in which they first came. -/
def names (operations : List FileOperation) : List String :=
  (operations.map name).eraseDups

/- The text that was given first for a file. -/
def firstText
    (operations : List FileOperation)
    (file : String) :
    Option String :=
  operations.findSome? (textOf? file)

variable {operations : List FileOperation}

theorem names_concat
    (operation : FileOperation) :
    names (operations ++ [operation]) =
      if operation.name ∈ names operations then
        names operations
      else names operations ++ [operation.name] := by
  rw [names, List.map_append, List.map_singleton,
    eraseDups_concat]
  simp only [names, List.mem_eraseDups]

theorem nodup_names
    (operations : List FileOperation) :
    (names operations).Nodup :=
  nodup_eraseDups _

/- No call makes the names fewer. -/
theorem length_names_le
    (operations more : List FileOperation) :
    (names operations).length ≤
      (names (operations ++ more)).length := by
  rw [names, names, List.map_append, List.eraseDups_append,
    List.length_append]
  exact Nat.le_add_right _ _

theorem firstText_append
    (more : List FileOperation)
    (file : String) :
    firstText (operations ++ more) file =
      (firstText operations file).or (firstText more file) :=
  List.findSome?_append

theorem firstText_concat
    (operation : FileOperation)
    (file : String) :
    firstText (operations ++ [operation]) file =
      (firstText operations file).or (operation.textOf? file) := by
  rw [firstText_append]
  congr 1
  exact List.findSome?_singleton

/- No text was given for a file that no call added. -/
theorem firstText_eq_none
    {file : String}
    (hName : file ∉ names operations) :
    firstText operations file = none := by
  rw [firstText, List.findSome?_eq_none_iff]
  intro operation hOperation
  rw [names, List.mem_eraseDups] at hName
  have hOther : operation.name ≠ file := by
    rintro rfl
    exact hName (List.mem_map_of_mem hOperation)
  rw [textOf?, if_neg hOther]

end FileOperation

------------------------------------------------------------
-- Lists and Dictionaries
------------------------------------------------------------

namespace SourceFiles

open FileOperation

/- The names of the files, in the order of the list. -/
def listed (table : SourceFiles) : List String :=
  table.files.map SourceFile.name

/- The dictionary has the places of the names in the list. -/
def Mirrors (table : SourceFiles) : Prop :=
  Dictionary.Indexes
    (fun index => (⟨UInt32.ofNat index⟩ : FileId))
    table.listed table.numbers

theorem mirrors_empty : Mirrors {} :=
  Dictionary.Indexes.nil _

/- The list of names of a table with a file that is new or not. -/
theorem listed_addFile
    (table : SourceFiles)
    (name : String)
    (text : Option String) :
    (table.addFile name text).2.listed =
      match table.numbers.lookup name with
      | some _ => table.listed
      | none => table.listed ++ [name] := by
  cases hName : table.numbers.lookup name with
  | some file =>
      simp only [addFile, hName, listed]
      apply List.ext_getElem?
      intro index
      rw [List.getElem?_map, List.getElem?_map,
        List.getElem?_modify]
      cases table.files[index]? with
      | none => rfl
      | some entry =>
          by_cases hIndex : file.index.toNat = index
          · simp [hIndex]
          · simp [hIndex]
  | none => simp [addFile, hName, listed]

namespace Mirrors

variable {table : SourceFiles}

/- One more call keeps the dictionary in step with the list. -/
theorem addFile
    (hTable : table.Mirrors)
    (name : String)
    (text : Option String) :
    (table.addFile name text).2.Mirrors := by
  have hListed := listed_addFile table name text
  cases hLookup : table.numbers.lookup name with
  | some file =>
      simp only [hLookup] at hListed
      have hNumbers :
          (table.addFile name text).2.numbers = table.numbers := by
        simp only [SourceFiles.addFile, hLookup]
      rw [Mirrors, hListed, hNumbers]
      exact hTable
  | none =>
      simp only [hLookup] at hListed
      have hNumbers :
          (table.addFile name text).2.numbers =
            (name, ⟨UInt32.ofNat table.listed.length⟩)
              :: table.numbers := by
        simp only [SourceFiles.addFile, hLookup, listed,
          List.length_map]
      rw [Mirrors, hListed, hNumbers]
      exact
        Dictionary.Indexes.concat hTable
          ((Dictionary.Indexes.lookup_eq_none_iff hTable name).mp
            hLookup)

end Mirrors

------------------------------------------------------------
-- Runs
------------------------------------------------------------

/- The number that a call gives back, and the table after it. -/
def call
    (table : SourceFiles) :
    FileOperation → FileId × SourceFiles
  | .add name => table.add name
  | .addText name text => table.addText name text

theorem call_eq_addFile
    (table : SourceFiles)
    (operation : FileOperation) :
    table.call operation =
      table.addFile operation.name operation.text? := by
  cases operation <;> rfl

/- A new table after some calls. -/
def run (operations : List FileOperation) : SourceFiles :=
  operations.foldl (fun table operation => (table.call operation).2) {}

theorem run_concat
    (operations : List FileOperation)
    (operation : FileOperation) :
    run (operations ++ [operation]) =
      ((run operations).addFile operation.name
        operation.text?).2 := by
  rw [run, List.foldl_concat, ← run, call_eq_addFile]

theorem mirrors_run
    (operations : List FileOperation) :
    (run operations).Mirrors := by
  induction operations using List.reverseRecOn with
  | nil => exact mirrors_empty
  | append_singleton operations operation ih =>
      rw [run_concat]
      exact ih.addFile operation.name operation.text?

/- The names are those of the calls, however many there are. -/
theorem listed_run
    (operations : List FileOperation) :
    (run operations).listed = names operations := by
  induction operations using List.reverseRecOn with
  | nil => rfl
  | append_singleton operations operation ih =>
      have hLookup :=
        (mirrors_run operations).lookup_eq_none_iff operation.name
      rw [ih] at hLookup
      rw [run_concat, listed_addFile, names_concat, ih]
      cases hName :
          (run operations).numbers.lookup operation.name with
      | some file =>
          have hMember : operation.name ∈ names operations := by
            by_contra hNot
            rw [hLookup.mpr hNot] at hName
            cases hName
          rw [if_pos hMember]
      | none => rw [if_neg (hLookup.mp hName)]

theorem length_files_run
    (operations : List FileOperation) :
    (run operations).files.length = (names operations).length := by
  rw [← listed_run, listed, List.length_map]

/-
  The files of a run, each with its first text. A text is put
  where the dictionary says, and this is the place of its name
  as long as all places are words.
-/
theorem files_run
    {operations : List FileOperation}
    (hCount : (names operations).length ≤ 2 ^ 32) :
    (run operations).files =
      (names operations).map fun name =>
        ⟨name, firstText operations name⟩ := by
  induction operations using List.reverseRecOn with
  | nil => rfl
  | append_singleton operations operation ih =>
      have hBefore :=
        (length_names_le operations [operation]).trans hCount
      have hMirrors := mirrors_run operations
      have hFiles := ih hBefore
      rw [run_concat, names_concat]
      by_cases hMember : operation.name ∈ names operations
      · have hLookup :=
          hMirrors.lookup_of_mem (listed_run operations ▸ hMember)
        rw [listed_run] at hLookup
        simp only [addFile, hLookup, if_pos hMember]
        rw [Dictionary.toNat_ofNat_idxOf hBefore hMember, hFiles,
          Dictionary.map_modify_idxOf (nodup_names operations)]
        apply List.map_congr_left
        intro name _
        rw [firstText_concat, textOf?]
        by_cases hName : name = operation.name
        · rw [if_pos hName, if_pos hName.symm]
        · rw [if_neg hName, if_neg (Ne.symm hName), Option.or_none]
      · have hLookup :=
          (hMirrors.lookup_eq_none_iff operation.name).mpr
            (listed_run operations ▸ hMember)
        simp only [addFile, hLookup, if_neg hMember, hFiles,
          List.map_append, List.map_singleton]
        congr 1
        · apply List.map_congr_left
          intro name hName
          have hOther : operation.name ≠ name := by
            rintro rfl
            exact hMember hName
          rw [firstText_concat, textOf?, if_neg hOther,
            Option.or_none]
        · rw [firstText_concat, firstText_eq_none hMember,
            Option.none_or, textOf?, if_pos rfl]

------------------------------------------------------------
-- Looking Files Up
------------------------------------------------------------

theorem name?_eq_getElem?
    (table : SourceFiles)
    (file : FileId) :
    table.name? file = table.listed[file.index.toNat]? := by
  rw [name?, get?, listed, List.getElem?_map]

/- Different files have different names. -/
theorem Mirrors.eq_of_name?
    {table : SourceFiles}
    (hTable : table.Mirrors)
    {left right : FileId}
    {name : String}
    (hLeft : table.name? left = some name)
    (hRight : table.name? right = some name) :
    left = right := by
  rw [name?_eq_getElem?] at hLeft hRight
  have hBound := (List.getElem?_eq_some_iff.mp hLeft).1
  have hIndex :=
    (List.getElem?_inj hBound hTable.distinct).mp
      (hLeft.trans hRight.symm)
  exact congrArg FileId.mk (UInt32.toNat_inj.mp hIndex)

/- A dictionary in step with the list finds the places of names. -/
theorem Mirrors.find?_eq_some_iff
    {table : SourceFiles}
    (hTable : table.Mirrors)
    (hCount : table.files.length ≤ 2 ^ 32)
    (name : String)
    (file : FileId) :
    table.find? name = some file ↔
      table.name? file = some name := by
  have hLength : table.listed.length ≤ 2 ^ 32 := by
    rwa [listed, List.length_map]
  have hForward :
      table.find? name = some file →
        table.name? file = some name := by
    intro hFind
    have hMember : name ∈ table.listed := by
      by_contra hNot
      rw [find?, (hTable.lookup_eq_none_iff name).mpr hNot] at hFind
      cases hFind
    rw [find?, hTable.lookup_of_mem hMember,
      Option.some_inj] at hFind
    rw [name?_eq_getElem?, ← hFind,
      Dictionary.toNat_ofNat_idxOf hLength hMember]
    exact List.getElem?_idxOf hMember
  refine ⟨hForward, ?_⟩
  intro hName
  have hMember : name ∈ table.listed := by
    rw [name?_eq_getElem?] at hName
    exact List.mem_of_getElem? hName
  have hFound := hTable.lookup_of_mem hMember
  have hPlace :
      table.name? ⟨UInt32.ofNat (table.listed.idxOf name)⟩ =
        some name := by
    rw [name?_eq_getElem?, Dictionary.toNat_ofNat_idxOf hLength hMember]
    exact List.getElem?_idxOf hMember
  rw [find?, hFound, hTable.eq_of_name? hPlace hName]

theorem contains_iff_isSome_get?
    (table : SourceFiles)
    (file : FileId) :
    table.contains file = true ↔
      (table.get? file).isSome = true := by
  simp [contains, get?]

/- The list of files has exactly the pairs that looking up gives. -/
theorem mem_toList_iff
    {table : SourceFiles}
    (hCount : table.files.length ≤ 2 ^ 32)
    (file : FileId)
    (entry : SourceFile) :
    (file, entry) ∈ table.toList ↔
      table.get? file = some entry := by
  rw [toList, get?, List.mem_map]
  constructor
  · rintro ⟨⟨other, index⟩, hOther, hPair⟩
    cases hPair
    have hEntry := List.mem_zipIdx_iff_getElem?.mp hOther
    have hBound := (List.getElem?_eq_some_iff.mp hEntry).1
    rw [UInt32.toNat_ofNat_of_lt' (hBound.trans_le hCount)]
    exact hEntry
  · intro hEntry
    refine
      ⟨(entry, file.index.toNat),
        List.mem_zipIdx_iff_getElem?.mpr hEntry, ?_⟩
    change ((⟨UInt32.ofNat file.index.toNat⟩ : FileId), entry) = _
    rw [UInt32.ofNat_toNat]

theorem map_fst_toList
    (table : SourceFiles) :
    table.toList.map Prod.fst =
      (List.range table.size).map fun index =>
        ⟨UInt32.ofNat index⟩ := by
  rw [toList, List.map_map, size, List.range_eq_range',
    ← List.zipIdx_map_snd, List.map_map]
  rfl

------------------------------------------------------------
-- What a Run Holds
------------------------------------------------------------

/-
  A table that holds what some calls gave: the different names
  in the order in which they came, each with its first text,
  in the list and in the dictionary. The ways to look a file up
  agree with each other, and no number of the dictionary leads
  out of the list.
-/
structure Holds
    (table : SourceFiles)
    (operations : List FileOperation) : Prop where
  names :
    table.files.map SourceFile.name =
      FileOperation.names operations
  numbers :
    ∀ name,
      table.numbers.lookup name =
        ((FileOperation.names operations).idxOf? name).map
          fun index => ⟨UInt32.ofNat index⟩
  within :
    ∀ name file,
      table.numbers.lookup name = some file →
        file.index.toNat < table.files.length
  text :
    ∀ file entry,
      table.get? file = some entry →
        entry.text = firstText operations entry.name
  find :
    ∀ name file,
      table.find? name = some file ↔
        table.name? file = some name
  distinct :
    ∀ left right name,
      table.name? left = some name →
      table.name? right = some name →
        left = right
  contains :
    ∀ file,
      (table.contains file = true ↔
          (table.get? file).isSome = true)
        ∧ (table.contains file = true ↔
          file.index.toNat < table.size)
  order :
    table.toList.map (fun pair => pair.1.index.toNat) =
      List.range table.size
  entries :
    ∀ file entry,
      (file, entry) ∈ table.toList ↔
        table.get? file = some entry

theorem get?_run
    {operations : List FileOperation}
    (hCount : (names operations).length ≤ 2 ^ 32)
    (file : FileId) :
    (run operations).get? file =
      (names operations)[file.index.toNat]?.map fun name =>
        ⟨name, firstText operations name⟩ := by
  rw [get?, files_run hCount, List.getElem?_map]

theorem holds_run
    {operations : List FileOperation}
    (hCount : (names operations).length ≤ 2 ^ 32) :
    (run operations).Holds operations := by
  have hMirrors := mirrors_run operations
  have hLength :
      (run operations).files.length ≤ 2 ^ 32 := by
    rwa [length_files_run]
  have hFind := hMirrors.find?_eq_some_iff hLength
  constructor
  case names => exact listed_run operations
  case numbers =>
    intro name
    rw [hMirrors.lookup, listed_run]
  case within =>
    intro name file hFile
    have hName := (hFind name file).mp hFile
    rw [name?_eq_getElem?] at hName
    have hBound := (List.getElem?_eq_some_iff.mp hName).1
    rwa [listed, List.length_map] at hBound
  case text =>
    intro file entry hEntry
    rw [get?_run hCount, Option.map_eq_some_iff] at hEntry
    rcases hEntry with ⟨name, _, rfl⟩
    rfl
  case find => exact hFind
  case distinct =>
    intro left right name hLeft hRight
    exact hMirrors.eq_of_name? hLeft hRight
  case contains =>
    intro file
    exact
      ⟨contains_iff_isSome_get? _ file, decide_eq_true_iff⟩
  case order =>
    have hNumbers :=
      congrArg (List.map fun file : FileId => file.index.toNat)
        (map_fst_toList (run operations))
    rw [List.map_map, List.map_map] at hNumbers
    refine hNumbers.trans ?_
    refine (List.map_congr_left ?_).trans (List.map_id _)
    intro index hIndex
    exact UInt32.toNat_ofNat_of_lt'
      ((List.mem_range.mp hIndex).trans_le hLength)
  case entries => exact mem_toList_iff hLength

/- A file that is there stays, and so does its text once it has one. -/
theorem get?_run_append
    {before after : List FileOperation}
    (hCount : (names (before ++ after)).length ≤ 2 ^ 32)
    {file : FileId}
    {entry : SourceFile}
    (hEntry : (run before).get? file = some entry) :
    ∃ later,
      (run (before ++ after)).get? file = some later
        ∧ later.name = entry.name
        ∧ ∀ text,
            entry.text = some text → later.text = some text := by
  have hBefore := (length_names_le before after).trans hCount
  rw [get?_run hBefore, Option.map_eq_some_iff] at hEntry
  rcases hEntry with ⟨name, hName, rfl⟩
  have hLater :
      (names (before ++ after))[file.index.toNat]? =
        some name := by
    rw [names, List.map_append, List.eraseDups_append]
    exact
      List.getElem?_append_left
          (List.getElem?_eq_some_iff.mp hName).1
        ▸ hName
  refine
    ⟨⟨name, firstText (before ++ after) name⟩, ?_, rfl, ?_⟩
  · rw [get?_run hCount, hLater]
    rfl
  · intro text hText
    rw [firstText_append]
    change firstText before name = some text at hText
    rw [hText, Option.some_or]

/- A call gives back the place of its name among all names so far. -/
theorem fst_call_run
    (operations : List FileOperation)
    (operation : FileOperation) :
    ((run operations).call operation).1 =
      ⟨UInt32.ofNat
        ((names (operations ++ [operation])).idxOf
          operation.name)⟩ := by
  have hMirrors := mirrors_run operations
  rw [call_eq_addFile, names_concat]
  by_cases hMember : operation.name ∈ names operations
  · have hLookup :=
      hMirrors.lookup_of_mem (listed_run operations ▸ hMember)
    simp only [addFile, hLookup, if_pos hMember, listed_run]
  · have hLookup :=
      (hMirrors.lookup_eq_none_iff operation.name).mpr
        (listed_run operations ▸ hMember)
    simp only [addFile, hLookup, if_neg hMember]
    rw [List.idxOf_append_of_notMem hMember,
      List.idxOf_cons_self, length_files_run, Nat.add_zero]

/-
  After any calls with fewer names than words the table holds
  what they gave. Every call gave back the number that the file
  has in the end, which for a new file was the number of files
  so far; and no file or text that was there at any time has
  changed.
-/
theorem run_holds_files
    (operations : List FileOperation)
    (hCount : (names operations).length < 2 ^ 32) :
    (run operations).Holds operations
      ∧ (∀ before call after,
          operations = before ++ call :: after →
            ∃ file,
              ((run before).call call).1 = file
                ∧ (run operations).find? call.name = some file
                ∧ (call.name ∉ names before →
                  file.index.toNat = (run before).size))
      ∧ ∀ before after,
          operations = before ++ after →
            ∀ file entry,
              (run before).get? file = some entry →
                ∃ later,
                  (run operations).get? file = some later
                    ∧ later.name = entry.name
                    ∧ ∀ text,
                        entry.text = some text →
                          later.text = some text := by
  have hHolds := holds_run hCount.le
  refine ⟨hHolds, ?_, ?_⟩
  · intro before call after hCalls
    have hPlace :
        (names operations).idxOf call.name =
          (names (before ++ [call])).idxOf call.name := by
      rw [hCalls, List.append_cons, names, List.map_append]
      exact idxOf_eraseDups_append (by simp) _
    have hThere : call.name ∈ names operations := by
      rw [names, List.mem_eraseDups, hCalls]
      simp
    have hWord := Dictionary.toNat_ofNat_idxOf hCount.le hThere
    refine ⟨_, rfl, ?_, ?_⟩
    · rw [fst_call_run, ← hPlace, find?, hHolds.numbers,
        idxOf?_of_mem hThere, Option.map_some]
    · intro hNew
      rw [fst_call_run, ← hPlace, hWord, hPlace, names_concat,
        if_neg hNew, List.idxOf_append_of_notMem hNew,
        List.idxOf_cons_self, Nat.add_zero, size,
        length_files_run]
  · intro before after hCalls file entry hEntry
    rw [hCalls] at hCount ⊢
    exact get?_run_append hCount.le hEntry

/-
  A file that is named without a text before two texts for it
  come, around a file that never gets one.
-/
def lateTextCalls : List FileOperation :=
  [.add "a.qs", .add "b.qs", .addText "a.qs" "first",
    .add "a.qs", .addText "a.qs" "second"]

theorem run_holds_files_late :
    (names lateTextCalls).length < 2 ^ 32
      ∧ (run lateTextCalls).get? ⟨0⟩ =
        some ⟨"a.qs", some "first"⟩
      ∧ (run lateTextCalls).find? "b.qs" = some ⟨1⟩
      ∧ ((run (lateTextCalls.take 4)).call
            (.addText "a.qs" "second")).1 =
        ⟨0⟩ := by
  have hNames : names lateTextCalls = ["a.qs", "b.qs"] := by
    decide
  have hCount : (names lateTextCalls).length < 2 ^ 32 := by
    rw [hNames]
    decide
  have hRun := run_holds_files lateTextCalls hCount
  have hEntry :
      (run (lateTextCalls.take 3)).get? ⟨0⟩ =
        some ⟨"a.qs", some "first"⟩ := by
    decide
  refine ⟨hCount, ?_, ?_, ?_⟩
  · rcases hRun.2.2 (lateTextCalls.take 3)
        (lateTextCalls.drop 3) rfl ⟨0⟩ _ hEntry with
      ⟨⟨name, text⟩, hLater, rfl, hText⟩
    have hFirst : text = some "first" := hText "first" rfl
    rw [hLater, hFirst]
  · rw [find?, hRun.1.numbers, hNames]
    decide
  · rcases hRun.2.1 (lateTextCalls.take 4)
        (.addText "a.qs" "second") [] rfl with
      ⟨file, hFile, hFind, _⟩
    rw [find?, hRun.1.numbers, hNames] at hFind
    rw [hFile]
    exact (Option.some.inj hFind).symm

end SourceFiles

end TracedScript
