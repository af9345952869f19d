import TracedScript.Proofs.WritingAgain

/-
  Building again.

  The outputs of a build have names that neither its settings
  nor its inputs have. So the next build finds and reads the
  same, and what it writes is already there. Only directories
  are new, and one of them may be too deep to be searched.

  Key definitions include:
    * `Build.HasOutputName`
    * `Build.Built`: the tree that a build has left.

  Main declarations:
    * `Build.built_of_run`: what a build does to a tree.
    * `Build.setup_again`, `Build.names_again_iff`
    * `Build.run_again`
-/

------------------------------------------------------------
-- Names
------------------------------------------------------------

namespace TracedScript

namespace Build

open FileTree (Writes Changes isDirectory_iff)

/- A last name as the outputs of a build have it. -/
def HasOutputName (names : List Name) : Prop :=
  ∃ front, ∃ ending ∈ [".js", ".js.map"],
    names.getLast? = some (Text.bytes (front ++ ending))

variable {tree after : FileTree} {location input : Location}

theorem not_hasOutputName
    {name : String}
    (hLast : location.getLast? = some (Text.bytes name))
    (hEnd : name.toList.getLast? = some 'n') :
    ¬ HasOutputName location := by
  rintro ⟨front, ending, hEnding, hOutput⟩
  rw [hLast, Option.some.injEq, Text.bytes_inj] at hOutput
  rw [hOutput] at hEnd
  rcases List.mem_pair.mp hEnding with rfl | rfl
  · simp at hEnd
  · simp at hEnd

theorem HasInputName.not_hasOutputName
    (hInput : HasInputName input) :
    ¬ HasOutputName input := by
  rcases hInput with ⟨front, _, hLast⟩
  exact Build.not_hasOutputName hLast (by simp [inputEnding])

theorem hasOutputName_of_mem_outputPaths
    {context : Context}
    {input path : Path}
    (hName : ∃ name, codeName? input = some name)
    (hPath : path ∈ outputPaths context input) :
    HasOutputName path.location := by
  rcases hName with ⟨name, hName⟩
  rcases names_of_mem_outputPaths hName hPath with
    ⟨file, hFile, hNames⟩
  have hLong : 3 ≤ (Text.bytes file).length := by
    have hLong := (leads_of_codeName? hName).1
    rcases List.mem_pair.mp hFile with rfl | rfl
    · exact hLong
    · rw [Text.bytes_append, List.length_append]
      omega
  rw [HasOutputName,
    Location.location_of_names hNames
      (Path.isInert_of_length hLong).2, List.getLast?_concat]
  rcases codeName?_eq_some hName with ⟨last, _, _, rfl⟩
  rcases List.mem_pair.mp hFile with rfl | rfl
  · exact ⟨stem last, ".js", List.mem_cons_self, rfl⟩
  · refine
      ⟨stem last, ".js.map",
        List.mem_cons_of_mem _ List.mem_cons_self, ?_⟩
    rw [String.append_assoc]
    rfl

------------------------------------------------------------
-- Writing
------------------------------------------------------------

variable {cwd : Path} {request : Request} {result : Result}

/-
  The tree that a build has left. It has new directories, and
  only files with the names of outputs are new or changed.
-/
structure Built (tree after : FileTree) : Prop where
  wellFormed : tree.WellFormed
  linkFree : tree.LinkFree
  oneNamed :
    ∀ location, HasOutputName location → tree.OneNamed location
  changes : Changes tree after
  writes : Writes (fun _ => True) HasOutputName tree after

namespace Built

theorem wellFormed_after
    (hBuilt : Built tree after) :
    after.WellFormed :=
  hBuilt.changes.wellFormed hBuilt.wellFormed

theorem linkFree_after
    (hBuilt : Built tree after) :
    after.LinkFree :=
  hBuilt.changes.linkFree hBuilt.linkFree

theorem oneNamed_after
    (hBuilt : Built tree after)
    (location : Location)
    (hName : HasOutputName location) :
    after.OneNamed location :=
  hBuilt.changes.oneNamed hBuilt.wellFormed
    (hBuilt.oneNamed location hName)

end Built

/- A build without outputs leaves its tree as it is. -/
theorem eq_of_emitted_eq_nil
    (hRun : run tree cwd request = (after, .ok result))
    (hNone : result.emitted = []) :
    after = tree := by
  rcases run_eq_ok_iff.mp hRun with ⟨made, _, hWrite, rfl⟩
  rw [List.map_eq_nil_iff.mp hNone] at hWrite
  cases hWrite
  rfl

theorem hasOutputName_of_mem_emitted
    (hRun : run tree cwd request = (after, .ok result))
    {path : Path}
    (hPath : path ∈ result.emitted) :
    HasOutputName path.location := by
  rcases writeAll_of_emitted hRun (List.ne_nil_of_mem hPath) with
    ⟨start, found, _, _, hGood, hPaths, _⟩
  rw [hPaths, List.mem_flatMap] at hPath
  rcases hPath with ⟨input, hInput, hMember⟩
  exact
    hasOutputName_of_mem_outputPaths (hGood input hInput).1
      hMember

theorem built_of_run
    (hTree : tree.WellFormed)
    (hPlain : tree.LinkFree)
    (hNamed :
      ∀ location,
        HasOutputName location → tree.OneNamed location)
    (hRun : run tree cwd request = (after, .ok result)) :
    Built tree after := by
  by_cases hNone : result.emitted = []
  · rw [eq_of_emitted_eq_nil hRun hNone]
    exact ⟨hTree, hPlain, hNamed, .refl, .refl _⟩
  · rcases writeAll_of_emitted hRun hNone with
      ⟨start, found, _, _, _, _, hOutputs, hWrite⟩
    have hChanges := changes_writeAll hTree hWrite
    have hWritten := (written_writeAll hWrite).writes
    rw [← hOutputs] at hWritten
    refine ⟨hTree, hPlain, hNamed, hChanges, ?_⟩
    apply hWritten.mono fun _ _ => trivial
    rintro location ⟨path, hPath, hResolve⟩
    rw [FileTree.location_of_resolve? (hChanges.linkFree hPlain)
      hResolve]
    exact hasOutputName_of_mem_emitted hRun hPath

------------------------------------------------------------
-- Settings
------------------------------------------------------------

theorem hasFile_iff
    {path : Path} :
    tree.hasFile path = true ↔
      ∃ location,
        tree.resolve? path = some location
          ∧ (tree.node? location).isSome = true := by
  rw [FileTree.hasFile, Option.any_eq_true]

theorem Built.hasFile
    (hBuilt : Built tree after)
    {path : Path}
    (hFile : tree.hasFile path = true) :
    after.hasFile path = true := by
  rw [hasFile_iff] at hFile ⊢
  rcases hFile with ⟨location, hResolve, hNode⟩
  rcases Option.isSome_iff_exists.mp hNode with ⟨node, hNode⟩
  refine
    ⟨location, hBuilt.writes.keeps.resolve? hResolve, ?_⟩
  rw [hBuilt.writes.node? hNode]
  rfl

theorem Built.canonical
    (hBuilt : Built tree after)
    {path : Path}
    (hFile : tree.hasFile path = true) :
    after.canonical path = tree.canonical path := by
  rcases hasFile_iff.mp hFile with ⟨location, hResolve, _⟩
  exact
    hBuilt.writes.canonical hBuilt.linkFree hBuilt.linkFree_after
      hResolve

/-
  No settings appear in the working directory. A file there was
  written by no build, since its name is none of an output.
-/
theorem hasFile_settings_again
    (hBuilt : Built tree after)
    (hCwd : after.canonical cwd = tree.canonical cwd) :
    after.hasFile
        ((tree.canonical cwd).join
          (Text.bytes Settings.fileName)) =
      tree.hasFile
        ((tree.canonical cwd).join
          (Text.bytes Settings.fileName)) := by
  rw [Bool.eq_iff_iff]
  refine ⟨?_, hBuilt.hasFile⟩
  intro hFile
  rcases hasFile_iff.mp hFile with ⟨location, hResolve, hNode⟩
  have hSlash :
      Path.slash ∉ Text.bytes Settings.fileName := by
    decide
  rw [← hCwd] at hResolve
  rcases FileTree.exists_canonical_eq hBuilt.wellFormed_after
      hBuilt.linkFree_after hSlash hResolve with
    ⟨base, hProper, hBase⟩
  rw [← hCwd, hBase]
  rw [hBase] at hResolve
  have hLocation :
      location = base ++ [Text.bytes Settings.fileName] := by
    have hNames :
        ((Location.path base).join
            (Text.bytes Settings.fileName)).names =
          base ++ [Text.bytes Settings.fileName] := by
      rw [Path.names_join_name (by decide) hSlash,
        hProper.names_path]
    rw [FileTree.location_of_resolve? hBuilt.linkFree_after
        hResolve, Location.location_of_names hNames (by decide),
      Location.walk_names _ fun name hName =>
        (hProper name hName).2.1]
    rfl
  have hOther : ¬ HasOutputName location :=
    not_hasOutputName (by rw [hLocation, List.getLast?_concat])
      (by decide)
  have hThere := (hBuilt.writes.isSome_node?_iff hOther).mp hNode
  refine hasFile_iff.mpr ⟨location, ?_, hThere⟩
  have hEntry := isSome_get?_of_node? hThere
  rw [hLocation] at hEntry ⊢
  have hDirectory :=
    hBuilt.wellFormed.isDirectory_of_append hEntry (by simp)
  have hFits := (FileTree.resolve?_eq_some_iff.mp hResolve).1
  exact
    FileTree.resolve?_join hBuilt.wellFormed hBuilt.linkFree
      (FileTree.resolve?_path hBuilt.wellFormed hBuilt.linkFree
        (FileTree.isSome_of_isDirectory hDirectory)
        (Path.fits_of_fits_join hSlash hFits))
      hDirectory hEntry hFits

/- The path that settings are asked for by. -/
def askedPath
    (tree : FileTree)
    (cwd : Path)
    (project : Name) :
    Path :=
  if tree.hasDirectory (cwd.join project) then
    (cwd.join project).join (Text.bytes Settings.fileName)
  else cwd.join project

/- Settings that are asked for must be there. -/
theorem settingsPath_some_eq_ok_iff
    {project : Name}
    {found : Option Path} :
    settingsPath tree cwd (some project) = .ok found ↔
      tree.hasFile (askedPath tree cwd project) = true
        ∧ found =
          some (tree.canonical (askedPath tree cwd project)) := by
  simp only [settingsPath]
  rw [← askedPath]
  constructor
  · intro hFound
    split at hFound
    · cases hFound
    · split at hFound
      · next hFile =>
          cases hFound
          exact ⟨hFile, rfl⟩
      · cases hFound
  · rintro ⟨hFile, rfl⟩
    have hThere :
        (tree.resolve?
          (askedPath tree cwd project)).isNone = false := by
      rcases hasFile_iff.mp hFile with ⟨location, hResolve, _⟩
      rw [hResolve]
      rfl
    rw [hThere, if_neg Bool.false_ne_true, if_pos hFile]

/- A path that leads to a file goes on to be no directory. -/
theorem askedPath_again
    (hBuilt : Built tree after)
    {project : Name}
    (hFile : tree.hasFile (askedPath tree cwd project) = true) :
    askedPath after cwd project = askedPath tree cwd project := by
  have hSame :
      after.hasDirectory (cwd.join project) =
        tree.hasDirectory (cwd.join project) := by
    rw [Bool.eq_iff_iff]
    refine ⟨?_, hBuilt.writes.keeps.hasDirectory⟩
    intro hLater
    by_contra hOther
    rw [askedPath, if_neg hOther] at hFile
    rcases hasFile_iff.mp (hBuilt.hasFile hFile) with
      ⟨location, hResolve, hNode⟩
    rw [FileTree.hasDirectory, hResolve] at hLater
    have hDirectory : after.isDirectory location = true := hLater
    rw [not_isDirectory_of_node? hNode] at hDirectory
    cases hDirectory
  rw [askedPath, askedPath, hSame]

/- The settings of a build are those of the next one. -/
theorem settingsPath_again
    (hBuilt : Built tree after)
    (hCwd : after.canonical cwd = tree.canonical cwd)
    {project : Option Name}
    {found : Option Path}
    (hFound :
      settingsPath tree (tree.canonical cwd) project =
        .ok found) :
    settingsPath after (tree.canonical cwd) project =
      .ok found := by
  cases project with
  | none =>
      rw [← hFound, settingsPath, settingsPath,
        hasFile_settings_again hBuilt hCwd]
      split
      · next hFile => rw [hBuilt.canonical hFile]
      · rfl
  | some project =>
      rw [settingsPath_some_eq_ok_iff] at hFound ⊢
      rw [askedPath_again hBuilt hFound.1,
        hBuilt.canonical hFound.1]
      exact ⟨hBuilt.hasFile hFound.1, hFound.2⟩

/- Settings that are found have their shortest path. -/
theorem exists_location_of_settingsPath
    (hTree : tree.WellFormed)
    (hPlain : tree.LinkFree)
    {project : Option Name}
    {path : Path}
    (hFound : settingsPath tree cwd project = .ok (some path)) :
    ∃ location,
      (tree.node? location).isSome = true
        ∧ tree.resolve? path = some location
        ∧ path.names = location := by
  have hFile :
      ∃ other,
        tree.hasFile other = true
          ∧ path = tree.canonical other := by
    cases project with
    | none =>
        rw [settingsPath] at hFound
        split at hFound
        · next hFile =>
            cases hFound
            exact ⟨_, hFile, rfl⟩
        · cases hFound
    | some project =>
        rcases settingsPath_some_eq_ok_iff.mp hFound with
          ⟨hFile, hSame⟩
        exact ⟨_, hFile, Option.some.inj hSame⟩
  rcases hFile with ⟨other, hFile, rfl⟩
  rcases hasFile_iff.mp hFile with ⟨location, hResolve, hNode⟩
  have hThere := isSome_get?_of_node? hNode
  have hFits : (Location.path location).fits = true := by
    rw [FileTree.location_of_resolve? hPlain hResolve]
    exact
      FileTree.fits_path_location
        (FileTree.resolve?_eq_some_iff.mp hResolve).1
  rw [FileTree.canonical_of_resolve? hPlain hResolve]
  exact
    ⟨location, hNode,
      FileTree.resolve?_path hTree hPlain hThere hFits,
      (hTree.proper hThere).names_path⟩

/- The next build knows the same from its settings. -/
theorem setup_again
    (hBuilt : Built tree after)
    (hCwd : after.canonical cwd = tree.canonical cwd)
    {start : Setup}
    (hSettings :
      ∀ path,
        settingsPath tree (tree.canonical cwd) request.project =
          .ok (some path) →
        ¬ HasOutputName path.names)
    (hStart : setup tree cwd request = .ok start) :
    setup after cwd request = .ok start := by
  unfold setup at hStart ⊢
  rw [hCwd]
  rcases bind_eq_ok_iff.mp hStart with ⟨found, hFound, hRest⟩
  refine
    bind_eq_ok_iff.mpr
      ⟨found, settingsPath_again hBuilt hCwd hFound, ?_⟩
  cases found with
  | none => exact hRest
  | some path =>
      rcases exists_location_of_settingsPath hBuilt.wellFormed
          hBuilt.linkFree hFound with
        ⟨location, hNode, hResolve, hNames⟩
      have hOther := hSettings path hFound
      rw [hNames] at hOther
      have hSame :
          readSettings after path = readSettings tree path := by
        unfold readSettings
        rw [hBuilt.writes.readFile hBuilt.oneNamed_after hOther
          hNode hResolve]
      simp only [hSame]
      exact hRest

------------------------------------------------------------
-- Inputs
------------------------------------------------------------

variable {root : Path} {roots found : List Path}

/- No input has the name of an output, unless it is a root. -/
theorem Names.not_hasOutputName
    (hNames : Names tree root input)
    (hRoot :
      ∀ location,
        tree.resolve? root = some location →
        (tree.node? location).isSome = true →
          ¬ HasOutputName location) :
    ¬ HasOutputName input := by
  cases hNames with
  | file hResolve hFile => exact hRoot input hResolve hFile
  | searched _ _ hBelow =>
      exact HasInputName.not_hasOutputName hBelow.2.2

theorem Built.isDirectory_iff
    (hBuilt : Built tree after)
    (hThere : (tree.get? location).isSome = true) :
    after.isDirectory location = true ↔
      tree.isDirectory location = true := by
  rcases Option.isSome_iff_exists.mp hThere with ⟨entry, hEntry⟩
  rw [FileTree.isDirectory_iff, FileTree.isDirectory_iff,
    hBuilt.writes.keeps location entry hEntry, hEntry]

/- A root stands for the same inputs in the next build. -/
theorem names_again_iff
    (hBuilt : Built tree after)
    (hRoot : tree.resolve? root = some location) :
    Names after root input ↔ Names tree root input := by
  have hThere := hBuilt.wellFormed.isSome_resolve? hRoot
  have hLater := hBuilt.writes.keeps.resolve? hRoot
  cases hDirectory : tree.isDirectory location with
  | true =>
      rw [names_iff_inputBelow hRoot hDirectory,
        names_iff_inputBelow hLater
          ((hBuilt.isDirectory_iff hThere).mpr hDirectory),
        InputBelow, InputBelow]
      refine and_congr_left ?_
      rintro ⟨_, hName⟩
      exact
        hBuilt.writes.isSome_node?_iff hName.not_hasOutputName
  | false =>
      have hOther : after.isDirectory location = false := by
        rw [← Bool.not_eq_true, hBuilt.isDirectory_iff hThere,
          hDirectory]
        exact Bool.false_ne_true
      have hFile :=
        isSome_node?_of_not_isDirectory hBuilt.linkFree hThere
          hDirectory
      have hFileLater :=
        isSome_node?_of_not_isDirectory hBuilt.linkFree_after
          (hBuilt.wellFormed_after.isSome_resolve? hLater) hOther
      rw [names_iff_of_file hRoot hFile,
        names_iff_of_file hLater hFileLater]

/- Inputs that are not found are missing at one of the roots. -/
theorem exists_root_of_inputs_eq_error
    {failure : Failure}
    (hFailed : inputs tree roots = .error failure) :
    ∃ root ∈ roots, inputsAt tree root = .error failure := by
  unfold inputs at hFailed
  cases hLists : roots.mapM (inputsAt tree) with
  | ok lists =>
      rw [hLists] at hFailed
      cases hFailed
  | error first =>
      rw [hLists] at hFailed
      cases hFailed
      exact exists_of_mapM_eq_error hLists

/- The same inputs are found, or a directory is too deep. -/
theorem inputs_again
    (hBuilt : Built tree after)
    (hFound : inputs tree roots = .ok found)
    (hShort :
      ∀ root ∈ roots, ∀ input,
        Names tree root input →
          (Location.path input).fits = true) :
    ((∀ root ∈ roots, CanSearch after root)
        ∧ inputs after roots = .ok found)
      ∨ ∃ root ∈ roots, ∃ below,
        ¬ CanSearch after root
          ∧ (root.extend below).fits = false
          ∧ inputs after roots =
            .error
              (.inputsNotSearched root
                (.blocked (root.extend below) .tooLong)) := by
  have hAfter := hBuilt.wellFormed_after
  have hPlain := hBuilt.linkFree_after
  have hLater :
      ∀ root ∈ roots, ∃ location,
        after.resolve? root = some location
          ∧ ∀ input,
            Names after root input ↔ Names tree root input := by
    intro root hRoot
    have hThere :=
      (exists_inputs_iff hBuilt.wellFormed hBuilt.linkFree).mp
        ⟨found, hFound⟩ root hRoot
    rcases Option.isSome_iff_exists.mp hThere.1 with
      ⟨location, hLocation⟩
    exact
      ⟨location, hBuilt.writes.keeps.resolve? hLocation,
        fun input => names_again_iff hBuilt hLocation⟩
  cases hAgain : inputs after roots with
  | ok again =>
      have hSearch :=
        (exists_inputs_iff hAfter hPlain).mp ⟨again, hAgain⟩
      have hShortLater :
          ∀ root ∈ roots, ∀ input,
            Names after root input →
              (Location.path input).fits = true := by
        intro root hRoot input hNames
        rcases hLater root hRoot with ⟨_, _, hSame⟩
        exact hShort root hRoot input ((hSame input).mp hNames)
      have hSame : again = found := by
        apply (pairwise_inputs hAgain).eq_of_mem_iff
          (pairwise_inputs hFound)
        intro path
        rw [mem_inputs_iff hAfter hPlain hShortLater hAgain,
          mem_inputs_iff hBuilt.wellFormed hBuilt.linkFree hShort
            hFound]
        constructor
        · rintro ⟨root, hRoot, input, hNames, hPath⟩
          rcases hLater root hRoot with ⟨_, _, hSame⟩
          exact
            ⟨root, hRoot, input, (hSame input).mp hNames, hPath⟩
        · rintro ⟨root, hRoot, input, hNames, hPath⟩
          rcases hLater root hRoot with ⟨_, _, hSame⟩
          exact
            ⟨root, hRoot, input, (hSame input).mpr hNames, hPath⟩
      exact
        .inl
          ⟨fun root hRoot => (hSearch root hRoot).2, by rw [hSame]⟩
  | error failure =>
      rcases exists_root_of_inputs_eq_error hAgain with
        ⟨root, hRoot, hFailed⟩
      rcases hLater root hRoot with ⟨location, hLocation, _⟩
      rcases inputsAt_cases hAfter hPlain hLocation with
        ⟨_, files, hFiles, _⟩ | ⟨below, hBelow, hLong, hOther⟩
      · rw [hFailed] at hFiles
        cases hFiles
      · rw [hFailed] at hOther
        cases hOther
        refine .inr ⟨root, hRoot, below, ?_, hLong, rfl⟩
        intro hSearch
        rw [hSearch location hLocation below hBelow] at hLong
        cases hLong

------------------------------------------------------------
-- Runs
------------------------------------------------------------

/- A plan depends on its tree only by what inputs can be read. -/
theorem planInputs_congr
    (context : Context)
    (warnings : List Diagnostic)
    (hSame :
      ∀ input ∈ found,
        after.readFile input = tree.readFile input) :
    planInputs after context warnings found =
      planInputs tree context warnings found := by
  have hCompiled :
      (found.map fun input =>
          (input, compileInput after context input)) =
        found.map fun input =>
          (input, compileInput tree context input) := by
    apply List.map_congr_left
    intro input hInput
    unfold compileInput
    rw [hSame input hInput]
  unfold planInputs
  rw [hCompiled]

/- A build that writes anything has read all its inputs. -/
theorem readable_of_emitted
    {start : Setup}
    (hRun : run tree cwd request = (after, .ok result))
    (hEmitted : result.emitted ≠ [])
    (hStart : setup tree cwd request = .ok start)
    (hFound : inputs tree start.roots = .ok found) :
    ∀ path ∈ found, (inputText? tree path).isSome = true := by
  rcases writeAll_of_emitted hRun hEmitted with
    ⟨_, _, hSameStart, hSameFound, hGood, _⟩
  rw [hStart] at hSameStart
  cases hSameStart
  rw [hFound] at hSameFound
  cases hSameFound
  exact fun path hPath => (hGood path hPath).2

/- Inputs that can all be read have short paths. -/
theorem short_of_readable
    (hTree : tree.WellFormed)
    (hPlain : tree.LinkFree)
    (hFound : inputs tree roots = .ok found)
    (hRead :
      ∀ path ∈ found, (inputText? tree path).isSome = true)
    (hRoot : root ∈ roots)
    (hNames : Names tree root input) :
    (Location.path input).fits = true := by
  rcases exists_mem_inputs hTree hPlain hFound hRoot hNames with
    ⟨path, hPath, hSame⟩
  rcases exists_location_of_mem_inputs hTree hPlain hFound hPath
      (hRead path hPath) with
    ⟨location, hProper, _, hFits, rfl⟩
  have hInput : input = location := by
    rw [← location_inputPath hTree hPlain hNames, Path.location,
      ← hSame, ← Path.location, hProper.location_path]
  rw [hInput]
  exact hFits

/- The inputs of a build can be read as before in the next one. -/
theorem readFile_again
    (hBuilt : Built tree after)
    (hFound : inputs tree roots = .ok found)
    {path : Path}
    (hRead : (inputText? tree path).isSome = true)
    (hPath : path ∈ found)
    (hOther :
      ∀ root ∈ roots, ∀ input,
        Names tree root input → ¬ HasOutputName input) :
    after.readFile path = tree.readFile path := by
  have hTree := hBuilt.wellFormed
  have hPlain := hBuilt.linkFree
  rcases exists_location_of_mem_inputs hTree hPlain hFound hPath
      hRead with
    ⟨location, hProper, hFile, hFits, hSame⟩
  rcases exists_names_of_mem_inputs hTree hPlain hFound hPath with
    ⟨root, hRoot, input, hNames, hInput⟩
  have hLocation : location = input := by
    rw [← location_inputPath hTree hPlain hNames, ← hInput, hSame,
      hProper.location_path]
  rw [hSame]
  exact
    hBuilt.writes.readFile hBuilt.oneNamed_after
      (hLocation ▸ hOther root hRoot input hNames) hFile
      (FileTree.resolve?_path hTree hPlain
        (isSome_get?_of_node? hFile) hFits)

/- The outputs of a build with different names are written again. -/
theorem writeAll_again_of_run
    {made : Plan}
    (hTree : tree.WellFormed)
    (hPlain : tree.LinkFree)
    (hNamed :
      ∀ location,
        HasOutputName location → tree.OneNamed location)
    (hRun : run tree cwd request = (after, .ok result))
    (hNodup : (result.emitted.map Path.names).Nodup)
    (hWrite : writeAll tree made.toWrite = (after, .ok ()))
    (hResult : result.emitted = made.toWrite.map Output.path) :
    writeAll after made.toWrite = (after, .ok ()) := by
  have hBuilt := built_of_run hTree hPlain hNamed hRun
  have hApart := nodup_location_emitted hTree hPlain hRun hNodup
  rw [hResult] at hApart
  have hOutputs :
      ∀ path ∈ made.toWrite.map Output.path,
        tree.OneNamed path.location := by
    intro path hPath
    rw [← hResult] at hPath
    exact hNamed _ (hasOutputName_of_mem_emitted hRun hPath)
  exact
    writeAll_again hBuilt.wellFormed_after hWrite (.refl _)
      (readFile_of_nodup hTree hPlain hApart hOutputs hWrite)

/-
  In a tree without links, a build with different names for all
  outputs, whose settings and roots have no names of outputs,
  can be run again. It has the same inputs with the same
  contents. If all roots can still be searched, it has the same
  result and nothing changes; otherwise it stops at one of them.
-/
theorem run_again
    (hTree : tree.WellFormed)
    (hPlain : tree.LinkFree)
    (hNamed :
      ∀ location,
        HasOutputName location → tree.OneNamed location)
    (hRun : run tree cwd request = (after, .ok result))
    (hNodup : (result.emitted.map Path.names).Nodup)
    (hCwd : after.canonical cwd = tree.canonical cwd)
    (hSettings :
      ∀ path,
        settingsPath tree (tree.canonical cwd) request.project =
          .ok (some path) →
        ¬ HasOutputName path.names)
    (hRoots :
      ∀ start,
        setup tree cwd request = .ok start →
        ∀ root ∈ start.roots, ∀ location,
          tree.resolve? root = some location →
          (tree.node? location).isSome = true →
            ¬ HasOutputName location) :
    ∃ start,
      setup tree cwd request = .ok start
        ∧ setup after cwd request = .ok start
        ∧ (∀ root ∈ start.roots, ∀ input,
          (Names after root input ↔ Names tree root input)
            ∧ (Names tree root input →
              after.contents? input = tree.contents? input))
        ∧ (((∀ root ∈ start.roots, CanSearch after root)
              ∧ run after cwd request = (after, .ok result))
          ∨ ∃ root ∈ start.roots, ∃ below,
            ¬ CanSearch after root
              ∧ (root.extend below).fits = false
              ∧ run after cwd request =
                (after,
                  .error
                    (.inputsNotSearched root
                      (.blocked (root.extend below)
                        .tooLong)))) := by
  have hBuilt := built_of_run hTree hPlain hNamed hRun
  rcases run_eq_ok_iff.mp hRun with
    ⟨made, hPlan, hWrite, hResult⟩
  rcases plan_eq_ok_iff.mp hPlan with
    ⟨start, found, hStart, hFound, hMade⟩
  have hAgain := setup_again hBuilt hCwd hSettings hStart
  have hThere :=
    (exists_inputs_iff hTree hPlain).mp ⟨found, hFound⟩
  have hOther :
      ∀ root ∈ start.roots, ∀ input,
        Names tree root input → ¬ HasOutputName input :=
    fun root hRoot input hNames =>
      hNames.not_hasOutputName (hRoots start hStart root hRoot)
  refine ⟨start, hStart, hAgain, ?_, ?_⟩
  · intro root hRoot input
    rcases Option.isSome_iff_exists.mp (hThere root hRoot).1 with
      ⟨location, hLocation⟩
    refine ⟨names_again_iff hBuilt hLocation, ?_⟩
    intro hNames
    exact
      hBuilt.writes.contents?_eq hBuilt.oneNamed_after
        (hOther root hRoot input hNames) hNames.isFile
  · by_cases hNone : result.emitted = []
    · have hSame := eq_of_emitted_eq_nil hRun hNone
      rw [hSame] at hRun
      rw [hSame]
      exact .inl ⟨fun root hRoot => (hThere root hRoot).2, hRun⟩
    · have hRead :=
        readable_of_emitted hRun hNone hStart hFound
      rcases inputs_again hBuilt hFound fun root hRoot input =>
          short_of_readable hTree hPlain hFound hRead hRoot with
        ⟨hSearch, hInputs⟩ | ⟨root, hRoot, below, hSearch, hLong, hFailed⟩
      · have hSamePlan : plan after cwd request = .ok made := by
          refine
            plan_eq_ok_iff.mpr ⟨start, found, hAgain, hInputs, ?_⟩
          rw [planInputs_congr, hMade]
          intro path hPath
          exact
            readFile_again hBuilt hFound (hRead path hPath) hPath
              hOther
        refine
          .inl
            ⟨hSearch,
              run_eq_ok_iff.mpr ⟨made, hSamePlan, ?_, hResult⟩⟩
        exact
          writeAll_again_of_run hTree hPlain hNamed hRun hNodup
            hWrite (by rw [hResult])
      · exact
          .inr
            ⟨root, hRoot, below, hSearch, hLong,
              run_of_inputs_eq_error hAgain hFailed⟩

/- One word, and an output directory. -/
def soleRequest (word : Name) : Request where
  outDir := some (Text.bytes "d")
  files := [word]

def soleContext (base : Path) : Context :=
  ⟨base, some (base.join (Text.bytes "d")),
    { outDir := some (Text.bytes "d") }⟩

theorem setup_sole
    {base : Path}
    (word : Name)
    (hBase : tree.canonical cwd = base)
    (hNone : settingsPath tree base none = .ok none) :
    setup tree cwd (soleRequest word) =
      .ok ⟨soleContext base, [], [base.join word]⟩ := by
  unfold setup
  simp only [hBase, soleRequest, hNone]
  rfl

/- One input, and nothing else. -/
def soleTree (contents : List UInt8) : FileTree where
  entries :=
    [(.ofTexts ["w"], .directory),
      (.ofTexts ["w", "m.ast.json"], .file 0)]
  nodes := [contents]

/- The tree after its code is written. -/
def soleAfter
    (contents : List UInt8)
    (code : String) :
    FileTree where
  entries :=
    (soleTree contents).entries
      ++ [(.ofTexts ["w", "d"], .directory),
        (.ofTexts ["w", "d", "m.js"], .file 1)]
  nodes := [contents, Text.bytes code]

theorem wellFormed_sole
    (contents : List UInt8) :
    (soleTree contents).WellFormed :=
  (by decide : (soleTree []).WellFormed)

theorem linkFree_sole
    (contents : List UInt8) :
    (soleTree contents).LinkFree :=
  (by decide : (soleTree []).LinkFree)

theorem oneNamed_sole
    (contents : List UInt8)
    (location : Location) :
    (soleTree contents).OneNamed location := by
  have hOnly :
      ∀ {location node},
        (soleTree contents).node? location = some node →
          location = .ofTexts ["w", "m.ast.json"] := by
    intro location node hNode
    rw [FileTree.node?_eq_some_iff] at hNode
    have hSome : location ≠ [] := by
      rintro rfl
      cases hNode
    have hMember :=
      (wellFormed_sole contents).mem_entries_iff.mpr
        ⟨hSome, hNode⟩
    simp only [soleTree, List.mem_cons, Prod.mk.injEq,
      reduceCtorEq, and_false, List.not_mem_nil, or_false,
      false_or] at hMember
    exact hMember.1
  intro node other hNode hOther
  rw [hOnly hNode, hOnly hOther]

/- The input is found by all paths to its directory. -/
theorem inputsAt_sole
    {contents : List UInt8}
    (hRoot :
      (soleTree contents).resolve? root =
        some (.ofTexts ["w"])) :
    inputsAt (soleTree contents) root =
      .ok [.ofText "/w/m.ast.json"] := by
  have hSearch :
      (soleTree contents).search [] root (.ofTexts ["w"]) =
        .ok [root.join (Text.bytes "m.ast.json")] := by
    rw [FileTree.search_of_reach
      (FileTree.reach_find_eq_ok_iff.mpr hRoot)]
    rfl
  have hName :
      (nameText? (root.join (Text.bytes "m.ast.json"))).any
          isInputName =
        true := by
    have hProper : Location.Proper [Text.bytes "m.ast.json"] := by
      unfold Location.Proper
      decide
    exact
      (any_nameText?_iff hProper (List.cons_ne_nil _ _) root).mpr
        ⟨"m", by decide, rfl⟩
  have hPath :
      (soleTree contents).canonical
          (root.join (Text.bytes "m.ast.json")) =
        .ofText "/w/m.ast.json" := by
    rw [FileTree.canonical_join (wellFormed_sole contents)
      (linkFree_sole contents) hRoot rfl rfl]
    rfl
  rw [inputsAt_of_search hRoot rfl hSearch, List.filter_singleton,
    hName, cond_true, List.map_singleton, hPath]

theorem exists_run_sole
    {contents : List UInt8}
    (hContents : Text.bytes emptyProgram.write = contents)
    (word : Name)
    (hRoot :
      (soleTree contents).resolve?
          (Path.join (.ofText "/w") word) =
        some (.ofTexts ["w"])) :
    ∃ code,
      run (soleTree contents) (.ofText "/w") (soleRequest word) =
        (soleAfter contents code,
          .ok
            ⟨[], [.ofText "/w/m.ast.json"],
              [.ofText "/w/d/m.js"]⟩) := by
  have hThere :
      (soleTree contents).readFile (.ofText "/w/m.ast.json") =
        .ok (Text.bytes emptyProgram.write) := by
    rw [hContents]
    rfl
  have hPath :
      codePath (soleContext (.ofText "/w"))
          (.ofText "/w/m.ast.json") "m.js" =
        .ofText "/w/d/m.js" :=
    rfl
  have hBase :
      (soleTree contents).canonical (.ofText "/w") =
        .ofText "/w" :=
    rfl
  rcases exists_run_of_input (setup_sole word hBase rfl)
      (inputsAt_sole hRoot) hThere rfl hPath with
    ⟨code, hRun⟩
  exact ⟨code, hRun rfl⟩

/- The code does not keep its directory from being searched. -/
theorem canSearch_soleAfter
    (contents : List UInt8)
    (code : String)
    (hTree : (soleAfter contents code).WellFormed)
    (hPlain : (soleAfter contents code).LinkFree) :
    CanSearch (soleAfter contents code) (.ofText "/w") := by
  have hReach :
      (soleAfter contents code).reach .find (.ofText "/w") =
        .ok (.ofTexts ["w"]) :=
    rfl
  have hInner :
      (soleAfter contents code).reach .find
          (Path.join (.ofText "/w") (Text.bytes "d")) =
        .ok (.ofTexts ["w", "d"]) :=
    rfl
  have hChildren :
      (soleAfter contents code).children (.ofTexts ["w"]) =
        [(Text.bytes "m.ast.json", .file 0),
          (Text.bytes "d", .directory)] :=
    rfl
  have hSearch :
      (soleAfter contents code).search [] (.ofText "/w")
          (.ofTexts ["w"]) =
        .ok
          [.ofText "/w/m.ast.json", .ofText "/w/d/m.js"] := by
    rw [FileTree.search_of_reach hReach, hChildren,
      List.mapM_cons, List.mapM_cons,
      FileTree.searchAt_directory hInner]
    rfl
  exact
    ((exists_inputsAt_iff hTree hPlain).mp
      ⟨_, inputsAt_of_search rfl rfl hSearch⟩).2

/- The output directory lies in the directory that is searched. -/
theorem run_again_sole :
    (soleTree (Text.bytes emptyProgram.write)).WellFormed
      ∧ (soleTree (Text.bytes emptyProgram.write)).LinkFree
      ∧ ∃ after result,
        run (soleTree (Text.bytes emptyProgram.write))
            (.ofText "/w") (soleRequest (Text.bytes "/w")) =
          (after, .ok result)
        ∧ result.emitted = [.ofText "/w/d/m.js"]
        ∧ run after (.ofText "/w")
            (soleRequest (Text.bytes "/w")) =
          (after, .ok result) := by
  generalize hContents : Text.bytes emptyProgram.write = contents
  have hTree := wellFormed_sole contents
  have hPlain := linkFree_sole contents
  have hNamed :
      ∀ location,
        HasOutputName location →
          (soleTree contents).OneNamed location :=
    fun location _ => oneNamed_sole contents location
  rcases exists_run_sole hContents (Text.bytes "/w") rfl with
    ⟨code, hRun⟩
  have hBuilt := built_of_run hTree hPlain hNamed hRun
  have hStart :
      setup (soleTree contents) (.ofText "/w")
          (soleRequest (Text.bytes "/w")) =
        .ok ⟨soleContext (.ofText "/w"), [], [.ofText "/w"]⟩ :=
    setup_sole (Text.bytes "/w") rfl rfl
  have hAgain :=
    run_again hTree hPlain hNamed hRun (List.nodup_singleton _)
      rfl
      (by
        intro path hFound
        cases hFound)
      (by
        intro start hOther root hRoot location hLocation hFile
        rw [hStart] at hOther
        cases hOther
        rw [List.mem_singleton.mp hRoot] at hLocation
        cases hLocation
        cases not_isDirectory_of_node? hFile)
  rcases hAgain with
    ⟨start, hOther, _, _, hGood | ⟨root, hRoot, _, hSearch, _⟩⟩
  · exact ⟨hTree, hPlain, _, _, hRun, rfl, hGood.2⟩
  · rw [hStart] at hOther
    cases hOther
    rw [List.mem_singleton.mp hRoot] at hSearch
    exact
      absurd
        (canSearch_soleAfter contents code hBuilt.wellFormed_after
          hBuilt.linkFree_after)
        hSearch

/- The tree after the working directory is made for the code. -/
def soleAfterOut
    (contents : List UInt8)
    (code : String) :
    FileTree where
  entries :=
    (soleTree contents).entries
      ++ [(.ofTexts ["w", "out"], .directory),
        (.ofTexts ["w", "out", "d"], .directory),
        (.ofTexts ["w", "out", "d", "m.js"], .file 1)]
  nodes := [contents, Text.bytes code]

/-
  A working directory that is not there keeps its spelling, and
  loses it in the next build.
-/
theorem exists_run_soleOut
    {contents : List UInt8}
    (hContents : Text.bytes emptyProgram.write = contents) :
    ∃ code later,
      run (soleTree contents) (.ofText "/w/./out")
          (soleRequest (Text.bytes "/w/m.ast.json")) =
        (soleAfterOut contents code,
          .ok
            ⟨[], [.ofText "/w/m.ast.json"],
              [.ofText "/w/./out/d/m.js"]⟩)
      ∧ run (soleAfterOut contents code) (.ofText "/w/./out")
          (soleRequest (Text.bytes "/w/m.ast.json")) =
        (later,
          .ok
            ⟨[], [.ofText "/w/m.ast.json"],
              [.ofText "/w/out/d/m.js"]⟩) := by
  have hFile :
      inputsAt (soleTree contents)
          (Path.join (.ofText "/w/./out")
            (Text.bytes "/w/m.ast.json")) =
        .ok [.ofText "/w/m.ast.json"] :=
    rfl
  have hThere :
      (soleTree contents).readFile (.ofText "/w/m.ast.json") =
        .ok (Text.bytes emptyProgram.write) := by
    rw [hContents]
    rfl
  have hPath :
      codePath (soleContext (.ofText "/w/./out"))
          (.ofText "/w/m.ast.json") "m.js" =
        .ofText "/w/./out/d/m.js" :=
    rfl
  have hFirst :
      (soleTree contents).canonical (.ofText "/w/./out") =
        .ofText "/w/./out" :=
    rfl
  rcases exists_run_of_input (setup_sole _ hFirst rfl) hFile
      hThere rfl hPath with
    ⟨code, hRun⟩
  have hLater :
      (soleAfterOut contents code).canonical
          (.ofText "/w/./out") =
        .ofText "/w/out" :=
    rfl
  have hFileLater :
      inputsAt (soleAfterOut contents code)
          (Path.join (.ofText "/w/out")
            (Text.bytes "/w/m.ast.json")) =
        .ok [.ofText "/w/m.ast.json"] :=
    rfl
  have hThereLater :
      (soleAfterOut contents code).readFile
          (.ofText "/w/m.ast.json") =
        .ok (Text.bytes emptyProgram.write) := by
    rw [hContents]
    rfl
  have hPathLater :
      codePath (soleContext (.ofText "/w/out"))
          (.ofText "/w/m.ast.json") "m.js" =
        .ofText "/w/out/d/m.js" :=
    rfl
  rcases exists_run_of_input (setup_sole _ hLater rfl)
      hFileLater hThereLater rfl hPathLater with
    ⟨other, hAgain⟩
  exact ⟨code, soleAfterOut contents other, hRun rfl, hAgain rfl⟩

/-
  A build makes a directory that is too deep to be searched
  from a root with many slashes, so the next one fails. Another
  one makes its own working directory, so the next one has a
  shorter path for it.
-/
theorem run_again_differs_sole :
    (soleTree (Text.bytes emptyProgram.write)).WellFormed
      ∧ (soleTree (Text.bytes emptyProgram.write)).LinkFree
      ∧ (∃ after result fault,
        run (soleTree (Text.bytes emptyProgram.write))
            (.ofText "/w")
            (soleRequest
              (Path.withSlashes (.ofText "/w") 4093).bytes) =
          (after, .ok result)
        ∧ result =
          ⟨[], [.ofText "/w/m.ast.json"], [.ofText "/w/d/m.js"]⟩
        ∧ run after (.ofText "/w")
            (soleRequest
              (Path.withSlashes (.ofText "/w") 4093).bytes) =
          (after,
            .error
              (.inputsNotSearched
                (Path.withSlashes (.ofText "/w") 4093) fault)))
      ∧ ∃ after result later other,
        run (soleTree (Text.bytes emptyProgram.write))
            (.ofText "/w/./out")
            (soleRequest (Text.bytes "/w/m.ast.json")) =
          (after, .ok result)
        ∧ result =
          ⟨[], [.ofText "/w/m.ast.json"],
            [.ofText "/w/./out/d/m.js"]⟩
        ∧ run after (.ofText "/w/./out")
            (soleRequest (Text.bytes "/w/m.ast.json")) =
          (later, .ok other)
        ∧ other =
          ⟨[], [.ofText "/w/m.ast.json"],
            [.ofText "/w/out/d/m.js"]⟩ := by
  generalize hContents : Text.bytes emptyProgram.write = contents
  have hTree := wellFormed_sole contents
  have hPlain := linkFree_sole contents
  refine ⟨hTree, hPlain, ?_, ?_⟩
  · have hShort :
        (soleTree contents).resolve? (.ofText "/w") =
          some (.ofTexts ["w"]) :=
      rfl
    have hLong :
        (soleTree contents).resolve?
            (Path.withSlashes (.ofText "/w") 4093) =
          some (.ofTexts ["w"]) :=
      FileTree.resolve?_withSlashes hPlain hShort rfl (by decide)
    have hJoin :
        Path.join (.ofText "/w")
            (Path.withSlashes (.ofText "/w") 4093).bytes =
          Path.withSlashes (.ofText "/w") 4093 :=
      Path.join_withSlashes rfl
    rcases exists_run_sole hContents
        (Path.withSlashes (.ofText "/w") 4093).bytes
        (by rw [hJoin, hLong]) with
      ⟨code, hRun⟩
    have hBuilt :=
      built_of_run hTree hPlain
        (fun location _ => oneNamed_sole contents location) hRun
    have hInner :
        (soleAfter contents code).isDirectory
            (.ofTexts ["w"] ++ [Text.bytes "d"]) =
          true :=
      rfl
    rcases exists_inputsAt_withSlashes_eq_error
        hBuilt.wellFormed_after hBuilt.linkFree_after
        (hBuilt.writes.keeps.resolve? hLong) hInner (by decide)
        (by decide) with
      ⟨fault, hAt⟩
    have hBase :
        (soleAfter contents code).canonical (.ofText "/w") =
          .ofText "/w" :=
      rfl
    have hStart :=
      setup_sole (Path.withSlashes (.ofText "/w") 4093).bytes
        hBase rfl
    rw [hJoin] at hStart
    exact
      ⟨_, _, fault, hRun, rfl,
        run_of_inputs_eq_error hStart
          (inputs_singleton_eq_error hAt)⟩
  · rcases exists_run_soleOut hContents with
      ⟨code, later, hRun, hAgain⟩
    exact ⟨_, _, later, _, hRun, rfl, hAgain, rfl⟩

end Build

end TracedScript
