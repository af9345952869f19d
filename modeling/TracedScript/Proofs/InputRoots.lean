import TracedScript.Proofs.OutputPaths

/-
  The inputs that some roots stand for.

  What is found depends only on the locations that the roots
  lead to, as long as no path is too long. So it does not
  matter how often, in which order or by which paths the same
  inputs are given.

  Key definitions include:
    * `Build.Respelled`: other words for the same inputs.

  Main declarations:
    * `Build.inputs_eq_of_names_iff`
    * `Build.Respelled.names_iff`
    * `Build.inputs_depend_on_set`
-/

------------------------------------------------------------
-- Long Paths
------------------------------------------------------------

namespace TracedScript

namespace Path

/- A path with more slashes at its end. -/
def withSlashes
    (path : Path)
    (count : Nat) :
    Path :=
  ⟨path.bytes ++ List.replicate count slash⟩

variable {path : Path} {count : Nat}

theorem fits_withSlashes_iff :
    (path.withSlashes count).fits = true ↔
      path.bytes.length + count < lengthLimit := by
  rw [fits, decide_eq_true_iff, withSlashes, List.length_append,
    List.length_replicate]

/- A name after some slashes needs no more of them. -/
theorem fits_join_withSlashes_iff
    {name : Name}
    (hName : name.head? ≠ some slash) :
    ((path.withSlashes (count + 1)).join name).fits = true ↔
      path.bytes.length + (count + 1) + name.length <
        lengthLimit := by
  have hSlash :
      (path.withSlashes (count + 1)).bytes.getLast? =
        some slash := by
    rw [withSlashes, List.replicate_succ', ← List.append_assoc,
      List.getLast?_concat]
  rw [join, if_neg hName, if_pos hSlash, fits,
    decide_eq_true_iff, List.length_append, withSlashes,
    List.length_append, List.length_replicate]

/- An absolute path stays so with more slashes. -/
theorem join_withSlashes
    {base : Path}
    (hRoot : path.bytes.head? = some slash) :
    base.join (path.withSlashes count).bytes =
      path.withSlashes count := by
  have hSlash :
      (path.withSlashes count).bytes.head? = some slash := by
    rw [withSlashes, List.head?_append, hRoot]
    rfl
  rw [join, if_pos hSlash]

/- A slash at the end is a step that leads nowhere. -/
theorem steps_withSlashes :
    (path.withSlashes (count + 1)).steps =
      (path.withSlashes count).steps ++ [[]] := by
  have hBytes :
      (path.withSlashes (count + 1)).bytes =
        (path.withSlashes count).bytes ++ slash :: [] := by
    rw [withSlashes, withSlashes, List.replicate_succ',
      List.append_assoc]
  rw [steps_of_bytes_eq hBytes]
  rfl

end Path

/- Slashes at the end of a path to a directory change nothing. -/
theorem FileTree.leads_withSlashes
    {tree : FileTree}
    (hPlain : tree.LinkFree)
    {path : Path}
    {location : Location}
    (count : Nat)
    (hLeads :
      Leads tree .find linkLimit [] path.steps location)
    (hDirectory : tree.isDirectory location = true) :
    Leads tree .find linkLimit [] (path.withSlashes count).steps
      location := by
  induction count with
  | zero =>
      rw [Path.withSlashes, List.replicate_zero, List.append_nil]
      exact hLeads
  | succ count ih =>
      rw [Path.steps_withSlashes, leads_append_iff hPlain rfl]
      exact ⟨location, ih, .stay hDirectory rfl .stop⟩

theorem FileTree.resolve?_withSlashes
    {tree : FileTree}
    (hPlain : tree.LinkFree)
    {path : Path}
    {location : Location}
    {count : Nat}
    (hPath : tree.resolve? path = some location)
    (hDirectory : tree.isDirectory location = true)
    (hFits : path.bytes.length + count < Path.lengthLimit) :
    tree.resolve? (path.withSlashes count) = some location :=
  resolve?_eq_some_iff.mpr
    ⟨Path.fits_withSlashes_iff.mpr hFits,
      leads_withSlashes hPlain count
        (resolve?_eq_some_iff.mp hPath).2 hDirectory⟩

------------------------------------------------------------
-- Roots
------------------------------------------------------------

namespace Build

variable {tree : FileTree} {input location : Location}
variable {root : Path} {roots others files : List Path}

/- With many slashes, a directory in the root is not searched. -/
theorem exists_inputsAt_withSlashes_eq_error
    (hTree : tree.WellFormed)
    (hPlain : tree.LinkFree)
    {count : Nat}
    {name : Name}
    (hRoot :
      tree.resolve? (root.withSlashes (count + 1)) =
        some location)
    (hInner : tree.isDirectory (location ++ [name]) = true)
    (hName : name.head? ≠ some Path.slash)
    (hLong :
      Path.lengthLimit ≤
        root.bytes.length + (count + 1) + name.length) :
    ∃ fault,
      inputsAt tree (root.withSlashes (count + 1)) =
        .error
          (.inputsNotSearched (root.withSlashes (count + 1))
            fault) := by
  rcases inputsAt_cases hTree hPlain hRoot with
    ⟨hSearch, _⟩ | ⟨below, _, _, hAt⟩
  · have hFits := hSearch location hRoot [name] hInner
    rw [Path.extend, List.foldl_cons, List.foldl_nil,
      Path.fits_join_withSlashes_iff hName] at hFits
    omega
  · exact ⟨_, hAt⟩

/- Roots that stand for the same inputs have the same result. -/
theorem inputs_eq_of_names_iff
    (hTree : tree.WellFormed)
    (hPlain : tree.LinkFree)
    (hRoots :
      ∀ root ∈ roots,
        (tree.resolve? root).isSome = true
          ∧ CanSearch tree root)
    (hOthers :
      ∀ root ∈ others,
        (tree.resolve? root).isSome = true
          ∧ CanSearch tree root)
    (hSame :
      ∀ input,
        (∃ root ∈ roots, Names tree root input) ↔
          ∃ root ∈ others, Names tree root input)
    (hShort :
      ∀ root ∈ roots, ∀ input,
        Names tree root input →
          (Location.path input).fits = true) :
    ∃ found,
      inputs tree roots = .ok found
        ∧ inputs tree others = .ok found := by
  rcases (exists_inputs_iff hTree hPlain).mpr hRoots with
    ⟨found, hFound⟩
  rcases (exists_inputs_iff hTree hPlain).mpr hOthers with
    ⟨again, hAgain⟩
  have hShortAgain :
      ∀ root ∈ others, ∀ input,
        Names tree root input →
          (Location.path input).fits = true := by
    intro root hRoot input hNames
    rcases (hSame input).mpr ⟨root, hRoot, hNames⟩ with
      ⟨other, hOther, hOtherNames⟩
    exact hShort other hOther input hOtherNames
  have hEqual : again = found := by
    apply (pairwise_inputs hAgain).eq_of_mem_iff
      (pairwise_inputs hFound)
    intro path
    rw [mem_inputs_iff hTree hPlain hShortAgain hAgain,
      mem_inputs_iff hTree hPlain hShort hFound]
    constructor
    · rintro ⟨root, hRoot, input, hNames, rfl⟩
      rcases (hSame input).mpr ⟨root, hRoot, hNames⟩ with
        ⟨other, hOther, hOtherNames⟩
      exact ⟨other, hOther, input, hOtherNames, rfl⟩
    · rintro ⟨root, hRoot, input, hNames, rfl⟩
      rcases (hSame input).mp ⟨root, hRoot, hNames⟩ with
        ⟨other, hOther, hOtherNames⟩
      exact ⟨other, hOther, input, hOtherNames, rfl⟩
  exact ⟨found, hFound, hEqual ▸ hAgain⟩

------------------------------------------------------------
-- Spelling
------------------------------------------------------------

/-
  Two lists of words that differ in their order, in repeated
  words, in the paths to the same locations, in what lies
  inside a directory that is given as well, or in that all
  inputs of a directory stand in its place.
-/
inductive Respelled
    (tree : FileTree)
    (cwd : Path) :
    List Name → List Name → Prop where
  | ordered
      {files others : List Name}
      (hOrder : files.Perm others) :
      Respelled tree cwd files others
  | repeated
      {file : Name}
      {files : List Name}
      (hFile : file ∈ files) :
      Respelled tree cwd files (file :: files)
  | spelled
      {file other : Name}
      {files : List Name}
      (hSame :
        tree.resolve? (cwd.join file) =
          tree.resolve? (cwd.join other)) :
      Respelled tree cwd (file :: files) (other :: files)
  | inside
      {file directory : Name}
      {files : List Name}
      {location inner : Location}
      (hMember : directory ∈ files)
      (hOuter :
        tree.resolve? (cwd.join directory) = some location)
      (hDirectory : tree.isDirectory location = true)
      (hInner : tree.resolve? (cwd.join file) = some inner)
      (hBelow : location <+: inner)
      (hKind :
        tree.isDirectory inner = true ∨ HasInputName inner) :
      Respelled tree cwd files (file :: files)
  | listed
      {directory : Name}
      {files listing : List Name}
      {location : Location}
      (hOuter :
        tree.resolve? (cwd.join directory) = some location)
      (hDirectory : tree.isDirectory location = true)
      (hListing :
        ∀ input,
          (∃ file ∈ listing,
            tree.resolve? (cwd.join file) = some input) ↔
              InputBelow tree location input) :
      Respelled tree cwd (directory :: files) (listing ++ files)
  | symm
      {files others : List Name}
      (hOther : Respelled tree cwd others files) :
      Respelled tree cwd files others
  | trans
      {files middle others : List Name}
      (hFirst : Respelled tree cwd files middle)
      (hSecond : Respelled tree cwd middle others) :
      Respelled tree cwd files others

section Words

variable {cwd : Path} {file directory : Name}
variable {location inner : Location}

theorem names_of_inside
    (hOuter : tree.resolve? (cwd.join directory) = some location)
    (hDirectory : tree.isDirectory location = true)
    (hInner : tree.resolve? (cwd.join file) = some inner)
    (hBelow : location <+: inner)
    (hKind :
      tree.isDirectory inner = true ∨ HasInputName inner)
    (hNames : Names tree (cwd.join file) input) :
    Names tree (cwd.join directory) input := by
  apply Names.searched hOuter hDirectory
  cases hNames with
  | file hRoot hFile =>
      rw [hInner] at hRoot
      cases hRoot
      rcases hKind with hOther | hName
      · rw [not_isDirectory_of_node? hFile] at hOther
        cases hOther
      · exact ⟨hFile, hBelow, hName⟩
  | searched hRoot _ hFound =>
      rw [hInner] at hRoot
      cases hRoot
      exact ⟨hFound.1, hBelow.trans hFound.2.1, hFound.2.2⟩

/- A directory stands for the inputs that are listed in its place. -/
theorem names_iff_of_listed
    {listing : List Name}
    (hOuter : tree.resolve? (cwd.join directory) = some location)
    (hDirectory : tree.isDirectory location = true)
    (hListing :
      ∀ input,
        (∃ file ∈ listing,
          tree.resolve? (cwd.join file) = some input) ↔
            InputBelow tree location input) :
    Names tree (cwd.join directory) input ↔
      ∃ file ∈ listing, Names tree (cwd.join file) input := by
  rw [names_iff_inputBelow hOuter hDirectory, ← hListing]
  constructor
  · rintro ⟨file, hMember, hFile⟩
    have hBelow := (hListing input).mp ⟨file, hMember, hFile⟩
    exact ⟨file, hMember, .file hFile hBelow.1⟩
  · rintro ⟨file, hMember, ⟨hRoot, _⟩ | ⟨hRoot, hOther, _⟩⟩
    · exact ⟨file, hMember, hRoot⟩
    · have hBelow := (hListing _).mp ⟨file, hMember, hRoot⟩
      rw [not_isDirectory_of_node? hBelow.1] at hOther
      cases hOther

/- Words that lead to all that is found list a directory. -/
theorem exists_word_iff_inputBelow
    (hTree : tree.WellFormed)
    (hPlain : tree.LinkFree)
    {words : List Name}
    (hRoot : tree.resolve? root = some location)
    (hDirectory : tree.isDirectory location = true)
    (hAt : inputsAt tree root = .ok files)
    (hWords :
      words.map (fun word => tree.resolve? (cwd.join word)) =
        files.map fun path => some path.location)
    (input : Location) :
    (∃ word ∈ words,
      tree.resolve? (cwd.join word) = some input) ↔
        InputBelow tree location input := by
  have hFiles :
      (∃ path ∈ files, path.location = input) ↔
        Names tree root input := by
    simp only [mem_inputsAt_iff hTree hPlain hAt]
    constructor
    · rintro ⟨path, ⟨other, hNames, rfl⟩, rfl⟩
      rw [location_inputPath hTree hPlain hNames]
      exact hNames
    · intro hNames
      exact
        ⟨_, ⟨input, hNames, rfl⟩,
          location_inputPath hTree hPlain hNames⟩
  rw [← names_iff_inputBelow hRoot hDirectory, ← hFiles]
  simpa using congrArg (some input ∈ ·) hWords

/- Words that are spelled in another way stand for the same inputs. -/
theorem Respelled.names_iff
    {files others : List Name}
    (hRespelled : Respelled tree cwd files others)
    (input : Location) :
    (∃ file ∈ files, Names tree (cwd.join file) input) ↔
      ∃ file ∈ others, Names tree (cwd.join file) input := by
  induction hRespelled with
  | ordered hOrder => simp only [hOrder.mem_iff]
  | @repeated file files hFile =>
      rw [List.exists_mem_cons_iff]
      constructor
      · exact .inr
      · rintro (hNames | hOther)
        · exact ⟨file, hFile, hNames⟩
        · exact hOther
  | @spelled file other files hSame =>
      have hNames :
          Names tree (cwd.join file) input ↔
            Names tree (cwd.join other) input := by
        constructor
        · rintro (⟨hRoot, hFile⟩ | ⟨hRoot, hDirectory, hBelow⟩)
          · exact .file (hSame ▸ hRoot) hFile
          · exact .searched (hSame ▸ hRoot) hDirectory hBelow
        · rintro (⟨hRoot, hFile⟩ | ⟨hRoot, hDirectory, hBelow⟩)
          · exact .file (hSame ▸ hRoot) hFile
          · exact .searched (hSame ▸ hRoot) hDirectory hBelow
      rw [List.exists_mem_cons_iff, List.exists_mem_cons_iff,
        hNames]
  | @inside file directory files location inner hMember hOuter
      hDirectory hInner hBelow hKind =>
      rw [List.exists_mem_cons_iff]
      constructor
      · exact .inr
      · rintro (hNames | hOther)
        · exact
            ⟨directory, hMember,
              names_of_inside hOuter hDirectory hInner hBelow
                hKind hNames⟩
        · exact hOther
  | @listed directory files listing location hOuter hDirectory
      hListing =>
      rw [List.exists_mem_cons_iff,
        names_iff_of_listed hOuter hDirectory hListing]
      simp only [List.mem_append, or_and_right, exists_or]
  | symm _ ih => exact ih.symm
  | trans _ _ ihFirst ihSecond => exact ihFirst.trans ihSecond

end Words

------------------------------------------------------------
-- Runs
------------------------------------------------------------

variable {cwd : Path} {request : Request}

/- Words for inputs do not change what the settings ask for. -/
theorem setup_withFiles
    {files : List Name}
    (hFiles : files ≠ []) :
    setup tree cwd { request with files } =
      (setup tree cwd { request with files := [] }).map
        fun start =>
          { start with
            roots := files.map (tree.canonical cwd).join } := by
  have hRoots :
      ∀ base settings,
        roots { request with files } (tree.canonical cwd) base
            settings =
          files.map (tree.canonical cwd).join := by
    intro base settings
    exact if_pos hFiles
  unfold setup
  simp only [hRoots]
  cases settingsPath tree (tree.canonical cwd)
      request.project with
  | error failure => rfl
  | ok path =>
      cases path with
      | none => rfl
      | some path =>
          simp only [bind, Except.bind]
          cases readSettings tree path with
          | error failure => rfl
          | ok settings => rfl

/- A build depends on the words for inputs only by what is found. -/
theorem run_eq_of_inputs_eq
    {files others : List Name}
    (hFiles : files ≠ [])
    (hOthers : others ≠ [])
    (hSame :
      inputs tree (files.map (tree.canonical cwd).join) =
        inputs tree (others.map (tree.canonical cwd).join)) :
    run tree cwd { request with files } =
      run tree cwd { request with files := others } := by
  have hPlan :
      plan tree cwd { request with files } =
        plan tree cwd { request with files := others } := by
    unfold plan
    rw [setup_withFiles hFiles, setup_withFiles hOthers]
    cases setup tree cwd { request with files := [] } with
    | error failure => rfl
    | ok start =>
        simp only [Except.map, bind, Except.bind, hSame]
  rw [run, run, hPlan]

/- A build without inputs changes nothing. -/
theorem run_of_inputs_eq_error
    {start : Setup}
    {failure : Failure}
    (hStart : setup tree cwd request = .ok start)
    (hFailed : inputs tree start.roots = .error failure) :
    run tree cwd request = (tree, .error failure) := by
  have hPlan : plan tree cwd request = .error failure := by
    unfold plan
    rw [hStart]
    simp only [bind, Except.bind, hFailed]
  simp only [run, hPlan]

/-
  The inputs are found exactly if all roots are there and can
  be searched. They come in their order, each of them once: the
  files that are roots, and all files in roots that have the
  name of an input. Each has its shortest path, unless that is
  too long. So other words for the same inputs, of which there
  are some in both cases, make the same build if the inputs
  have short paths.
-/
theorem inputs_depend_on_set
    (hTree : tree.WellFormed)
    (hPlain : tree.LinkFree) :
    (∀ roots,
      (∃ found, inputs tree roots = .ok found) ↔
        ∀ root ∈ roots,
          (tree.resolve? root).isSome = true
            ∧ CanSearch tree root)
      ∧ (∀ roots found,
        inputs tree roots = .ok found →
          found.Pairwise Path.Lt
            ∧ (found.map Path.names).Nodup
            ∧ (∀ path ∈ found, ∃ root ∈ roots, ∃ input,
              Names tree root input
                ∧ path = inputPath root input)
            ∧ ∀ root ∈ roots, ∀ input,
              Names tree root input →
                ∃ path ∈ found,
                  path.names = (inputPath root input).names)
      ∧ ∀ cwd
          (request : Request)
          (files others : List Name),
        Respelled tree (tree.canonical cwd) files others →
        (files = [] ↔ others = []) →
        (∀ file ∈ files ++ others,
          (tree.resolve?
              ((tree.canonical cwd).join file)).isSome = true
            ∧ CanSearch tree ((tree.canonical cwd).join file)) →
        (∀ file ∈ files, ∀ input,
          Names tree ((tree.canonical cwd).join file) input →
            (Location.path input).fits = true) →
          (∃ found,
            inputs tree (files.map (tree.canonical cwd).join) =
                .ok found
              ∧ inputs tree
                  (others.map (tree.canonical cwd).join) =
                .ok found)
            ∧ run tree cwd { request with files } =
              run tree cwd { request with files := others } := by
  refine ⟨fun roots => exists_inputs_iff hTree hPlain, ?_, ?_⟩
  · intro roots found hFound
    have hSorted := pairwise_inputs hFound
    refine
      ⟨hSorted, List.pairwise_map.mpr (hSorted.imp ?_),
        fun path => exists_names_of_mem_inputs hTree hPlain hFound,
        fun root hRoot input =>
          exists_mem_inputs hTree hPlain hFound hRoot⟩
    intro left right hLess hSame
    exact absurd (Path.key_eq_of_names_eq hSame) (ne_of_lt hLess)
  · intro cwd request files others hRespelled hEmpty hThere hShort
    rw [List.forall_mem_append] at hThere
    have hFound :=
      inputs_eq_of_names_iff hTree hPlain
        (List.forall_mem_map.mpr hThere.1)
        (List.forall_mem_map.mpr hThere.2)
        (fun input => by
          simpa only [List.mem_map, exists_exists_and_eq_and]
            using hRespelled.names_iff input)
        (List.forall_mem_map.mpr hShort)
    refine ⟨hFound, ?_⟩
    by_cases hFiles : files = []
    · rw [hFiles, hEmpty.mp hFiles]
    · rcases hFound with ⟨found, hFirst, hSecond⟩
      exact
        run_eq_of_inputs_eq hFiles (mt hEmpty.mpr hFiles)
          (hFirst.trans hSecond.symm)

/- The words for all inputs of a directory, and for some of them. -/
def layoutFiles : List Name :=
  ["/w"].map Text.bytes

def layoutOthers : List Name :=
  ["lib", "lib/../src/a.ast.json"].map Text.bytes

theorem inputsAt_layout_lib :
    inputsAt (layoutTree []) (.ofText "/w/lib") =
      .ok [.ofText "/w/lib/a.ast.json"] := by
  have hReach :
      (layoutTree []).reach .find (.ofText "/w/lib") =
        .ok (.ofTexts ["w", "lib"]) :=
    rfl
  have hSearch :
      (layoutTree []).search [] (.ofText "/w/lib")
          (.ofTexts ["w", "lib"]) =
        .ok [.ofText "/w/lib/a.ast.json"] := by
    rw [FileTree.search_of_reach hReach]
    rfl
  rw [inputsAt_of_search rfl rfl hSearch]
  rfl

/- Both inputs in words that do not name their directory. -/
theorem exists_word_layout_iff
    (input : Location) :
    (∃ word ∈
        ["lib/../src/a.ast.json", "lib/a.ast.json"].map Text.bytes,
      (layoutTree []).resolve? (Path.join (.ofText "/w") word) =
        some input) ↔
      InputBelow (layoutTree []) (.ofTexts ["w"]) input :=
  exists_word_iff_inputBelow (by decide) (by decide) rfl rfl
    (inputsAt_layout []) rfl input

/- A directory for its inputs, and another for one of them. -/
theorem respelled_layout :
    Respelled (layoutTree []) (.ofText "/w") layoutFiles
      layoutOthers := by
  have hAll :
      Respelled (layoutTree []) (.ofText "/w") layoutFiles
        (["lib/../src/a.ast.json", "lib/a.ast.json"].map
            Text.bytes
          ++ []) :=
    .listed rfl rfl exists_word_layout_iff
  have hLib :
      Respelled (layoutTree []) (.ofText "/w") layoutOthers
        (["lib/a.ast.json"].map Text.bytes
          ++ ["lib/../src/a.ast.json"].map Text.bytes) :=
    .listed rfl rfl
      (exists_word_iff_inputBelow (by decide) (by decide) rfl rfl
        inputsAt_layout_lib rfl)
  exact
    hAll.trans
      ((Respelled.ordered (.swap _ _ _)).trans hLib.symm)

/- All inputs, by their directory and in two other words. -/
theorem inputs_depend_on_set_layout :
    (layoutTree []).WellFormed
      ∧ (layoutTree []).LinkFree
      ∧ Respelled (layoutTree [])
          ((layoutTree []).canonical (.ofText "/w")) layoutFiles
          layoutOthers
      ∧ inputs (layoutTree []) [.ofText "/w"] = .ok layoutInputs
      ∧ inputs (layoutTree [])
          [.ofText "/w/lib",
            .ofText "/w/lib/../src/a.ast.json"] =
        .ok layoutInputs
      ∧ run (layoutTree []) (.ofText "/w")
          { files := layoutFiles } =
        run (layoutTree []) (.ofText "/w")
          { files := layoutOthers } := by
  have hTree : (layoutTree []).WellFormed := by decide
  have hPlain : (layoutTree []).LinkFree := by decide
  have hThere :
      ∀ word ∈ layoutFiles ++ layoutOthers,
        ((layoutTree []).resolve?
            (Path.join (.ofText "/w") word)).isSome = true
          ∧ CanSearch (layoutTree [])
              (Path.join (.ofText "/w") word) := by
    intro word hWord
    rw [← exists_inputsAt_iff hTree hPlain]
    simp only [layoutFiles, layoutOthers, List.map_cons,
      List.map_nil, List.cons_append, List.nil_append,
      List.mem_cons, List.not_mem_nil, or_false] at hWord
    rcases hWord with rfl | rfl | rfl
    · exact ⟨_, inputsAt_layout []⟩
    · exact ⟨_, inputsAt_layout_lib⟩
    · exact ⟨_, rfl⟩
  have hShort :
      ∀ word ∈ layoutFiles, ∀ input,
        Names (layoutTree []) (Path.join (.ofText "/w") word)
            input →
          (Location.path input).fits = true := by
    intro word hWord input hNames
    rw [List.mem_singleton.mp hWord] at hNames
    rw [names_iff_inputBelow rfl rfl] at hNames
    rcases (exists_word_layout_iff input).mpr hNames with
      ⟨other, _, hOther⟩
    rw [FileTree.location_of_resolve? hPlain hOther]
    exact
      FileTree.fits_path_location
        (FileTree.resolve?_eq_some_iff.mp hOther).1
  rcases (inputs_depend_on_set hTree hPlain).2.2 (.ofText "/w") {} _
      _ respelled_layout (by decide) hThere hShort with
    ⟨⟨found, hFirst, hSecond⟩, hRun⟩
  have hFound : found = layoutInputs :=
    Except.ok.inj (hFirst.symm.trans (inputs_layout []))
  rw [hFound] at hSecond
  exact
    ⟨hTree, hPlain, respelled_layout, inputs_layout [], hSecond,
      hRun⟩

/- An input beside a directory. -/
def besideTree (contents : List UInt8) : FileTree where
  entries :=
    [(.ofTexts ["w"], .directory),
      (.ofTexts ["w", "m.ast.json"], .file 0),
      (.ofTexts ["w", "d"], .directory)]
  nodes := [contents]

theorem setup_beside
    (contents : List UInt8)
    (word : Name) :
    setup (besideTree contents) (.ofText "/w")
        { noEmit := true, files := [word] } =
      .ok
        ⟨⟨.ofText "/w", none, { noEmit := true }⟩, [],
          [Path.join (.ofText "/w") word]⟩ :=
  rfl

theorem inputs_beside :
    inputs (besideTree []) [.ofText "/w"] =
      .ok [.ofText "/w/m.ast.json"] := by
  have hReach :
      (besideTree []).reach .find (.ofText "/w") =
        .ok (.ofTexts ["w"]) :=
    rfl
  have hInner :
      (besideTree []).reach .find
          (Path.join (.ofText "/w") (Text.bytes "d")) =
        .ok (.ofTexts ["w", "d"]) :=
    rfl
  have hChildren :
      (besideTree []).children (.ofTexts ["w"]) =
        [(Text.bytes "m.ast.json", .file 0),
          (Text.bytes "d", .directory)] :=
    rfl
  have hSearch :
      (besideTree []).search [] (.ofText "/w")
          (.ofTexts ["w"]) =
        .ok [.ofText "/w/m.ast.json"] := by
    rw [FileTree.search_of_reach hReach, hChildren,
      List.mapM_cons, List.mapM_cons,
      FileTree.searchAt_directory hInner]
    rfl
  apply inputs_singleton
  rw [inputsAt_of_search rfl rfl hSearch]
  rfl

/-
  A root leads to the same directory however many slashes are
  at its end, but with too many of them the search fails at
  the directory in it.
-/
theorem inputs_depend_on_spelling_beside :
    (besideTree []).WellFormed
      ∧ (besideTree []).LinkFree
      ∧ (besideTree []).resolve? (.ofText "/w") =
        some (.ofTexts ["w"])
      ∧ (besideTree []).resolve?
          (Path.withSlashes (.ofText "/w") 4093) =
        some (.ofTexts ["w"])
      ∧ inputs (besideTree []) [.ofText "/w"] =
        .ok [.ofText "/w/m.ast.json"]
      ∧ (∃ result,
        run (besideTree []) (.ofText "/w")
            { noEmit := true, files := [Text.bytes "/w"] } =
          (besideTree [], .ok result))
      ∧ ∃ fault,
        run (besideTree []) (.ofText "/w")
            { noEmit := true
              files :=
                [(Path.withSlashes (.ofText "/w") 4093).bytes] } =
          (besideTree [],
            .error
              (.inputsNotSearched
                (Path.withSlashes (.ofText "/w") 4093) fault)) := by
  have hTree : (besideTree []).WellFormed := by decide
  have hPlain : (besideTree []).LinkFree := by decide
  have hShort :
      (besideTree []).resolve? (.ofText "/w") =
        some (.ofTexts ["w"]) :=
    rfl
  have hLong :
      (besideTree []).resolve?
          (Path.withSlashes (.ofText "/w") 4093) =
        some (.ofTexts ["w"]) :=
    FileTree.resolve?_withSlashes hPlain hShort rfl (by decide)
  refine ⟨hTree, hPlain, hShort, hLong, inputs_beside, ?_, ?_⟩
  · have hPlan :=
      plan_of_inputs (setup_beside [] (Text.bytes "/w"))
        inputs_beside (List.cons_ne_nil _ _)
    exact ⟨_, run_eq_ok_iff.mpr ⟨_, hPlan, rfl, rfl⟩⟩
  · have hInner :
        (besideTree []).isDirectory
            (.ofTexts ["w"] ++ [Text.bytes "d"]) =
          true :=
      rfl
    rcases exists_inputsAt_withSlashes_eq_error hTree hPlain hLong
        hInner (by decide) (by decide) with
      ⟨fault, hAt⟩
    have hStart :=
      setup_beside [] (Path.withSlashes (.ofText "/w") 4093).bytes
    rw [Path.join_withSlashes rfl] at hStart
    exact
      ⟨fault,
        run_of_inputs_eq_error hStart
          (inputs_singleton_eq_error hAt)⟩

end Build

end TracedScript
