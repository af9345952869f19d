import TracedScript.Proofs.BuildAccounts

/-
  Where the outputs of a build go, and when two of them go to
  the same place.

  Key definitions include:
    * `Build.rootNames`, `Build.place`: the two parts of the
      directory for an output.
    * `Build.target`: what the paths of outputs depend on.

  Main declarations:
    * `Build.exists_eq_stem_append`
    * `Build.names_codePath`, `Build.names_mapPath`
    * `Build.names_codePath_eq_iff`
    * `Build.readFile_of_nodup`: different outputs are all there
      in the end.
    * `Build.nodup_emitted_iff_nodup_targets`
-/

------------------------------------------------------------
-- Names
------------------------------------------------------------

namespace TracedScript

namespace Build

variable {context : Context} {input left right : Path}
variable {name leftName rightName : String}

/- A name is its stem with one of three endings. -/
theorem exists_eq_stem_append
    (name : String) :
    ∃ ending ∈ [inputEnding, ".json", ""],
      name = stem name ++ ending := by
  rw [stem]
  cases hInput : beforeEnding? inputEnding name with
  | some front =>
      exact
        ⟨inputEnding, by simp,
          beforeEnding?_eq_some_iff.mp hInput⟩
  | none =>
      cases hJson : beforeEnding? ".json" name with
      | some front =>
          exact
            ⟨".json", by simp, beforeEnding?_eq_some_iff.mp hJson⟩
      | none => exact ⟨"", by simp, by simp⟩

/- The name of an input that is searched for is given by its stem. -/
theorem eq_stem_append_of_isInputName
    (hName : isInputName name = true) :
    name = stem name ++ inputEnding := by
  rcases isInputName_iff.mp hName with ⟨front, _, rfl⟩
  rw [stem, beforeEnding?_eq_some_iff.mpr rfl]
  rfl

/- The name of code leads somewhere. -/
theorem leads_of_codeName?
    (hName : codeName? input = some name) :
    3 ≤ (Text.bytes name).length
      ∧ Path.slash ∉ Text.bytes name := by
  rcases codeName?_eq_some hName with ⟨last, hLast, _, rfl⟩
  rcases exists_names_of_nameText? hLast with ⟨front, hNames⟩
  rcases exists_eq_stem_append last with ⟨ending, _, hEnding⟩
  have hMember : Text.bytes last ∈ input.steps := by
    apply List.mem_of_mem_filter
    rw [← Path.leading, ← Path.names, hNames]
    simp
  have hSlash := Path.notMem_of_mem_steps hMember
  rw [hEnding, Text.bytes_append, List.mem_append,
    not_or] at hSlash
  rw [Text.bytes_append, List.length_append, List.mem_append,
    not_or]
  exact ⟨Nat.le_add_left 3 _, hSlash.1, by decide⟩

/- No code has the name of a source map. -/
theorem ne_append_map_of_codeName?
    (hName : codeName? input = some name) :
    name ≠ rightName ++ ".map" := by
  rcases codeName?_eq_some hName with ⟨last, _, _, rfl⟩
  intro hSame
  have hLast :=
    congrArg (fun text : String => text.toList.getLast?) hSame
  simp at hLast

------------------------------------------------------------
-- Places
------------------------------------------------------------

/- The names of the directory that all outputs are put below. -/
def rootNames (context : Context) : List Name :=
  match context.outDir with
  | none => []
  | some outDir => outDir.names

/-
  The directory for an output as seen from there. All inputs
  that are not below the base directory share one.
-/
def place
    (context : Context)
    (input : Path) :
    List Name :=
  match context.outDir with
  | none => input.names.dropLast
  | some _ =>
      if context.base.names.isPrefixOf input.names.dropLast then
        input.names.dropLast.drop context.base.names.length
      else []

/- What the paths of the outputs of an input depend on. -/
def target
    (context : Context)
    (input : Path) :
    List Name × Option String :=
  (place context input, (nameText? input).map stem)

/- The rest of a path after another one adds its names. -/
theorem names_join_pathInside
    (path base directory : Path) :
    (path.join (pathInside base directory)).names =
      path.names
        ++ if base.names.isPrefixOf directory.names then
            directory.names.drop base.names.length
          else [] := by
  rw [pathInside]
  cases hBelow : Path.stepsBelow? base.names directory.steps with
  | none =>
      have hOutside := Path.stepsBelow?_eq_none hBelow
      rw [← Path.names, ← List.isPrefixOf_iff_prefix] at hOutside
      rw [if_neg hOutside, Path.names_join (by simp)]
      simp [Path.leading, Path.isInert]
  | some rest =>
      rcases Path.stepsBelow?_eq_some hBelow with
        ⟨hNames, hRest, hFirst⟩
      rw [← Path.names] at hNames
      have hSlash : ∀ step ∈ rest, Path.slash ∉ step :=
        fun step hStep =>
          Path.notMem_of_mem_steps (hRest.subset hStep)
      rw [hNames, if_pos (by simp), List.drop_left]
      cases rest with
      | nil =>
          rw [Path.names_join (by simp)]
          simp [Path.leading, Path.isInert]
      | cons step steps =>
          have hHead :
              ([Path.slash].intercalate (step :: steps)).head? ≠
                some Path.slash := by
            have hStep := hFirst step rfl
            cases step with
            | nil => cases hStep
            | cons byte bytes =>
                intro hByte
                have hSame : byte = Path.slash := by
                  cases steps with
                  | nil => simpa using hByte
                  | cons next steps => simpa using hByte
                exact
                  hSlash _ List.mem_cons_self
                    (by simp [hSame])
          rw [Path.names_join hHead,
            List.splitOn_intercalate Path.slash hSlash
              (List.cons_ne_nil _ _)]

theorem names_outputDirectory
    (hName : codeName? input = some name) :
    (outputDirectory context input).names =
      rootNames context ++ place context input := by
  rcases codeName?_eq_some hName with ⟨last, hLast, _⟩
  rcases exists_names_of_nameText? hLast with ⟨front, hNames⟩
  have hSome : input.names ≠ [] := by simp [hNames]
  rcases Path.exists_parent? hSome with ⟨parent, hParent⟩
  rcases Path.names_parent? hParent with ⟨other, hOther⟩
  have hFront : input.names.dropLast = parent.names := by
    rw [hOther, List.dropLast_concat]
  rw [outputDirectory, outputDirectory?, hParent, rootNames, place,
    hFront]
  cases context.outDir with
  | none => rfl
  | some outDir =>
      exact names_join_pathInside outDir context.base parent

theorem names_codePath
    (hName : codeName? input = some name) :
    (codePath context input name).names =
      rootNames context ++ place context input
        ++ [Text.bytes name] := by
  rcases leads_of_codeName? hName with ⟨hLong, hSlash⟩
  rw [codePath,
    Path.names_join_name (Path.isInert_of_length hLong).1 hSlash,
    names_outputDirectory hName]

theorem names_mapPath
    (hName : codeName? input = some name) :
    (mapPath context input name).names =
      rootNames context ++ place context input
        ++ [Text.bytes (name ++ ".map")] := by
  rcases leads_of_codeName? hName with ⟨hLong, hSlash⟩
  have hMap :
      3 ≤ (Text.bytes (name ++ ".map")).length
        ∧ Path.slash ∉ Text.bytes (name ++ ".map") := by
    rw [Text.bytes_append, List.length_append, List.mem_append,
      not_or]
    exact ⟨by omega, hSlash, by decide⟩
  rw [mapPath,
    Path.names_withName (names_codePath hName)
      (Path.isInert_of_length hMap.1).1 hMap.2]

------------------------------------------------------------
-- Targets
------------------------------------------------------------

section Targets

variable (hLeft : codeName? left = some leftName)
variable (hRight : codeName? right = some rightName)

include hLeft hRight in
theorem target_eq_iff :
    target context left = target context right ↔
      place context left = place context right
        ∧ leftName = rightName := by
  rcases codeName?_eq_some hLeft with ⟨leftLast, hLeftLast, _, rfl⟩
  rcases codeName?_eq_some hRight with
    ⟨rightLast, hRightLast, _, rfl⟩
  rw [target, target, hLeftLast, hRightLast, Prod.mk.injEq,
    Option.map_some, Option.map_some, Option.some.injEq,
    String.append_left_inj]

theorem codePath_mem_outputPaths
    (context : Context)
    (hName : codeName? input = some name) :
    codePath context input name ∈ outputPaths context input := by
  rw [outputPaths, hName]
  exact List.mem_cons_self

/- An output lies in its place, under one of two names. -/
theorem names_of_mem_outputPaths
    {path : Path}
    (hName : codeName? input = some name)
    (hPath : path ∈ outputPaths context input) :
    ∃ file ∈ [name, name ++ ".map"],
      path.names =
        rootNames context ++ place context input
          ++ [Text.bytes file] := by
  simp only [outputPaths, hName] at hPath
  rcases List.mem_cons.mp hPath with rfl | hMap
  · exact ⟨name, List.mem_cons_self, names_codePath hName⟩
  · split at hMap
    · rw [List.mem_singleton.mp hMap]
      exact
        ⟨name ++ ".map",
          List.mem_cons_of_mem _ (List.mem_singleton.mpr rfl),
          names_mapPath hName⟩
    · cases hMap

theorem concat_place_inj
    {root leftPlace rightPlace : List Name}
    {leftFile rightFile : String}
    (hSame :
      root ++ leftPlace ++ [Text.bytes leftFile] =
        root ++ rightPlace ++ [Text.bytes rightFile]) :
    leftPlace = rightPlace ∧ leftFile = rightFile := by
  rcases List.append_inj' hSame rfl with ⟨hPlaces, hFiles⟩
  exact
    ⟨List.append_cancel_left hPlaces,
      Text.bytes_inj.mp (List.singleton_inj.mp hFiles)⟩

include hLeft hRight in
/- Inputs with an output of the same names have the same target. -/
theorem target_eq_of_names_eq
    {leftPath rightPath : Path}
    (hLeftPath : leftPath ∈ outputPaths context left)
    (hRightPath : rightPath ∈ outputPaths context right)
    (hSame : leftPath.names = rightPath.names) :
    target context left = target context right := by
  rcases names_of_mem_outputPaths hLeft hLeftPath with
    ⟨leftFile, hLeftFile, hLeftNames⟩
  rcases names_of_mem_outputPaths hRight hRightPath with
    ⟨rightFile, hRightFile, hRightNames⟩
  rw [hLeftNames, hRightNames] at hSame
  rcases concat_place_inj hSame with ⟨hPlaces, rfl⟩
  refine (target_eq_iff hLeft hRight).mpr ⟨hPlaces, ?_⟩
  -- The file is the code of both inputs, or the map of both.
  rcases List.mem_pair.mp hLeftFile with rfl | rfl
  · rcases List.mem_pair.mp hRightFile with hCode | hMap
    · exact hCode
    · exact absurd hMap (ne_append_map_of_codeName? hLeft)
  · rcases List.mem_pair.mp hRightFile with hCode | hMap
    · exact absurd hCode.symm (ne_append_map_of_codeName? hRight)
    · exact (String.append_left_inj _).mp hMap

include hLeft hRight in
/- Code paths are the same exactly for inputs with the same target. -/
theorem names_codePath_eq_iff :
    (codePath context left leftName).names =
        (codePath context right rightName).names ↔
      target context left = target context right := by
  constructor
  · exact
      target_eq_of_names_eq hLeft hRight
        (codePath_mem_outputPaths context hLeft)
        (codePath_mem_outputPaths context hRight)
  · intro hTarget
    rcases (target_eq_iff hLeft hRight).mp hTarget with
      ⟨hPlace, rfl⟩
    rw [names_codePath hLeft, names_codePath hRight, hPlace]

include hLeft hRight in
theorem names_codePath_ne_mapPath :
    (codePath context left leftName).names ≠
      (mapPath context right rightName).names := by
  rw [names_codePath hLeft, names_mapPath hRight]
  intro hSame
  exact
    ne_append_map_of_codeName? hLeft (concat_place_inj hSame).2

theorem nodup_names_outputPaths
    (hName : codeName? input = some name) :
    ((outputPaths context input).map Path.names).Nodup := by
  simp only [outputPaths, hName]
  split
  · simpa using names_codePath_ne_mapPath hName hName
  · exact List.nodup_singleton _

end Targets

------------------------------------------------------------
-- All Inputs
------------------------------------------------------------

section Inputs

variable {found : List Path}

/- Outputs have different names if their inputs have different targets. -/
theorem nodup_names_iff_nodup_targets
    (hCode : ∀ input ∈ found, ∃ name, codeName? input = some name) :
    ((found.flatMap (outputPaths context)).map
        Path.names).Nodup ↔
      (found.map (target context)).Nodup := by
  have hPairs :
      (found.map (target context)).Nodup ↔
        found.Pairwise fun left right =>
          target context left ≠ target context right :=
    List.pairwise_map
  rw [List.map_flatMap, List.nodup_flatMap, hPairs]
  constructor
  · rintro ⟨_, hApart⟩
    apply hApart.imp_of_mem
    intro left right hLeft hRight hDisjoint hTargets
    rcases hCode left hLeft with ⟨leftName, hLeftName⟩
    rcases hCode right hRight with ⟨rightName, hRightName⟩
    apply hDisjoint
      (List.mem_map_of_mem
        (codePath_mem_outputPaths context hLeftName))
    rw [(names_codePath_eq_iff hLeftName hRightName).mpr hTargets]
    exact
      List.mem_map_of_mem
        (codePath_mem_outputPaths context hRightName)
  · intro hNodup
    constructor
    · intro input hInput
      rcases hCode input hInput with ⟨name, hName⟩
      exact nodup_names_outputPaths hName
    · apply hNodup.imp_of_mem
      intro left right hLeft hRight hTargets names hInLeft hInRight
      rcases hCode left hLeft with ⟨leftName, hLeftName⟩
      rcases hCode right hRight with ⟨rightName, hRightName⟩
      rcases List.mem_map.mp hInLeft with
        ⟨leftPath, hLeftPath, rfl⟩
      rcases List.mem_map.mp hInRight with
        ⟨rightPath, hRightPath, hSame⟩
      exact
        hTargets
          (target_eq_of_names_eq hLeftName hRightName hLeftPath
            hRightPath hSame.symm)

/- Inputs below the base directory keep their directories. -/
theorem dropLast_eq_of_place_eq
    (hBelow :
      context.outDir = none
        ∨ context.base.names <+: left.names.dropLast
          ∧ context.base.names <+: right.names.dropLast)
    (hPlaces : place context left = place context right) :
    left.names.dropLast = right.names.dropLast := by
  have hInside :
      ∀ {outDir} {input : Path},
        context.outDir = some outDir →
        context.base.names <+: input.names.dropLast →
          input.names.dropLast =
            context.base.names ++ place context input := by
    intro outDir input hOutDir hPrefix
    rcases hPrefix with ⟨rest, hRest⟩
    simp [place, hOutDir, ← hRest]
  cases hOutDir : context.outDir with
  | none =>
      simp only [place, hOutDir] at hPlaces
      exact hPlaces
  | some outDir =>
      rcases hBelow with hNone | ⟨hLeft, hRight⟩
      · rw [hOutDir] at hNone
        cases hNone
      · rw [hInside hOutDir hLeft, hInside hOutDir hRight, hPlaces]

/-
  Inputs that are searched for have different targets, if there
  is no output directory or they are below the base directory.
-/
theorem nodup_targets_of_isInputName
    (hSorted : found.Pairwise Path.Lt)
    (hNames :
      ∀ input ∈ found,
        (nameText? input).any isInputName = true)
    (hBelow :
      context.outDir = none
        ∨ ∀ input ∈ found,
          context.base.names <+: input.names.dropLast) :
    (found.map (target context)).Nodup := by
  have hNodup : found.Nodup := hSorted.imp ne_of_irrefl
  apply List.Nodup.map_on _ hNodup
  intro left hLeft right hRight hTargets
  have hName :
      ∀ input ∈ found, ∃ last front,
        nameText? input = some last
          ∧ last = stem last ++ inputEnding
          ∧ input.names = front ++ [Text.bytes last] := by
    intro input hInput
    have hSearched := hNames input hInput
    rw [Option.any_eq_true] at hSearched
    rcases hSearched with ⟨last, hLast, hInputName⟩
    rcases exists_names_of_nameText? hLast with ⟨front, hFront⟩
    exact
      ⟨last, front, hLast,
        eq_stem_append_of_isInputName hInputName, hFront⟩
  rcases hName left hLeft with
    ⟨leftLast, leftFront, hLeftLast, hLeftStem, hLeftNames⟩
  rcases hName right hRight with
    ⟨rightLast, rightFront, hRightLast, hRightStem, hRightNames⟩
  rw [target, target, hLeftLast, hRightLast, Prod.mk.injEq,
    Option.map_some, Option.map_some,
    Option.some.injEq] at hTargets
  have hDirectories := by
    refine dropLast_eq_of_place_eq (hBelow.imp_right ?_) hTargets.1
    intro hAll
    exact ⟨hAll left hLeft, hAll right hRight⟩
  rw [hLeftNames, hRightNames, List.dropLast_concat,
    List.dropLast_concat] at hDirectories
  apply Path.eq_of_names_eq hSorted hLeft hRight
  rw [hLeftNames, hRightNames, hDirectories, hLeftStem, hTargets.2,
    ← hRightStem]

/-
  If an input does not lead back, its outputs lie below the
  location of the directory that all outputs are put below.
-/
theorem exists_rest_of_mem_outputPaths
    {path : Path}
    (hUp : ∀ part ∈ input.names, part ≠ Path.upward)
    (hName : codeName? input = some name)
    (hPath : path ∈ outputPaths context input) :
    ∃ rest,
      path.names = rootNames context ++ rest
        ∧ path.location =
          Location.walk [] (rootNames context) ++ rest := by
  rcases names_of_mem_outputPaths hName hPath with
    ⟨file, hFile, hNames⟩
  rw [List.append_assoc] at hNames
  refine ⟨_, hNames, ?_⟩
  rw [Path.location, hNames, Location.walk_append,
    Location.walk_names]
  intro part hPart
  rcases List.mem_append.mp hPart with hPlace | hLast
  · apply hUp
    rw [place] at hPlace
    split at hPlace
    · exact List.mem_of_mem_dropLast hPlace
    · split at hPlace
      · exact List.mem_of_mem_dropLast (List.mem_of_mem_drop hPlace)
      · cases hPlace
  · rw [List.mem_singleton.mp hLast]
    refine (Path.isInert_of_length ?_).2
    have hLong := (leads_of_codeName? hName).1
    rcases List.mem_pair.mp hFile with rfl | rfl
    · exact hLong
    · rw [Text.bytes_append, List.length_append]
      omega

/- So outputs with different names are at different locations. -/
theorem nodup_location_of_nodup_names
    (hUp :
      ∀ input ∈ found, ∀ part ∈ input.names, part ≠ Path.upward)
    (hCode : ∀ input ∈ found, ∃ name, codeName? input = some name)
    (hNodup :
      ((found.flatMap (outputPaths context)).map
        Path.names).Nodup) :
    ((found.flatMap (outputPaths context)).map
      Path.location).Nodup := by
  have hRest :
      ∀ path ∈ found.flatMap (outputPaths context), ∃ rest,
        path.names = rootNames context ++ rest
          ∧ path.location =
            Location.walk [] (rootNames context) ++ rest := by
    intro path hPath
    rcases List.mem_flatMap.mp hPath with ⟨input, hInput, hPath⟩
    rcases hCode input hInput with ⟨name, hName⟩
    exact
      exists_rest_of_mem_outputPaths (hUp input hInput) hName
        hPath
  apply List.Nodup.map_on _ (hNodup.of_map _)
  intro left hLeft right hRight hSame
  rcases hRest left hLeft with
    ⟨leftRest, hLeftNames, hLeftLocation⟩
  rcases hRest right hRight with
    ⟨rightRest, hRightNames, hRightLocation⟩
  rw [hLeftLocation, hRightLocation] at hSame
  refine List.inj_on_of_nodup_map hNodup hLeft hRight ?_
  rw [hLeftNames, hRightNames, List.append_cancel_left hSame]

end Inputs

------------------------------------------------------------
-- Files
------------------------------------------------------------

variable {tree after : FileTree} {cwd : Path}
variable {request : Request} {result : Result}
variable {outputs : List Output} {found roots : List Path}

section LinkFree

variable (hTree : tree.WellFormed) (hPlain : tree.LinkFree)
include hTree hPlain

/- Different outputs that have one name each are all there in the end. -/
theorem readFile_of_nodup
    (hNodup :
      ((outputs.map Output.path).map Path.location).Nodup)
    (hNamed :
      ∀ path ∈ outputs.map Output.path,
        tree.OneNamed path.location)
    (hOk : writeAll tree outputs = (after, .ok ())) :
    ∀ output ∈ outputs,
      after.readFile output.path =
        .ok (Text.bytes output.contents) := by
  have hChanges := changes_writeAll hTree hOk
  have hFiles :
      ∀ path ∈ outputs.map Output.path, ∃ node,
        nodeAt? after path = some node
          ∧ after.node? path.location = some node := by
    intro path hPath
    rcases (written_writeAll hOk).files path hPath with
      ⟨location, hResolve, hFile⟩
    rcases Option.isSome_iff_exists.mp hFile with ⟨node, hNode⟩
    have hLocation :=
      FileTree.location_of_resolve? (hChanges.linkFree hPlain)
        hResolve
    refine ⟨node, ?_, hLocation ▸ hNode⟩
    rw [nodeAt?, hResolve, Option.bind_some, hNode]
  refine readFile_of_writeAll hTree ?_ hOk
  apply List.Nodup.map_on _ (hNodup.of_map _)
  intro left hLeft right hRight hSame
  rcases hFiles left hLeft with ⟨node, hLeftAt, hLeftNode⟩
  rcases hFiles right hRight with ⟨other, hRightAt, hRightNode⟩
  rw [hLeftAt, hRightAt] at hSame
  cases hSame
  exact
    List.inj_on_of_nodup_map hNodup hLeft hRight
      (hChanges.oneNamed hTree (hNamed right hRight) node _
        hRightNode hLeftNode)

/- An input that can be read is found by its shortest path. -/
theorem exists_location_of_mem_inputs
    (hFound : inputs tree roots = .ok found)
    (hInput : input ∈ found)
    (hRead : (inputText? tree input).isSome = true) :
    ∃ location : Location,
      location.Proper
        ∧ (tree.node? location).isSome = true
        ∧ (Location.path location).fits = true
        ∧ input = Location.path location := by
  rcases exists_names_of_mem_inputs hTree hPlain hFound hInput with
    ⟨root, _, location, hNames, rfl⟩
  have hFits : (inputPath root location).fits = true := by
    rcases Option.isSome_iff_exists.mp hRead with ⟨text, hText⟩
    rw [inputText?, Option.bind_eq_some_iff] at hText
    rcases hText with ⟨contents, hContents, _⟩
    cases hFile : tree.readFile (inputPath root location) with
    | error refusal =>
        rw [hFile] at hContents
        cases hContents
    | ok other =>
        rcases FileTree.readFile_eq_ok_iff.mp hFile with
          ⟨_, hResolve, _⟩
        exact (FileTree.resolve?_eq_some_iff.mp hResolve).1
  have hSame := inputPath_of_fits hTree hPlain hNames hFits
  exact
    ⟨location,
      hTree.proper (isSome_get?_of_node? hNames.isFile),
      hNames.isFile, hSame ▸ hFits, hSame⟩

end LinkFree

------------------------------------------------------------
-- Runs
------------------------------------------------------------

/- A build that writes anything writes the outputs of all inputs. -/
theorem writeAll_of_emitted
    (hRun : run tree cwd request = (after, .ok result))
    (hEmitted : result.emitted ≠ []) :
    ∃ start found,
      setup tree cwd request = .ok start
        ∧ inputs tree start.roots = .ok found
        ∧ (∀ input ∈ found,
          (∃ name, codeName? input = some name)
            ∧ (inputText? tree input).isSome = true)
        ∧ result.emitted =
          found.flatMap (outputPaths start.context)
        ∧ result.emitted =
          (planInputs tree start.context start.warnings
            found).outputs.map Output.path
        ∧ writeAll tree
            (planInputs tree start.context start.warnings
              found).outputs =
          (after, .ok ()) := by
  rcases run_eq_ok_iff.mp hRun with
    ⟨made, hPlan, hWrite, hResult⟩
  rcases plan_eq_ok_iff.mp hPlan with
    ⟨start, found, hStart, hFound, hMade⟩
  have hSome : found ≠ [] := by
    intro hNone
    rw [hResult, hMade, if_pos hNone] at hEmitted
    exact hEmitted rfl
  rw [if_neg hSome] at hMade
  have hAccounts := accounts_of_run hRun hStart hFound hSome
  have hGood :
      start.context.options.noEmit = false
        ∧ result.hasErrors = false := by
    rw [← Bool.not_eq_true, ← Bool.not_eq_true, ← not_or]
    intro hNothing
    exact hEmitted (hAccounts.nothing hNothing).1
  have hAll : made.toWrite = made.outputs := by
    unfold Plan.toWrite
    split
    · next hNothing =>
        rw [hResult, Plan.toWrite, if_pos hNothing] at hEmitted
        exact absurd rfl hEmitted
    · rfl
  refine
    ⟨start, found, hStart, hFound, ?_,
      (hAccounts.everything hGood.1 hGood.2).1, ?_, ?_⟩
  · intro input hInput
    rcases compileInput_cases tree start.context input with
      ⟨diagnostic, hFault⟩ | ⟨name, _, _, hName, hText, _⟩
    · have hBad :=
        hAccounts.hasErrors.mpr ⟨input, hInput, diagnostic, hFault⟩
      rw [hGood.2] at hBad
      cases hBad
    · exact ⟨⟨name, hName⟩, hText⟩
  · rw [← hMade, ← hAll, hResult]
  · rw [← hMade, ← hAll]
    exact hWrite

/- Different names of outputs lead to different locations. -/
theorem nodup_location_emitted
    (hTree : tree.WellFormed)
    (hPlain : tree.LinkFree)
    (hRun : run tree cwd request = (after, .ok result))
    (hNodup : (result.emitted.map Path.names).Nodup) :
    (result.emitted.map Path.location).Nodup := by
  by_cases hNone : result.emitted = []
  · rw [hNone]
    exact List.nodup_nil
  · rcases writeAll_of_emitted hRun hNone with
      ⟨start, found, _, hFound, hGood, hPaths, _⟩
    rw [hPaths] at hNodup ⊢
    refine
      nodup_location_of_nodup_names ?_
        (fun input hInput => (hGood input hInput).1) hNodup
    intro input hInput part hPart
    rcases exists_location_of_mem_inputs hTree hPlain hFound hInput
        (hGood input hInput).2 with
      ⟨location, hProper, _, _, rfl⟩
    rw [hProper.names_path] at hPart
    exact (hProper part hPart).2.1

/-
  The names of the paths that a build writes are pairwise
  different exactly if its inputs have different targets. Only
  the code of inputs with the same target has the same names,
  and no code has those of a source map. The targets of inputs
  that are searched for differ, if there is no output directory
  or they are below the base directory.

  In a tree without links, different names lead to different
  locations, and every output is there in the end if no file
  that is written over has a second name.
-/
theorem nodup_emitted_iff_nodup_targets
    (hRun : run tree cwd request = (after, .ok result))
    (hEmitted : result.emitted ≠ []) :
    ∃ start found,
      setup tree cwd request = .ok start
        ∧ inputs tree start.roots = .ok found
        ∧ result.emitted =
          found.flatMap (outputPaths start.context)
        ∧ ((result.emitted.map Path.names).Nodup ↔
          (found.map (target start.context)).Nodup)
        ∧ (∀ left ∈ found, ∀ right ∈ found,
          ∃ leftName rightName,
            codeName? left = some leftName
              ∧ codeName? right = some rightName
              ∧ ((codePath start.context left leftName).names =
                    (codePath start.context right
                      rightName).names ↔
                  target start.context left =
                    target start.context right)
              ∧ (codePath start.context left leftName).names ≠
                (mapPath start.context right rightName).names)
        ∧ ((∀ input ∈ found,
              (nameText? input).any isInputName = true) →
            (start.context.outDir = none
              ∨ ∀ input ∈ found,
                start.context.base.names <+:
                  input.names.dropLast) →
              (result.emitted.map Path.names).Nodup)
        ∧ (tree.WellFormed →
            tree.LinkFree →
            (result.emitted.map Path.names).Nodup →
              (result.emitted.map Path.location).Nodup
                ∧ ((∀ path ∈ result.emitted,
                    tree.OneNamed path.location) →
                  ∀ input ∈ found,
                    ∀ output ∈
                        (compileInput tree start.context
                          input).outputs,
                      after.readFile output.path =
                        .ok (Text.bytes output.contents))) := by
  rcases writeAll_of_emitted hRun hEmitted with
    ⟨start, found, hStart, hFound, hGood, hPaths, hOutputs,
      hWrite⟩
  have hCode :
      ∀ input ∈ found, ∃ name, codeName? input = some name :=
    fun input hInput => (hGood input hInput).1
  have hTargets :
      (result.emitted.map Path.names).Nodup ↔
        (found.map (target start.context)).Nodup := by
    rw [hPaths]
    exact nodup_names_iff_nodup_targets hCode
  refine
    ⟨start, found, hStart, hFound, hPaths, hTargets, ?_, ?_, ?_⟩
  · intro left hLeft right hRight
    rcases hCode left hLeft with ⟨leftName, hLeftName⟩
    rcases hCode right hRight with ⟨rightName, hRightName⟩
    exact
      ⟨leftName, rightName, hLeftName, hRightName,
        names_codePath_eq_iff hLeftName hRightName,
        names_codePath_ne_mapPath hLeftName hRightName⟩
  · intro hSearched hBelow
    exact
      hTargets.mpr
        (nodup_targets_of_isInputName (pairwise_inputs hFound)
          hSearched hBelow)
  · intro hTree hPlain hNodup
    have hApart :=
      nodup_location_emitted hTree hPlain hRun hNodup
    refine ⟨hApart, ?_⟩
    intro hNamed input hInput output hOutput
    rw [hOutputs] at hApart hNamed
    apply readFile_of_nodup hTree hPlain hApart hNamed hWrite
    rw [outputs_planInputs, List.mem_flatMap]
    exact ⟨input, hInput, hOutput⟩

/- Inputs of the same name in different directories. -/
def layoutTree (contents : List UInt8) : FileTree where
  entries :=
    [(.ofTexts ["w"], .directory),
      (.ofTexts ["w", "src"], .directory),
      (.ofTexts ["w", "src", "a.ast.json"], .file 0),
      (.ofTexts ["w", "lib"], .directory),
      (.ofTexts ["w", "lib", "a.ast.json"], .file 1)]
  nodes := [contents, contents]

def layoutRequest : Request where
  outDir := some (Text.bytes "out")

def layoutSetup : Setup where
  context :=
    ⟨.ofText "/w", some (.ofText "/w/out"),
      { outDir := some (Text.bytes "out") }⟩
  warnings := []
  roots := [.ofText "/w"]

def layoutInputs : List Path :=
  [.ofText "/w/lib/a.ast.json", .ofText "/w/src/a.ast.json"]

theorem setup_layout
    (contents : List UInt8) :
    setup (layoutTree contents) (.ofText "/w") layoutRequest =
      .ok layoutSetup :=
  rfl

theorem inputsAt_layout
    (contents : List UInt8) :
    inputsAt (layoutTree contents) (.ofText "/w") =
      .ok
        [.ofText "/w/src/a.ast.json",
          .ofText "/w/lib/a.ast.json"] := by
  have hReach :
      (layoutTree contents).reach .find (.ofText "/w") =
        .ok (.ofTexts ["w"]) :=
    rfl
  have hSrc :
      (layoutTree contents).reach .find
          (Path.join (.ofText "/w") (Text.bytes "src")) =
        .ok (.ofTexts ["w", "src"]) :=
    rfl
  have hLib :
      (layoutTree contents).reach .find
          (Path.join (.ofText "/w") (Text.bytes "lib")) =
        .ok (.ofTexts ["w", "lib"]) :=
    rfl
  have hChildren :
      (layoutTree contents).children (.ofTexts ["w"]) =
        [(Text.bytes "src", .directory),
          (Text.bytes "lib", .directory)] :=
    rfl
  have hSearch :
      (layoutTree contents).search [] (.ofText "/w")
          (.ofTexts ["w"]) =
        .ok
          [.ofText "/w/src/a.ast.json",
            .ofText "/w/lib/a.ast.json"] := by
    rw [FileTree.search_of_reach hReach, hChildren,
      List.mapM_cons, List.mapM_cons,
      FileTree.searchAt_directory hSrc,
      FileTree.searchAt_directory hLib]
    rfl
  rw [inputsAt_of_search rfl rfl hSearch]
  rfl

theorem inputs_layout
    (contents : List UInt8) :
    inputs (layoutTree contents) layoutSetup.roots =
      .ok layoutInputs := by
  have hFound :
      layoutSetup.roots.mapM (inputsAt (layoutTree contents)) =
        .ok
          [[.ofText "/w/src/a.ast.json",
            .ofText "/w/lib/a.ast.json"]] := by
    rw [layoutSetup, List.mapM_cons, inputsAt_layout]
    rfl
  have hSort :
      Path.sort
          [.ofText "/w/src/a.ast.json",
            .ofText "/w/lib/a.ast.json"] =
        layoutInputs :=
    Path.sort_eq_of_mem_iff (by decide)
      (by simp [layoutInputs, or_comm])
  exact
    bind_eq_ok_iff.mpr ⟨_, hFound, congrArg Except.ok hSort⟩

theorem exists_run_layout
    {contents : List UInt8}
    (hContents : contents = Text.bytes emptyProgram.write) :
    ∃ after result,
      run (layoutTree contents) (.ofText "/w") layoutRequest =
          (after, .ok result)
        ∧ result.emitted =
          [.ofText "/w/out/lib/a.js",
            .ofText "/w/out/src/a.js"] := by
  have hOutputs :
      ∀ input path,
        (layoutTree contents).readFile input = .ok contents →
        codeName? input = some "a.js" →
        codePath layoutSetup.context input "a.js" = path →
          ∃ code,
            compileInput (layoutTree contents)
                layoutSetup.context input =
              .done [⟨path, code⟩] := by
    rintro input path hThere hName rfl
    rw [hContents] at hThere ⊢
    rcases exists_outputs_emptyProgram hThere hName with
      ⟨emission, hDone⟩
    exact ⟨_, hDone⟩
  rcases hOutputs (.ofText "/w/lib/a.ast.json")
      (.ofText "/w/out/lib/a.js") rfl rfl rfl with
    ⟨libCode, hLib⟩
  rcases hOutputs (.ofText "/w/src/a.ast.json")
      (.ofText "/w/out/src/a.js") rfl rfl rfl with
    ⟨srcCode, hSrc⟩
  refine
    exists_run_of_outputs
      [⟨.ofText "/w/out/lib/a.js", libCode⟩,
        ⟨.ofText "/w/out/src/a.js", srcCode⟩]
      (setup_layout contents) (inputs_layout contents)
      (List.cons_ne_nil _ _) ?_ ?_
  · simp only [planInputs, layoutInputs, List.map_cons, hLib,
      hSrc]
    rfl
  · rfl

/- Both inputs keep their directories below the output directory. -/
theorem nodup_emitted_iff_nodup_targets_layout :
    (layoutTree (Text.bytes emptyProgram.write)).WellFormed
      ∧ (layoutTree (Text.bytes emptyProgram.write)).LinkFree
      ∧ ∃ after result,
        run (layoutTree (Text.bytes emptyProgram.write))
            (.ofText "/w") layoutRequest =
          (after, .ok result)
        ∧ result.emitted =
          [.ofText "/w/out/lib/a.js", .ofText "/w/out/src/a.js"]
        ∧ (result.emitted.map Path.names).Nodup
        ∧ (layoutInputs.map
            (target layoutSetup.context)).Nodup
        ∧ ∀ input ∈ layoutInputs,
          ∀ output ∈
              (compileInput
                (layoutTree (Text.bytes emptyProgram.write))
                layoutSetup.context input).outputs,
            after.readFile output.path =
              .ok (Text.bytes output.contents) := by
  have hTree :
      (layoutTree (Text.bytes emptyProgram.write)).WellFormed := by
    decide
  have hPlain :
      (layoutTree (Text.bytes emptyProgram.write)).LinkFree := by
    decide
  rcases exists_run_layout rfl with
    ⟨after, result, hRun, hEmitted⟩
  have hSome : result.emitted ≠ [] := by
    rw [hEmitted]
    exact List.cons_ne_nil _ _
  rcases nodup_emitted_iff_nodup_targets hRun hSome with
    ⟨start, found, hStart, hFound, _, hTargets, _, hSearched,
      hFiles⟩
  rw [setup_layout] at hStart
  cases hStart
  rw [inputs_layout] at hFound
  cases hFound
  have hNodup := hSearched (by decide) (.inr (by decide))
  have hNamed :
      ∀ path ∈ result.emitted,
        (layoutTree (Text.bytes emptyProgram.write)).OneNamed
          path.location := by
    rw [hEmitted]
    intro path hPath
    apply FileTree.oneNamed_of_node?_eq_none
    rcases List.mem_pair.mp hPath with rfl | rfl
    · rfl
    · rfl
  exact
    ⟨hTree, hPlain, after, result, hRun, hEmitted, hNodup,
      hTargets.mp hNodup, (hFiles hTree hPlain hNodup).2 hNamed⟩

/-
  Inputs that differ only in their endings are written to the
  same paths.
-/
theorem not_nodup_emitted_pair :
    (pairTree (Text.bytes emptyProgram.write)).WellFormed
      ∧ (pairTree (Text.bytes emptyProgram.write)).LinkFree
      ∧ ∃ after result,
        run (pairTree (Text.bytes emptyProgram.write))
            (.ofText "/w") pairRequest =
          (after, .ok result)
        ∧ result.emitted =
          [.ofText "/w/a.js", .ofText "/w/a.js.map",
            .ofText "/w/a.js", .ofText "/w/a.js.map"]
        ∧ ¬ (result.emitted.map Path.names).Nodup := by
  have hTree :
      (pairTree (Text.bytes emptyProgram.write)).WellFormed := by
    decide
  have hPlain :
      (pairTree (Text.bytes emptyProgram.write)).LinkFree := by
    decide
  rcases exists_run_pair rfl with
    ⟨after, result, hRun, hEmitted⟩
  refine ⟨hTree, hPlain, after, result, hRun, hEmitted, ?_⟩
  rw [hEmitted]
  decide

end Build

end TracedScript
