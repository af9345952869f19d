import TracedScript.Build.Inputs
import TracedScript.Proofs.Base64
import TracedScript.Proofs.LinkFree

/-
  The inputs that a build finds.

  Key definitions include:
    * `Path.Lt`: one path comes before another.
    * `Build.HasInputName`, `Build.InputBelow`: what a search
      is for.
    * `Build.Names`: a root stands for an input.
    * `Build.CanSearch`: no path in a search is too long.
    * `Build.inputPath`: the path that an input is found by.

  Main declarations:
    * `Path.pairwise_sort`: inputs come in their order, each of
      them once.
    * `Build.pairwise_inputs`
    * `Build.inputsAt_cases`: what comes of a root in a tree
      without links.
    * `Build.exists_names_of_mem_inputs`
    * `Build.exists_mem_inputs`
    * `Build.exists_inputs_iff`
-/

------------------------------------------------------------
-- Order
------------------------------------------------------------

namespace TracedScript

namespace Path

variable {path last : Path} {paths others : List Path}

/- One path is before the other. -/
def Lt (left right : Path) : Prop :=
  left.key < right.key

instance
    (left right : Path) :
    Decidable (Lt left right) := by
  unfold Lt
  infer_instance

instance : Std.Irrefl Lt :=
  ⟨fun path => lt_irrefl path.key⟩

instance : Std.Antisymm Lt :=
  ⟨fun _ _ hLess hMore => absurd hMore (lt_asymm hLess)⟩

theorem dropRepeatsAfter_sublist :
    (dropRepeatsAfter last paths).Sublist paths := by
  induction paths generalizing last with
  | nil => exact .slnil
  | cons path paths ih =>
      rw [dropRepeatsAfter]
      split
      · exact ih.cons path
      · exact ih.cons_cons path

/- Paths that are left out have the names of one that is kept. -/
theorem exists_mem_dropRepeatsAfter
    (hPath : path ∈ paths) :
    ∃ other ∈ last :: dropRepeatsAfter last paths,
      other.names = path.names := by
  induction paths generalizing last with
  | nil => cases hPath
  | cons first paths ih =>
      rw [dropRepeatsAfter]
      split
      · next hSame =>
          rcases List.mem_cons.mp hPath with rfl | hLater
          · exact ⟨last, List.mem_cons_self, hSame.symm⟩
          · exact ih hLater
      · rcases List.mem_cons.mp hPath with rfl | hLater
        · exact ⟨path, by simp, rfl⟩
        · rcases ih hLater with ⟨other, hOther, hNames⟩
          exact
            ⟨other, List.mem_cons_of_mem last hOther, hNames⟩

theorem pairwise_dropRepeatsAfter
    (hSorted : (last :: paths).Pairwise Le) :
    (last :: dropRepeatsAfter last paths).Pairwise Lt := by
  induction paths generalizing last with
  | nil => exact List.pairwise_singleton _ _
  | cons path paths ih =>
      rcases List.pairwise_cons.mp hSorted with ⟨hLast, hRest⟩
      rw [dropRepeatsAfter]
      split
      · refine ih (List.pairwise_cons.mpr ⟨?_, hRest.of_cons⟩)
        exact fun other hOther =>
          hLast other (List.mem_cons_of_mem path hOther)
      · next hOther =>
          have hLater := ih hRest
          have hLess : Lt last path := by
            have hLe :=
              (le_iff _ _).mp (hLast path List.mem_cons_self)
            refine lt_of_le_of_ne hLe ?_
            intro hSame
            exact hOther (names_eq_of_key_eq hSame).symm
          refine List.pairwise_cons.mpr ⟨?_, hLater⟩
          intro other hMember
          rcases List.mem_cons.mp hMember with rfl | hAfter
          · exact hLess
          · exact
              lt_trans hLess
                ((List.pairwise_cons.mp hLater).1 other hAfter)

theorem mem_of_mem_dropRepeats
    (hPath : path ∈ dropRepeats paths) :
    path ∈ paths := by
  cases paths with
  | nil => exact hPath
  | cons first paths =>
      exact (dropRepeatsAfter_sublist.cons_cons first).subset hPath

theorem exists_mem_dropRepeats
    (hPath : path ∈ paths) :
    ∃ other ∈ dropRepeats paths, other.names = path.names := by
  cases paths with
  | nil => cases hPath
  | cons first paths =>
      rcases List.mem_cons.mp hPath with rfl | hRest
      · exact ⟨path, List.mem_cons_self, rfl⟩
      · exact exists_mem_dropRepeatsAfter hRest

/- Sorted paths are in their order, each of them once. -/
theorem pairwise_sort
    (paths : List Path) :
    (sort paths).Pairwise Lt := by
  have hSorted :
      (paths.mergeSort fun left right =>
        decide (Le left right)).Pairwise fun left right =>
          decide (Le left right) = true := by
    apply List.pairwise_mergeSort
    · intro first second third
      simp only [decide_eq_true_iff, le_iff]
      exact le_trans
    · intro left right
      simp only [Bool.or_eq_true, decide_eq_true_iff, le_iff]
      exact le_total left.key right.key
  have hLe := hSorted.imp fun hLe => of_decide_eq_true hLe
  rw [sort]
  cases hPaths :
      paths.mergeSort fun left right => decide (Le left right) with
  | nil => exact .nil
  | cons first rest =>
      rw [hPaths] at hLe
      exact pairwise_dropRepeatsAfter hLe

theorem mem_of_mem_sort
    (hPath : path ∈ sort paths) :
    path ∈ paths :=
  List.mem_mergeSort.mp (mem_of_mem_dropRepeats hPath)

theorem exists_mem_sort
    (hPath : path ∈ paths) :
    ∃ other ∈ sort paths, other.names = path.names :=
  exists_mem_dropRepeats (List.mem_mergeSort.mpr hPath)

/- Where names tell paths apart, none of them is left out. -/
theorem mem_sort_iff
    (hNames :
      ∀ left ∈ paths, ∀ right ∈ paths,
        left.names = right.names → left = right) :
    path ∈ sort paths ↔ path ∈ paths := by
  constructor
  · exact mem_of_mem_sort
  · intro hPath
    rcases exists_mem_sort hPath with ⟨other, hOther, hSame⟩
    rw [← hNames other (mem_of_mem_sort hOther) path hPath hSame]
    exact hOther

/- Names tell paths in their order apart. -/
theorem eq_of_names_eq
    (hSorted : paths.Pairwise Lt)
    {left right : Path}
    (hLeft : left ∈ paths)
    (hRight : right ∈ paths)
    (hSame : left.names = right.names) :
    left = right := by
  have hKeys : (paths.map key).Nodup :=
    List.pairwise_map.mpr (hSorted.imp ne_of_lt)
  exact
    List.inj_on_of_nodup_map hKeys hLeft hRight
      (key_eq_of_names_eq hSame)

/- The order of some paths does not depend on how they are given. -/
theorem sort_eq_of_mem_iff
    (hSorted : others.Pairwise Lt)
    (hSame : ∀ path, path ∈ paths ↔ path ∈ others) :
    sort paths = others := by
  apply (pairwise_sort paths).eq_of_mem_iff hSorted
  intro path
  rw [mem_sort_iff, hSame]
  intro left hLeft right hRight
  rw [hSame] at hLeft hRight
  exact eq_of_names_eq hSorted hLeft hRight

theorem sort_singleton
    (path : Path) :
    sort [path] = [path] :=
  sort_eq_of_mem_iff (List.pairwise_singleton _ _) fun _ => .rfl

end Path

------------------------------------------------------------
-- All Roots
------------------------------------------------------------

namespace Build

variable {tree : FileTree} {root path : Path}
variable {roots found files : List Path}

theorem pairwise_inputs
    (hFound : inputs tree roots = .ok found) :
    found.Pairwise Path.Lt := by
  rcases bind_eq_ok_iff.mp hFound with ⟨lists, _, hSort⟩
  cases hSort
  exact Path.pairwise_sort _

/- Every input was found at one of the roots. -/
theorem exists_root_of_mem_inputs
    (hFound : inputs tree roots = .ok found)
    (hPath : path ∈ found) :
    ∃ root ∈ roots, ∃ files,
      inputsAt tree root = .ok files ∧ path ∈ files := by
  rcases bind_eq_ok_iff.mp hFound with ⟨lists, hLists, hSort⟩
  cases hSort
  rcases List.mem_flatten.mp (Path.mem_of_mem_sort hPath) with
    ⟨files, hFiles, hPath⟩
  rcases exists_of_mem_mapM hLists hFiles with
    ⟨root, hRoot, hAt⟩
  exact ⟨root, hRoot, files, hAt, hPath⟩

/- What is found at a root is an input, by a path with its names. -/
theorem exists_mem_inputs_of_root
    (hFound : inputs tree roots = .ok found)
    (hRoot : root ∈ roots)
    (hAt : inputsAt tree root = .ok files)
    (hPath : path ∈ files) :
    ∃ other ∈ found, other.names = path.names := by
  rcases bind_eq_ok_iff.mp hFound with ⟨lists, hLists, hSort⟩
  cases hSort
  rcases exists_mem_of_mapM hLists hRoot with
    ⟨others, hOthers, hSame⟩
  rw [hAt] at hSame
  cases hSame
  exact
    Path.exists_mem_sort
      (List.mem_flatten.mpr ⟨files, hOthers, hPath⟩)

theorem exists_inputs_iff_inputsAt :
    (∃ found, inputs tree roots = .ok found) ↔
      ∀ root ∈ roots, ∃ files, inputsAt tree root = .ok files := by
  rw [← exists_mapM_iff]
  constructor
  · rintro ⟨found, hFound⟩
    rcases bind_eq_ok_iff.mp hFound with ⟨lists, hLists, _⟩
    exact ⟨lists, hLists⟩
  · rintro ⟨lists, hLists⟩
    exact ⟨_, bind_eq_ok_iff.mpr ⟨lists, hLists, rfl⟩⟩

/- A root that stands for one input. -/
theorem inputs_singleton
    (hAt : inputsAt tree root = .ok [path]) :
    inputs tree [root] = .ok [path] := by
  have hAll : [root].mapM (inputsAt tree) = .ok [[path]] := by
    rw [List.mapM_cons, hAt]
    rfl
  exact
    bind_eq_ok_iff.mpr
      ⟨_, hAll, congrArg Except.ok (Path.sort_singleton path)⟩

theorem inputs_singleton_eq_error
    {failure : Failure}
    (hAt : inputsAt tree root = .error failure) :
    inputs tree [root] = .error failure := by
  rw [inputs, List.mapM_cons, hAt]
  rfl

------------------------------------------------------------
-- Names
------------------------------------------------------------

theorem beforeEnding?_eq_some_iff
    {ending name front : String} :
    beforeEnding? ending name = some front ↔
      name = front ++ ending := by
  rw [beforeEnding?]
  constructor
  · intro hFront
    split at hFront
    · next hEnding =>
        cases hFront
        have hParts :=
          List.take_append_drop
            (name.toList.length - ending.toList.length)
            name.toList
        rw [hEnding] at hParts
        rw [← String.toList_inj, String.toList_append,
          String.toList_ofList, hParts]
    · cases hFront
  · rintro rfl
    simp

theorem isInputName_iff
    {name : String} :
    isInputName name = true ↔
      ∃ front, front ≠ "" ∧ name = front ++ inputEnding := by
  unfold isInputName
  cases hFront : beforeEnding? inputEnding name with
  | none =>
      simp only [Bool.false_eq_true, false_iff]
      rintro ⟨front, _, hName⟩
      rw [beforeEnding?_eq_some_iff.mpr hName] at hFront
      cases hFront
  | some front =>
      rw [beforeEnding?_eq_some_iff] at hFront
      simp only [decide_eq_true_eq, hFront,
        String.append_left_inj]
      constructor
      · intro hSome
        exact ⟨front, hSome, rfl⟩
      · rintro ⟨other, hSome, rfl⟩
        exact hSome

/- The name of a path is its last one. -/
theorem nameText?_of_names
    {front : List Name}
    {last : Name}
    (hNames : path.names = front ++ [last])
    (hLast : last ≠ Path.upward) :
    nameText? path = Text.ofBytes? last := by
  rw [nameText?, Path.fileName?, hNames, List.getLast?_concat,
    Option.filter_some, if_pos (decide_eq_true hLast)]
  rfl

theorem exists_names_of_nameText?
    {name : String}
    (hName : nameText? path = some name) :
    ∃ front, path.names = front ++ [Text.bytes name] := by
  rw [nameText?, Option.bind_eq_some_iff] at hName
  rcases hName with ⟨last, hLast, hText⟩
  rw [Path.fileName?, Option.filter_eq_some_iff] at hLast
  rcases List.getLast?_eq_some_iff.mp hLast.1 with
    ⟨front, hFront⟩
  rw [Text.ofBytes?_eq_some_iff] at hText
  exact ⟨front, hText ▸ hFront⟩

------------------------------------------------------------
-- Roots
------------------------------------------------------------

section Roots

open FileTree (isDirectory_iff resolve?_eq_some_iff)

variable {location directory input : Location}

/- A name with something before the ending of inputs. -/
def HasInputName (input : Location) : Prop :=
  ∃ front,
    front ≠ ""
      ∧ input.getLast? =
        some (Text.bytes (front ++ inputEnding))

/- A file with the name of an input in a directory, at any depth. -/
def InputBelow
    (tree : FileTree)
    (directory input : Location) : Prop :=
  (tree.node? input).isSome = true
    ∧ directory <+: input
    ∧ HasInputName input

/-
  A root stands for an input: it leads to the file, whatever
  its name is, or to a directory that the input is found in.
-/
inductive Names
    (tree : FileTree)
    (root : Path)
    (input : Location) : Prop where
  | file
      (hRoot : tree.resolve? root = some input)
      (hFile : (tree.node? input).isSome = true)
  | searched
      {directory : Location}
      (hRoot : tree.resolve? root = some directory)
      (hDirectory : tree.isDirectory directory = true)
      (hBelow : InputBelow tree directory input)

/-
  A search from a root reaches all directories below it: none
  of their paths, spelled from the root, is too long.
-/
def CanSearch (tree : FileTree) (root : Path) : Prop :=
  ∀ location,
    tree.resolve? root = some location →
      tree.Searchable root location

/-
  The path that an input is found by: the shortest one, or if
  that is too long, the one from the root.
-/
def inputPath
    (root : Path)
    (input : Location) :
    Path :=
  if (Location.path input).fits then Location.path input
  else root.extend (input.drop root.location.length)

theorem not_isDirectory_of_node?
    (hFile : (tree.node? location).isSome = true) :
    tree.isDirectory location = false := by
  rcases Option.isSome_iff_exists.mp hFile with ⟨node, hNode⟩
  rw [FileTree.node?_eq_some_iff] at hNode
  rw [← Bool.not_eq_true, isDirectory_iff, hNode]
  intro hSame
  cases hSame

/- What is there and is neither a directory nor a link is a file. -/
theorem isSome_node?_of_not_isDirectory
    (hPlain : tree.LinkFree)
    (hThere : (tree.get? location).isSome = true)
    (hOther : tree.isDirectory location = false) :
    (tree.node? location).isSome = true := by
  rcases Option.isSome_iff_exists.mp hThere with ⟨entry, hEntry⟩
  cases entry with
  | file node =>
      rw [FileTree.node?_eq_some_iff.mpr hEntry]
      rfl
  | directory =>
      rw [isDirectory_iff.mpr hEntry] at hOther
      cases hOther
  | link goal => exact (hPlain.not_link hEntry).elim

theorem isSome_get?_of_node?
    (hFile : (tree.node? location).isSome = true) :
    (tree.get? location).isSome = true := by
  rcases Option.isSome_iff_exists.mp hFile with ⟨node, hNode⟩
  rw [FileTree.node?_eq_some_iff.mp hNode]
  rfl

/- A directory stands for what its search finds. -/
theorem inputsAt_of_search
    (hRoot : tree.resolve? root = some directory)
    (hDirectory : tree.isDirectory directory = true)
    (hSearch : tree.search [] root directory = .ok found) :
    inputsAt tree root =
      .ok
        ((found.filter fun path =>
          (nameText? path).any isInputName).map
            tree.canonical) := by
  simp only [inputsAt, hRoot, hDirectory, hSearch]
  rfl

/- The name of a path tells whether it is one of an input. -/
theorem any_nameText?_iff
    (hProper : input.Proper)
    (hInput : input ≠ [])
    (root : Path) :
    (nameText? (root.extend input)).any isInputName = true ↔
      HasInputName input := by
  rcases List.eq_nil_or_concat input with hNone | ⟨front, last, hConcat⟩
  · exact absurd hNone hInput
  rw [List.concat_eq_append] at hConcat
  have hNames := hProper.names_extend root
  rw [hConcat, ← List.append_assoc] at hNames
  have hLast := hProper last (by simp [hConcat])
  rw [hConcat, nameText?_of_names hNames hLast.2.1, HasInputName,
    List.getLast?_concat, Option.any_eq_true]
  constructor
  · rintro ⟨name, hName, hInputName⟩
    rcases isInputName_iff.mp hInputName with
      ⟨stem, hStem, rfl⟩
    rw [Text.ofBytes?_eq_some_iff] at hName
    exact ⟨stem, hStem, congrArg some hName⟩
  · rintro ⟨stem, hStem, hName⟩
    refine
      ⟨_, Text.ofBytes?_eq_some_iff.mpr (Option.some.inj hName),
        isInputName_iff.mpr ⟨stem, hStem, rfl⟩⟩

theorem Names.isFile
    (hNames : Names tree root input) :
    (tree.node? input).isSome = true := by
  cases hNames with
  | file _ hFile => exact hFile
  | searched _ _ hBelow => exact hBelow.1

theorem names_iff_inputBelow
    (hRoot : tree.resolve? root = some location)
    (hDirectory : tree.isDirectory location = true) :
    Names tree root input ↔ InputBelow tree location input := by
  constructor
  · rintro (⟨hSame, hFile⟩ | ⟨hSame, _, hBelow⟩)
    · rw [hRoot] at hSame
      cases hSame
      rw [not_isDirectory_of_node? hFile] at hDirectory
      cases hDirectory
    · rw [hRoot] at hSame
      cases hSame
      exact hBelow
  · exact .searched hRoot hDirectory

theorem names_iff_of_file
    (hRoot : tree.resolve? root = some location)
    (hFile : (tree.node? location).isSome = true) :
    Names tree root input ↔ input = location := by
  constructor
  · rintro (⟨hSame, _⟩ | ⟨hSame, hDirectory, _⟩)
    · rw [hRoot] at hSame
      exact (Option.some.inj hSame).symm
    · rw [hRoot] at hSame
      cases hSame
      rw [not_isDirectory_of_node? hFile] at hDirectory
      cases hDirectory
  · rintro rfl
    exact .file hRoot hFile

theorem canSearch_iff
    (hRoot : tree.resolve? root = some location) :
    CanSearch tree root ↔ tree.Searchable root location := by
  rw [CanSearch, hRoot]
  simp only [Option.some.injEq, forall_eq']

section LinkFree

variable (hTree : tree.WellFormed) (hPlain : tree.LinkFree)
include hTree hPlain

/- What a search has found, by its shortest paths. -/
theorem mem_searched_iff
    {found : List Path}
    (hRoot : tree.resolve? root = some directory)
    (hDirectory : tree.isDirectory directory = true)
    (hSearchable : tree.Searchable root directory)
    (hFound : tree.FilesBelow root directory found) :
    path ∈
        (found.filter fun path =>
          (nameText? path).any isInputName).map tree.canonical ↔
      ∃ input,
        InputBelow tree directory input
          ∧ path = inputPath root input := by
  have hBelow :
      ∀ {below},
        (tree.node? (directory ++ below)).isSome = true →
          below.Proper ∧ below ≠ [] := by
    intro below hFile
    have hProper := hTree.proper (isSome_get?_of_node? hFile)
    refine
      ⟨fun name hName =>
        hProper name (List.mem_append_right directory hName), ?_⟩
    rintro rfl
    rw [List.append_nil] at hFile
    rw [not_isDirectory_of_node? hFile] at hDirectory
    cases hDirectory
  have hLast :
      ∀ {below : Location},
        below ≠ [] →
          (HasInputName (directory ++ below) ↔
            HasInputName below) := by
    intro below hSome
    rw [HasInputName, HasInputName,
      List.getLast?_append_of_ne_nil _ hSome]
  have hSpelled :
      ∀ {below},
        (tree.node? (directory ++ below)).isSome = true →
          tree.canonical (root.extend below) =
            inputPath root (directory ++ below) := by
    intro below hFile
    rw [FileTree.canonical_extend hTree hPlain hRoot hSearchable
      (isSome_get?_of_node? hFile), inputPath,
      ← FileTree.location_of_resolve? hPlain hRoot,
      List.drop_left]
  rw [List.mem_map]
  constructor
  · rintro ⟨other, hOther, rfl⟩
    rcases List.mem_filter.mp hOther with ⟨hMember, hName⟩
    rcases (hFound other).mp hMember with ⟨below, hFile, rfl⟩
    rcases hBelow hFile with ⟨hProper, hSome⟩
    refine ⟨directory ++ below, ⟨hFile, ?_, ?_⟩, hSpelled hFile⟩
    · exact List.prefix_append directory below
    · rw [hLast hSome]
      exact (any_nameText?_iff hProper hSome root).mp hName
  · rintro ⟨input, ⟨hFile, ⟨below, rfl⟩, hName⟩, rfl⟩
    rcases hBelow hFile with ⟨hProper, hSome⟩
    rw [hLast hSome] at hName
    refine ⟨root.extend below, ?_, hSpelled hFile⟩
    exact
      List.mem_filter.mpr
        ⟨(hFound _).mpr ⟨below, hFile, rfl⟩,
          (any_nameText?_iff hProper hSome root).mpr hName⟩

/- A root that leads to a file stands for that file. -/
theorem inputsAt_of_file
    (hRoot : tree.resolve? root = some location)
    (hFile : (tree.node? location).isSome = true) :
    CanSearch tree root
      ∧ inputsAt tree root = .ok [inputPath root location] := by
  have hOther := not_isDirectory_of_node? hFile
  constructor
  · rw [canSearch_iff hRoot]
    intro below hBelow
    have hSame : below = [] := by
      by_contra hSome
      rw [hTree.isDirectory_of_append
        (FileTree.isSome_of_isDirectory hBelow) hSome] at hOther
      cases hOther
    rw [hSame, List.append_nil, hOther] at hBelow
    cases hBelow
  · have hFits : (Location.path location).fits = true := by
      rw [FileTree.location_of_resolve? hPlain hRoot]
      exact
        FileTree.fits_path_location
          (resolve?_eq_some_iff.mp hRoot).1
    have hPath : tree.canonical root = inputPath root location := by
      rw [inputPath, if_pos hFits]
      exact FileTree.canonical_of_resolve? hPlain hRoot
    simp only [inputsAt, hRoot, hOther, hPath]
    rfl

/-
  What comes of a root that leads somewhere: all inputs that
  it stands for, or nothing if a path is too long.
-/
theorem inputsAt_cases
    (hRoot : tree.resolve? root = some location) :
    (CanSearch tree root
        ∧ ∃ files,
          inputsAt tree root = .ok files
            ∧ ∀ path,
              path ∈ files ↔
                ∃ input,
                  Names tree root input
                    ∧ path = inputPath root input)
      ∨ ∃ below,
        tree.isDirectory (location ++ below) = true
          ∧ (root.extend below).fits = false
          ∧ inputsAt tree root =
            .error
              (.inputsNotSearched root
                (.blocked (root.extend below) .tooLong)) := by
  cases hDirectory : tree.isDirectory location with
  | true =>
      have hEnds :
          FileTree.SearchEnds tree root location
            (tree.search [] root location) :=
        FileTree.search_ends hTree hPlain hDirectory
          fun _ => hRoot
      cases hSearch : tree.search [] root location with
      | error fault =>
          rw [hSearch] at hEnds
          cases hEnds with
          | tooLong below hBelow hLong =>
              refine .inr ⟨below, hBelow, hLong, ?_⟩
              simp only [inputsAt, hRoot, hDirectory, hSearch]
              rfl
      | ok found =>
          rw [hSearch] at hEnds
          cases hEnds with
          | found hSearchable hFound =>
              refine
                .inl
                  ⟨(canSearch_iff hRoot).mpr hSearchable, _,
                    inputsAt_of_search hRoot hDirectory hSearch,
                    ?_⟩
              intro path
              simp only [names_iff_inputBelow hRoot hDirectory]
              exact
                mem_searched_iff hTree hPlain hRoot hDirectory
                  hSearchable hFound
  | false =>
      have hFile :=
        isSome_node?_of_not_isDirectory hPlain
          (hTree.isSome_resolve? hRoot) hDirectory
      rcases inputsAt_of_file hTree hPlain hRoot hFile with
        ⟨hSearch, hAt⟩
      refine .inl ⟨hSearch, _, hAt, ?_⟩
      intro path
      simp only [names_iff_of_file hRoot hFile,
        List.mem_singleton, exists_eq_left]

theorem mem_inputsAt_iff
    (hAt : inputsAt tree root = .ok files) :
    path ∈ files ↔
      ∃ input,
        Names tree root input ∧ path = inputPath root input := by
  cases hRoot : tree.resolve? root with
  | none =>
      simp only [inputsAt, hRoot] at hAt
      cases hAt
  | some location =>
      rcases inputsAt_cases hTree hPlain hRoot with
        ⟨_, others, hOthers, hNames⟩ | ⟨_, _, _, hError⟩
      · rw [hAt] at hOthers
        cases hOthers
        exact hNames path
      · rw [hAt] at hError
        cases hError

/- What is found is an input that a root stands for. -/
theorem exists_names_of_mem_inputs
    (hFound : inputs tree roots = .ok found)
    (hPath : path ∈ found) :
    ∃ root ∈ roots, ∃ input,
      Names tree root input ∧ path = inputPath root input := by
  rcases exists_root_of_mem_inputs hFound hPath with
    ⟨root, hRoot, files, hAt, hMember⟩
  exact
    ⟨root, hRoot,
      (mem_inputsAt_iff hTree hPlain hAt).mp hMember⟩

/- Every input that a root stands for is found by its names. -/
theorem exists_mem_inputs
    (hFound : inputs tree roots = .ok found)
    (hRoot : root ∈ roots)
    (hNames : Names tree root input) :
    ∃ path ∈ found,
      path.names = (inputPath root input).names := by
  rcases exists_inputs_iff_inputsAt.mp ⟨found, hFound⟩ root hRoot with
    ⟨files, hAt⟩
  exact
    exists_mem_inputs_of_root hFound hRoot hAt
      ((mem_inputsAt_iff hTree hPlain hAt).mpr
        ⟨input, hNames, rfl⟩)

/- The path that an input is found by leads to it. -/
theorem location_inputPath
    (hNames : Names tree root input) :
    (inputPath root input).location = input := by
  have hProper : input.Proper := by
    have hThere := isSome_get?_of_node? hNames.isFile
    exact hTree.proper hThere
  have hRest :
      ∃ below : Location,
        input = root.location ++ below := by
    cases hNames with
    | file hRoot _ =>
        refine ⟨[], ?_⟩
        rw [List.append_nil]
        exact FileTree.location_of_resolve? hPlain hRoot
    | searched hRoot _ hBelow =>
        rw [← FileTree.location_of_resolve? hPlain hRoot]
        rcases hBelow.2.1 with ⟨below, hBelow⟩
        exact ⟨below, hBelow.symm⟩
  rcases hRest with ⟨below, hInput⟩
  have hBelow : below.Proper := by
    intro name hName
    exact hProper name (by simp [hInput, hName])
  rw [inputPath]
  split
  · exact hProper.location_path
  · conv_lhs => rw [hInput, List.drop_left]
    rw [hBelow.location_extend, hInput]

/- If that path is not too long, it is the shortest one. -/
theorem inputPath_of_fits
    (hNames : Names tree root input)
    (hFits : (inputPath root input).fits = true) :
    inputPath root input = Location.path input := by
  have hShort := FileTree.fits_path_location hFits
  rw [location_inputPath hTree hPlain hNames] at hShort
  rw [inputPath, if_pos hShort]

/- A root has inputs if it is there and can be searched. -/
theorem exists_inputsAt_iff :
    (∃ files, inputsAt tree root = .ok files) ↔
      (tree.resolve? root).isSome = true ∧ CanSearch tree root := by
  cases hRoot : tree.resolve? root with
  | none => simp [inputsAt, hRoot]
  | some location =>
      rcases inputsAt_cases hTree hPlain hRoot with
        ⟨hSearch, files, hFiles, _⟩
          | ⟨below, hBelow, hLong, hError⟩
      · simp [hFiles, hSearch]
      · rw [hError]
        simp only [reduceCtorEq, exists_false, Option.isSome_some,
          true_and, false_iff]
        intro hSearch
        rw [hSearch location hRoot below hBelow] at hLong
        cases hLong

theorem exists_inputs_iff :
    (∃ found, inputs tree roots = .ok found) ↔
      ∀ root ∈ roots,
        (tree.resolve? root).isSome = true
          ∧ CanSearch tree root := by
  rw [exists_inputs_iff_inputsAt]
  simp only [exists_inputsAt_iff hTree hPlain]

/- Inputs with short paths are found by them. -/
theorem mem_inputs_iff
    (hShort :
      ∀ root ∈ roots, ∀ input,
        Names tree root input → (Location.path input).fits = true)
    (hFound : inputs tree roots = .ok found) :
    path ∈ found ↔
      ∃ root ∈ roots, ∃ input,
        Names tree root input ∧ path = Location.path input := by
  have hPath :
      ∀ {root input},
        root ∈ roots →
        Names tree root input →
          inputPath root input = Location.path input := by
    intro root input hRoot hNames
    rw [inputPath, if_pos (hShort root hRoot input hNames)]
  have hProper :
      ∀ {root input},
        Names tree root input → Location.Proper input := by
    intro root input hNames
    exact hTree.proper (isSome_get?_of_node? hNames.isFile)
  constructor
  · intro hMember
    rcases exists_names_of_mem_inputs hTree hPlain hFound hMember with
      ⟨root, hRoot, input, hNames, rfl⟩
    exact ⟨root, hRoot, input, hNames, hPath hRoot hNames⟩
  · rintro ⟨root, hRoot, input, hNames, rfl⟩
    rcases exists_mem_inputs hTree hPlain hFound hRoot hNames with
      ⟨other, hOther, hSame⟩
    rcases exists_names_of_mem_inputs hTree hPlain hFound hOther with
      ⟨otherRoot, hOtherRoot, otherInput, hOtherNames, rfl⟩
    rw [hPath hRoot hNames, hPath hOtherRoot hOtherNames,
      (hProper hNames).names_path,
      (hProper hOtherNames).names_path] at hSame
    rw [hPath hOtherRoot hOtherNames, hSame] at hOther
    exact hOther

end LinkFree

end Roots

end Build

end TracedScript
