import TracedScript.FileTree.Search
import TracedScript.Proofs.Results
import TracedScript.Proofs.TreeChanges

/-
  Trees without links.

  Where there are no links, a path leads where its names say,
  and a search finds the files below a directory. Only the
  length of paths is left to stop it.

  Key definitions include:
    * `FileTree.Searchable`: no path in a search is too long.
    * `FileTree.SearchEnds`: what comes of a search.

  Main declarations:
    * `FileTree.Leads.eq_walk`
    * `FileTree.resolve?_path`
    * `FileTree.canonical_of_resolve?`
    * `FileTree.canonical_join`
    * `FileTree.search_ends`: a search finds all files.
-/

------------------------------------------------------------
-- Following Paths
------------------------------------------------------------

namespace TracedScript

namespace FileTree

open Location (walk)

variable {tree : FileTree} {manner : Manner} {links : Nat}
variable {location middle target directory : Location}
variable {path : Path} {name : Name} {front steps : List Name}
variable {trail : Trail}

theorem LinkFree.isLink
    (hPlain : tree.LinkFree)
    {entry : Entry}
    (hEntry : tree.get? location = some entry) :
    entry.isLink = false := by
  rw [get?] at hEntry
  split at hEntry
  · cases hEntry
    rfl
  · rcases List.lookup_eq_some_iff.mp hEntry with
      ⟨before, after, hEntries, _⟩
    exact hPlain (location, entry) (by simp [hEntries])

theorem LinkFree.not_link
    (hPlain : tree.LinkFree)
    {goal : Name}
    (hLink : tree.get? location = some (.link goal)) :
    False := by
  cases hPlain.isLink hLink

/- Without links, steps lead where their names say. -/
theorem Leads.eq_walk
    (hPlain : tree.LinkFree)
    (hLeads : Leads tree manner links location steps target) :
    target = walk location (Path.leading steps) := by
  induction hLeads with
  | stop => rfl
  | stay _ hInert _ ih =>
      rw [Path.leading_cons_of_inert hInert]
      exact ih
  | back _ _ ih =>
      rw [Path.leading_cons_of_not_inert (by decide), walk,
        if_pos rfl]
      exact ih
  | pass _ hStep _ _ _ _ ih =>
      rw [Path.leading_cons_of_not_inert hStep.1, walk,
        if_neg hStep.2]
      exact ih
  | jump _ _ _ hLink => exact (hPlain.not_link hLink).elim
  | held _ _ hLink => exact (hPlain.not_link hLink).elim
  | fresh _ hStep =>
      rw [Path.leading_cons_of_not_inert hStep.1, walk,
        if_neg hStep.2]
      rfl

theorem location_of_resolve?
    (hPlain : tree.LinkFree)
    (hResolve : tree.resolve? path = some location) :
    location = path.location :=
  (resolve?_eq_some_iff.mp hResolve).2.eq_walk hPlain

/- Steps are followed one part after the other. -/
theorem leads_append_iff
    (hPlain : tree.LinkFree)
    (hOld : manner.allowsNew = false) :
    Leads tree manner links location (front ++ steps) target ↔
      ∃ middle,
        Leads tree manner links location front middle
          ∧ Leads tree manner links middle steps target := by
  constructor
  · intro hLeads
    induction front generalizing location with
    | nil => exact ⟨location, .stop, hLeads⟩
    | cons step front ih =>
        rw [List.cons_append] at hLeads
        generalize hAll : front ++ steps = all at hLeads
        cases hLeads with
        | stay hStart hInert hRest =>
            rcases ih (hAll ▸ hRest) with
              ⟨middle, hFront, hSteps⟩
            exact ⟨middle, .stay hStart hInert hFront, hSteps⟩
        | back hStart hRest =>
            rcases ih (hAll ▸ hRest) with
              ⟨middle, hFront, hSteps⟩
            exact ⟨middle, .back hStart hFront, hSteps⟩
        | pass hStart hStep hSpell hEntry hLink hRest =>
            rcases ih (hAll ▸ hRest) with
              ⟨middle, hFront, hSteps⟩
            exact
              ⟨middle,
                .pass hStart hStep hSpell hEntry hLink hFront,
                hSteps⟩
        | jump _ _ _ hLink => exact (hPlain.not_link hLink).elim
        | held _ _ hLink => exact (hPlain.not_link hLink).elim
        | fresh _ _ _ _ hNew =>
            rw [hOld] at hNew
            cases hNew
  · rintro ⟨middle, hFront, hSteps⟩
    induction hFront with
    | stop => exact hSteps
    | stay hStart hInert _ ih =>
        exact .stay hStart hInert (ih hSteps)
    | back hStart _ ih => exact .back hStart (ih hSteps)
    | pass hStart hStep hSpell hEntry hLink _ ih =>
        exact .pass hStart hStep hSpell hEntry hLink (ih hSteps)
    | jump _ _ _ hLink => exact (hPlain.not_link hLink).elim
    | held _ _ hLink => exact (hPlain.not_link hLink).elim
    | fresh _ _ _ _ hNew =>
        rw [hOld] at hNew
        cases hNew

/- The names of a location lead to it. -/
theorem leads_self
    (hTree : tree.WellFormed)
    (hPlain : tree.LinkFree)
    (hThere : (tree.get? location).isSome = true) :
    Leads tree .find links [] location location := by
  induction location using List.reverseRecOn with
  | nil => exact .stop
  | append_singleton front name ih =>
      have hFront :=
        hTree.isDirectory_of_append hThere (by simp)
      have hName := hTree.proper hThere name (by simp)
      rcases Option.isSome_iff_exists.mp hThere with
        ⟨entry, hEntry⟩
      refine
        (leads_append_iff hPlain rfl).mpr
          ⟨front, ih (isSome_of_isDirectory hFront), ?_⟩
      exact
        .pass hFront ⟨hName.1, hName.2.1⟩ (by simp) hEntry
          (hPlain.isLink hEntry) .stop

/- The shortest path of something leads to it, if it can be used. -/
theorem resolve?_path
    (hTree : tree.WellFormed)
    (hPlain : tree.LinkFree)
    (hThere : (tree.get? location).isSome = true)
    (hFits : (Location.path location).fits = true) :
    tree.resolve? (Location.path location) = some location := by
  refine resolve?_eq_some_iff.mpr ⟨hFits, ?_⟩
  have hBytes :
      (Location.path location).bytes =
        [] ++ Path.slash :: [Path.slash].intercalate location :=
    rfl
  have hProper := hTree.proper hThere
  rw [Path.steps_of_bytes_eq hBytes]
  by_cases hRoot : location = []
  · rw [hRoot]
    exact .stay rfl rfl .stop
  · rw [List.splitOn_intercalate Path.slash
      (fun name hName => (hProper name hName).2.2) hRoot]
    exact leads_self hTree hPlain hThere

------------------------------------------------------------
-- Spelling
------------------------------------------------------------

theorem fits_path_iff
    (hLocation : location ≠ []) :
    (Location.path location).fits = true ↔
      Location.size location < Path.lengthLimit := by
  rw [Path.fits, decide_eq_true_iff, Location.path,
    Location.length_bytes_ofSteps hLocation]

/- Short steps can be spelled out, since locations are no longer. -/
theorem Leads.spell
    (hPlain : tree.LinkFree)
    (hLeads : Leads tree .find links location steps target)
    (hSize :
      Location.size location + Location.size steps <
        Path.lengthLimit) :
    Leads tree .spell links location steps target := by
  induction hLeads with
  | stop => exact .stop
  | stay hStart hInert _ ih =>
      rw [Location.size_cons] at hSize
      exact .stay hStart hInert (ih (by omega))
  | @back links location target steps hStart _ ih =>
      have hLess := Location.size_dropLast_le location
      rw [Location.size_cons] at hSize
      exact .back hStart (ih (by omega))
  | @pass links location target step steps entry hStart hStep _
      hEntry hLink _ ih =>
      have hHere :
          Location.size (location ++ [step]) =
            Location.size location + step.length + 1 := by
        rw [Location.size_append, Location.size_cons]
        rfl
      rw [Location.size_cons] at hSize
      refine
        .pass hStart hStep (fun _ => ?_) hEntry hLink
          (ih (by omega))
      rw [fits_path_iff (by simp)]
      omega
  | jump _ _ _ hLink => exact (hPlain.not_link hLink).elim
  | held _ _ hLink => exact (hPlain.not_link hLink).elim
  | fresh _ _ _ _ hNew => cases hNew

theorem size_steps_of_fits
    (hFits : path.fits = true) :
    Location.size path.steps < Path.lengthLimit := by
  rw [Path.fits, decide_eq_true_iff] at hFits
  exact Nat.lt_of_le_of_lt (Location.size_steps_le path) hFits

/- The shortest spelling is not too long if a path is not. -/
theorem fits_path_location
    (hFits : path.fits = true) :
    (Location.path path.location).fits = true := by
  by_cases hRoot : path.location = []
  · rw [hRoot]
    decide
  · rw [fits_path_iff hRoot]
    have hSize := size_steps_of_fits hFits
    have hLeading := Location.size_leading_le path.steps
    have hWalk := Location.size_walk_le [] path.names
    rw [Path.location, Path.names] at *
    simp only [Location.size, List.map_nil, List.sum_nil] at *
    omega

/- A path that leads somewhere can be spelled out. -/
theorem canonical_of_resolve?
    (hPlain : tree.LinkFree)
    (hResolve : tree.resolve? path = some location) :
    tree.canonical path = Location.path location := by
  rw [resolve?_eq_some_iff] at hResolve
  have hSize :
      Location.size [] + Location.size path.steps <
        Path.lengthLimit := by
    rw [Location.size, List.map_nil, List.sum_nil, Nat.zero_add]
    exact size_steps_of_fits hResolve.1
  have hReach : tree.reach .spell path = .ok location :=
    reach_eq_ok_iff.mpr
      ⟨.inl rfl, hResolve.2.spell hPlain hSize⟩
  simp only [canonical, hReach]

theorem Leads.isDirectory
    {step : Name}
    (hLeads :
      Leads tree manner links location (step :: steps) target) :
    tree.isDirectory location = true := by
  cases hLeads with
  | stay hStart => exact hStart
  | back hStart => exact hStart
  | pass hStart => exact hStart
  | jump hStart => exact hStart
  | held hStart => exact hStart
  | fresh hStart => exact hStart

/-
  A directory that a name can be found in is spelled out if its
  path is.
-/
theorem exists_canonical_eq
    (hTree : tree.WellFormed)
    (hPlain : tree.LinkFree)
    (hSlash : Path.slash ∉ name)
    (hResolve :
      tree.resolve? ((tree.canonical path).join name) =
        some target) :
    ∃ base : Location,
      base.Proper ∧ tree.canonical path = Location.path base := by
  cases hReach : tree.reach .spell path with
  | ok base =>
      rcases hTree.reach_cases hReach with hThere | ⟨_, hNew⟩
      · exact
          ⟨base, hTree.proper hThere, by simp only [canonical, hReach]⟩
      · cases hNew
  | error refusal =>
      have hSame : tree.canonical path = path := by
        simp only [canonical, hReach]
      rw [hSame, resolve?_eq_some_iff] at hResolve
      rcases Path.exists_steps_join hSlash with
        ⟨front, hJoin, hSteps⟩
      have hSize := size_steps_of_fits hResolve.1
      rw [hJoin] at hSize hResolve
      rcases (leads_append_iff hPlain rfl).mp hResolve.2 with
        ⟨middle, hFront, hLast⟩
      -- All steps of the path can be followed, so it can be spelled out.
      have hLeads :
          Leads tree .find linkLimit [] path.steps middle := by
        rcases hSteps with hSteps | hSteps
        · rw [hSteps]
          exact hFront
        · rw [hSteps, leads_append_iff hPlain rfl]
          exact ⟨middle, hFront, .stay hLast.isDirectory rfl .stop⟩
      have hShort :
          Location.size [] + Location.size path.steps <
            Path.lengthLimit := by
        rw [Location.size_append, Location.size_cons] at hSize
        rcases hSteps with hSteps | hSteps
        · rw [hSteps]
          simp only [Location.size, List.map_nil, List.sum_nil] at *
          omega
        · rw [hSteps, Location.size_append, Location.size_cons]
          simp only [Location.size, List.map_nil, List.sum_nil,
            List.length_nil] at *
          omega
      have hOk : tree.reach .spell path = .ok middle :=
        reach_eq_ok_iff.mpr
          ⟨.inl rfl, hLeads.spell hPlain hShort⟩
      rw [hReach] at hOk
      cases hOk

section Join

variable (hTree : tree.WellFormed) (hPlain : tree.LinkFree)
variable (hPath : tree.resolve? path = some directory)
variable (hDirectory : tree.isDirectory directory = true)
variable (hThere : (tree.get? (directory ++ [name])).isSome = true)
include hTree hPlain hPath hDirectory hThere

/- A name in a directory follows the steps to the directory. -/
theorem leads_join_iff
    (hOld : manner.allowsNew = false)
    (hSpelled :
      Leads tree manner linkLimit [] path.steps directory) :
    Leads tree manner linkLimit [] (path.join name).steps
        target ↔
      target = directory ++ [name]
        ∧ (manner = .spell →
          (Location.path (directory ++ [name])).fits = true) := by
  have hName := hTree.proper hThere name (by simp)
  rcases Option.isSome_iff_exists.mp hThere with ⟨entry, hEntry⟩
  have hLast :
      Leads tree manner linkLimit directory [name] target ↔
        target = directory ++ [name]
          ∧ (manner = .spell →
            (Location.path (directory ++ [name])).fits = true) := by
    constructor
    · intro hLeads
      cases hLeads with
      | stay _ hInert _ =>
          rw [hName.1] at hInert
          cases hInert
      | back _ _ => exact absurd rfl hName.2.1
      | pass _ _ hSpell _ _ hRest =>
          cases hRest
          exact ⟨rfl, hSpell⟩
      | jump _ _ _ hLink => exact (hPlain.not_link hLink).elim
      | held _ _ hLink => exact (hPlain.not_link hLink).elim
      | fresh _ _ hNone =>
          rw [hEntry] at hNone
          cases hNone
    · rintro ⟨rfl, hSpell⟩
      exact
        .pass hDirectory ⟨hName.1, hName.2.1⟩ hSpell hEntry
          (hPlain.isLink hEntry) .stop
  have hFront :
      ∃ front,
        (path.join name).steps = front ++ [name]
          ∧ Leads tree manner linkLimit [] front directory := by
    rcases Path.exists_steps_join hName.2.2 with
      ⟨front, hJoin, hSteps | hSteps⟩
    · exact ⟨front, hJoin, hSteps ▸ hSpelled⟩
    · rw [hSteps] at hSpelled
      rcases (leads_append_iff hPlain hOld).mp hSpelled with
        ⟨middle, hLeads, hEmpty⟩
      refine ⟨front, hJoin, ?_⟩
      cases hEmpty with
      | stay _ _ hRest =>
          cases hRest
          exact hLeads
      | pass _ hStep => cases hStep.1
      | jump _ hStep => cases hStep.1
      | held _ hStep => cases hStep.1
      | fresh _ hStep => cases hStep.1
  rcases hFront with ⟨front, hJoin, hLeads⟩
  have hSame :
      ∀ {middle},
        Leads tree manner linkLimit [] front middle →
          middle = directory := by
    intro middle hOther
    rw [hOther.eq_walk hPlain, hLeads.eq_walk hPlain]
  rw [hJoin, leads_append_iff hPlain hOld, ← hLast]
  constructor
  · rintro ⟨middle, hMiddle, hRest⟩
    exact hSame hMiddle ▸ hRest
  · intro hRest
    exact ⟨directory, hLeads, hRest⟩

/- A name in a directory can be found if its path is not too long. -/
theorem resolve?_join
    (hFits : (path.join name).fits = true) :
    tree.resolve? (path.join name) =
      some (directory ++ [name]) := by
  have hLeads := (resolve?_eq_some_iff.mp hPath).2
  refine resolve?_eq_some_iff.mpr ⟨hFits, ?_⟩
  rw [leads_join_iff hTree hPlain hPath hDirectory hThere rfl hLeads]
  exact ⟨rfl, by simp⟩

/-
  Its path is spelled out if the shortest spelling is not too
  long, and stays as it is otherwise.
-/
theorem canonical_join :
    tree.canonical (path.join name) =
      if (Location.path (directory ++ [name])).fits then
        Location.path (directory ++ [name])
      else path.join name := by
  rw [resolve?_eq_some_iff] at hPath
  have hSize :
      Location.size [] + Location.size path.steps <
        Path.lengthLimit := by
    rw [Location.size, List.map_nil, List.sum_nil, Nat.zero_add]
    exact size_steps_of_fits hPath.1
  have hSpelled := hPath.2.spell hPlain hSize
  have hReach :
      ∀ {target},
        tree.reach .spell (path.join name) = .ok target ↔
          target = directory ++ [name]
            ∧ (Location.path (directory ++ [name])).fits =
              true := by
    intro target
    rw [reach_eq_ok_iff,
      leads_join_iff hTree hPlain
        (resolve?_eq_some_iff.mpr hPath) hDirectory hThere rfl
        hSpelled]
    simp
  rw [canonical]
  split
  · next target hTarget =>
      rcases hReach.mp hTarget with ⟨rfl, hFits⟩
      rw [if_pos hFits]
  · next refusal hRefusal =>
      rw [if_neg]
      intro hFits
      rw [hReach.mpr ⟨rfl, hFits⟩] at hRefusal
      cases hRefusal

end Join

------------------------------------------------------------
-- Searching
------------------------------------------------------------

/- What is in a directory, by name. -/
theorem WellFormed.mem_children_iff
    (hTree : tree.WellFormed)
    {entry : Entry} :
    (name, entry) ∈ tree.children directory ↔
      tree.get? (directory ++ [name]) = some entry := by
  constructor
  · intro hChild
    exact
      (hTree.mem_entries_iff.mp
        (mem_entries_of_mem_children hChild)).2
  · intro hEntry
    have hMember :=
      hTree.mem_entries_iff.mpr ⟨by simp, hEntry⟩
    refine List.mem_filterMap.mpr ⟨_, hMember, ?_⟩
    simp

/- What comes of a name in a search. -/
def searchAt
    (tree : FileTree)
    (visited : Trail)
    (path : Path)
    (directory : Location)
    (child : Name × Entry) :
    Except SearchFault (List Path) :=
  match tree.searchNext visited (path.join child.1)
      (directory ++ [child.1]) child.2 with
  | .error fault => .error fault
  | .ok none => .ok [path.join child.1]
  | .ok (some target) =>
      tree.search visited (path.join child.1) target

theorem search_of_reach_error
    {refusal : Refusal}
    (hReach : tree.reach .find path = .error refusal) :
    tree.search trail path directory =
      .error (.blocked path refusal) := by
  rw [search]
  simp only [hReach]

theorem search_of_reach
    (hReach : tree.reach .find path = .ok target) :
    tree.search trail path directory =
      List.flatten <$>
        (tree.children directory).mapM
          (tree.searchAt ((directory, path) :: trail) path
            directory) := by
  rw [← List.attach_map_subtype_val (tree.children directory),
    List.mapM_map, search]
  simp only [hReach, bind_pure_comp]
  congr 2
  funext child
  rw [Function.comp_apply, searchAt]
  split
  · next fault hNext => simp only [hNext]
  · next hNext => simp only [hNext]
  · next found hNext => simp only [hNext]

/- A directory that is found is searched in turn. -/
theorem searchAt_directory
    (hReach : tree.reach .find (path.join name) = .ok target) :
    tree.searchAt trail path directory (name, .directory) =
      List.flatten <$>
        (tree.children (directory ++ [name])).mapM
          (tree.searchAt
            ((directory ++ [name], path.join name) :: trail)
            (path.join name) (directory ++ [name])) :=
  search_of_reach hReach

/- No path that a search takes is too long. -/
def Searchable
    (tree : FileTree)
    (path : Path)
    (directory : Location) : Prop :=
  ∀ below,
    tree.isDirectory (directory ++ below) = true →
      (path.extend below).fits = true

/- All the files below a directory, by the path to it. -/
def FilesBelow
    (tree : FileTree)
    (path : Path)
    (directory : Location)
    (found : List Path) : Prop :=
  ∀ other,
    other ∈ found ↔
      ∃ below,
        (tree.node? (directory ++ below)).isSome = true
          ∧ other = path.extend below

/- What comes of a search: all files, or a path too long. -/
inductive SearchEnds
    (tree : FileTree)
    (path : Path)
    (location : Location) :
    Except SearchFault (List Path) → Prop where
  | found
      {found : List Path}
      (hSearchable : tree.Searchable path location)
      (hFound : tree.FilesBelow path location found) :
      SearchEnds tree path location (.ok found)
  | tooLong
      (below : Location)
      (hDirectory : tree.isDirectory (location ++ below) = true)
      (hLong : (path.extend below).fits = false) :
      SearchEnds tree path location
        (.error (.blocked (path.extend below) .tooLong))

/- A file is all that is found in its place. -/
theorem searchEnds_file
    (hTree : tree.WellFormed)
    {node : Nat}
    (hFile : tree.get? location = some (.file node)) :
    SearchEnds tree path location (.ok [path]) := by
  have hOnly :
      ∀ below,
        (tree.get? (location ++ below)).isSome = true →
          below = [] := by
    intro below hThere
    by_contra hBelow
    have hDirectory :=
      hTree.isDirectory_of_append hThere hBelow
    rw [isDirectory_iff, hFile] at hDirectory
    cases hDirectory
  apply SearchEnds.found
  · intro below hDirectory
    rw [hOnly below (isSome_of_isDirectory hDirectory),
      List.append_nil, isDirectory_iff, hFile] at hDirectory
    cases hDirectory
  · intro other
    rw [List.mem_singleton]
    constructor
    · rintro rfl
      refine ⟨[], ?_, rfl⟩
      rw [List.append_nil, node?_eq_some_iff.mpr hFile]
      rfl
    · rintro ⟨below, hNode, rfl⟩
      rcases Option.isSome_iff_exists.mp hNode with
        ⟨found, hFound⟩
      have hThere :=
        Option.isSome_of_eq_some (node?_eq_some_iff.mp hFound)
      rw [hOnly below hThere]
      rfl

section Children

variable {read : Name × Entry → Except SearchFault (List Path)}
variable {lists : List (List Path)}
variable (hTree : tree.WellFormed)
variable
    (hRead :
      ∀ child ∈ tree.children directory,
        SearchEnds tree (path.join child.1)
          (directory ++ [child.1]) (read child))

include hRead in
/- What is found is found for one of the names. -/
theorem found_of_mem_lists
    (hAll : (tree.children directory).mapM read = .ok lists)
    {found : List Path}
    (hFound : found ∈ lists) :
    ∃ name,
      tree.FilesBelow (path.join name) (directory ++ [name])
        found := by
  rcases exists_of_mem_mapM hAll hFound with
    ⟨⟨name, entry⟩, hChild, hOk⟩
  have hEnds := hRead _ hChild
  rw [hOk] at hEnds
  cases hEnds with
  | found _ hFiles => exact ⟨name, hFiles⟩

include hTree hRead in
/- All that is below a directory is searched for by its name. -/
theorem found_of_below
    (hAll : (tree.children directory).mapM read = .ok lists)
    {name : Name}
    {below : Location}
    (hThere :
      (tree.get? (directory ++ name :: below)).isSome = true) :
    ∃ found ∈ lists,
      tree.Searchable (path.join name) (directory ++ [name])
        ∧ tree.FilesBelow (path.join name) (directory ++ [name])
          found := by
  rw [List.append_cons] at hThere
  rcases Option.isSome_iff_exists.mp
      (hTree.isSome_of_append hThere) with
    ⟨entry, hEntry⟩
  have hChild := hTree.mem_children_iff.mpr hEntry
  rcases exists_mem_of_mapM hAll hChild with ⟨found, hFound, hOk⟩
  have hEnds := hRead _ hChild
  rw [hOk] at hEnds
  cases hEnds with
  | found hSearchable hFiles =>
      exact ⟨found, hFound, hSearchable, hFiles⟩

include hTree hRead in
/- Together the searches of all names find all files. -/
theorem filesBelow_flatten
    (hDirectory : tree.isDirectory directory = true)
    (hAll : (tree.children directory).mapM read = .ok lists) :
    tree.FilesBelow path directory lists.flatten := by
  intro other
  rw [List.mem_flatten]
  constructor
  · rintro ⟨found, hFound, hOther⟩
    rcases found_of_mem_lists hRead hAll hFound with
      ⟨name, hFiles⟩
    rcases (hFiles other).mp hOther with ⟨below, hNode, rfl⟩
    rw [List.append_assoc] at hNode
    exact ⟨name :: below, hNode, rfl⟩
  · rintro ⟨below, hNode, rfl⟩
    rcases Option.isSome_iff_exists.mp hNode with ⟨node, hFile⟩
    rw [node?_eq_some_iff] at hFile
    cases below with
    | nil =>
        rw [List.append_nil,
          isDirectory_iff.mp hDirectory] at hFile
        cases hFile
    | cons name below =>
        rcases found_of_below hTree hRead hAll
            (Option.isSome_of_eq_some hFile) with
          ⟨found, hFound, _, hFiles⟩
        refine ⟨found, hFound, (hFiles _).mpr ?_⟩
        rw [List.append_cons] at hNode
        exact ⟨below, hNode, rfl⟩

include hTree hRead in
/- A directory is searched name by name. -/
theorem searchEnds_children
    (hDirectory : tree.isDirectory directory = true)
    (hFits : path.fits = true) :
    SearchEnds tree path directory
      (List.flatten <$> (tree.children directory).mapM read) := by
  cases hAll : (tree.children directory).mapM read with
  | error fault =>
      rcases exists_of_mapM_eq_error hAll with
        ⟨⟨name, entry⟩, hChild, hFault⟩
      have hEnds := hRead _ hChild
      rw [hFault] at hEnds
      cases hEnds with
      | tooLong below hDirectory hLong =>
          rw [List.append_assoc] at hDirectory
          exact .tooLong (name :: below) hDirectory hLong
  | ok lists =>
      refine
        .found ?_ (filesBelow_flatten hTree hRead hDirectory hAll)
      intro below hBelow
      cases below with
      | nil => exact hFits
      | cons name below =>
          rcases found_of_below hTree hRead hAll
              (isSome_of_isDirectory hBelow) with
            ⟨_, _, hSearchable, _⟩
          rw [List.append_cons] at hBelow
          exact hSearchable below hBelow

end Children

/-
  Without links, a search finds all files below a directory
  unless one of its paths is too long.
-/
theorem search_ends
    (hTree : tree.WellFormed)
    (hPlain : tree.LinkFree)
    (hDirectory : tree.isDirectory directory = true)
    (hPath :
      path.fits = true → tree.resolve? path = some directory) :
    SearchEnds tree path directory
      (tree.search trail path directory) := by
  -- The directories below are fewer and fewer names from the deepest.
  induction hDepth : tree.depth - directory.length
      using Nat.strong_induction_on
      generalizing trail path directory with
  | _ depth ih =>
      cases hFits : path.fits with
      | false =>
          have hReach :
              tree.reach .find path = .error .tooLong := by
            simp [reach, hFits]
          rw [search_of_reach_error hReach]
          refine .tooLong [] ?_ hFits
          rw [List.append_nil]
          exact hDirectory
      | true =>
          have hResolve := hPath hFits
          rw [search_of_reach (reach_find_eq_ok_iff.mpr hResolve)]
          refine searchEnds_children hTree ?_ hDirectory hFits
          rintro ⟨name, entry⟩ hChild
          have hEntry := hTree.mem_children_iff.mp hChild
          cases entry with
          | link goal => exact (hPlain.not_link hEntry).elim
          | file node => exact searchEnds_file hTree hEntry
          | directory =>
              have hLess := length_lt_depth hChild
              have hHere := isDirectory_iff.mpr hEntry
              refine ih _ ?_ hHere ?_ rfl
              · rw [List.length_append, List.length_singleton]
                omega
              · intro hJoin
                exact
                  resolve?_join hTree hPlain hResolve hDirectory
                    (isSome_of_isDirectory hHere) hJoin

section Extend

variable {below : Location}
variable (hTree : tree.WellFormed) (hPlain : tree.LinkFree)
variable (hPath : tree.resolve? path = some directory)
variable (hSearchable : tree.Searchable path directory)
include hTree hPlain hPath hSearchable

/- The paths of a search lead to the directories that it is in. -/
theorem resolve?_extend
    (hBelow : tree.isDirectory (directory ++ below) = true) :
    tree.resolve? (path.extend below) =
      some (directory ++ below) := by
  induction below using List.reverseRecOn with
  | nil =>
      rw [List.append_nil]
      exact hPath
  | append_singleton front name ih =>
      have hFits := hSearchable _ hBelow
      rw [← List.append_assoc] at hBelow ⊢
      have hThere := isSome_of_isDirectory hBelow
      have hFront :=
        hTree.isDirectory_of_append hThere (by simp)
      rw [Path.extend, List.foldl_concat,
        ← Path.extend] at hFits ⊢
      exact
        resolve?_join hTree hPlain (ih hFront) hFront hThere hFits

/- What is found is spelled out, unless that is too long. -/
theorem canonical_extend
    (hBelow : (tree.get? (directory ++ below)).isSome = true) :
    tree.canonical (path.extend below) =
      if (Location.path (directory ++ below)).fits then
        Location.path (directory ++ below)
      else path.extend below := by
  rcases List.eq_nil_or_concat below with rfl | ⟨front, name, rfl⟩
  · have hFits : (Location.path directory).fits = true := by
      rw [location_of_resolve? hPlain hPath]
      exact fits_path_location (resolve?_eq_some_iff.mp hPath).1
    rw [List.append_nil, if_pos hFits]
    exact canonical_of_resolve? hPlain hPath
  · rw [List.concat_eq_append, ← List.append_assoc] at *
    have hFront := hTree.isDirectory_of_append hBelow (by simp)
    rw [Path.extend, List.foldl_concat, ← Path.extend]
    exact
      canonical_join hTree hPlain
        (resolve?_extend hTree hPlain hPath hSearchable hFront)
        hFront hBelow

end Extend

end FileTree

end TracedScript
