import TracedScript.FileTree

/-
  The search of a directory for files, through links as well.

  Key definitions include:
    * `FileTree.SearchFault`: why a search stops.
    * `FileTree.search`: the paths of all files in a directory.
-/

------------------------------------------------------------
-- Faults
------------------------------------------------------------

namespace TracedScript

namespace FileTree

/-
  Why a search stops: a path that cannot be looked at, or a
  link to a directory that the search is in.
-/
inductive SearchFault where
  | blocked (path : Path) (refusal : Refusal)
  | looping (path ancestor : Path)
deriving DecidableEq, Repr

/- What is said about a search that stops. -/
def SearchFault.text : SearchFault → String
  | .blocked path refusal =>
      "IO error for operation on " ++ path.text ++ ": "
        ++ refusal.text
  | .looping path ancestor =>
      "File system loop found: " ++ path.text
        ++ " points to an ancestor " ++ ancestor.text

------------------------------------------------------------
-- Searching
------------------------------------------------------------

/- The directories that a search is in, with its paths to them. -/
abbrev Trail := List (Location × Path)

/- The locations that are not on a trail. -/
def untrodden
    (tree : FileTree)
    (trail : Trail) :
    List Location :=
  ([] :: tree.entries.map Prod.fst).filter fun location =>
    !(trail.map Prod.fst).contains location

/- The greatest number of names that a location has. -/
def depth (tree : FileTree) : Nat :=
  (tree.entries.map fun pair => pair.1.length).max?.getD 0

/- A name in a directory is the last one of a location. -/
theorem mem_entries_of_mem_children
    {tree : FileTree}
    {directory : Location}
    {name : Name}
    {entry : Entry}
    (hChild : (name, entry) ∈ tree.children directory) :
    (directory ++ [name], entry) ∈ tree.entries := by
  rw [children, List.mem_filterMap] at hChild
  rcases hChild with ⟨⟨location, found⟩, hMember, hFound⟩
  cases hLast : location.getLast? with
  | none => simp [hLast] at hFound
  | some last =>
      rcases List.getLast?_eq_some_iff.mp hLast with ⟨parent, rfl⟩
      simp only [hLast, List.dropLast_concat,
        Option.ite_none_right_eq_some, Option.some.injEq,
        Prod.mk.injEq] at hFound
      rcases hFound with ⟨rfl, rfl, rfl⟩
      exact hMember

theorem length_lt_depth
    {tree : FileTree}
    {directory : Location}
    {name : Name}
    {entry : Entry}
    (hChild : (name, entry) ∈ tree.children directory) :
    directory.length < tree.depth := by
  have hMember := mem_entries_of_mem_children hChild
  have hLength :
      (directory ++ [name]).length ∈
        tree.entries.map fun pair => pair.1.length :=
    List.mem_map.mpr ⟨_, hMember, rfl⟩
  have hLe := List.le_max?_getD_of_mem (k := 0) hLength
  rw [List.length_append] at hLe
  exact hLe

theorem untrodden_cons
    (tree : FileTree)
    (trail : Trail)
    (visit : Location × Path) :
    tree.untrodden (visit :: trail) =
      (tree.untrodden trail).filter fun location =>
        location ≠ visit.1 := by
  unfold untrodden
  rw [List.filter_filter]
  congr 1
  funext location
  simp [Bool.beq_eq_decide_eq]

/- A longer trail leaves no more locations. -/
theorem length_untrodden_cons_le
    (tree : FileTree)
    (trail : Trail)
    (visit : Location × Path) :
    (tree.untrodden (visit :: trail)).length ≤
      (tree.untrodden trail).length := by
  rw [untrodden_cons]
  exact List.length_filter_le _ _

/- A directory that is not on a trail is left until it is. -/
theorem length_untrodden_cons_lt
    {tree : FileTree}
    {trail : Trail}
    {location : Location}
    (path : Path)
    (hDirectory : tree.isDirectory location = true)
    (hNew : trail.lookup location = none) :
    (tree.untrodden ((location, path) :: trail)).length <
      (tree.untrodden trail).length := by
  rw [untrodden_cons, List.length_filter_lt_length_iff_exists]
  refine ⟨location, ?_, by simp⟩
  rw [List.lookup_eq_none_iff] at hNew
  have hKnown :
      location ∈ [] :: tree.entries.map Prod.fst := by
    unfold isDirectory get? at hDirectory
    split at hDirectory
    · next hRoot => exact hRoot ▸ List.mem_cons_self
    · rcases List.lookup_eq_some_iff.mp
          (of_decide_eq_true hDirectory) with
        ⟨before, after, hEntries, _⟩
      rw [hEntries]
      simp
  rw [untrodden, List.mem_filter]
  refine ⟨hKnown, ?_⟩
  simp only [Bool.not_eq_true', List.contains_eq_mem,
    decide_eq_false_iff_not, List.mem_map, not_exists, not_and]
  intro known hKnown hSame
  simpa [hSame] using hNew known hKnown

/-
  Where a search goes on at a name: in a directory, or nowhere
  if it is a file. A link that leads nowhere, or to a directory
  that the search is in, stops it.
-/
def searchNext
    (tree : FileTree)
    (visited : Trail)
    (path : Path)
    (location : Location) :
    Entry → Except SearchFault (Option Location)
  | .file _ => .ok none
  | .directory => .ok (some location)
  | .link _ =>
      match tree.reach .find path with
      | .error refusal => .error (.blocked path refusal)
      | .ok target =>
          if tree.isDirectory target then
            match visited.lookup target with
            | some ancestor => .error (.looping path ancestor)
            | none => .ok (some target)
          else .ok none

/-
  A search goes on in a deeper directory, or in one that it is
  not in. The number of locations that it is not in never grows.
-/
theorem searchNext_lex
    {tree : FileTree}
    {visited : Trail}
    {path : Path}
    {directory target : Location}
    {name : Name}
    {entry : Entry}
    (hChild : (name, entry) ∈ tree.children directory)
    (hNext :
      tree.searchNext visited path (directory ++ [name]) entry =
        .ok (some target)) :
    (tree.untrodden ((target, path) :: visited)).length <
        (tree.untrodden visited).length
      ∨ (tree.untrodden ((target, path) :: visited)).length ≤
          (tree.untrodden visited).length
        ∧ tree.depth - target.length <
          tree.depth - directory.length := by
  unfold searchNext at hNext
  split at hNext
  · cases hNext
  · cases hNext
    have hDepth := length_lt_depth hChild
    refine .inr ⟨length_untrodden_cons_le .., ?_⟩
    rw [List.length_append, List.length_singleton]
    omega
  · split at hNext
    · cases hNext
    · split at hNext
      · next hDirectory =>
          split at hNext
          · cases hNext
          · next hTrail =>
              cases hNext
              exact
                .inl
                  (length_untrodden_cons_lt path hDirectory hTrail)
      · cases hNext

/-
  The paths of all files in a directory, at any depth. Links
  are followed. The search ends because each link that it
  follows leads to a new location, and only so many directories
  lie in one another.
-/
def search
    (tree : FileTree)
    (trail : Trail)
    (path : Path)
    (directory : Location) :
    Except SearchFault (List Path) :=
  match tree.reach .find path with
  | .error refusal => .error (.blocked path refusal)
  | .ok _ => do
      let found ←
        (tree.children directory).attach.mapM
          fun ⟨(name, entry), _⟩ =>
            match _ : tree.searchNext ((directory, path) :: trail)
                (path.join name) (directory ++ [name]) entry with
            | .error fault => .error fault
            | .ok none => .ok [path.join name]
            | .ok (some target) =>
                tree.search ((directory, path) :: trail)
                  (path.join name) target
      pure found.flatten
termination_by
  ((tree.untrodden ((directory, path) :: trail)).length,
    tree.depth - directory.length)
decreasing_by
  rw [Prod.lex_def]
  have hNext := searchNext_lex ‹(name, entry) ∈ _› ‹_›
  omega

end FileTree

end TracedScript
