import TracedScript.Proofs.FileTree

/-
  What stays as it is when trees change.

  A tree changes by one new directory, one new file, or new
  contents of a file at a time. Each of these keeps a tree
  well-formed and free of links, and gives no file of it a
  second name.

  Key definitions include:
    * `FileTree.Free`: a place where something new can be put.
    * `FileTree.Change`: one change, and `FileTree.Changes`.
    * `FileTree.OneNamed`: a file has no other name.

  Main declarations:
    * `FileTree.WellFormed.mem_entries_iff`
    * `FileTree.Changes.wellFormed`, `FileTree.Changes.linkFree`
    * `FileTree.Changes.oneNamed`
    * `FileTree.changes_makeDirectories?`
    * `FileTree.changes_writeFile?`
-/

------------------------------------------------------------
-- Well-Formed Trees
------------------------------------------------------------

namespace TracedScript

namespace FileTree

variable {tree before after : FileTree} {manner : Manner}
variable {location target : Location} {path : Path}
variable {entry : Entry}

theorem isDirectory_iff :
    tree.isDirectory location = true ↔
      tree.get? location = some .directory := by
  rw [isDirectory, decide_eq_true_iff]

theorem isSome_of_isDirectory
    (hDirectory : tree.isDirectory location = true) :
    (tree.get? location).isSome = true := by
  rw [isDirectory_iff.mp hDirectory]
  rfl

/- What is in a tree is the root or one of its entries. -/
theorem mem_of_isSome_get?
    (hThere : (tree.get? location).isSome = true)
    (hLocation : location ≠ []) :
    location ∈ tree.entries.map Prod.fst := by
  rw [get?, if_neg hLocation, List.lookup_isSome_iff] at hThere
  simpa using hThere

/- A key that comes once is looked up with its value. -/
theorem lookup_of_nodup
    {entries : List (Location × Entry)}
    (hNodup : (entries.map Prod.fst).Nodup) :
    entries.lookup location = some entry ↔
      (location, entry) ∈ entries := by
  rw [List.lookup_eq_some_iff]
  constructor
  · rintro ⟨front, rest, rfl, _⟩
    simp
  · intro hMember
    rcases List.append_of_mem hMember with ⟨front, rest, rfl⟩
    refine ⟨front, rest, rfl, ?_⟩
    intro other hOther
    rw [List.map_append, List.map_cons,
      List.nodup_append] at hNodup
    have hApart :=
      hNodup.2.2 other.1 (List.mem_map_of_mem hOther) location
        List.mem_cons_self
    simpa using Ne.symm hApart

namespace WellFormed

/- The entries of a tree are what is in it, but for the root. -/
theorem mem_entries_iff
    (hTree : tree.WellFormed) :
    (location, entry) ∈ tree.entries ↔
      location ≠ [] ∧ tree.get? location = some entry := by
  rw [← lookup_of_nodup hTree.1, get?]
  constructor
  · intro hLookup
    have hRoot : location ≠ [] := by
      have hMember := (lookup_of_nodup hTree.1).mp hLookup
      exact
        (hTree.2.1 location (List.mem_map_of_mem hMember)).1
    exact ⟨hRoot, by rw [if_neg hRoot, hLookup]⟩
  · rintro ⟨hRoot, hEntry⟩
    rwa [if_neg hRoot] at hEntry

/- The names in a tree are names that lead somewhere. -/
theorem proper
    (hTree : tree.WellFormed)
    (hThere : (tree.get? location).isSome = true) :
    location.Proper := by
  by_cases hLocation : location = []
  · rw [hLocation]
    intro name hName
    cases hName
  · have hMember := mem_of_isSome_get? hThere hLocation
    exact (hTree.2.1 location hMember).2.1

theorem isDirectory_dropLast
    (hTree : tree.WellFormed)
    (hThere : (tree.get? location).isSome = true) :
    tree.isDirectory location.dropLast = true := by
  by_cases hRoot : location = []
  · rw [hRoot]
    rfl
  · exact
      (hTree.2.1 _ (mem_of_isSome_get? hThere hRoot)).2.2

/- What lies in something lies in a directory. -/
theorem isDirectory_of_append
    (hTree : tree.WellFormed)
    {below : Location}
    (hThere : (tree.get? (location ++ below)).isSome = true)
    (hBelow : below ≠ []) :
    tree.isDirectory location = true := by
  induction below using List.reverseRecOn with
  | nil => exact absurd rfl hBelow
  | append_singleton front name ih =>
      have hParent := hTree.isDirectory_dropLast hThere
      rw [← List.append_assoc, List.dropLast_concat] at hParent
      by_cases hFront : front = []
      · rw [hFront, List.append_nil] at hParent
        exact hParent
      · exact ih (isSome_of_isDirectory hParent) hFront

theorem isSome_of_append
    (hTree : tree.WellFormed)
    {below : Location}
    (hThere : (tree.get? (location ++ below)).isSome = true) :
    (tree.get? location).isSome = true := by
  by_cases hBelow : below = []
  · rwa [hBelow, List.append_nil] at hThere
  · exact
      isSome_of_isDirectory
        (hTree.isDirectory_of_append hThere hBelow)

theorem node_lt
    (hTree : tree.WellFormed)
    {node : Nat}
    (hNode : tree.node? location = some node) :
    node < tree.nodes.length := by
  have hFile := node?_eq_some_iff.mp hNode
  have hRoot : location ≠ [] := by
    rintro rfl
    cases hFile
  have hMember :=
    hTree.mem_entries_iff.mpr ⟨hRoot, hFile⟩
  exact hTree.2.2 node (List.mem_filterMap.mpr ⟨_, hMember, hNode⟩)

end WellFormed

------------------------------------------------------------
-- Places
------------------------------------------------------------

/- A place in a directory where nothing is, for a name. -/
structure Free
    (tree : FileTree)
    (location : Location) : Prop where
  none : tree.get? location = none
  parent : tree.isDirectory location.dropLast = true
  proper : location.Proper

theorem Free.ne_nil
    (hFree : tree.Free location) :
    location ≠ [] := by
  rintro rfl
  cases hFree.none

/-
  Steps from a location in a tree lead to what is there, or to
  a place where something new can be put.
-/
theorem Leads.free
    (hTree : tree.WellFormed)
    {links : Nat}
    {steps : List Name}
    (hLeads : Leads tree manner links location steps target)
    (hStart : (tree.get? location).isSome = true)
    (hSteps : ∀ step ∈ steps, Path.slash ∉ step) :
    (tree.get? target).isSome = true
      ∨ tree.Free target ∧ manner.allowsNew = true := by
  induction hLeads with
  | stop => exact .inl hStart
  | stay _ _ _ ih =>
      rw [List.forall_mem_cons] at hSteps
      exact ih hStart hSteps.2
  | back _ _ ih =>
      rw [List.forall_mem_cons] at hSteps
      exact
        ih
          (isSome_of_isDirectory
            (hTree.isDirectory_dropLast hStart))
          hSteps.2
  | pass _ _ _ hEntry _ _ ih =>
      rw [List.forall_mem_cons] at hSteps
      exact ih (Option.isSome_of_eq_some hEntry) hSteps.2
  | jump _ _ _ _ _ _ ih =>
      rw [List.forall_mem_cons] at hSteps
      refine ih ?_ ?_
      · split
        · rfl
        · exact hStart
      · rw [List.forall_mem_append]
        exact ⟨fun step => Text.notMem_of_mem_splitOn, hSteps.2⟩
  | held _ _ hLink _ =>
      exact .inl (Option.isSome_of_eq_some hLink)
  | @fresh links location step hDirectory hStep hNone _ hNew =>
      refine .inr ⟨⟨hNone, ?_, ?_⟩, hNew⟩
      · rwa [List.dropLast_concat]
      · intro name hName
        rcases List.mem_append.mp hName with hFront | hLast
        · exact
            hTree.proper (isSome_of_isDirectory hDirectory) name
              hFront
        · rw [List.mem_singleton.mp hLast]
          exact
            ⟨hStep.1, hStep.2,
              hSteps step (List.mem_singleton.mpr rfl)⟩

theorem WellFormed.reach_cases
    (hTree : tree.WellFormed)
    (hReach : tree.reach manner path = .ok location) :
    (tree.get? location).isSome = true
      ∨ tree.Free location ∧ manner.allowsNew = true :=
  (reach_eq_ok_iff.mp hReach).2.free hTree rfl fun _ =>
    Path.notMem_of_mem_steps

theorem WellFormed.isSome_resolve?
    (hTree : tree.WellFormed)
    (hResolve : tree.resolve? path = some location) :
    (tree.get? location).isSome = true := by
  have hLeads := (resolve?_eq_some_iff.mp hResolve).2
  rcases hLeads.free hTree rfl fun _ => Path.notMem_of_mem_steps with
    hThere | ⟨_, hNew⟩
  · exact hThere
  · cases hNew

------------------------------------------------------------
-- Changes
------------------------------------------------------------

/- One change of a tree. -/
inductive Change : FileTree → FileTree → Prop where
  | directory
      {tree : FileTree}
      {location : Location}
      (hFree : tree.Free location) :
      Change tree (tree.addDirectory location)
  | file
      {tree : FileTree}
      {location : Location}
      (hFree : tree.Free location)
      (contents : List UInt8) :
      Change tree (tree.addFile location contents)
  | contents
      {tree : FileTree}
      {location : Location}
      {node : Nat}
      (hNode : tree.node? location = some node)
      (contents : List UInt8) :
      Change tree (tree.setContents node contents)

/- Any number of changes. -/
abbrev Changes : FileTree → FileTree → Prop :=
  Relation.ReflTransGen Change

/- A new name keeps a tree well-formed. -/
theorem WellFormed.append
    (hTree : tree.WellFormed)
    (hFree : tree.Free location)
    {nodes : List (List UInt8)}
    (hNodes : tree.nodes.length ≤ nodes.length)
    (hNode : ∀ node, entry = .file node → node < nodes.length) :
    WellFormed ⟨tree.entries ++ [(location, entry)], nodes⟩ := by
  have hKeeps :
      Keeps tree
        ⟨tree.entries ++ [(location, entry)], nodes⟩ :=
    keeps_append hFree.none nodes
  have hGet := get?_append hFree.none entry nodes
  have hNew : location ∉ tree.entries.map Prod.fst := by
    intro hOld
    rcases List.mem_map.mp hOld with ⟨pair, hPair, rfl⟩
    have hSome := (hTree.mem_entries_iff.mp hPair).2
    rw [hFree.none] at hSome
    cases hSome
  refine ⟨?_, ?_, ?_⟩
  · rw [List.map_append, List.map_singleton,
      ← List.concat_eq_append]
    exact hTree.1.concat hNew
  · intro other hOther
    rw [List.map_append, List.map_singleton, List.mem_append,
      List.mem_singleton] at hOther
    rcases hOther with hOld | rfl
    · rcases hTree.2.1 other hOld with ⟨hRoot, hNames, hIn⟩
      exact ⟨hRoot, hNames, hKeeps.isDirectory hIn⟩
    · exact
        ⟨hFree.ne_nil, hFree.proper,
          hKeeps.isDirectory hFree.parent⟩
  · intro node hMember
    rcases List.mem_filterMap.mp hMember with ⟨pair, _, hFile⟩
    rw [node?_eq_some_iff, hGet] at hFile
    split at hFile
    · exact hNode node (Option.some.inj hFile)
    · exact
        Nat.lt_of_lt_of_le
          (hTree.node_lt (node?_eq_some_iff.mpr hFile)) hNodes

theorem Change.wellFormed
    (hChange : Change before after)
    (hBefore : before.WellFormed) :
    after.WellFormed := by
  cases hChange with
  | directory hFree =>
      exact hBefore.append hFree (Nat.le_refl _) (by simp)
  | file hFree contents =>
      refine hBefore.append hFree (by simp) ?_
      intro node hNode
      cases hNode
      simp
  | contents hNode contents =>
      refine ⟨hBefore.1, hBefore.2.1, ?_⟩
      intro node hMember
      rw [setContents, List.length_set]
      exact hBefore.2.2 node hMember

theorem Change.linkFree
    (hChange : Change before after)
    (hBefore : before.LinkFree) :
    after.LinkFree := by
  have hAppend :
      ∀ {location entry nodes},
        entry.isLink = false →
          LinkFree
            ⟨before.entries ++ [(location, entry)], nodes⟩ := by
    intro location entry nodes hEntry pair hPair
    rcases List.mem_append.mp hPair with hOld | hNew
    · exact hBefore pair hOld
    · rw [List.mem_singleton.mp hNew]
      exact hEntry
  cases hChange with
  | directory _ => exact hAppend rfl
  | file _ contents => exact hAppend rfl
  | contents _ contents => exact hBefore

/- The file at a location, if there is one, has no other name. -/
def OneNamed
    (tree : FileTree)
    (location : Location) : Prop :=
  ∀ node other,
    tree.node? location = some node →
    tree.node? other = some node →
      other = location

theorem oneNamed_of_node?_eq_none
    (hNone : tree.node? location = none) :
    tree.OneNamed location := by
  intro node other hNode
  rw [hNone] at hNode
  cases hNode

theorem Change.oneNamed
    (hChange : Change before after)
    (hTree : before.WellFormed)
    (hBefore : before.OneNamed location) :
    after.OneNamed location := by
  cases hChange with
  | @directory new hFree =>
      have hGet := get?_append hFree.none .directory before.nodes
      have hSame :
          ∀ location,
            (before.addDirectory new).node? location =
              before.node? location := by
        intro location
        rw [node?, node?, addDirectory, hGet]
        by_cases hNew : location = new
        · rw [if_pos hNew, hNew, hFree.none]
        · rw [if_neg hNew]
      intro node other hNode hOther
      rw [hSame] at hNode hOther
      exact hBefore node other hNode hOther
  | @file new hFree contents =>
      have hGet :=
        get?_append hFree.none (.file before.nodes.length)
          (before.nodes ++ [contents])
      intro node other hNode hOther
      rw [node?_eq_some_iff, addFile, hGet] at hNode hOther
      split at hNode
      · next hHere =>
          split at hOther
          · next hThere => rw [hHere, hThere]
          · cases hNode
            have hLess :=
              hTree.node_lt (node?_eq_some_iff.mpr hOther)
            exact absurd hLess (Nat.lt_irrefl _)
      · split at hOther
        · cases hOther
          have hLess :=
            hTree.node_lt (node?_eq_some_iff.mpr hNode)
          exact absurd hLess (Nat.lt_irrefl _)
        · exact
            hBefore node other (node?_eq_some_iff.mpr hNode)
              (node?_eq_some_iff.mpr hOther)
  | contents _ contents => exact hBefore

namespace Changes

theorem wellFormed
    (hChanges : Changes before after)
    (hBefore : before.WellFormed) :
    after.WellFormed := by
  induction hChanges with
  | refl => exact hBefore
  | tail _ hChange ih => exact hChange.wellFormed ih

theorem linkFree
    (hChanges : Changes before after)
    (hBefore : before.LinkFree) :
    after.LinkFree := by
  induction hChanges with
  | refl => exact hBefore
  | tail _ hChange ih => exact hChange.linkFree ih

theorem oneNamed
    (hChanges : Changes before after)
    (hTree : before.WellFormed)
    (hBefore : before.OneNamed location) :
    after.OneNamed location := by
  induction hChanges with
  | refl => exact hBefore
  | tail hEarlier hChange ih =>
      exact hChange.oneNamed (wellFormed hEarlier hTree) ih

end Changes

------------------------------------------------------------
-- Directories and Files
------------------------------------------------------------

theorem changes_makeDirectory?
    (hTree : tree.WellFormed)
    (hMade : tree.makeDirectory? path = some after) :
    Changes tree after := by
  rcases makeDirectory?_eq_some hMade with
    ⟨location, _, _, rfl | ⟨hReach, hNone, rfl⟩⟩
  · exact .refl
  · rcases hTree.reach_cases hReach with hThere | ⟨hFree, _⟩
    · rw [hNone] at hThere
      cases hThere
    · exact .single (.directory hFree)

theorem changes_makeAlong?
    (hTree : tree.WellFormed)
    {passed steps : List Name}
    (hMade : makeAlong? tree passed steps = some after) :
    Changes tree after := by
  induction steps generalizing tree passed with
  | nil =>
      cases hMade
      exact .refl
  | cons step steps ih =>
      rw [makeAlong?, Option.bind_eq_bind,
        Option.bind_eq_some_iff] at hMade
      rcases hMade with ⟨middle, hFirst, hRest⟩
      have hMiddle := changes_makeDirectory? hTree hFirst
      exact
        hMiddle.trans (ih (Changes.wellFormed hMiddle hTree) hRest)

theorem changes_makeDirectories?
    (hTree : tree.WellFormed)
    (hMade : tree.makeDirectories? path = some after) :
    Changes tree after :=
  changes_makeAlong? hTree hMade

theorem changes_writeFile?
    (hTree : tree.WellFormed)
    {contents : List UInt8}
    (hWritten : tree.writeFile? path contents = some after) :
    Changes tree after := by
  rcases writeFile?_eq_some hWritten with
    ⟨location, hReach, _,
      ⟨hNone, _, rfl⟩ | ⟨node, hNode, rfl⟩⟩
  · rcases hTree.reach_cases hReach with hThere | ⟨hFree, _⟩
    · rw [hNone] at hThere
      cases hThere
    · exact .single (.file hFree contents)
  · exact .single (.contents hNode contents)

/- A file that is written can be read. -/
theorem readFile_writeFile?
    (hTree : tree.WellFormed)
    {contents : List UInt8}
    (hWritten : tree.writeFile? path contents = some after) :
    after.readFile path = .ok contents := by
  rw [readFile_eq_ok_iff]
  rcases writeFile?_eq_some hWritten with
    ⟨location, _, hResolve,
      ⟨_, hNode, rfl⟩ | ⟨node, hNode, rfl⟩⟩
  · refine ⟨location, hResolve, ?_⟩
    rw [contents?, hNode]
    simp [addFile]
  · have hLater :
        (tree.setContents node contents).node? location =
          some node :=
      hNode
    refine ⟨location, hResolve, ?_⟩
    rw [contents?, hLater]
    simp [setContents, hTree.node_lt hNode]

end FileTree

end TracedScript
