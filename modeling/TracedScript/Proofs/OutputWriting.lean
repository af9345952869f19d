import TracedScript.Build
import TracedScript.Proofs.TreeChanges

/-
  What writing the outputs of a build does to a tree.

  Key definitions include:
    * `Build.OnTheWay`: the directories that a path needs.
    * `Build.Written`: files at some paths, and nothing else.

  Main declarations:
    * `Build.writeOutput_eq_ok_iff`
    * `Build.writes_writeOutput`: what writing one output does.
    * `Build.written_writeAll`: what writing all outputs does.
    * `Build.changes_writeAll`
    * `Build.readFile_of_writeAll`: outputs in different files
      are all there in the end.
-/

------------------------------------------------------------
-- One Output
------------------------------------------------------------

namespace TracedScript

namespace Build

open FileTree (Writes Keeps Changes)

variable {tree middle after : FileTree}
variable {output : Output} {outputs : List Output}

/- A path goes through a location on the way to its parent. -/
def OnTheWay
    (tree : FileTree)
    (path : Path)
    (location : Location) : Prop :=
  ∃ parent,
    path.parent? = some parent
      ∧ tree.Passes parent.steps location

/- The parent of a path is made, if it has one, then the file. -/
theorem writeOutput_eq_ok_iff :
    writeOutput tree output = .ok after ↔
      ∃ middle,
        output.path.parent?.elim (some tree)
            tree.makeDirectories? =
          some middle
        ∧ middle.writeFile? output.path
            (Text.bytes output.contents) =
          some after := by
  unfold writeOutput
  cases output.path.parent? with
  | none =>
      simp only [Option.elim_none, Option.some.injEq,
        exists_eq_left', pure_bind]
      split
      · next hNone => simp [hNone, throw, throwThe,
          MonadExceptOf.throw]
      · next written hSome => simp [hSome, pure, Except.pure]
  | some parent =>
      simp only [Option.elim_some]
      cases tree.makeDirectories? parent with
      | none =>
          simp [throw, throwThe, MonadExceptOf.throw, bind,
            Except.bind]
      | some middle =>
          simp only [Option.some.injEq, exists_eq_left', pure_bind]
          split
          · next hNone => simp [hNone, throw, throwThe,
              MonadExceptOf.throw]
          · next written hSome => simp [hSome, pure, Except.pure]

/- Directories are made on the way to the file. -/
theorem writes_elim_makeDirectories?
    {path : Path}
    (hMade :
      path.parent?.elim (some tree) tree.makeDirectories? =
        some middle)
    (hKeeps : Keeps middle after) :
    Writes (OnTheWay after path) (fun _ => False) tree
      middle := by
  cases hParent : path.parent? with
  | none =>
      rw [hParent] at hMade
      cases hMade
      exact .refl _
  | some parent =>
      rw [hParent] at hMade
      refine
        (FileTree.writes_makeDirectories? hMade).mono ?_
          fun _ => id
      rintro location ⟨part, hPart, hResolve⟩
      exact
        ⟨parent, hParent, part, hPart, hKeeps.resolve? hResolve⟩

/-
  Writing an output makes only directories on the way to it,
  and its path leads to the file that is written.
-/
theorem writes_writeOutput
    (hOk : writeOutput tree output = .ok after) :
    ∃ location,
      after.resolve? output.path = some location
        ∧ (after.node? location).isSome = true
        ∧ Writes (OnTheWay after output.path) (· = location)
            tree after := by
  rcases writeOutput_eq_ok_iff.mp hOk with
    ⟨middle, hMade, hWrite⟩
  rcases FileTree.writes_writeFile? hWrite with
    ⟨location, hResolve, hFile, hWrites⟩
  refine ⟨location, hResolve, hFile, ?_⟩
  apply Writes.trans
  · apply (writes_elim_makeDirectories? hMade hWrites.keeps).mono
    · exact fun _ => id
    · exact fun _ => False.elim
  · exact hWrites.mono (fun _ => False.elim) fun _ => id

------------------------------------------------------------
-- All Outputs
------------------------------------------------------------

/- Outputs are written one after the other. -/
theorem writeAll_cons_eq_ok
    (hOk : writeAll tree (output :: outputs) = (after, .ok ())) :
    ∃ middle,
      writeOutput tree output = .ok middle
        ∧ writeAll middle outputs = (after, .ok ()) := by
  rw [writeAll] at hOk
  cases hFirst : writeOutput tree output with
  | error failure =>
      rw [hFirst] at hOk
      cases hOk
  | ok middle =>
      rw [hFirst] at hOk
      exact ⟨middle, rfl, hOk⟩

/-
  All paths lead to files in a tree. Nothing else is new in it
  but directories on the way to them, and no other file has
  changed, though one of these files may have more names.
-/
structure Written
    (paths : List Path)
    (before after : FileTree) : Prop where
  files :
    ∀ path ∈ paths, ∃ location,
      after.resolve? path = some location
        ∧ (after.node? location).isSome = true
  writes :
    Writes
      (fun location => ∃ path ∈ paths, OnTheWay after path location)
      (fun location =>
        ∃ path ∈ paths, after.resolve? path = some location)
      before after

/- Writing outputs writes at their paths and nowhere else. -/
theorem written_writeAll
    (hOk : writeAll tree outputs = (after, .ok ())) :
    Written (outputs.map Output.path) tree after := by
  induction outputs generalizing tree with
  | nil =>
      cases hOk
      exact ⟨by simp, .refl _⟩
  | cons output outputs ih =>
      rcases writeAll_cons_eq_ok hOk with ⟨middle, hFirst, hRest⟩
      rcases writes_writeOutput hFirst with
        ⟨location, hResolve, hFile, hWrites⟩
      rcases ih hRest with ⟨hFiles, hLater⟩
      have hThere := hLater.keeps.resolve? hResolve
      rw [List.map_cons]
      constructor
      · rw [List.forall_mem_cons]
        refine ⟨⟨location, hThere, ?_⟩, hFiles⟩
        rcases Option.isSome_iff_exists.mp hFile with
          ⟨node, hNode⟩
        exact Option.isSome_of_eq_some (hLater.node? hNode)
      · apply Writes.trans
        · apply hWrites.mono
          · rintro other ⟨parent, hParent, part, hPart, hOther⟩
            exact
              ⟨output.path, List.mem_cons_self, parent, hParent,
                part, hPart, hLater.keeps.resolve? hOther⟩
          · rintro other rfl
            exact ⟨output.path, List.mem_cons_self, hThere⟩
        · apply hLater.mono
          · rintro other ⟨path, hPath, hWay⟩
            exact ⟨path, List.mem_cons_of_mem _ hPath, hWay⟩
          · rintro other ⟨path, hPath, hOther⟩
            exact ⟨path, List.mem_cons_of_mem _ hPath, hOther⟩

------------------------------------------------------------
-- Contents
------------------------------------------------------------

theorem changes_writeOutput
    (hTree : tree.WellFormed)
    (hOk : writeOutput tree output = .ok after) :
    Changes tree after := by
  rcases writeOutput_eq_ok_iff.mp hOk with
    ⟨middle, hMade, hWrite⟩
  have hMiddle : Changes tree middle := by
    cases hParent : output.path.parent? with
    | none =>
        rw [hParent] at hMade
        cases hMade
        exact .refl
    | some parent =>
        rw [hParent] at hMade
        exact FileTree.changes_makeDirectories? hTree hMade
  exact
    hMiddle.trans
      (FileTree.changes_writeFile?
        (Changes.wellFormed hMiddle hTree) hWrite)

theorem changes_writeAll
    (hTree : tree.WellFormed)
    (hOk : writeAll tree outputs = (after, .ok ())) :
    Changes tree after := by
  induction outputs generalizing tree with
  | nil =>
      cases hOk
      exact .refl
  | cons output outputs ih =>
      rcases writeAll_cons_eq_ok hOk with ⟨middle, hFirst, hRest⟩
      have hMiddle := changes_writeOutput hTree hFirst
      exact
        hMiddle.trans (ih (Changes.wellFormed hMiddle hTree) hRest)

/- An output can be read once it is written. -/
theorem readFile_writeOutput
    (hTree : tree.WellFormed)
    (hOk : writeOutput tree output = .ok after) :
    after.readFile output.path =
      .ok (Text.bytes output.contents) := by
  rcases writeOutput_eq_ok_iff.mp hOk with
    ⟨middle, hMade, hWrite⟩
  have hMiddle : middle.WellFormed := by
    cases hParent : output.path.parent? with
    | none =>
        rw [hParent] at hMade
        cases hMade
        exact hTree
    | some parent =>
        rw [hParent] at hMade
        exact
          (FileTree.changes_makeDirectories? hTree
            hMade).wellFormed hTree
  exact FileTree.readFile_writeFile? hMiddle hWrite

/- The file that a path leads to, by its number. -/
def nodeAt?
    (tree : FileTree)
    (path : Path) :
    Option Nat :=
  (tree.resolve? path).bind tree.node?

/- Outputs in different files do not replace each other. -/
theorem readFile_of_writeAll
    (hTree : tree.WellFormed)
    (hApart :
      ((outputs.map Output.path).map (nodeAt? after)).Nodup)
    (hOk : writeAll tree outputs = (after, .ok ())) :
    ∀ output ∈ outputs,
      after.readFile output.path =
        .ok (Text.bytes output.contents) := by
  induction outputs generalizing tree with
  | nil => simp
  | cons output outputs ih =>
      rw [List.map_cons, List.map_cons, List.nodup_cons] at hApart
      rcases writeAll_cons_eq_ok hOk with ⟨middle, hFirst, hRest⟩
      have hLater := (written_writeAll hRest).writes
      have hMiddle :=
        (changes_writeOutput hTree hFirst).wellFormed hTree
      rw [List.forall_mem_cons]
      refine ⟨?_, ih hMiddle hApart.2 hRest⟩
      rcases FileTree.readFile_eq_ok_iff.mp
          (readFile_writeOutput hTree hFirst) with
        ⟨location, hResolve, hContents⟩
      rw [FileTree.contents?, Option.map_eq_some_iff] at hContents
      rcases hContents with ⟨node, hNode, hContents⟩
      have hThere := hLater.keeps.resolve? hResolve
      refine
        FileTree.readFile_eq_ok_iff.mpr ⟨location, hThere, ?_⟩
      rcases hLater.contents location node hNode with
        hSame | ⟨other, ⟨path, hPath, hOther⟩, hShared⟩
      · rw [hSame, FileTree.contents?, hNode, Option.map_some,
          hContents]
      · refine absurd ?_ hApart.1
        refine List.mem_map.mpr ⟨path, hPath, ?_⟩
        rw [nodeAt?, nodeAt?, hOther, hThere, Option.bind_some,
          Option.bind_some, hShared, hLater.node? hNode]

end Build

end TracedScript
