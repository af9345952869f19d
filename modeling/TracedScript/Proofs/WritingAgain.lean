import TracedScript.Proofs.InputRoots

/-
  Writing what is already there, and reading what is not
  written.

  In the tree that outputs were written into, the same outputs
  can be written again, and nothing changes. A file with one
  name keeps its contents if nothing is written by that name.

  Main declarations:
    * `FileTree.Leads.write`
    * `FileTree.makeAlong?_again`, `FileTree.writeFile?_again`
    * `FileTree.Writes.readFile`
    * `FileTree.Writes.canonical`
    * `Build.writeAll_again`
-/

------------------------------------------------------------
-- Writing
------------------------------------------------------------

namespace TracedScript

namespace FileTree

variable {tree middle after : FileTree} {path : Path}
variable {location target : Location}

/- A path to what is there can be followed to write there. -/
theorem Leads.write
    {links : Nat}
    {steps : List Name}
    (hLeads : Leads tree .find links location steps target) :
    Leads tree .write links location steps target := by
  induction hLeads with
  | stop => exact .stop
  | stay hStart hInert _ ih => exact .stay hStart hInert ih
  | back hStart _ ih => exact .back hStart ih
  | pass hStart hStep _ hEntry hPlain _ ih =>
      exact .pass hStart hStep (by simp) hEntry hPlain ih
  | jump hStart hStep _ hLink _ _ ih =>
      exact .jump hStart hStep (by simp) hLink (by simp) ih
  | held _ _ _ hMake => cases hMake
  | fresh _ _ _ _ hNew => cases hNew

/- A file that has some contents can be given them again. -/
theorem writeFile?_again
    (hTree : tree.WellFormed)
    {contents : List UInt8}
    (hRead : tree.readFile path = .ok contents) :
    tree.writeFile? path contents = some tree := by
  rcases readFile_eq_ok_iff.mp hRead with
    ⟨location, hResolve, hContents⟩
  rw [resolve?_eq_some_iff] at hResolve
  have hReach : tree.reach .write path = .ok location :=
    reach_eq_ok_iff.mpr ⟨.inr hResolve.1, hResolve.2.write⟩
  rw [contents?, Option.map_eq_some_iff] at hContents
  rcases hContents with ⟨node, hNode, hContents⟩
  have hLess := hTree.node_lt hNode
  have hSame : tree.setContents node contents = tree := by
    rw [List.getElem?_eq_getElem hLess, Option.getD_some]
      at hContents
    rw [setContents, ← hContents, List.set_getElem_self hLess]
  rw [node?_eq_some_iff] at hNode
  rw [writeFile?, hReach]
  simp only [hNode, hSame]

theorem Keeps.hasDirectory
    (hKeeps : Keeps tree after)
    (hThere : tree.hasDirectory path = true) :
    after.hasDirectory path = true := by
  rw [FileTree.hasDirectory, Option.any_eq_true] at hThere ⊢
  rcases hThere with ⟨location, hResolve, hDirectory⟩
  exact
    ⟨location, hKeeps.resolve? hResolve,
      hKeeps.isDirectory hDirectory⟩

/- Directories that are there need not be made. -/
theorem makeAlong?_again
    {passed steps : List Name}
    (hThere :
      ∀ part, part <+: steps → part ≠ [] →
        tree.hasDirectory (.ofSteps (passed ++ part)) = true) :
    makeAlong? tree passed steps = some tree := by
  induction steps generalizing passed with
  | nil => rfl
  | cons step steps ih =>
      have hFirst :
          tree.makeDirectory? (.ofSteps (passed ++ [step])) =
            some tree := by
        rw [makeDirectory?, if_pos]
        exact hThere [step] (by simp) (by simp)
      rw [makeAlong?, Option.bind_eq_bind, hFirst,
        Option.bind_some]
      apply ih
      intro part hPart _
      rw [List.append_assoc]
      exact
        hThere ([step] ++ part)
          (List.cons_prefix_cons.mpr ⟨rfl, hPart⟩) (by simp)

theorem makeDirectories?_again
    (hMade : tree.makeDirectories? path = some middle)
    (hKeeps : Keeps middle after) :
    after.makeDirectories? path = some after := by
  apply makeAlong?_again
  intro part hPart hSome
  exact
    hKeeps.hasDirectory
      ((writes_makeAlong? hMade).2 part hPart hSome)

end FileTree

namespace Build

open FileTree (Keeps)

variable {tree middle after : FileTree}
variable {output : Output} {outputs : List Output}

/- An output that is there can be written again. -/
theorem writeOutput_again
    (hAfter : after.WellFormed)
    (hOk : writeOutput tree output = .ok middle)
    (hKeeps : Keeps middle after)
    (hRead :
      after.readFile output.path =
        .ok (Text.bytes output.contents)) :
    writeOutput after output = .ok after := by
  rcases writeOutput_eq_ok_iff.mp hOk with
    ⟨between, hMade, hWrite⟩
  have hLater : Keeps between after := by
    rcases FileTree.writes_writeFile? hWrite with
      ⟨_, _, _, hWrites⟩
    exact hWrites.keeps.trans hKeeps
  refine
    writeOutput_eq_ok_iff.mpr
      ⟨after, ?_, FileTree.writeFile?_again hAfter hRead⟩
  cases hParent : output.path.parent? with
  | none => rfl
  | some parent =>
      rw [hParent] at hMade
      exact FileTree.makeDirectories?_again hMade hLater

theorem writeAll_again
    (hAfter : after.WellFormed)
    (hOk : writeAll tree outputs = (middle, .ok ()))
    (hKeeps : Keeps middle after)
    (hRead :
      ∀ output ∈ outputs,
        after.readFile output.path =
          .ok (Text.bytes output.contents)) :
    writeAll after outputs = (after, .ok ()) := by
  induction outputs generalizing tree with
  | nil => rfl
  | cons output outputs ih =>
      rw [List.forall_mem_cons] at hRead
      rcases writeAll_cons_eq_ok hOk with ⟨first, hFirst, hRest⟩
      have hLater : Keeps first after :=
        (written_writeAll hRest).writes.keeps.trans hKeeps
      rw [writeAll,
        writeOutput_again hAfter hFirst hLater hRead.1]
      exact ih hRest hRead.2

end Build

------------------------------------------------------------
-- Reading
------------------------------------------------------------

namespace FileTree

variable {tree after : FileTree} {path : Path}
variable {location : Location}
variable {directories files : Location → Prop}

namespace Writes

/- Where no file is written, a file is one that was there. -/
theorem isSome_node?_iff
    (hWrites : Writes directories files tree after)
    (hOther : ¬ files location) :
    (after.node? location).isSome = true ↔
      (tree.node? location).isSome = true := by
  constructor
  · intro hFile
    rcases Option.isSome_iff_exists.mp hFile with ⟨node, hNode⟩
    rw [node?_eq_some_iff] at hNode
    rcases hWrites.entries location with
      hSame | ⟨_, ⟨_, hDirectory⟩ | ⟨hWritten, _⟩⟩
    · rw [hSame] at hNode
      rw [node?_eq_some_iff.mpr hNode]
      rfl
    · rw [hDirectory] at hNode
      cases hNode
    · exact absurd hWritten hOther
  · intro hFile
    rcases Option.isSome_iff_exists.mp hFile with ⟨node, hNode⟩
    rw [hWrites.node? hNode]
    rfl

/- A file keeps its contents if no name of it is written. -/
theorem contents?_eq
    (hWrites : Writes directories files tree after)
    (hNamed : ∀ other, files other → after.OneNamed other)
    (hOther : ¬ files location)
    (hFile : (tree.node? location).isSome = true) :
    after.contents? location = tree.contents? location := by
  rcases Option.isSome_iff_exists.mp hFile with ⟨node, hNode⟩
  rcases hWrites.contents location node hNode with
    hSame | ⟨other, hWritten, hShared⟩
  · exact hSame
  · have hSame :=
      hNamed other hWritten node location hShared
        (hWrites.node? hNode)
    exact absurd (hSame ▸ hWritten) hOther

theorem readFile
    (hWrites : Writes directories files tree after)
    (hNamed : ∀ other, files other → after.OneNamed other)
    (hOther : ¬ files location)
    (hFile : (tree.node? location).isSome = true)
    (hResolve : tree.resolve? path = some location) :
    after.readFile path = tree.readFile path := by
  rcases Option.isSome_iff_exists.mp hFile with ⟨node, hNode⟩
  have hContents :
      tree.contents? location =
        some (tree.nodes[node]?.getD []) := by
    rw [contents?, hNode]
    rfl
  have hBefore :=
    readFile_eq_ok_iff.mpr ⟨location, hResolve, hContents⟩
  rw [← hWrites.contents?_eq hNamed hOther hFile] at hContents
  rw [hBefore]
  exact
    readFile_eq_ok_iff.mpr
      ⟨location, hWrites.keeps.resolve? hResolve, hContents⟩

/- A path that led somewhere keeps its shortest spelling. -/
theorem canonical
    (hWrites : Writes directories files tree after)
    (hBefore : tree.LinkFree)
    (hAfter : after.LinkFree)
    (hResolve : tree.resolve? path = some location) :
    after.canonical path = tree.canonical path := by
  rw [canonical_of_resolve? hBefore hResolve,
    canonical_of_resolve? hAfter
      (hWrites.keeps.resolve? hResolve)]

end Writes

end FileTree

end TracedScript
