import TracedScript.FileTree
import TracedScript.Proofs.Path

/-
  Where paths lead, and what making directories and writing
  files does to a tree.

  All that is done to a tree is that directories and files are
  put where nothing is, and that files get other contents. So
  every path that leads somewhere goes on to lead there.

  Key definitions include:
    * `FileTree.Leads`: where some steps lead, step by step.
    * `FileTree.Keeps`: a tree with everything of another.
    * `FileTree.Writes`: all that may have happened to a tree.

  Main declarations:
    * `FileTree.follow_eq_ok_iff`
    * `FileTree.Leads.find`: paths go on to lead somewhere.
    * `FileTree.writes_makeDirectories?`
    * `FileTree.writes_writeFile?`
-/

------------------------------------------------------------
-- Following Paths
------------------------------------------------------------

namespace TracedScript

namespace FileTree

variable {tree before after : FileTree} {manner : Manner}
variable {location target : Location} {path : Path}

/- A step to another location, by its name. -/
def IsAdvance (step : Name) : Prop :=
  Path.isInert step = false ∧ step ≠ Path.upward

/-
  Where some steps lead from a location through a number of
  links at most, step by step.
-/
inductive Leads
    (tree : FileTree)
    (manner : Manner) :
    Nat → Location → List Name → Location → Prop where
  | stop
      {links : Nat}
      {location : Location} :
      Leads tree manner links location [] location
  | stay
      {links : Nat}
      {location target : Location}
      {step : Name}
      {steps : List Name}
      (hStart : tree.isDirectory location = true)
      (hInert : Path.isInert step = true)
      (hRest : Leads tree manner links location steps target) :
      Leads tree manner links location (step :: steps) target
  | back
      {links : Nat}
      {location target : Location}
      {steps : List Name}
      (hStart : tree.isDirectory location = true)
      (hRest :
        Leads tree manner links location.dropLast steps target) :
      Leads tree manner links location (Path.upward :: steps)
        target
  | pass
      {links : Nat}
      {location target : Location}
      {step : Name}
      {steps : List Name}
      {entry : Entry}
      (hStart : tree.isDirectory location = true)
      (hStep : IsAdvance step)
      (hSpell :
        manner = .spell →
          (Location.path (location ++ [step])).fits = true)
      (hEntry : tree.get? (location ++ [step]) = some entry)
      (hPlain : entry.isLink = false)
      (hRest :
        Leads tree manner links (location ++ [step]) steps
          target) :
      Leads tree manner links location (step :: steps) target
  | jump
      {links : Nat}
      {location target : Location}
      {step goal : Name}
      {steps : List Name}
      (hStart : tree.isDirectory location = true)
      (hStep : IsAdvance step)
      (hSpell :
        manner = .spell →
          (Location.path (location ++ [step])).fits = true)
      (hLink :
        tree.get? (location ++ [step]) = some (.link goal))
      (hThrough : ¬ (manner = .make ∧ steps = []))
      (hRest :
        Leads tree manner links
          (if goal.head? = some Path.slash then []
            else location)
          (goal.splitOn Path.slash ++ steps) target) :
      Leads tree manner (links + 1) location (step :: steps)
        target
  | held
      {links : Nat}
      {location : Location}
      {step goal : Name}
      (hStart : tree.isDirectory location = true)
      (hStep : IsAdvance step)
      (hLink :
        tree.get? (location ++ [step]) = some (.link goal))
      (hMake : manner = .make) :
      Leads tree manner links location [step]
        (location ++ [step])
  | fresh
      {links : Nat}
      {location : Location}
      {step : Name}
      (hStart : tree.isDirectory location = true)
      (hStep : IsAdvance step)
      (hNone : tree.get? (location ++ [step]) = none)
      (hName : isName step = true)
      (hNew : manner.allowsNew = true) :
      Leads tree manner links location [step]
        (location ++ [step])

/- A name leads to what is new, past a link, or on. -/
theorem enter_eq_ok
    {next : Location → List Name → Except Refusal Location}
    {onward : Except Refusal Location}
    {name : Name}
    {steps : List Name}
    (hOk :
      tree.enter manner next location name steps onward =
        .ok target) :
    (manner = .spell →
        (Location.path (location ++ [name])).fits = true)
      ∧ ((∃ entry,
          tree.get? (location ++ [name]) = some entry
            ∧ entry.isLink = false
            ∧ onward = .ok target)
        ∨ (∃ goal,
          tree.get? (location ++ [name]) = some (.link goal)
            ∧ ¬ (manner = .make ∧ steps = [])
            ∧ next
                (if goal.head? = some Path.slash then []
                  else location)
                (goal.splitOn Path.slash ++ steps) =
              .ok target)
        ∨ (∃ goal,
          tree.get? (location ++ [name]) = some (.link goal)
            ∧ manner = .make
            ∧ steps = []
            ∧ target = location ++ [name])
        ∨ (tree.get? (location ++ [name]) = none
          ∧ isName name = true
          ∧ manner.allowsNew = true
          ∧ steps = []
          ∧ target = location ++ [name])) := by
  rw [enter] at hOk
  split at hOk
  · cases hOk
  · next hSpell =>
      refine ⟨by simpa using hSpell, ?_⟩
      cases hEntry : tree.get? (location ++ [name]) with
      | none =>
          rw [hEntry] at hOk
          simp only at hOk
          split at hOk
          · cases hOk
          · next hName =>
              rw [Bool.not_eq_false] at hName
              split at hOk
              · next hNew =>
                  cases hOk
                  exact
                    .inr (.inr (.inr
                      ⟨rfl, hName, hNew.1, hNew.2, rfl⟩))
              · cases hOk
      | some entry =>
          rw [hEntry] at hOk
          cases entry with
          | file node => exact .inl ⟨_, rfl, rfl, hOk⟩
          | directory => exact .inl ⟨_, rfl, rfl, hOk⟩
          | link goal =>
              simp only at hOk
              split at hOk
              · next hMake =>
                  cases hOk
                  exact
                    .inr (.inr (.inl
                      ⟨goal, rfl, hMake.1, hMake.2, rfl⟩))
              · next hThrough =>
                  exact .inr (.inl ⟨goal, rfl, hThrough, hOk⟩)

/- Links are all that is left to `next`. -/
theorem leads_of_followWith
    {links : Nat}
    {next : Location → List Name → Except Refusal Location}
    {steps : List Name}
    (hNext :
      ∀ location steps,
        next location steps = .ok target →
          ∃ fewer,
            links = fewer + 1
              ∧ Leads tree manner fewer location steps target)
    (hOk :
      tree.followWith manner next location steps = .ok target) :
    Leads tree manner links location steps target := by
  induction steps generalizing location with
  | nil =>
      cases hOk
      exact .stop
  | cons step steps ih =>
      rw [followWith] at hOk
      split at hOk
      · cases hOk
      · next hStart =>
          rw [Bool.not_eq_false] at hStart
          split at hOk
          · next hInert => exact .stay hStart hInert (ih hOk)
          · next hInert =>
              split at hOk
              · next hUp => exact hUp ▸ .back hStart (ih hOk)
              · next hUp =>
                  have hStep : IsAdvance step :=
                    ⟨by simpa using hInert, hUp⟩
                  rcases enter_eq_ok hOk with
                    ⟨hSpell,
                      ⟨entry, hEntry, hPlain, hRest⟩
                        | ⟨goal, hLink, hThrough, hRest⟩
                        | ⟨goal, hLink, hMake, rfl, rfl⟩
                        | ⟨hNone, hName, hNew, rfl, rfl⟩⟩
                  · exact
                      .pass hStart hStep hSpell hEntry hPlain
                        (ih hRest)
                  · rcases hNext _ _ hRest with
                      ⟨fewer, rfl, hLeads⟩
                    exact
                      .jump hStart hStep hSpell hLink hThrough
                        hLeads
                  · exact .held hStart hStep hLink hMake
                  · exact .fresh hStart hStep hNone hName hNew

theorem leads_of_follow
    {links : Nat}
    {steps : List Name}
    (hOk : tree.follow manner links location steps = .ok target) :
    Leads tree manner links location steps target := by
  induction links generalizing location steps with
  | zero =>
      refine leads_of_followWith ?_ hOk
      intro location steps hNever
      cases hNever
  | succ links ih =>
      refine leads_of_followWith ?_ hOk
      intro location steps hNext
      exact ⟨links, rfl, ih hNext⟩

/- What is done at each step, however many links may be met. -/
theorem exists_follow_eq
    (tree : FileTree)
    (manner : Manner)
    (links : Nat) :
    ∃ next,
      tree.follow manner links = tree.followWith manner next
        ∧ ∀ fewer, links = fewer + 1 →
          next = tree.follow manner fewer := by
  cases links with
  | zero => exact ⟨_, rfl, by simp⟩
  | succ links => exact ⟨_, rfl, by simp⟩

theorem follow_of_leads
    {links : Nat}
    {steps : List Name}
    (hLeads : Leads tree manner links location steps target) :
    tree.follow manner links location steps = .ok target := by
  induction hLeads with
  | @stop links location =>
      rcases exists_follow_eq tree manner links with
        ⟨next, hFollow, _⟩
      rw [hFollow, followWith]
  | @stay links location target step steps hStart hInert _ ih =>
      rcases exists_follow_eq tree manner links with
        ⟨next, hFollow, _⟩
      rw [hFollow] at ih ⊢
      simp [followWith, hStart, hInert, ih]
  | @back links location target steps hStart _ ih =>
      rcases exists_follow_eq tree manner links with
        ⟨next, hFollow, _⟩
      rw [hFollow] at ih ⊢
      simp [followWith, hStart, ih, Path.isInert, Path.upward]
  | @pass links location target step steps entry hStart hStep
      hSpell hEntry hPlain _ ih =>
      rcases exists_follow_eq tree manner links with
        ⟨next, hFollow, _⟩
      rw [hFollow] at ih ⊢
      have hFits :
          ¬ (manner = .spell
            ∧ (Location.path (location ++ [step])).fits =
              false) := by
        simpa using hSpell
      cases entry with
      | link goal => cases hPlain
      | file node =>
          simp [followWith, enter, hStart, hStep.1, hStep.2,
            hFits, hEntry, ih]
      | directory =>
          simp [followWith, enter, hStart, hStep.1, hStep.2,
            hFits, hEntry, ih]
  | @jump links location target step goal steps hStart hStep
      hSpell hLink hThrough _ ih =>
      rcases exists_follow_eq tree manner (links + 1) with
        ⟨next, hFollow, hNext⟩
      rw [hFollow]
      rw [← hNext links rfl] at ih
      have hFits :
          ¬ (manner = .spell
            ∧ (Location.path (location ++ [step])).fits =
              false) := by
        simpa using hSpell
      simp only [followWith, enter, hStart, hStep.1, hStep.2,
        hFits, hLink, hThrough, if_false, Bool.true_eq_false,
        Bool.false_eq_true]
      exact ih
  | @held links location step goal hStart hStep hLink hMake =>
      rcases exists_follow_eq tree manner links with
        ⟨next, hFollow, _⟩
      rw [hFollow]
      simp [followWith, enter, hStart, hStep.1, hStep.2, hLink,
        hMake]
  | @fresh links location step hStart hStep hNone hName hNew =>
      rcases exists_follow_eq tree manner links with
        ⟨next, hFollow, _⟩
      have hOther : manner ≠ .spell := by
        rintro rfl
        cases hNew
      rw [hFollow]
      simp [followWith, enter, hStart, hStep.1, hStep.2, hNone,
        hName, hNew, hOther]

/- Steps can be followed exactly as far as they lead. -/
theorem follow_eq_ok_iff
    {links : Nat}
    {steps : List Name} :
    tree.follow manner links location steps = .ok target ↔
      Leads tree manner links location steps target :=
  ⟨leads_of_follow, follow_of_leads⟩

theorem reach_eq_ok_iff :
    tree.reach manner path = .ok location ↔
      (manner = .spell ∨ path.fits = true)
        ∧ Leads tree manner linkLimit [] path.steps
            location := by
  rw [reach, ← follow_eq_ok_iff]
  simp only [Bool.or_eq_true, decide_eq_true_eq]
  split
  · next hUse => simp [hUse]
  · next hUse => simp [hUse]

theorem resolve?_eq_some_iff :
    tree.resolve? path = some location ↔
      path.fits = true
        ∧ Leads tree .find linkLimit [] path.steps
            location := by
  have hReach :
      tree.resolve? path = some location ↔
        tree.reach .find path = .ok location := by
    rw [resolve?]
    cases tree.reach .find path with
    | error refusal => simp [Except.toOption]
    | ok found => simp [Except.toOption]
  rw [hReach, reach_eq_ok_iff]
  simp

theorem reach_find_eq_ok_iff :
    tree.reach .find path = .ok location ↔
      tree.resolve? path = some location := by
  rw [resolve?_eq_some_iff, reach_eq_ok_iff]
  simp

/- A file is read where its path leads. -/
theorem readFile_eq_ok_iff
    {contents : List UInt8} :
    tree.readFile path = .ok contents ↔
      ∃ location,
        tree.resolve? path = some location
          ∧ tree.contents? location = some contents := by
  rw [readFile]
  simp only [← reach_find_eq_ok_iff]
  cases tree.reach .find path with
  | error refusal => simp [bind, Except.bind]
  | ok location =>
      simp only [bind, Except.bind, Except.ok.injEq,
        exists_eq_left']
      cases tree.contents? location with
      | none => simp
      | some found => simp

------------------------------------------------------------
-- Trees That Grow
------------------------------------------------------------

/- A tree has all names of another, for what they stood for. -/
def Keeps (before after : FileTree) : Prop :=
  ∀ location entry,
    before.get? location = some entry →
      after.get? location = some entry

namespace Keeps

theorem refl
    (tree : FileTree) :
    Keeps tree tree :=
  fun _ _ hEntry => hEntry

theorem trans
    {middle : FileTree}
    (hFirst : Keeps before middle)
    (hSecond : Keeps middle after) :
    Keeps before after :=
  fun location entry hEntry =>
    hSecond location entry (hFirst location entry hEntry)

theorem isDirectory
    (hKeeps : Keeps before after)
    (hDirectory : before.isDirectory location = true) :
    after.isDirectory location = true := by
  rw [FileTree.isDirectory, decide_eq_true_iff] at hDirectory ⊢
  exact hKeeps location .directory hDirectory

end Keeps

/-
  Where a path could be followed for any purpose, it leads to
  what is there later.
-/
theorem Leads.find
    {links : Nat}
    {steps : List Name}
    (hLeads : Leads before manner links location steps target)
    (hKeeps : Keeps before after)
    (hThere :
      manner.allowsNew = true →
        ∃ entry,
          after.get? target = some entry
            ∧ entry.isLink = false) :
    Leads after .find links location steps target := by
  induction hLeads with
  | stop => exact .stop
  | stay hStart hInert _ ih =>
      exact .stay (hKeeps.isDirectory hStart) hInert (ih hThere)
  | back hStart _ ih =>
      exact .back (hKeeps.isDirectory hStart) (ih hThere)
  | pass hStart hStep _ hEntry hPlain _ ih =>
      exact
        .pass (hKeeps.isDirectory hStart) hStep (by simp)
          (hKeeps _ _ hEntry) hPlain (ih hThere)
  | jump hStart hStep _ hLink _ _ ih =>
      exact
        .jump (hKeeps.isDirectory hStart) hStep (by simp)
          (hKeeps _ _ hLink) (by simp) (ih hThere)
  | held hStart hStep hLink hMake =>
      rcases hThere (by rw [hMake]; rfl) with
        ⟨entry, hEntry, hPlain⟩
      rw [hKeeps _ _ hLink] at hEntry
      cases hEntry
      cases hPlain
  | fresh hStart hStep _ _ hNew =>
      rcases hThere hNew with ⟨entry, hEntry, hPlain⟩
      exact
        .pass (hKeeps.isDirectory hStart) hStep (by simp)
          hEntry hPlain .stop

/- A path that led somewhere still does. -/
theorem Keeps.resolve?
    (hKeeps : Keeps before after)
    (hResolve : before.resolve? path = some location) :
    after.resolve? path = some location := by
  rw [resolve?_eq_some_iff] at hResolve ⊢
  exact ⟨hResolve.1, hResolve.2.find hKeeps (by simp [Manner.allowsNew])⟩

/- A path to something new leads there once it is there. -/
theorem resolve?_of_reach
    (hReach : before.reach manner path = .ok location)
    (hNew : manner.allowsNew = true)
    (hKeeps : Keeps before after)
    {entry : Entry}
    (hEntry : after.get? location = some entry)
    (hPlain : entry.isLink = false) :
    after.resolve? path = some location := by
  rw [reach_eq_ok_iff] at hReach
  rw [resolve?_eq_some_iff]
  refine
    ⟨?_, hReach.2.find hKeeps fun _ => ⟨entry, hEntry, hPlain⟩⟩
  refine hReach.1.resolve_left ?_
  rintro rfl
  cases hNew

------------------------------------------------------------
-- Writing
------------------------------------------------------------

/- A new name is found where it was put, and nothing else is new. -/
theorem get?_append
    (hNone : tree.get? location = none)
    (entry : Entry)
    (nodes : List (List UInt8))
    (other : Location) :
    (⟨tree.entries ++ [(location, entry)], nodes⟩ :
        FileTree).get? other =
      if other = location then some entry
      else tree.get? other := by
  by_cases hRoot : other = []
  · have hOther : other ≠ location := by
      rintro rfl
      rw [hRoot] at hNone
      cases hNone
    rw [get?, if_pos hRoot, if_neg hOther, get?, if_pos hRoot]
  · rw [get?, get?, if_neg hRoot, if_neg hRoot,
      List.lookup_append]
    by_cases hOther : other = location
    · rw [hOther] at hRoot
      rw [get?, if_neg hRoot] at hNone
      simp [hOther, hNone]
    · have hSkip : (other == location) = false :=
        beq_false_of_ne hOther
      simp [hOther, List.lookup_cons, hSkip]

theorem keeps_append
    {entry : Entry}
    (hNone : tree.get? location = none)
    (nodes : List (List UInt8)) :
    Keeps tree
      ⟨tree.entries ++ [(location, entry)], nodes⟩ := by
  intro other found hFound
  rw [get?_append hNone, if_neg]
  · exact hFound
  · rintro rfl
    rw [hNone] at hFound
    cases hFound

/-
  All that may have happened to a tree: directories and files
  were put at some locations where nothing was, and the files
  at some locations got other contents, by all their names.
-/
structure Writes
    (directories files : Location → Prop)
    (before after : FileTree) : Prop where
  entries :
    ∀ location,
      after.get? location = before.get? location
        ∨ before.get? location = none
          ∧ (directories location
                ∧ after.get? location = some .directory
              ∨ files location
                ∧ ∃ node,
                    after.get? location = some (.file node))
  contents :
    ∀ location node,
      before.node? location = some node →
        after.contents? location = before.contents? location
          ∨ ∃ other,
              files other ∧ after.node? other = some node

theorem node?_eq_some_iff
    {node : Nat} :
    tree.node? location = some node ↔
      tree.get? location = some (.file node) := by
  rw [node?]
  cases tree.get? location with
  | none => simp
  | some entry => cases entry <;> simp

namespace Writes

variable {directories files moreDirectories moreFiles : Location → Prop}

theorem refl
    (tree : FileTree) :
    Writes directories files tree tree :=
  ⟨fun _ => .inl rfl, fun _ _ _ => .inl rfl⟩

theorem mono
    (hWrites : Writes directories files before after)
    (hDirectories :
      ∀ location, directories location → moreDirectories location)
    (hFiles : ∀ location, files location → moreFiles location) :
    Writes moreDirectories moreFiles before after := by
  constructor
  · intro location
    rcases hWrites.entries location with
      hSame | ⟨hNone, hMade | hWritten⟩
    · exact .inl hSame
    · exact
        .inr
          ⟨hNone, .inl ⟨hDirectories location hMade.1, hMade.2⟩⟩
    · exact
        .inr ⟨hNone, .inr ⟨hFiles location hWritten.1, hWritten.2⟩⟩
  · intro location node hNode
    rcases hWrites.contents location node hNode with
      hSame | ⟨other, hOther, hShared⟩
    · exact .inl hSame
    · exact .inr ⟨other, hFiles other hOther, hShared⟩

theorem keeps
    (hWrites : Writes directories files before after) :
    Keeps before after := by
  intro location entry hEntry
  rcases hWrites.entries location with hSame | ⟨hNone, _⟩
  · rw [hSame, hEntry]
  · rw [hNone] at hEntry
    cases hEntry

theorem node?
    (hWrites : Writes directories files before after)
    {node : Nat}
    (hNode : before.node? location = some node) :
    after.node? location = some node := by
  rw [node?_eq_some_iff] at hNode ⊢
  exact hWrites.keeps location _ hNode

theorem trans
    {middle : FileTree}
    (hFirst : Writes directories files before middle)
    (hSecond : Writes directories files middle after) :
    Writes directories files before after := by
  constructor
  · intro location
    rcases hFirst.entries location with
      hSame | ⟨hNone, ⟨hMade, hEntry⟩ | ⟨hWritten, node, hEntry⟩⟩
    · have hLater := hSecond.entries location
      rw [hSame] at hLater
      exact hLater
    · exact
        .inr
          ⟨hNone, .inl ⟨hMade, hSecond.keeps _ _ hEntry⟩⟩
    · exact
        .inr
          ⟨hNone,
            .inr ⟨hWritten, node, hSecond.keeps _ _ hEntry⟩⟩
  · intro location node hNode
    rcases hFirst.contents location node hNode with
      hSame | ⟨other, hOther, hShared⟩
    · rw [← hSame]
      exact hSecond.contents location node (hFirst.node? hNode)
    · exact .inr ⟨other, hOther, hSecond.node? hShared⟩

end Writes

theorem contents?_eq_of_node?
    {node : Nat}
    (hBefore : before.node? location = some node)
    (hAfter : after.node? location = some node)
    (hNodes : after.nodes[node]? = before.nodes[node]?) :
    after.contents? location = before.contents? location := by
  rw [contents?, contents?, hBefore, hAfter, Option.map_some,
    Option.map_some, hNodes]

theorem writes_addDirectory
    (hNone : tree.get? location = none) :
    Writes (· = location) (fun _ => False) tree
      (tree.addDirectory location) := by
  have hGet := get?_append hNone .directory tree.nodes
  constructor
  · intro other
    rw [addDirectory, hGet]
    by_cases hOther : other = location
    · rw [if_pos hOther]
      exact .inr ⟨hOther ▸ hNone, .inl ⟨hOther, rfl⟩⟩
    · exact .inl (if_neg hOther)
  · intro other node hNode
    have hLater :
        (tree.addDirectory location).node? other = some node := by
      rw [node?_eq_some_iff] at hNode ⊢
      exact keeps_append hNone _ other _ hNode
    exact .inl (contents?_eq_of_node? hNode hLater rfl)

theorem writes_addFile
    (hNone : tree.get? location = none)
    (contents : List UInt8) :
    Writes (fun _ => False) (· = location) tree
      (tree.addFile location contents) := by
  have hGet :=
    get?_append hNone (.file tree.nodes.length)
      (tree.nodes ++ [contents])
  have hFile :
      (tree.addFile location contents).get? location =
        some (.file tree.nodes.length) := by
    rw [addFile, hGet, if_pos rfl]
  constructor
  · intro other
    by_cases hOther : other = location
    · rw [hOther]
      exact .inr ⟨hNone, .inr ⟨rfl, _, hFile⟩⟩
    · rw [addFile, hGet, if_neg hOther]
      exact .inl rfl
  · intro other node hNode
    have hLater :
        (tree.addFile location contents).node? other =
          some node := by
      rw [node?_eq_some_iff] at hNode ⊢
      exact keeps_append hNone _ other _ hNode
    by_cases hNew : node = tree.nodes.length
    · refine .inr ⟨location, rfl, ?_⟩
      rw [node?_eq_some_iff, hFile, hNew]
    · refine .inl (contents?_eq_of_node? hNode hLater ?_)
      rw [addFile, List.getElem?_append]
      split
      · rfl
      · rw [List.getElem?_eq_none, List.getElem?_eq_none]
        · omega
        · simp only [List.length_singleton]
          omega

theorem writes_setContents
    {node : Nat}
    (hNode : tree.node? location = some node)
    (contents : List UInt8) :
    Writes (fun _ => False) (· = location) tree
      (tree.setContents node contents) := by
  constructor
  · intro other
    exact .inl rfl
  · intro other found hFound
    by_cases hSame : found = node
    · exact .inr ⟨location, rfl, hSame ▸ hNode⟩
    · refine .inl (contents?_eq_of_node? hFound hFound ?_)
      exact List.getElem?_set_ne (Ne.symm hSame)

------------------------------------------------------------
-- Directories and Files
------------------------------------------------------------

/- A directory that is made is there, and nothing else is new. -/
theorem makeDirectory?_eq_some
    (hMade : tree.makeDirectory? path = some after) :
    ∃ location,
      after.resolve? path = some location
        ∧ after.isDirectory location = true
        ∧ (after = tree
          ∨ tree.reach .make path = .ok location
            ∧ tree.get? location = none
            ∧ after = tree.addDirectory location) := by
  rw [makeDirectory?] at hMade
  split at hMade
  · next hThere =>
      cases hMade
      rw [hasDirectory, Option.any_eq_true] at hThere
      rcases hThere with ⟨location, hResolve, hDirectory⟩
      exact ⟨location, hResolve, hDirectory, .inl rfl⟩
  · split at hMade
    · cases hMade
    · next location hReach =>
        split at hMade
        · next hNone =>
            cases hMade
            have hNew :
                (tree.addDirectory location).get? location =
                  some .directory := by
              rw [addDirectory, get?_append hNone, if_pos rfl]
            refine
              ⟨location, ?_, ?_, .inr ⟨hReach, hNone, rfl⟩⟩
            · exact
                resolve?_of_reach hReach rfl
                  (keeps_append hNone _) hNew rfl
            · rw [isDirectory, hNew]
              rfl
        · cases hMade

/- The directories that a path leads through. -/
def Passes
    (tree : FileTree)
    (steps : List Name)
    (location : Location) : Prop :=
  ∃ part,
    part <+: steps
      ∧ tree.resolve? (.ofSteps part) = some location

theorem writes_makeAlong?
    {passed steps : List Name}
    (hMade : makeAlong? tree passed steps = some after) :
    Writes (after.Passes (passed ++ steps)) (fun _ => False)
        tree after
      ∧ ∀ part, part <+: steps → part ≠ [] →
        after.hasDirectory (.ofSteps (passed ++ part)) = true := by
  induction steps generalizing tree passed with
  | nil =>
      cases hMade
      refine ⟨.refl _, ?_⟩
      intro part hPart hSome
      exact absurd (List.prefix_nil.mp hPart) hSome
  | cons step steps ih =>
      rw [makeAlong?, Option.bind_eq_bind,
        Option.bind_eq_some_iff] at hMade
      rcases hMade with ⟨middle, hFirst, hRest⟩
      rcases makeDirectory?_eq_some hFirst with
        ⟨location, hResolve, hDirectory, hStep⟩
      rcases ih hRest with ⟨hWrites, hThere⟩
      rw [List.append_assoc, List.singleton_append] at hWrites
      have hPasses :
          after.Passes (passed ++ step :: steps) location := by
        refine
          ⟨passed ++ [step], ?_, hWrites.keeps.resolve? hResolve⟩
        simp
      have hMiddle :
          Writes (after.Passes (passed ++ step :: steps))
            (fun _ => False) tree middle := by
        rcases hStep with rfl | ⟨_, hNone, rfl⟩
        · exact .refl _
        · refine (writes_addDirectory hNone).mono ?_ fun _ => id
          rintro other rfl
          exact hPasses
      refine ⟨hMiddle.trans hWrites, ?_⟩
      intro part hPart hSome
      cases part with
      | nil => exact absurd rfl hSome
      | cons first part =>
          rw [List.cons_prefix_cons] at hPart
          rcases hPart with ⟨rfl, hPart⟩
          by_cases hEmpty : part = []
          · rw [hEmpty, hasDirectory,
              hWrites.keeps.resolve? hResolve]
            exact hWrites.keeps.isDirectory hDirectory
          · have hLater := hThere part hPart hEmpty
            rwa [List.append_assoc, List.singleton_append] at hLater

/- Making directories makes those that the path leads through. -/
theorem writes_makeDirectories?
    (hMade : tree.makeDirectories? path = some after) :
    Writes (after.Passes path.steps) (fun _ => False) tree
      after :=
  (writes_makeAlong? hMade).1

/- A file that is written is new, or has other contents. -/
theorem writeFile?_eq_some
    {contents : List UInt8}
    (hWritten : tree.writeFile? path contents = some after) :
    ∃ location,
      tree.reach .write path = .ok location
        ∧ after.resolve? path = some location
        ∧ (tree.get? location = none
            ∧ after.node? location = some tree.nodes.length
            ∧ after = tree.addFile location contents
          ∨ ∃ node,
            tree.node? location = some node
              ∧ after = tree.setContents node contents) := by
  rw [writeFile?] at hWritten
  split at hWritten
  · cases hWritten
  · next location hReach =>
      refine ⟨location, hReach, ?_⟩
      split at hWritten
      · next hNone =>
          cases hWritten
          have hFile :
              (tree.addFile location contents).get? location =
                some (.file tree.nodes.length) := by
            rw [addFile, get?_append hNone, if_pos rfl]
          exact
            ⟨resolve?_of_reach hReach rfl (keeps_append hNone _)
                hFile rfl,
              .inl ⟨hNone, node?_eq_some_iff.mpr hFile, rfl⟩⟩
      · next node hFile =>
          cases hWritten
          have hLater :
              (tree.setContents node contents).get? location =
                some (.file node) :=
            hFile
          exact
            ⟨resolve?_of_reach hReach rfl (fun _ _ => id) hLater
                rfl,
              .inr ⟨node, node?_eq_some_iff.mpr hFile, rfl⟩⟩
      · cases hWritten

/-
  A file that is written is the only thing that changes, and
  its path leads to it.
-/
theorem writes_writeFile?
    {contents : List UInt8}
    (hWritten : tree.writeFile? path contents = some after) :
    ∃ location,
      after.resolve? path = some location
        ∧ (after.node? location).isSome = true
        ∧ Writes (fun _ => False) (· = location) tree after := by
  rcases writeFile?_eq_some hWritten with
    ⟨location, _, hResolve,
      ⟨hNone, hNode, rfl⟩ | ⟨node, hNode, rfl⟩⟩
  · exact
      ⟨location, hResolve, Option.isSome_of_eq_some hNode,
        writes_addFile hNone contents⟩
  · exact
      ⟨location, hResolve, Option.isSome_of_eq_some hNode,
        writes_setContents hNode contents⟩

end FileTree

end TracedScript
