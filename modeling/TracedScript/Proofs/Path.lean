import TracedScript.Path
import TracedScript.Proofs.Split

/-
  The names of paths that are put together from parts.

  Key definitions include:
    * `Location.walk`, `Path.location`: where a path leads if
      there are no links and all directories on the way are
      there.
    * `Location.Proper`: names as a disk can hold them.
    * `Location.size`: the bytes that some names take up.

  Main declarations:
    * `Path.names_join`, `Path.names_parent?`
    * `Path.names_withName`
    * `Path.stepsBelow?_eq_some`, `Path.stepsBelow?_eq_none`
    * `Path.key_inj`
-/

------------------------------------------------------------
-- Leading Steps
------------------------------------------------------------

namespace TracedScript

namespace Path

variable {path parent : Path} {name : Name}

theorem leading_append
    (front steps : List Name) :
    leading (front ++ steps) = leading front ++ leading steps :=
  List.filter_append ..

theorem leading_cons_of_inert
    {step : Name}
    (hInert : isInert step = true)
    (steps : List Name) :
    leading (step :: steps) = leading steps := by
  simp [leading, hInert]

theorem leading_cons_of_not_inert
    {step : Name}
    (hStep : isInert step = false)
    (steps : List Name) :
    leading (step :: steps) = step :: leading steps := by
  simp [leading, hStep]

theorem isInert_of_mem_leading
    {step : Name}
    {steps : List Name}
    (hStep : step ∈ leading steps) :
    isInert step = false := by
  simpa [leading] using (List.mem_filter.mp hStep).2

/- Steps that lead somewhere are all kept. -/
theorem leading_eq_self
    {steps : List Name}
    (hSteps : ∀ step ∈ steps, isInert step = false) :
    leading steps = steps := by
  apply List.filter_eq_self.mpr
  intro step hStep
  rw [hSteps step hStep]
  rfl

/- Inert steps at either end do not count. -/
theorem leading_dropWhile
    (steps : List Name) :
    leading (steps.dropWhile isInert) = leading steps := by
  induction steps with
  | nil => rfl
  | cons step steps ih =>
      cases hStep : isInert step with
      | true =>
          rw [List.dropWhile_cons_of_pos hStep, ih,
            leading_cons_of_inert hStep]
      | false =>
          rw [List.dropWhile_cons_of_neg (by simp [hStep])]

theorem leading_reverse
    (steps : List Name) :
    leading steps.reverse = (leading steps).reverse :=
  List.filter_reverse ..

------------------------------------------------------------
-- Steps
------------------------------------------------------------

/- The steps before and after a slash. -/
theorem steps_of_bytes_eq
    {front rest : Name}
    (hBytes : path.bytes = front ++ slash :: rest) :
    path.steps =
      (front.splitOn slash).drop 1 ++ rest.splitOn slash := by
  rcases Text.exists_splitOn_eq_cons slash front with
    ⟨first, parts, hSplit⟩
  rw [steps, hBytes, List.splitOn_append_cons_self, hSplit]
  simp

theorem notMem_of_mem_steps
    {step : Name}
    (hStep : step ∈ path.steps) :
    slash ∉ step :=
  Text.notMem_of_mem_splitOn (List.mem_of_mem_drop hStep)

/- What is no path of its own adds its steps. -/
theorem names_join
    {more : Name}
    (hMore : more.head? ≠ some slash) :
    (path.join more).names =
      path.names ++ leading (more.splitOn slash) := by
  rw [join, if_neg hMore]
  split
  · next hSlash =>
      rcases List.getLast?_eq_some_iff.mp hSlash with
        ⟨front, hFront⟩
      have hBytes :
          (⟨path.bytes ++ more⟩ : Path).bytes =
            front ++ slash :: more := by
        simp [hFront]
      rw [names, steps_of_bytes_eq hBytes, names,
        steps_of_bytes_eq hFront, leading_append,
        leading_append]
      simp [leading, isInert]
  · have hBytes :
        (⟨path.bytes ++ slash :: more⟩ : Path).bytes =
          path.bytes ++ slash :: more :=
      rfl
    rw [names, steps_of_bytes_eq hBytes, leading_append]
    rfl

theorem head?_ne_of_notMem
    (hName : slash ∉ name) :
    name.head? ≠ some slash := by
  intro hSlash
  exact hName (List.mem_of_mem_head? hSlash)

/- A name adds one step. -/
theorem names_join_name
    (hName : isInert name = false)
    (hSlash : slash ∉ name) :
    (path.join name).names = path.names ++ [name] := by
  rw [names_join (head?_ne_of_notMem hSlash),
    List.splitOn_eq_singleton hSlash,
    leading_cons_of_not_inert hName]
  rfl

/- A name takes the place of an empty last step. -/
theorem exists_steps_join
    (hSlash : slash ∉ name) :
    ∃ front,
      (path.join name).steps = front ++ [name]
        ∧ (path.steps = front ∨ path.steps = front ++ [[]]) := by
  rw [join, if_neg (head?_ne_of_notMem hSlash)]
  split
  · next hLast =>
      rcases List.getLast?_eq_some_iff.mp hLast with
        ⟨front, hFront⟩
      have hBytes :
          (⟨path.bytes ++ name⟩ : Path).bytes =
            front ++ slash :: name := by
        simp [hFront]
      rw [steps_of_bytes_eq hBytes, steps_of_bytes_eq hFront,
        List.splitOn_eq_singleton hSlash]
      exact ⟨_, rfl, .inr rfl⟩
  · have hBytes :
        (⟨path.bytes ++ slash :: name⟩ : Path).bytes =
          path.bytes ++ slash :: name :=
      rfl
    rw [steps_of_bytes_eq hBytes,
      List.splitOn_eq_singleton hSlash]
    exact ⟨_, rfl, .inl rfl⟩

/- A path that can be used with a name can be used without it. -/
theorem fits_of_fits_join
    (hSlash : slash ∉ name)
    (hFits : (path.join name).fits = true) :
    path.fits = true := by
  rw [fits, decide_eq_true_iff] at hFits ⊢
  rw [join, if_neg (head?_ne_of_notMem hSlash)] at hFits
  split at hFits
  all_goals
    rw [List.length_append] at hFits
    exact Nat.lt_of_le_of_lt (Nat.le_add_right _ _) hFits

/- A path that is made of steps has their names. -/
theorem names_ofSteps
    {steps : List Name}
    (hSteps : ∀ step ∈ steps, slash ∉ step) :
    (ofSteps steps).names = leading steps := by
  have hBytes :
      (ofSteps steps).bytes =
        [] ++ slash :: [slash].intercalate steps :=
    rfl
  rw [names, steps_of_bytes_eq hBytes]
  by_cases hEmpty : steps = []
  · simp [hEmpty, leading, isInert]
  · rw [List.splitOn_intercalate slash hSteps hEmpty]
    simp

------------------------------------------------------------
-- Parents
------------------------------------------------------------

/- A path with a parent is its parent with one more name. -/
theorem names_parent?
    (hParent : path.parent? = some parent) :
    ∃ last, path.names = parent.names ++ [last] := by
  rw [parent?] at hParent
  split at hParent
  · cases hParent
  · next last before hSteps =>
      cases hParent
      have hLast : isInert last = false := by
        have hHead :=
          List.head?_dropWhile_not isInert path.steps.reverse
        rw [hSteps] at hHead
        simpa using hHead
      have hBefore :
          ∀ step ∈ (before.dropWhile isInert).reverse,
            slash ∉ step := by
        intro step hStep
        refine notMem_of_mem_steps (?_ : step ∈ path.steps)
        rw [← List.mem_reverse]
        apply (List.dropWhile_sublist isInert).subset
        rw [hSteps]
        apply List.mem_cons_of_mem
        exact
          (List.dropWhile_sublist isInert).subset
            (List.mem_reverse.mp hStep)
      refine ⟨last, ?_⟩
      calc
        path.names =
            (leading
              (path.steps.reverse.dropWhile isInert)).reverse := by
          rw [leading_dropWhile, leading_reverse,
            List.reverse_reverse, names]
        _ = (leading before).reverse ++ [last] := by
          rw [hSteps, leading_cons_of_not_inert hLast,
            List.reverse_cons]
        _ = _ := by
          rw [names_ofSteps hBefore, leading_reverse,
            leading_dropWhile]

/- Only a path without names has no parent. -/
theorem exists_parent?
    (hNames : path.names ≠ []) :
    ∃ parent, path.parent? = some parent := by
  rw [parent?]
  split
  · next hSteps =>
      have hNone := congrArg leading hSteps
      rw [leading_dropWhile, leading_reverse] at hNone
      exact absurd (List.reverse_eq_nil_iff.mp hNone) hNames
  · exact ⟨_, rfl⟩

/- Another name in the place of the last one. -/
theorem names_withName
    {front : List Name}
    {last : Name}
    (hNames : path.names = front ++ [last])
    (hName : isInert name = false)
    (hSlash : slash ∉ name) :
    (path.withName name).names = front ++ [name] := by
  have hSome : path.names ≠ [] := by simp [hNames]
  rcases exists_parent? hSome with ⟨parent, hParent⟩
  rcases names_parent? hParent with ⟨other, hOther⟩
  rw [hNames] at hOther
  have hFront := (List.append_inj' hOther rfl).1
  rw [withName, hParent]
  exact
    (names_join_name hName hSlash).trans (by rw [hFront])

/- A name of three bytes or more leads somewhere. -/
theorem isInert_of_length
    (hLong : 3 ≤ name.length) :
    isInert name = false ∧ name ≠ upward := by
  constructor
  · rw [isInert, Bool.or_eq_false_iff, decide_eq_false_iff_not,
      decide_eq_false_iff_not]
    constructor
    · rintro rfl
      simp at hLong
    · rintro rfl
      simp at hLong
  · rintro rfl
    simp [upward] at hLong

------------------------------------------------------------
-- Steps Below a Directory
------------------------------------------------------------

/- Steps below a directory go on from its names. -/
theorem stepsBelow?_eq_some
    {directory steps rest : List Name}
    (hBelow : stepsBelow? directory steps = some rest) :
    leading steps = directory ++ leading rest
      ∧ rest <:+ steps
      ∧ ∀ step, rest.head? = some step →
        isInert step = false := by
  fun_induction stepsBelow? directory steps with
  | case1 =>
      cases hBelow
      simp [leading]
  | case2 => cases hBelow
  | case3 directory step steps hInert ih =>
      rcases ih hBelow with ⟨hNames, hSuffix, hHead⟩
      exact
        ⟨by rw [leading_cons_of_inert hInert, hNames],
          hSuffix.trans (List.suffix_cons step steps), hHead⟩
  | case4 step steps hInert =>
      cases hBelow
      rw [Bool.not_eq_true] at hInert
      simpa using hInert
  | case5 step steps hInert names ih =>
      rcases ih hBelow with ⟨hNames, hSuffix, hHead⟩
      rw [Bool.not_eq_true] at hInert
      refine
        ⟨?_, hSuffix.trans (List.suffix_cons step steps), hHead⟩
      rw [leading_cons_of_not_inert hInert, hNames,
        List.cons_append]
  | case6 => cases hBelow

/- Other steps do not start with its names. -/
theorem stepsBelow?_eq_none
    {directory steps : List Name}
    (hBelow : stepsBelow? directory steps = none) :
    ¬ directory <+: leading steps := by
  fun_induction stepsBelow? directory steps with
  | case1 => cases hBelow
  | case2 => simp [leading]
  | case3 directory step steps hInert ih =>
      rw [leading_cons_of_inert hInert]
      exact ih hBelow
  | case4 => cases hBelow
  | case5 step steps hInert names ih =>
      rw [Bool.not_eq_true] at hInert
      rw [leading_cons_of_not_inert hInert,
        List.cons_prefix_cons]
      exact fun hPrefix => ih hBelow hPrefix.2
  | case6 step steps hInert name names hOther =>
      rw [Bool.not_eq_true] at hInert
      rw [leading_cons_of_not_inert hInert,
        List.cons_prefix_cons]
      exact fun hPrefix => hOther hPrefix.1

------------------------------------------------------------
-- Order
------------------------------------------------------------

theorem nameKey_inj
    {left right : Name}
    (hLeft : isInert left = false)
    (hRight : isInert right = false)
    (hSame : nameKey left = nameKey right) :
    left = right := by
  have hBytes : Function.Injective (List.map UInt8.toNat) :=
    List.map_injective_iff.mpr fun _ _ => UInt8.toNat_inj.mp
  have hEmpty :
      ∀ {name : Name},
        isInert name = false → name.map UInt8.toNat ≠ [] := by
    intro name hName hNone
    rw [List.map_eq_nil_iff] at hNone
    simp [isInert, hNone] at hName
  rw [nameKey, nameKey] at hSame
  split at hSame
  · next hUp =>
      split at hSame
      · next hAlso => rw [hUp, hAlso]
      · exact absurd hSame.symm (hEmpty hRight)
  · split at hSame
    · exact absurd hSame (hEmpty hLeft)
    · exact hBytes hSame

/- Paths with the same key have the same names. -/
theorem names_eq_of_key_eq
    {left right : Path}
    (hSame : left.key = right.key) :
    left.names = right.names := by
  have hMap :
      ∀ {first second : List Name},
        (∀ name ∈ first, isInert name = false) →
        (∀ name ∈ second, isInert name = false) →
        first.map nameKey = second.map nameKey →
          first = second := by
    intro first second hFirst hSecond hSame
    induction first generalizing second with
    | nil => simpa [eq_comm] using hSame
    | cons name first ih =>
        cases second with
        | nil => simp at hSame
        | cons other second =>
            rw [List.forall_mem_cons] at hFirst hSecond
            rw [List.map_cons, List.map_cons,
              List.cons.injEq] at hSame
            rw [nameKey_inj hFirst.1 hSecond.1 hSame.1,
              ih hFirst.2 hSecond.2 hSame.2]
  exact
    hMap (fun _ => isInert_of_mem_leading)
      (fun _ => isInert_of_mem_leading) hSame

theorem key_eq_of_names_eq
    {left right : Path}
    (hSame : left.names = right.names) :
    left.key = right.key := by
  rw [key, key, hSame]

theorem le_iff
    (left right : Path) :
    Le left right ↔ left.key ≤ right.key :=
  not_lt

end Path

------------------------------------------------------------
-- Walking
------------------------------------------------------------

/-
  Where some names lead if there are no links and every
  directory on the way is there.
-/
def Location.walk : Location → List Name → Location
  | location, [] => location
  | location, name :: names =>
      if name = Path.upward then walk location.dropLast names
      else walk (location ++ [name]) names

/- The location that a path stands for. -/
def Path.location (path : Path) : Location :=
  Location.walk [] path.names

/- Names as a disk can hold them. -/
def Location.Proper (location : Location) : Prop :=
  ∀ name ∈ location,
    Path.isInert name = false ∧ name ≠ Path.upward
      ∧ Path.slash ∉ name

namespace Location

variable {location : Location}

theorem walk_append
    (location : Location)
    (front names : List Name) :
    walk location (front ++ names) =
      walk (walk location front) names := by
  fun_induction walk location front with
  | case1 location => rfl
  | case2 location front ih =>
      rw [List.cons_append, walk, if_pos rfl, ih]
  | case3 location name front hName ih =>
      rw [List.cons_append, walk, if_neg hName, ih]

/- Names that do not lead back are appended. -/
theorem walk_names
    (location : Location)
    {names : List Name}
    (hNames : ∀ name ∈ names, name ≠ Path.upward) :
    walk location names = location ++ names := by
  induction names generalizing location with
  | nil => simp [walk]
  | cons name names ih =>
      rw [List.forall_mem_cons] at hNames
      rw [walk, if_neg hNames.1, ih _ hNames.2,
        List.append_assoc, List.singleton_append]

/- A last name that does not lead back is that of the location. -/
theorem location_of_names
    {path : Path}
    {front : List Name}
    {last : Name}
    (hNames : path.names = front ++ [last])
    (hLast : last ≠ Path.upward) :
    path.location = walk [] front ++ [last] := by
  rw [Path.location, hNames, walk_append, walk, if_neg hLast, walk]

theorem Proper.names_path
    (hProper : location.Proper) :
    (Location.path location).names = location := by
  rw [Location.path, Path.names_ofSteps fun name hName =>
    (hProper name hName).2.2]
  exact Path.leading_eq_self fun name hName => (hProper name hName).1

theorem Proper.location_path
    (hProper : location.Proper) :
    (Location.path location).location = location := by
  rw [Path.location, hProper.names_path,
    walk_names _ fun name hName => (hProper name hName).2.1,
    List.nil_append]

/- Names as a disk can hold them follow those of a path. -/
theorem Proper.names_extend
    (hProper : location.Proper)
    (path : Path) :
    (path.extend location).names = path.names ++ location := by
  induction location generalizing path with
  | nil => simp [Path.extend]
  | cons name names ih =>
      rcases List.forall_mem_cons.mp hProper with ⟨hName, hNames⟩
      rw [Path.extend, List.foldl_cons, ← Path.extend,
        ih hNames, Path.names_join_name hName.1 hName.2.2,
        List.append_assoc, List.singleton_append]

theorem Proper.location_extend
    (hProper : location.Proper)
    (path : Path) :
    (path.extend location).location = path.location ++ location := by
  rw [Path.location, hProper.names_extend, walk_append,
    walk_names _ fun name hName => (hProper name hName).2.1]
  rfl

------------------------------------------------------------
-- Sizes
------------------------------------------------------------

/- The bytes that some names take up, each with a slash. -/
def size (names : List Name) : Nat :=
  (names.map fun name => name.length + 1).sum

theorem size_append
    (front names : List Name) :
    size (front ++ names) = size front + size names := by
  simp [size]

theorem size_cons
    (name : Name)
    (names : List Name) :
    size (name :: names) = name.length + 1 + size names := by
  simp [size]

theorem size_dropLast_le
    (names : List Name) :
    size names.dropLast ≤ size names := by
  rcases List.eq_nil_or_concat names with rfl | ⟨front, last, rfl⟩
  · exact Nat.le_refl _
  · rw [List.concat_eq_append, List.dropLast_concat,
      size_append]
    exact Nat.le_add_right _ _

theorem size_walk_le
    (location : Location)
    (names : List Name) :
    size (walk location names) ≤ size location + size names := by
  fun_induction walk location names with
  | case1 location => exact Nat.le_add_right _ _
  | case2 location names ih =>
      have hLess := size_dropLast_le location
      rw [size_cons]
      omega
  | case3 location name names hName ih =>
      rw [size_append, size_cons] at ih
      rw [size_cons]
      simp only [size, List.map_nil, List.sum_nil] at ih ⊢
      omega

theorem length_bytes_ofSteps
    {steps : List Name}
    (hSteps : steps ≠ []) :
    (Path.ofSteps steps).bytes.length = size steps := by
  rw [Path.ofSteps, List.length_cons]
  induction steps with
  | nil => exact absurd rfl hSteps
  | cons step steps ih =>
      cases steps with
      | nil => simp [size]
      | cons next steps =>
          have hRest := ih (List.cons_ne_nil next steps)
          rw [size_cons, ← hRest]
          simp [List.intercalate_cons_cons]
          omega

/- The steps of a path take up no more than its bytes. -/
theorem size_steps_le
    (path : Path) :
    size path.steps ≤ path.bytes.length := by
  rcases Text.exists_splitOn_eq_cons Path.slash path.bytes with
    ⟨first, parts, hSplit⟩
  have hBytes := Text.eq_append_flatMap_of_splitOn hSplit
  rw [Path.steps, hSplit, List.drop_succ_cons, List.drop_zero]
  rw [hBytes, List.length_append, List.length_flatMap]
  simp [size]

theorem size_leading_le
    (steps : List Name) :
    size (Path.leading steps) ≤ size steps := by
  induction steps with
  | nil => exact Nat.le_refl _
  | cons step steps ih =>
      cases hStep : Path.isInert step with
      | true =>
          rw [Path.leading_cons_of_inert hStep, size_cons]
          omega
      | false =>
          rw [Path.leading_cons_of_not_inert hStep, size_cons,
            size_cons]
          omega

end Location

end TracedScript
