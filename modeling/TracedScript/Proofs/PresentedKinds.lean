import TracedScript.Proofs.PresentedRecords

/-
  Records of several kinds give the same results for all ways
  to write them down.

  The parts of such a record are set aside and read again as a
  copy, once the kind is known. So two readers have to agree on
  every change: the one that looks for the kind and the one for
  the fields of that kind.

  Main declarations:
    * `Json.Reader.tagged_object_eq_ok_iff`
    * `Json.Reader.tagged_array_eq_ok_iff`
    * `Json.Reader.respects_tagged`
-/

------------------------------------------------------------
-- Tagged Records
------------------------------------------------------------

namespace TracedScript

namespace Json

variable {family : Family} {shape : Shape}
variable {members others : List Member}
variable {key : String} {value other : Draft}

namespace Access

variable {access : Access}

theorem admits_of_isScalar
    (hScalar : value.isScalar = true)
    (hSound : value.sound 0 = true) :
    access.admits value = true := by
  cases access with
  | direct depth => exact Draft.sound_of_isScalar hScalar hSound
  | copied => rfl

theorem admits_of_step
    (hStep : Step family true shape value other)
    (hAdmits : access.admits value = true) :
    access.admits other = true := by
  cases access with
  | direct depth => exact hStep.sound hAdmits
  | copied => rfl

end Access

namespace Reader

variable {κ α : Type}
variable {name : String} {access : Access} {result : α}

/- A tagged record is read from an object with its tag. -/
theorem tagged_object_eq_ok_iff
    {kind : Reader κ}
    {payload : κ → Reader α}
    {closed : Bool} :
    Reader.tagged name key kind payload access
        (.object members closed) = .ok result ↔
      ∃ inner tag found,
        access.enter? = some inner
          ∧ members.lookup (some key) = some tag
          ∧ kind inner tag = .ok found
          ∧ Accepted [key] inner.admits members
          ∧ closed = true
          ∧ payload found .copied (.object members closed) =
            .ok result := by
  simp only [tagged]
  cases hEnter : access.enter? with
  | none => simp
  | some inner =>
      have hFind := map_snd_findMember key members 0
      simp only [bind_eq_ok_iff,
        Outcome.toExcept_checked_eq_ok_iff,
        List.forall_mem_append, memberChecks_done_iff,
        List.mem_singleton, forall_eq, Outcome.check_eq_done_iff,
        List.not_mem_nil, not_false_eq_true, implies_true,
        and_true]
      cases hFound : findMember key members 0 with
      | none =>
          rw [hFound, Option.map_none] at hFind
          simp [← hFind]
      | some place =>
          rw [hFound, Option.map_some] at hFind
          simp [← hFind, Entry.placed_eq_done_iff, and_assoc]

/- A tagged record is read from an array that begins with its tag. -/
theorem tagged_array_eq_ok_iff
    {kind : Reader κ}
    {payload : κ → Reader α}
    {items : List Draft}
    {closed : Bool} :
    Reader.tagged name key kind payload access
        (.array items closed) = .ok result ↔
      ∃ inner tag rest found,
        access.enter? = some inner
          ∧ items = tag :: rest
          ∧ kind inner tag = .ok found
          ∧ (∀ item ∈ rest, inner.admits item = true)
          ∧ closed = true
          ∧ payload found .copied (.array rest closed) =
            .ok result := by
  simp only [tagged]
  cases hEnter : access.enter? with
  | none => simp
  | some inner =>
      cases items with
      | nil =>
          cases closed with
          | true => simp
          | false => simp
      | cons first rest =>
          rw [bind_eq_ok_iff]
          constructor
          · rintro ⟨found, hKind, hResult⟩
            split at hResult
            · next hAdmits =>
                rw [Bool.and_eq_true, List.all_eq_true] at hAdmits
                rcases hAdmits with ⟨rfl, hAdmits⟩
                exact
                  ⟨inner, first, rest, found, rfl, rfl, hKind,
                    hAdmits, rfl, hResult⟩
            · cases hResult
          · rintro
              ⟨_, _, _, found, hInner, hItems, hKind, hAdmits,
                rfl, hResult⟩
            cases hInner
            cases hItems
            refine ⟨found, hKind, ?_⟩
            rw [if_pos (by simpa using hAdmits)]
            exact hResult

/- The name of a kind is a value without parts. -/
theorem isContainer_of_oneOf
    {kinds : List (String × κ)}
    {found : κ}
    (hFound : Reader.oneOf kinds access value = .ok found) :
    value.isContainer = false := by
  cases value with
  | array items closed => cases access <;> cases hFound
  | object members closed => cases access <;> cases hFound
  | _ => rfl

theorem admits_of_oneOf
    {kinds : List (String × κ)}
    {found : κ}
    (hFound : Reader.oneOf kinds access value = .ok found) :
    access.admits value = true := by
  unfold oneOf at hFound
  split at hFound
  · cases access with
    | direct depth => rfl
    | copied => rfl
  · rfl
  · cases hFound

theorem lookup_map_snd
    {β : Type}
    (change : α → β)
    (list : List (String × α)) :
    (list.map fun pair => (pair.1, change pair.2)).lookup key =
      (list.lookup key).map change := by
  induction list with
  | nil => rfl
  | cons pair list ih =>
      rw [List.map_cons, List.lookup_cons, List.lookup_cons, ih]
      cases key == pair.1 with
      | true => rfl
      | false => rfl

/- A kind that is read has the fields of its name or number. -/
theorem fieldsOf?_of_oneOf
    {kinds : List (String × κ)}
    {fields : κ → List (String × Shape)}
    {found : κ}
    (hKinds :
      family.kinds =
        kinds.map fun kind => (kind.1, fields kind.2))
    (hFound : Reader.oneOf kinds access value = .ok found) :
    family.fieldsOf? value = some (fields found) := by
  unfold oneOf at hFound
  split at hFound
  · next given =>
      split at hFound
      · next kind hLookup =>
          cases hFound
          rw [Family.fieldsOf?, hKinds, lookup_map_snd, hLookup,
            Option.map_some]
      · cases hFound
  · next index =>
      split at hFound
      · next kind hKind =>
          cases hFound
          simp [Family.fieldsOf?, hKinds, hKind]
      · cases hFound
  · cases hFound

theorem lookup_cons_eq_none_iff
    {fields : List (String × Shape)}
    {first : String} :
    ((first, shape) :: fields).lookup key = none ↔
      key ≠ first ∧ fields.lookup key = none := by
  rw [List.lookup_cons]
  by_cases hSame : key = first
  · simp [hSame]
  · simp [hSame, beq_eq_false_iff_ne.mpr hSame]

theorem ofMember_cons
    {fields : List (String × Shape)}
    {first : String}
    (hApart : key ≠ first) :
    Shape.ofMember ((first, shape) :: fields) key =
      Shape.ofMember fields key := by
  simp [Shape.ofMember, List.lookup_cons,
    beq_eq_false_iff_ne.mpr hApart]

/- The tag of a record may be set aside like all its members. -/
theorem admits_of_mem
    {kinds : List (String × κ)}
    {inner : Access}
    {tag : Draft}
    {found : κ}
    (hTag : members.lookup (some key) = some tag)
    (hKind : Reader.oneOf kinds inner tag = .ok found)
    (hAccepted : Accepted [key] inner.admits members)
    {member : Member}
    (hMember : member ∈ members) :
    inner.admits member.2 = true := by
  rcases member with ⟨name, value⟩
  rcases hAccepted.each _ hMember with ⟨_, rfl, hCases⟩
  rcases hCases with hSame | hAdmits
  · rw [List.mem_singleton.mp hSame,
      ← hAccepted.lookup_eq_some_iff (List.mem_singleton_self _),
      hTag] at hMember
    cases hMember
    exact admits_of_oneOf hKind
  · exact hAdmits

variable {kinds : List (String × κ)}
variable {payload : κ → Reader α}
variable {fields : κ → List (String × Shape)}

/- The members of a tagged record come in any order. -/
theorem tagged_permuted
    {closed : Bool}
    (hPayload :
      ∀ kind,
        (payload kind).Respects family (.record (fields kind)))
    (hOrder : members.Perm others)
    (hRead :
      Reader.tagged name key (.oneOf kinds) payload access
        (.object members closed) = .ok result) :
    Reader.tagged name key (.oneOf kinds) payload access
      (.object others closed) = .ok result := by
  rcases tagged_object_eq_ok_iff.mp hRead with
    ⟨inner, tag, found, hEnter, hTag, hKind, hAccepted, hClosed,
      hResult⟩
  refine
    tagged_object_eq_ok_iff.mpr
      ⟨inner, tag, found, hEnter, ?_, hKind,
        hAccepted.perm hOrder, hClosed, ?_⟩
  · rw [hAccepted.lookup_perm hOrder (List.mem_singleton_self _)]
    exact hTag
  · exact
      hPayload found true _ _ _ result (.permuted hOrder) hResult

/- A change to a tagged record that is an object. -/
theorem tagged_of_object
    {closed : Bool}
    (hKinds :
      family.kinds =
        kinds.map fun kind => (kind.1, fields kind.2))
    (hPayload :
      ∀ kind,
        (payload kind).Respects family (.record (fields kind)))
    {known : List (String × Shape)}
    (hFields :
      family.fields? (.object members closed) = some known)
    (hStep :
      Step family true (.record ((family.key, .any) :: known))
        (.object members closed) other)
    (hRead :
      Reader.tagged name family.key (.oneOf kinds) payload access
        (.object members closed) = .ok result) :
    Reader.tagged name family.key (.oneOf kinds) payload access
      other = .ok result := by
  rcases tagged_object_eq_ok_iff.mp hRead with
    ⟨inner, tag, found, hEnter, hTag, hKind, hAccepted, hClosed,
      hResult⟩
  have hTagFields := fieldsOf?_of_oneOf hKinds hKind
  have hScalar := isContainer_of_oneOf hKind
  rw [Family.fields?, hTag, Option.bind_some,
    hTagFields] at hFields
  cases hFields
  cases hStep with
  | permuted hOrder => exact tagged_permuted hPayload hOrder hRead
  | @inserted _ _ front back other value _ hKey hOther hSound =>
      rcases lookup_cons_eq_none_iff.mp hKey with
        ⟨hApart, hKnown⟩
      refine
        tagged_object_eq_ok_iff.mpr
          ⟨inner, tag, found, hEnter, ?_, hKind, ?_, hClosed, ?_⟩
      · rw [lookup_insert (Ne.symm hApart)]
        exact hTag
      · exact
          hAccepted.insert (mt List.mem_singleton.mp hApart)
            (Access.admits_of_isScalar hOther (hSound rfl))
      · exact
          hPayload found true _ _ _ _
            (.inserted hKnown hOther hSound) hResult
  | @listed _ _ _ values _ hValues =>
      cases values with
      | nil => cases hValues
      | cons first rest =>
          rw [List.map_cons, List.map_cons,
            List.cons.injEq] at hValues
          rcases hValues with ⟨hFirst, hRest⟩
          cases hTag.symm.trans hFirst
          -- The tag comes first, the rest lists the fields.
          refine
            tagged_array_eq_ok_iff.mpr
              ⟨inner, tag, rest, found, hEnter, rfl, hKind, ?_,
                hClosed, ?_⟩
          · intro item hItem
            rcases Partwise.mem_of_listed hRest hItem with
              ⟨member, hMember, rfl⟩
            exact admits_of_mem hTag hKind hAccepted hMember
          · exact
              hPayload found true _ _ _ _ (.listed hRest) hResult
  | @member _ _ front back changed value other _ hStep =>
      -- The tag stands only once, and it has no parts.
      have hApart : changed ≠ family.key := by
        rintro rfl
        have hSame :=
          (hAccepted.lookup_eq_some_iff
            (List.mem_singleton_self _)).mpr
            (List.mem_append_right front List.mem_cons_self)
        cases hTag.symm.trans hSame
        rw [hStep.isContainer.1] at hScalar
        cases hScalar
      rw [ofMember_cons hApart] at hStep
      refine
        tagged_object_eq_ok_iff.mpr
          ⟨inner, tag, found, hEnter, ?_, hKind, ?_, hClosed, ?_⟩
      · rw [lookup_insert (Ne.symm hApart)] at hTag ⊢
        exact hTag
      · exact
          hAccepted.replace fun _ => Access.admits_of_step hStep
      · exact hPayload found true _ _ _ _ (.member hStep) hResult

/- A change to a tagged record that is an array. -/
theorem tagged_of_array
    {items : List Draft}
    {closed : Bool}
    (hKinds :
      family.kinds =
        kinds.map fun kind => (kind.1, fields kind.2))
    (hPayload :
      ∀ kind,
        (payload kind).Respects family (.record (fields kind)))
    {known : List (String × Shape)}
    (hFields :
      family.fields? (.array items closed) = some known)
    (hStep :
      Step family true (.record ((family.key, .any) :: known))
        (.array items closed) other)
    (hRead :
      Reader.tagged name family.key (.oneOf kinds) payload access
        (.array items closed) = .ok result) :
    Reader.tagged name family.key (.oneOf kinds) payload access
      other = .ok result := by
  rcases tagged_array_eq_ok_iff.mp hRead with
    ⟨inner, tag, rest, found, hEnter, hItems, hKind, hAdmits,
      hClosed, hResult⟩
  cases hStep with
  | @field _ _ front back key shape value other _ hField hStep =>
      cases front with
      | nil =>
          -- The first item is the tag.
          cases hItems
          have hScalar := isContainer_of_oneOf hKind
          rw [hStep.isContainer.1] at hScalar
          cases hScalar
      | cons first front =>
          rw [List.cons_append, List.cons.injEq] at hItems
          rcases hItems with ⟨rfl, rfl⟩
          rw [List.cons_append, Family.fields?,
            fieldsOf?_of_oneOf hKinds hKind] at hFields
          cases hFields
          rw [List.length_cons, List.getElem?_cons_succ] at hField
          rw [forall_mem_middle] at hAdmits
          refine
            tagged_array_eq_ok_iff.mpr
              ⟨inner, first, front ++ other :: back, found, hEnter,
                rfl, hKind, ?_, hClosed, ?_⟩
          · rw [forall_mem_middle]
            exact
              ⟨Access.admits_of_step hStep hAdmits.1, hAdmits.2⟩
          · exact
              hPayload found true _ _ _ _ (.field hField hStep)
                hResult

/-
  A tagged record respects changes if the records of all kinds
  do. Its tag is no value with parts, so it stays as it is.
-/
theorem respects_tagged
    (hKinds :
      family.kinds =
        kinds.map fun kind => (kind.1, fields kind.2))
    (hPayload :
      ∀ kind,
        (payload kind).Respects family (.record (fields kind))) :
    (Reader.tagged name family.key (.oneOf kinds)
      payload).Respects family .tagged := by
  intro strict access value other result hStep hRead
  cases hStep with
  | permuted hOrder => exact tagged_permuted hPayload hOrder hRead
  | ofKind hFields hStep =>
      cases value with
      | object members closed =>
          exact
            tagged_of_object hKinds hPayload hFields hStep hRead
      | array items closed =>
          exact
            tagged_of_array hKinds hPayload hFields hStep hRead
      | _ => cases hRead

end Reader

end Json

end TracedScript
