import TracedScript.Proofs.JsonRecords

/-
  How deep a value nests that was read from a text.

  A value straight from the text has room for as many
  containers as may still be opened there. A copy has room
  for as many as it opens itself: it was found sound when it
  was set aside. Whatever a reader makes of a value can be
  written in the same room.

  Key definitions include:
    * `Json.Draft.nesting`
    * `Json.Access.room`, `Json.Entry.room`
    * `Json.Reader.Fits`: results are written in the room they
      were read from.

  Main declarations:
    * `Json.Draft.nesting_le_of_sound`
    * `Json.Entry.required_le_room`,
      `Json.Entry.defaulted_le_room`
    * `Json.Reader.fits_record`
    * `Json.Reader.fits_tagged`
-/

------------------------------------------------------------
-- Nesting of Drafts
------------------------------------------------------------

namespace TracedScript

namespace Json

namespace Draft

mutual

/- The number of containers that lie inside each other. -/
def nesting : Draft → Nat
  | .array items _ => itemsNesting items + 1
  | .object members _ => membersNesting members + 1
  | _ => 0

/- The greatest nesting of some items. -/
def itemsNesting : List Draft → Nat
  | [] => 0
  | item :: items => max item.nesting (itemsNesting items)

/- The greatest nesting of the values of some members. -/
def membersNesting : List (Option String × Draft) → Nat
  | [] => 0
  | (_, value) :: members =>
      max value.nesting (membersNesting members)

end

theorem itemsNesting_le_iff
    {items : List Draft}
    {bound : Nat} :
    itemsNesting items ≤ bound ↔
      ∀ item ∈ items, item.nesting ≤ bound := by
  induction items with
  | nil => simp [itemsNesting]
  | cons item items ih =>
      rw [itemsNesting, max_le_iff, ih, List.forall_mem_cons]

theorem membersNesting_le_iff
    {members : List Member}
    {bound : Nat} :
    membersNesting members ≤ bound ↔
      ∀ member ∈ members, member.2.nesting ≤ bound := by
  induction members with
  | nil => simp [membersNesting]
  | cons member members ih =>
      rw [membersNesting, max_le_iff, ih, List.forall_mem_cons]

mutual

/- A sound value nests no deeper than it may. -/
theorem nesting_le_of_sound
    (depth : Nat)
    (draft : Draft)
    (hSound : draft.sound depth) :
    draft.nesting ≤ depth := by
  cases draft with
  | array items closed =>
      simp only [sound, Bool.and_eq_true, decide_eq_true_eq]
        at hSound
      have hItems :=
        itemsNesting_le_of_sound (depth - 1) items hSound.2
      rw [nesting]
      omega
  | object members closed =>
      simp only [sound, Bool.and_eq_true, decide_eq_true_eq]
        at hSound
      have hMembers :=
        membersNesting_le_of_sound (depth - 1) members hSound.2
      rw [nesting]
      omega
  | _ => simp [nesting]

theorem itemsNesting_le_of_sound
    (depth : Nat)
    (items : List Draft)
    (hSound : soundItems depth items) :
    itemsNesting items ≤ depth := by
  cases items with
  | nil => simp [itemsNesting]
  | cons item items =>
      rw [soundItems, Bool.and_eq_true] at hSound
      rw [itemsNesting, max_le_iff]
      exact
        ⟨nesting_le_of_sound depth item hSound.1,
          itemsNesting_le_of_sound depth items hSound.2⟩

theorem membersNesting_le_of_sound
    (depth : Nat)
    (members : List (Option String × Draft))
    (hSound : soundMembers depth members) :
    membersNesting members ≤ depth := by
  cases members with
  | nil => simp [membersNesting]
  | cons member members =>
      rcases member with ⟨key, value⟩
      simp only [soundMembers, Bool.and_eq_true] at hSound
      rw [membersNesting, max_le_iff]
      exact
        ⟨nesting_le_of_sound depth value hSound.1.2,
          membersNesting_le_of_sound depth members hSound.2⟩

end

end Draft

------------------------------------------------------------
-- Room
------------------------------------------------------------

namespace Access

/-
  How many containers can lie inside each other in a value
  of this nesting that is reached in this way.
-/
def room : Access → (nesting : Nat) → Nat
  | .direct depth, _ => depth
  | .copied, nesting => nesting

theorem room_mono
    (access : Access)
    {less more : Nat}
    (hLe : less ≤ more) :
    access.room less ≤ access.room more := by
  cases access with
  | direct depth => exact le_refl depth
  | copied => exact hLe

/- The parts of a container have room for one less than it has. -/
theorem room_of_enter?
    {access inner : Access}
    (nesting : Nat)
    (hEnter : access.enter? = some inner) :
    access.room (nesting + 1) = inner.room nesting + 1 := by
  cases access with
  | direct depth =>
      cases depth with
      | zero => cases hEnter
      | succ depth =>
          cases hEnter
          rfl
  | copied =>
      cases hEnter
      rfl

/- What may be set aside lies within its room. -/
theorem nesting_le_room
    {access : Access}
    {draft : Draft}
    (hAdmits : access.admits draft) :
    draft.nesting ≤ access.room draft.nesting := by
  cases access with
  | direct depth =>
      exact Draft.nesting_le_of_sound depth draft hAdmits
  | copied => exact le_refl _

end Access

/- The greatest nesting of the parts of a record. -/
def Parts.nesting : Parts → Nat
  | .named members _ => Draft.membersNesting members
  | .listed items _ => Draft.itemsNesting items

/- The room for each part of a record. -/
def Entry.room (entry : Entry) : Nat :=
  entry.access.room entry.parts.nesting

------------------------------------------------------------
-- Plain Readers
------------------------------------------------------------

/-
  Whatever is read nests no deeper, when it is written, than
  there was room for.
-/
def Reader.Fits
    {α : Type}
    (reader : Reader α)
    (write : α → Value) : Prop :=
  ∀ access draft result,
    reader access draft = .ok result →
      (write result).nesting ≤ access.room draft.nesting

namespace Reader

variable {α : Type} {write : α → Value}

theorem fits_text : Reader.text.Fits .string := by
  intro access draft result _
  simp [Value.nesting]

/- Items that are read one by one fit into the room of them all. -/
theorem itemsNesting_le_room
    {item : Reader α}
    {inner : Access}
    {items : List Draft}
    {results : List α}
    (hItem : item.Fits write)
    (hRead :
      List.Forall₂
        (fun draft result => item inner draft = .ok result)
        items results) :
    Value.itemsNesting (results.map write) ≤
      inner.room (Draft.itemsNesting items) := by
  induction hRead with
  | nil => simp [Value.itemsNesting]
  | @cons draft result items results hFirst _ ih =>
      rw [List.map_cons, Value.itemsNesting, Draft.itemsNesting,
        max_le_iff]
      constructor
      · exact le_trans (hItem inner draft result hFirst)
          (inner.room_mono (le_max_left _ _))
      · exact le_trans ih (inner.room_mono (le_max_right _ _))

theorem fits_list
    {item : Reader α}
    (hItem : item.Fits write) :
    (Reader.list item).Fits
      (fun results => .array (results.map write)) := by
  intro access draft results hRead
  unfold list at hRead
  split at hRead
  · next items closed =>
      split at hRead
      · cases hRead
      · next inner hEnter =>
          rcases bind_eq_ok_iff.mp hRead with
            ⟨values, hValues, hClosed⟩
          cases closed with
          | false => cases hClosed
          | true =>
              cases hClosed
              rw [Value.nesting, Draft.nesting,
                Access.room_of_enter? _ hEnter]
              exact Nat.succ_le_succ
                (itemsNesting_le_room hItem
                  (mapM_eq_ok_iff.mp hValues))
  · cases hRead

theorem fits_optional
    {reader : Reader α}
    (hReader : reader.Fits write) :
    reader.optional.Fits (orNull write) := by
  intro access draft result hRead
  unfold optional at hRead
  split at hRead
  · cases hRead
    simp [orNull, Value.nesting]
  · rcases map_eq_ok_iff.mp hRead with ⟨value, hValue, rfl⟩
    exact hReader access _ value hValue

end Reader

------------------------------------------------------------
-- Records
------------------------------------------------------------

theorem nesting_le_of_findMember
    {key : String}
    {members : List Member}
    {place found : Nat}
    {draft : Draft}
    (hFind : findMember key members place = some (found, draft)) :
    draft.nesting ≤ Draft.membersNesting members := by
  fun_induction findMember key members place with
  | case1 => cases hFind
  | case2 =>
      cases hFind
      rw [Draft.membersNesting]
      exact le_max_left _ _
  | case3 _ _ _ _ _ ih =>
      rw [Draft.membersNesting]
      exact le_max_of_le_right (ih hFind)
  | case4 _ _ _ ih =>
      rw [Draft.membersNesting]
      exact le_max_of_le_right (ih hFind)

namespace Entry

variable {α : Type}
variable {entry : Entry} {key : String}
variable {reader : Reader α} {write : α → Value} {result : α}

/- What is read from a part of a record fits into its room. -/
theorem nesting_le_room_of_part
    {draft : Draft}
    {place : Nat}
    (hReader : reader.Fits write)
    (hPart : draft.nesting ≤ entry.parts.nesting)
    (hRead :
      Outcome.placed place (reader entry.access draft) =
        .done result) :
    (write result).nesting ≤ entry.room := by
  cases hResult : reader entry.access draft with
  | error fault =>
      rw [hResult] at hRead
      cases hRead
  | ok value =>
      rw [hResult] at hRead
      cases hRead
      exact le_trans (hReader entry.access draft result hResult)
        (entry.access.room_mono hPart)

theorem field?_le_room
    (hReader : reader.Fits write)
    (hField : entry.field? key reader = some (.done result)) :
    (write result).nesting ≤ entry.room := by
  rcases entry with
    ⟨layout, access, ⟨members, closed⟩ | ⟨items, closed⟩⟩
  · rcases Option.map_eq_some_iff.mp hField with
      ⟨⟨place, draft⟩, hFind, hRead⟩
    exact nesting_le_room_of_part hReader
      (nesting_le_of_findMember hFind) hRead
  · simp only [field?] at hField
    split at hField
    · next draft hDraft =>
        have hPart : draft.nesting ≤ Draft.itemsNesting items :=
          Draft.itemsNesting_le_iff.mp (le_refl _) draft
            (List.mem_of_getElem? hDraft)
        exact nesting_le_room_of_part hReader hPart
          (Option.some.inj hField)
    · split at hField
      · cases hField
      · cases hField

theorem required_le_room
    (hReader : reader.Fits write)
    (hField : entry.required key reader = .done result) :
    (write result).nesting ≤ entry.room := by
  cases hFound : entry.field? key reader with
  | none =>
      rw [required, hFound] at hField
      cases hField
  | some outcome =>
      rw [required, hFound] at hField
      cases hField
      exact field?_le_room hReader hFound

/- A field with a default fits if its default does. -/
theorem defaulted_le_room
    {default : α}
    (hReader : reader.Fits write)
    (hDefault : (write default).nesting ≤ entry.room)
    (hField :
      entry.defaulted key reader default = .done result) :
    (write result).nesting ≤ entry.room := by
  cases hFound : entry.field? key reader with
  | none =>
      rw [defaulted, hFound] at hField
      cases hField
      exact hDefault
  | some outcome =>
      rw [defaulted, hFound] at hField
      cases hField
      exact field?_le_room hReader hFound

end Entry

namespace Reader

variable {α : Type}

/- The fields of a record are read from its parts. -/
theorem exists_parts_of_record
    {layout : Layout}
    {fields : Entry → Outcome α}
    {access : Access}
    {draft : Draft}
    {result : α}
    (hRead :
      Reader.record layout fields access draft = .ok result) :
    ∃ inner parts,
      access.enter? = some inner
        ∧ draft.nesting = parts.nesting + 1
        ∧ fields ⟨layout, inner, parts⟩ = .done result := by
  cases draft with
  | object members closed =>
      simp only [record] at hRead
      split at hRead
      · cases hRead
      · next inner hEnter =>
          rw [Outcome.toExcept_checked_eq_ok_iff] at hRead
          exact ⟨inner, .named members closed, hEnter, by
            rw [Draft.nesting, Parts.nesting], hRead.1⟩
  | array items closed =>
      simp only [record] at hRead
      split at hRead
      · cases hRead
      · next inner hEnter =>
          rw [Outcome.toExcept_checked_eq_ok_iff] at hRead
          exact ⟨inner, .listed items closed, hEnter, by
            rw [Draft.nesting, Parts.nesting], hRead.1⟩
  | _ => cases hRead

/- A record has one container more than its fields have room for. -/
theorem fits_record
    {layout : Layout}
    {fields : Entry → Outcome α}
    {write : α → Value}
    (hFields :
      ∀ entry result, fields entry = .done result →
        (write result).nesting ≤ entry.room + 1) :
    (Reader.record layout fields).Fits write := by
  intro access draft result hRead
  rcases exists_parts_of_record hRead with
    ⟨inner, parts, hEnter, hNesting, hResult⟩
  rw [hNesting, Access.room_of_enter? _ hEnter]
  exact hFields _ result hResult

------------------------------------------------------------
-- Tagged Records
------------------------------------------------------------

/- The kind of a record is no container. -/
theorem nesting_of_placed_oneOf
    {κ : Type}
    {kinds : List (String × κ)}
    {access : Access}
    {draft : Draft}
    {place : Nat}
    {kind : κ}
    (hRead :
      Outcome.placed place (oneOf kinds access draft) =
        .done kind) :
    draft.nesting = 0 := by
  unfold oneOf at hRead
  split at hRead
  · rw [Draft.nesting] <;> nofun
  · rw [Draft.nesting] <;> nofun
  · cases hRead

end Reader

/-
  If all members of an object pass the checks for one known
  key, then each of them is accepted or is the one with that
  key.
-/
theorem accepts_or_findMember
    {key : String}
    {accepts : Draft → Bool}
    {members : List Member}
    {seen : List String}
    {place : Nat}
    (hChecks :
      ∀ check ∈ memberChecks [key] accepts members seen place,
        check = .done ())
    {member : Member}
    (hMember : member ∈ members) :
    accepts member.2
      ∨ (key ∉ seen
        ∧ ∃ found,
          findMember key members place =
            some (found, member.2)) := by
  induction members generalizing seen place with
  | nil => cases hMember
  | cons first members ih =>
      rcases first with ⟨_ | name, value⟩
      · rw [memberChecks, List.forall_mem_cons] at hChecks
        cases hChecks.1
      · rw [memberChecks] at hChecks
        by_cases hName : name = key
        · subst hName
          rw [if_pos (by simp), List.forall_mem_cons,
            Outcome.check_eq_done_iff] at hChecks
          rcases List.mem_cons.mp hMember with rfl | hRest
          · right
            refine ⟨by simpa using hChecks.1, place, ?_⟩
            rw [findMember, if_pos rfl]
          · -- the key was seen before the rest
            rcases ih hChecks.2 hRest with hAccepts | hFound
            · exact Or.inl hAccepts
            · exact absurd List.mem_cons_self hFound.1
        · rw [if_neg (by simpa using hName),
            List.forall_mem_cons,
            Outcome.check_eq_done_iff] at hChecks
          rcases List.mem_cons.mp hMember with rfl | hRest
          · exact Or.inl hChecks.1
          · rw [findMember, if_neg hName]
            exact ih hChecks.2 hRest

namespace Reader

variable {α κ : Type}

/-
  A tagged record fits if the records of each kind do: what
  was set aside opens no more containers than there was room
  for.
-/
theorem fits_tagged
    {kinds : List (String × κ)}
    {payload : κ → Reader α}
    {write : α → Value}
    (name key : String)
    (hPayload : ∀ kind, (payload kind).Fits write) :
    (Reader.tagged name key (.oneOf kinds) payload).Fits
      write := by
  intro access draft result hRead
  cases draft with
  | object members closed =>
      simp only [tagged] at hRead
      split at hRead
      · cases hRead
      · next inner hEnter =>
          rcases bind_eq_ok_iff.mp hRead with
            ⟨kind, hKind, hResult⟩
          rw [Outcome.toExcept_checked_eq_ok_iff,
            List.forall_mem_append] at hKind
          rcases hKind with ⟨hTag, hChecks, _⟩
          have hMembers :
              Draft.membersNesting members ≤
                inner.room (Draft.membersNesting members) := by
            rw [Draft.membersNesting_le_iff]
            intro member hMember
            rcases accepts_or_findMember hChecks hMember with
              hAdmits | ⟨_, place, hFind⟩
            · exact le_trans (Access.nesting_le_room hAdmits)
                (inner.room_mono
                  (Draft.membersNesting_le_iff.mp (le_refl _)
                    member hMember))
            · rw [hFind] at hTag
              rw [nesting_of_placed_oneOf hTag]
              exact Nat.zero_le _
          have hWritten := hPayload kind _ _ _ hResult
          rw [Draft.nesting] at hWritten ⊢
          rw [Access.room_of_enter? _ hEnter]
          exact le_trans hWritten (Nat.succ_le_succ hMembers)
  | array items closed =>
      simp only [tagged] at hRead
      split at hRead
      · cases hRead
      · split at hRead
        · cases hRead
        · cases hRead
      · next inner first rest hEnter =>
          rcases bind_eq_ok_iff.mp hRead with
            ⟨kind, _, hRest⟩
          split at hRest
          · next hAdmits =>
              rw [Bool.and_eq_true, List.all_eq_true] at hAdmits
              have hItems :
                  Draft.itemsNesting rest ≤
                    inner.room
                      (Draft.itemsNesting (first :: rest)) := by
                rw [Draft.itemsNesting_le_iff]
                intro item hItem
                exact le_trans
                  (Access.nesting_le_room
                    (hAdmits.2 item hItem))
                  (inner.room_mono
                    (Draft.itemsNesting_le_iff.mp (le_refl _)
                      item (List.mem_cons_of_mem first hItem)))
              have hWritten := hPayload kind _ _ _ hRest
              rw [Draft.nesting] at hWritten ⊢
              rw [Access.room_of_enter? _ hEnter]
              exact le_trans hWritten (Nat.succ_le_succ hItems)
          · cases hRest
  | _ => cases hRead

end Reader

end Json

end TracedScript
