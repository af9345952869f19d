import TracedScript.Json.Tagged
import TracedScript.Proofs.JsonText
import TracedScript.Proofs.Results

/-
  Reading what is written, for the values that readers are
  made for.

  A reader is given the draft of a written value and the way
  in which it is reached. It reads the value wherever the
  nesting is allowed: straight from the text only as deep as
  the text may be, in a copy always.

  Key definitions include:
    * `Json.Access.Allows`
    * `Json.Reader.Reads`: a value is read as a result.
    * `Json.Entry.ofMembers`: a record with written members.

  Main declarations:
    * `Json.Reader.reads_list`
    * `Json.Entry.required_ofMembers`,
      `Json.Entry.defaulted_ofMembers`,
      `Json.Entry.optional_ofMembers`
    * `Json.Reader.reads_record`
    * `Json.Reader.reads_tagged`
-/

------------------------------------------------------------
-- Nesting
------------------------------------------------------------

namespace TracedScript

namespace Json

/- A value of this nesting may be reached in this way. -/
def Access.Allows : Access → (nesting : Nat) → Prop
  | .direct depth, nesting => nesting ≤ depth
  | .copied, _ => True

theorem Access.Allows.mono
    {access : Access}
    {less more : Nat}
    (hAllows : access.Allows more)
    (hLe : less ≤ more) :
    access.Allows less := by
  cases access with
  | direct depth => exact le_trans hLe hAllows
  | copied => trivial

/- A container that is allowed can be opened. -/
theorem Access.Allows.enter?
    {access : Access}
    {nesting : Nat}
    (hAllows : access.Allows (nesting + 1)) :
    ∃ inner,
      access.enter? = some inner ∧ inner.Allows nesting := by
  cases access with
  | direct depth =>
      cases depth with
      | zero => exact absurd hAllows (Nat.not_succ_le_zero _)
      | succ depth =>
          exact ⟨.direct depth, rfl, Nat.le_of_succ_le_succ hAllows⟩
  | copied => exact ⟨.copied, rfl, trivial⟩

theorem itemsNesting_le_iff
    {items : List Value}
    {bound : Nat} :
    Value.itemsNesting items ≤ bound ↔
      ∀ item ∈ items, item.nesting ≤ bound := by
  induction items with
  | nil => simp [Value.itemsNesting]
  | cons item items ih =>
      rw [Value.itemsNesting, max_le_iff, ih,
        List.forall_mem_cons]

theorem membersNesting_le_iff
    {members : List (String × Value)}
    {bound : Nat} :
    Value.membersNesting members ≤ bound ↔
      ∀ member ∈ members, member.2.nesting ≤ bound := by
  induction members with
  | nil => simp [Value.membersNesting]
  | cons member members ih =>
      rw [Value.membersNesting, max_le_iff, ih,
        List.forall_mem_cons]

theorem nesting_le_of_lookup
    {key : String}
    {value : Value}
    {members : List (String × Value)}
    (hLookup : members.lookup key = some value) :
    value.nesting ≤ Value.membersNesting members := by
  rcases List.lookup_eq_some_iff.mp hLookup with
    ⟨before, after, rfl, _⟩
  have hMember :
      (key, value) ∈ before ++ (key, value) :: after := by
    simp
  exact membersNesting_le_iff.mp (le_refl _) _ hMember

------------------------------------------------------------
-- Drafts of Values
------------------------------------------------------------

/- A value is written in full. -/
theorem valueInduction_grammatical :
    ValueInduction
      (fun value => value.draft.grammatical)
      (fun items =>
        Draft.grammaticalItems (Value.itemDrafts items))
      (fun members =>
        Draft.grammaticalMembers
          (Value.memberDrafts members)) where
  null := by simp [Value.draft, Draft.grammatical]
  bool value := by simp [Value.draft, Draft.grammatical]
  number value := by simp [Value.draft, Draft.grammatical]
  string value := by simp [Value.draft, Draft.grammatical]
  array items hItems := by
    simp [Value.draft, Draft.grammatical, hItems]
  object members hMembers := by
    simp [Value.draft, Draft.grammatical, hMembers]
  noItems := by
    simp [Value.itemDrafts, Draft.grammaticalItems]
  item value items hValue hItems := by
    simp [Value.itemDrafts, Draft.grammaticalItems, hValue,
      hItems]
  noMembers := by
    simp [Value.memberDrafts, Draft.grammaticalMembers]
  member key value members hValue hMembers := by
    simp [Value.memberDrafts, Draft.grammaticalMembers, hValue,
      hMembers]

/- A value is sound at any depth that its nesting leaves. -/
theorem valueInduction_sound :
    ValueInduction
      (fun value => ∀ depth, value.nesting ≤ depth →
        value.draft.sound depth)
      (fun items => ∀ depth, Value.itemsNesting items ≤ depth →
        Draft.soundItems depth (Value.itemDrafts items))
      (fun members => ∀ depth,
        Value.membersNesting members ≤ depth →
          Draft.soundMembers depth
            (Value.memberDrafts members)) where
  null depth _ := by simp [Value.draft, Draft.sound]
  bool value depth _ := by simp [Value.draft, Draft.sound]
  number value depth _ := by simp [Value.draft, Draft.sound]
  string value depth _ := by simp [Value.draft, Draft.sound]
  array items hItems depth hDepth := by
    rw [Value.nesting] at hDepth
    have hPos : 0 < depth := by omega
    simp [Value.draft, Draft.sound, hPos,
      hItems (depth - 1) (by omega)]
  object members hMembers depth hDepth := by
    rw [Value.nesting] at hDepth
    have hPos : 0 < depth := by omega
    simp [Value.draft, Draft.sound, hPos,
      hMembers (depth - 1) (by omega)]
  noItems depth _ := by
    simp [Value.itemDrafts, Draft.soundItems]
  item value items hValue hItems depth hDepth := by
    rw [Value.itemsNesting, max_le_iff] at hDepth
    simp [Value.itemDrafts, Draft.soundItems,
      hValue depth hDepth.1, hItems depth hDepth.2]
  noMembers depth _ := by
    simp [Value.memberDrafts, Draft.soundMembers]
  member key value members hValue hMembers depth hDepth := by
    rw [Value.membersNesting, max_le_iff] at hDepth
    simp [Value.memberDrafts, Draft.soundMembers,
      hValue depth hDepth.1, hMembers depth hDepth.2]

/- A value that is allowed may be set aside. -/
theorem Access.Allows.admits
    {access : Access}
    {value : Value}
    (hAllows : access.Allows value.nesting) :
    access.admits value.draft := by
  cases access with
  | direct depth =>
      exact valueInduction_sound.value value depth hAllows
  | copied => rfl

theorem eq_null_of_draft
    {value : Value}
    (hDraft : value.draft = .null) :
    value = .null := by
  cases value with
  | null => rfl
  | _ =>
      rw [Value.draft] at hDraft
      cases hDraft

theorem itemDrafts_eq_map
    (items : List Value) :
    Value.itemDrafts items = items.map Value.draft := by
  induction items with
  | nil => rw [Value.itemDrafts, List.map_nil]
  | cons item items ih =>
      rw [Value.itemDrafts, List.map_cons, ih]

------------------------------------------------------------
-- Plain Readers
------------------------------------------------------------

/- A written value is read as the result, where it is allowed. -/
def Reader.Reads
    {α : Type}
    (reader : Reader α)
    (value : Value)
    (result : α) : Prop :=
  ∀ access : Access, access.Allows value.nesting →
    reader access value.draft = .ok result

namespace Reader

variable {α : Type}

theorem reads_text
    (text : String) :
    Reader.text.Reads (.string text) text := by
  intro access _
  rw [Value.draft]
  rfl

theorem reads_boolean
    (value : Bool) :
    Reader.boolean.Reads (.bool value) value := by
  intro access _
  rw [Value.draft]
  rfl

theorem reads_word32
    (word : UInt32) :
    Reader.word32.Reads (.number word.toNat) word := by
  intro access _
  have hSize : word.toNat < UInt32.size := word.toNat_lt
  rw [Value.draft, word32, if_pos hSize, UInt32.ofNat_toNat]

theorem reads_list
    {item : Reader α}
    {values : List Value}
    {results : List α}
    (hItems : List.Forall₂ item.Reads values results) :
    (Reader.list item).Reads (.array values) results := by
  intro access hAllows
  rw [Value.nesting] at hAllows
  rcases hAllows.enter? with ⟨inner, hEnter, hInner⟩
  have hRead :
      (values.map Value.draft).mapM (item inner) =
        .ok results := by
    rw [mapM_eq_ok_iff, List.forall₂_map_left_iff]
    have hAll :
        List.Forall₂
          (fun value result =>
            value ∈ values ∧ item.Reads value result)
          values results :=
      (List.forall₂_and_left _ _).mpr
        ⟨fun _ hValue => hValue, hItems⟩
    refine hAll.imp ?_
    rintro value result ⟨hValue, hReads⟩
    exact hReads inner
      (hInner.mono
        (itemsNesting_le_iff.mp (le_refl _) value hValue))
  simp only [list, Value.draft, hEnter, itemDrafts_eq_map, hRead]
  rfl

/- Items that are all written in one way are read in one way. -/
theorem reads_list_map
    {item : Reader α}
    {write : α → Value}
    (hItem : ∀ a, item.Reads (write a) a)
    (values : List α) :
    (Reader.list item).Reads (.array (values.map write))
      values := by
  apply reads_list
  rw [List.forall₂_map_left_iff, List.forall₂_same]
  intro value _
  exact hItem value

theorem reads_texts
    (values : List String) :
    (Reader.list .text).Reads (texts values) values :=
  reads_list_map reads_text values

theorem reads_optional_some
    {reader : Reader α}
    {value : Value}
    {result : α}
    (hReads : reader.Reads value result)
    (hNull : value ≠ .null) :
    reader.optional.Reads value (some result) := by
  intro access hAllows
  have hValue := hReads access hAllows
  unfold optional
  split
  · next hDraft =>
      exact absurd (eq_null_of_draft hDraft) hNull
  · rw [hValue]
    rfl

theorem reads_orNull
    {reader : Reader α}
    {write : α → Value}
    (hReads : ∀ a, reader.Reads (write a) a)
    (hNull : ∀ a, write a ≠ .null)
    (value : Option α) :
    reader.optional.Reads (orNull write value) value := by
  cases value with
  | none =>
      intro access _
      rw [orNull, Value.draft]
      rfl
  | some a => exact reads_optional_some (hReads a) (hNull a)

end Reader

------------------------------------------------------------
-- Outcomes
------------------------------------------------------------

namespace Outcome

variable {α β : Type}

theorem map_eq_done_iff
    {change : α → β}
    {outcome : Outcome α}
    {result : β} :
    change <$> outcome = .done result ↔
      ∃ value, outcome = .done value ∧ change value = result := by
  cases outcome with
  | done value =>
      change Outcome.done (change value) = _ ↔ _
      simp
  | failed problem =>
      change Outcome.failed problem = _ ↔ _
      simp

theorem seq_eq_done_iff
    {change : Outcome (α → β)}
    {outcome : Outcome α}
    {result : β} :
    change <*> outcome = .done result ↔
      ∃ function value,
        change = .done function
          ∧ outcome = .done value
          ∧ function value = result := by
  cases change with
  | done function =>
      cases outcome with
      | done value =>
          change Outcome.done (function value) = _ ↔ _
          simp
      | failed problem =>
          change Outcome.failed problem = _ ↔ _
          simp
  | failed problem =>
      cases outcome with
      | done value =>
          change Outcome.failed problem = _ ↔ _
          simp
      | failed other =>
          change Outcome.failed (problem.earlier other) = _ ↔ _
          simp

theorem map_done
    {change : α → β}
    {outcome : Outcome α}
    {value : α}
    (hOutcome : outcome = .done value) :
    change <$> outcome = .done (change value) :=
  map_eq_done_iff.mpr ⟨value, hOutcome, rfl⟩

theorem seq_done
    {change : Outcome (α → β)}
    {outcome : Outcome α}
    {function : α → β}
    {value : α}
    (hChange : change = .done function)
    (hOutcome : outcome = .done value) :
    change <*> outcome = .done (function value) :=
  seq_eq_done_iff.mpr ⟨function, value, hChange, hOutcome, rfl⟩

/- Checks pass together if each of them does. -/
theorem all_eq_done_iff
    (checks : List (Outcome Unit)) :
    all checks = .done () ↔ ∀ check ∈ checks, check = .done () := by
  induction checks with
  | nil => simp [all]
  | cons check checks ih =>
      rw [all, seq_eq_done_iff, List.forall_mem_cons, ← ih]
      constructor
      · rintro ⟨function, value, hCheck, hChecks, _⟩
        rcases map_eq_done_iff.mp hCheck with ⟨_, hFirst, _⟩
        exact ⟨hFirst, hChecks⟩
      · rintro ⟨hCheck, hChecks⟩
        exact ⟨_, (), map_done hCheck, hChecks, rfl⟩

theorem check_eq_done_iff
    {condition : Bool}
    {place : Nat}
    {fault : Fault} :
    check condition place fault = .done () ↔
      condition = true := by
  cases condition with
  | true => simp [check]
  | false => simp [check]

theorem toExcept_eq_ok_iff
    {outcome : Outcome α}
    {value : α} :
    outcome.toExcept = .ok value ↔ outcome = .done value := by
  cases outcome with
  | done other => simp [toExcept]
  | failed problem => simp [toExcept]

/- A part is read, and all checks of the whole pass. -/
theorem toExcept_checked_eq_ok_iff
    {outcome : Outcome α}
    {checks : List (Outcome Unit)}
    {value : α} :
    ((fun value _ => value) <$> outcome <*> all checks).toExcept =
        .ok value ↔
      outcome = .done value
        ∧ ∀ check ∈ checks, check = .done () := by
  rw [toExcept_eq_ok_iff, seq_eq_done_iff, ← all_eq_done_iff]
  constructor
  · rintro ⟨function, _, hFirst, hChecks, hResult⟩
    rcases map_eq_done_iff.mp hFirst with ⟨first, hValue, rfl⟩
    cases hResult
    exact ⟨hValue, hChecks⟩
  · rintro ⟨hValue, hChecks⟩
    exact ⟨_, (), map_done hValue, hChecks, rfl⟩

end Outcome

------------------------------------------------------------
-- Members
------------------------------------------------------------

/- A member is found by its key. -/
theorem exists_findMember_of_lookup
    {key : String}
    {value : Value}
    {members : List (String × Value)}
    (place : Nat)
    (hLookup : members.lookup key = some value) :
    ∃ found,
      findMember key (Value.memberDrafts members) place =
        some (found, value.draft) := by
  induction members generalizing place with
  | nil => cases hLookup
  | cons member members ih =>
      rcases member with ⟨name, first⟩
      rw [Value.memberDrafts, findMember]
      rw [List.lookup_cons] at hLookup
      by_cases hName : name = key
      · subst hName
        rw [beq_self_eq_true] at hLookup
        cases hLookup
        exact ⟨place, by simp⟩
      · have hOther : (key == name) = false := by
          simpa using fun hSame => hName (Eq.symm hSame)
        rw [hOther] at hLookup
        rw [if_neg hName]
        exact ih (place + 1) hLookup

theorem findMember_of_lookup_eq_none
    {key : String}
    {members : List (String × Value)}
    (place : Nat)
    (hLookup : members.lookup key = none) :
    findMember key (Value.memberDrafts members) place =
      none := by
  induction members generalizing place with
  | nil => rw [Value.memberDrafts, findMember]
  | cons member members ih =>
      rcases member with ⟨name, first⟩
      rw [Value.memberDrafts, findMember]
      rw [List.lookup_cons] at hLookup
      split at hLookup
      · cases hLookup
      · next hOther =>
          have hName : name ≠ key := by
            rintro rfl
            simp at hOther
          rw [if_neg hName]
          exact ih (place + 1) hLookup

/-
  Members with different keys pass the checks if the values
  are accepted, whichever of the keys are known.
-/
theorem memberChecks_memberDrafts
    {known seen : List String}
    {accepts : Draft → Bool}
    {members : List (String × Value)}
    (place : Nat)
    (hKeys : (members.map Prod.fst).Nodup)
    (hSeen : ∀ member ∈ members, member.1 ∉ seen)
    (hAccepts : ∀ member ∈ members, accepts member.2.draft) :
    ∀ check ∈
        memberChecks known accepts (Value.memberDrafts members)
          seen place,
      check = .done () := by
  induction members generalizing seen place with
  | nil =>
      rw [Value.memberDrafts, memberChecks]
      exact List.forall_mem_nil _
  | cons member members ih =>
      rcases member with ⟨key, value⟩
      rw [List.map_cons, List.nodup_cons] at hKeys
      rw [List.forall_mem_cons] at hSeen hAccepts
      rw [Value.memberDrafts, memberChecks]
      have hFresh :
          ∀ member ∈ members, member.1 ∉ key :: seen := by
        intro member hMember hSame
        rcases List.mem_cons.mp hSame with hKey | hBefore
        · exact hKeys.1
            (List.mem_map.mpr ⟨member, hMember, hKey⟩)
        · exact hSeen.2 member hMember hBefore
      split
      · rw [List.forall_mem_cons, Outcome.check_eq_done_iff]
        refine ⟨?_, ih (place + 1) hKeys.2 hFresh hAccepts.2⟩
        simpa using hSeen.1
      · rw [List.forall_mem_cons, Outcome.check_eq_done_iff]
        exact
          ⟨hAccepts.1, ih (place + 1) hKeys.2 hSeen.2 hAccepts.2⟩

------------------------------------------------------------
-- Records
------------------------------------------------------------

namespace Entry

/- A record with the drafts of some members. -/
def ofMembers
    (layout : Layout)
    (inner : Access)
    (members : List (String × Value)) :
    Entry :=
  ⟨layout, inner, .named (Value.memberDrafts members) true⟩

variable {α : Type}
variable {layout : Layout} {inner : Access}
variable {members : List (String × Value)}
variable {key : String} {value : Value}
variable {reader : Reader α} {result : α}

/- A field that is there is read. -/
theorem field?_ofMembers
    (hInner : inner.Allows (Value.membersNesting members))
    (hLookup : members.lookup key = some value)
    (hReads : reader.Reads value result) :
    (ofMembers layout inner members).field? key reader =
      some (.done result) := by
  rcases exists_findMember_of_lookup 0 hLookup with
    ⟨place, hFind⟩
  have hValue :=
    hReads inner (hInner.mono (nesting_le_of_lookup hLookup))
  simp [field?, ofMembers, hFind, hValue, Outcome.placed]

theorem required_ofMembers
    (hInner : inner.Allows (Value.membersNesting members))
    (hLookup : members.lookup key = some value)
    (hReads : reader.Reads value result) :
    (ofMembers layout inner members).required key reader =
      .done result := by
  rw [required, field?_ofMembers hInner hLookup hReads]
  rfl

theorem defaulted_ofMembers
    (hInner : inner.Allows (Value.membersNesting members))
    (hLookup : members.lookup key = some value)
    (hReads : reader.Reads value result)
    (default : α) :
    (ofMembers layout inner members).defaulted key reader
        default =
      .done result := by
  rw [defaulted, field?_ofMembers hInner hLookup hReads]
  rfl

/- A field that is not there takes its default. -/
theorem defaulted_ofMembers_of_absent
    (hLookup : members.lookup key = none)
    (default : α) :
    (ofMembers layout inner members).defaulted key reader
        default =
      .done default := by
  have hFind := findMember_of_lookup_eq_none 0 hLookup
  simp [defaulted, field?, ofMembers, hFind]

/- A field that may be left out is there if it has a value. -/
theorem optional_ofMembers
    {write : α → Value}
    {found : Option α}
    (hInner : inner.Allows (Value.membersNesting members))
    (hLookup : members.lookup key = found.map write)
    (hReads : ∀ a, reader.Reads (write a) a)
    (hNull : ∀ a, write a ≠ .null) :
    (ofMembers layout inner members).optional key reader =
      .done found := by
  cases found with
  | none => exact defaulted_ofMembers_of_absent hLookup none
  | some a =>
      exact defaulted_ofMembers hInner hLookup
        (Reader.reads_optional_some (hReads a) (hNull a)) none

end Entry

namespace Reader

variable {α : Type}

/- A record is read if its fields are read from its members. -/
theorem reads_record
    {layout : Layout}
    {fields : Entry → Outcome α}
    {members : List (String × Value)}
    {result : α}
    (hKeys : (members.map Prod.fst).Nodup)
    (hFields :
      ∀ inner : Access,
        inner.Allows (Value.membersNesting members) →
          fields (.ofMembers layout inner members) =
            .done result) :
    (Reader.record layout fields).Reads (.object members)
      result := by
  intro access hAllows
  rw [Value.nesting] at hAllows
  rcases hAllows.enter? with ⟨inner, hEnter, hInner⟩
  simp only [record, Value.draft, hEnter]
  rw [Outcome.toExcept_checked_eq_ok_iff]
  refine ⟨hFields inner hInner, ?_⟩
  rw [Entry.checks, List.forall_mem_append]
  constructor
  · apply memberChecks_memberDrafts 0 hKeys
    · intro member _
      exact List.not_mem_nil
    · intro member _
      exact valueInduction_grammatical.value member.2
  · intro check hCheck
    rw [List.mem_singleton.mp hCheck, Outcome.check_eq_done_iff]

/-
  A record of some kind is read if the reader of that kind
  reads it. The kind itself is then a key like any other that
  the record does not know.
-/
theorem reads_tagged
    {κ : Type}
    {kinds : List (String × κ)}
    {payload : κ → Reader α}
    {key tag : String}
    {kind : κ}
    {members : List (String × Value)}
    {result : α}
    (name : String)
    (hKind : kinds.lookup tag = some kind)
    (hKeys :
      (((key, Value.string tag) :: members).map Prod.fst).Nodup)
    (hPayload :
      (payload kind).Reads
        (.object ((key, .string tag) :: members)) result) :
    (Reader.tagged name key (.oneOf kinds) payload).Reads
      (.object ((key, .string tag) :: members)) result := by
  intro access hAllows
  have hResult := hPayload .copied trivial
  rw [Value.nesting] at hAllows
  rcases hAllows.enter? with ⟨inner, hEnter, hInner⟩
  have hFind :
      findMember key
          (Value.memberDrafts ((key, .string tag) :: members))
          0 =
        some (0, .string (some tag)) := by
    simp [Value.memberDrafts, Value.draft, findMember]
  have hTag :
      oneOf kinds inner (.string (some tag)) = .ok kind := by
    simp [oneOf, hKind]
  have hChecks :
      ∀ check ∈
          memberChecks [key] inner.admits
              (Value.memberDrafts
                ((key, .string tag) :: members)) [] 0
            ++ [Outcome.check true
              (Value.memberDrafts
                ((key, .string tag) :: members)).length
              .malformed],
        check = .done () := by
    rw [List.forall_mem_append]
    constructor
    · apply memberChecks_memberDrafts 0 hKeys
      · intro member _
        exact List.not_mem_nil
      · intro member hMember
        exact
          (hInner.mono
            (membersNesting_le_iff.mp (le_refl _) member
              hMember)).admits
    · intro check hCheck
      rw [List.mem_singleton.mp hCheck,
        Outcome.check_eq_done_iff]
  rw [Value.draft] at hResult ⊢
  simp only [tagged, hEnter, hFind, hTag, Outcome.placed]
  rw [bind_eq_ok_iff]
  refine ⟨kind, ?_, hResult⟩
  rw [Outcome.toExcept_checked_eq_ok_iff]
  exact ⟨rfl, hChecks⟩

end Reader

end Json

end TracedScript
