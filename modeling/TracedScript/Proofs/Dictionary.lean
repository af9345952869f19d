import TracedScript.Proofs.Distinct

/-
  Dictionaries that have the places of items in a list.

  A container that has to find the place of an item quickly
  keeps it in a dictionary beside the list of items. Nothing but
  the way in which both are filled makes them agree.

  Key definitions include:
    * `Dictionary.Indexes`: a dictionary and a list that agree.

  Main declarations:
    * `Dictionary.Indexes.concat`: a new item at the end.
    * `Dictionary.Indexes.lookup_of_mem`
    * `Dictionary.Indexes.lookup_eq_none_iff`
    * `Dictionary.map_modify_idxOf`: changing what stands at the
      place of an item.
-/

------------------------------------------------------------
-- Dictionaries of Places
------------------------------------------------------------

namespace TracedScript

namespace Dictionary

variable {α β : Type} [DecidableEq α]

/-
  No item comes twice in the list, and the dictionary has the
  number of the place of each item and nothing else.
-/
structure Indexes
    (number : Nat → β)
    (items : List α)
    (entries : List (α × β)) : Prop where
  distinct : items.Nodup
  lookup :
    ∀ item,
      entries.lookup item = (items.idxOf? item).map number

namespace Indexes

variable {number : Nat → β} {items : List α} {entries : List (α × β)}

theorem nil
    (number : Nat → β) :
    Indexes number ([] : List α) [] where
  distinct := List.nodup_nil
  lookup _ := rfl

theorem lookup_eq_none_iff
    (hIndexes : Indexes number items entries)
    (item : α) :
    entries.lookup item = none ↔ item ∉ items := by
  rw [hIndexes.lookup, Option.map_eq_none_iff,
    List.idxOf?_eq_none_iff]

theorem lookup_of_mem
    (hIndexes : Indexes number items entries)
    {item : α}
    (hItem : item ∈ items) :
    entries.lookup item = some (number (items.idxOf item)) := by
  rw [hIndexes.lookup, idxOf?_of_mem hItem, Option.map_some]

/- A new item goes to the end of the list and gets its place. -/
theorem concat
    (hIndexes : Indexes number items entries)
    {item : α}
    (hNew : item ∉ items) :
    Indexes number (items ++ [item])
      ((item, number items.length) :: entries) := by
  constructor
  · rw [← List.concat_eq_append]
    exact hIndexes.distinct.concat hNew
  · intro other
    rw [List.lookup_cons]
    by_cases hOther : other = item
    · rw [hOther, beq_self_eq_true,
        idxOf?_of_mem List.mem_concat_self,
        List.idxOf_append_of_notMem hNew, List.idxOf_cons_self]
      rfl
    · rw [beq_eq_false_iff_ne.mpr hOther, hIndexes.lookup]
      by_cases hMember : other ∈ items
      · rw [idxOf?_of_mem hMember,
          idxOf?_of_mem (List.mem_append_left _ hMember),
          List.idxOf_append_of_mem hMember]
      · have hNot : other ∉ items ++ [item] := by
          simp [hMember, hOther]
        rw [List.idxOf?_eq_none_iff.mpr hMember,
          List.idxOf?_eq_none_iff.mpr hNot]

end Indexes

/- Different items, entered one after the other. -/
theorem indexes_zipIdx
    {items : List α}
    (hDistinct : items.Nodup) :
    Indexes id items items.zipIdx.reverse := by
  induction items using List.reverseRecOn with
  | nil => exact Indexes.nil id
  | append_singleton items item ih =>
      rw [List.nodup_append] at hDistinct
      have hNew : item ∉ items := by
        intro hMember
        exact hDistinct.2.2 item hMember item
          (List.mem_singleton_self item) rfl
      have hEntries :
          (items ++ [item]).zipIdx.reverse =
            (item, id items.length) :: items.zipIdx.reverse := by
        simp [List.zipIdx_append]
      rw [hEntries]
      exact (ih hDistinct.1).concat hNew

/- Places among fewer items than words are words. -/
theorem toNat_ofNat_idxOf
    {items : List α}
    (hCount : items.length ≤ 2 ^ 32)
    {item : α}
    (hItem : item ∈ items) :
    (UInt32.ofNat (items.idxOf item)).toNat = items.idxOf item :=
  UInt32.toNat_ofNat_of_lt'
    ((List.idxOf_lt_length_of_mem hItem).trans_le hCount)

/-
  Changing what stands at the place of an item changes it for
  this item and, as no item comes twice, for no other.
-/
theorem map_modify_idxOf
    {items : List α}
    (hNodup : items.Nodup)
    (value : α → β)
    (change : β → β)
    (item : α) :
    (items.map value).modify (items.idxOf item) change =
      items.map fun other =>
        if other = item then change (value other)
        else value other := by
  induction items with
  | nil => rfl
  | cons first items ih =>
      rw [List.nodup_cons] at hNodup
      by_cases hFirst : first = item
      · have hOthers :
            ∀ other ∈ items,
              (if other = item then change (value other)
                else value other) = value other := by
          rintro other hOther
          rw [if_neg]
          rintro rfl
          exact hNodup.1 (hFirst ▸ hOther)
        rw [List.map_cons, List.map_cons, List.idxOf_cons,
          List.map_congr_left hOthers]
        simp [hFirst]
      · rw [List.map_cons, List.map_cons,
          List.idxOf_cons_ne _ hFirst, List.modify_succ_cons,
          ih hNodup.2, if_neg hFirst]

end Dictionary

end TracedScript
