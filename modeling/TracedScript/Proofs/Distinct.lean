import Mathlib

/-
  The different items of a list, in the order in which they
  first come.

  Main declarations:
    * `eraseDups_concat`: what one more item does.
    * `nodup_eraseDups`
    * `idxOf_eraseDups_append`: items keep their places.
    * `pairwise_idxOf_eraseDups`: the order of first places.
-/

------------------------------------------------------------
-- Different Items
------------------------------------------------------------

namespace TracedScript

variable {α : Type} [BEq α] [LawfulBEq α]

theorem idxOf?_of_mem
    {item : α}
    {items : List α}
    (hMember : item ∈ items) :
    items.idxOf? item = some (items.idxOf item) := by
  cases hIndex : items.idxOf? item with
  | some index => simp [List.idxOf_eq_getD_idxOf?, hIndex]
  | none =>
      exact absurd hMember (List.idxOf?_eq_none_iff.mp hIndex)

/- An item that comes again changes nothing; a new one comes last. -/
theorem eraseDups_concat
    (items : List α)
    (item : α) :
    (items ++ [item]).eraseDups =
      if item ∈ items then items.eraseDups
      else items.eraseDups ++ [item] := by
  rw [List.eraseDups_append]
  by_cases hMember : item ∈ items
  · have hRest : [item].removeAll items = [] := by
      simpa [List.removeAll] using hMember
    rw [hRest, List.eraseDups_nil, List.append_nil,
      if_pos hMember]
  · have hRest : [item].removeAll items = [item] := by
      simpa [List.removeAll] using hMember
    rw [hRest, if_neg hMember, List.eraseDups_cons,
      List.filter_nil, List.eraseDups_nil]

theorem nodup_eraseDups
    (items : List α) :
    items.eraseDups.Nodup := by
  induction items using List.reverseRecOn with
  | nil => simp
  | append_singleton items item ih =>
      rw [eraseDups_concat]
      by_cases hMember : item ∈ items
      · rw [if_pos hMember]
        exact ih
      · rw [if_neg hMember, ← List.concat_eq_append]
        exact ih.concat (mt List.mem_eraseDups.mp hMember)

/- What comes later does not move an item. -/
theorem idxOf_eraseDups_append
    {item : α}
    {items : List α}
    (hMember : item ∈ items)
    (more : List α) :
    (items ++ more).eraseDups.idxOf item =
      items.eraseDups.idxOf item := by
  rw [List.eraseDups_append]
  exact List.idxOf_append_of_mem (List.mem_eraseDups.mpr hMember)

/- The items stand in the order of their first places. -/
theorem pairwise_idxOf_eraseDups
    (items : List α) :
    items.eraseDups.Pairwise fun left right =>
      items.idxOf left < items.idxOf right := by
  induction items using List.reverseRecOn with
  | nil => simp
  | append_singleton items item ih =>
      have hKept :
          items.eraseDups.Pairwise fun left right =>
            (items ++ [item]).idxOf left <
              (items ++ [item]).idxOf right := by
        refine ih.imp_of_mem ?_
        intro left right hLeft hRight hBefore
        rwa [List.idxOf_append_of_mem (List.mem_eraseDups.mp hLeft),
          List.idxOf_append_of_mem (List.mem_eraseDups.mp hRight)]
      rw [eraseDups_concat]
      by_cases hMember : item ∈ items
      · rwa [if_pos hMember]
      · rw [if_neg hMember, List.pairwise_append]
        refine ⟨hKept, List.pairwise_singleton _ _, ?_⟩
        intro left hLeft right hRight
        rw [List.mem_singleton] at hRight
        rw [List.mem_eraseDups] at hLeft
        rw [hRight, List.idxOf_append_of_mem hLeft,
          List.idxOf_append_of_notMem hMember]
        exact Nat.lt_add_right _ (List.idxOf_lt_length_of_mem hLeft)

end TracedScript
