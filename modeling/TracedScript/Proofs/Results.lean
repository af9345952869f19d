import Mathlib

/-
  Computations that give a result.

  Main declarations:
    * `bind_eq_ok_iff`: two steps give a result if the first
      does and the second does from there.
    * `mapM_eq_ok_iff`: all items give a result.
    * `exists_of_mem_mapM`, `exists_mem_of_mapM`
    * `exists_mapM_iff`, `exists_of_mapM_eq_error`: when a
      traversal gives a result.
    * `mapM_replace`: the same result for another item.
-/

------------------------------------------------------------
-- Steps and Traversals
------------------------------------------------------------

namespace TracedScript

variable {ε α β : Type}

theorem bind_eq_ok_iff
    {first : Except ε α}
    {next : α → Except ε β}
    {result : β} :
    first >>= next = .ok result ↔
      ∃ value, first = .ok value ∧ next value = .ok result := by
  cases first with
  | ok value => simp [bind, Except.bind]
  | error fault => simp [bind, Except.bind]

theorem bind_eq_error_iff
    {first : Except ε α}
    {next : α → Except ε β}
    {fault : ε} :
    first >>= next = .error fault ↔
      first = .error fault
        ∨ ∃ value,
          first = .ok value ∧ next value = .error fault := by
  cases first with
  | ok value => simp [bind, Except.bind]
  | error fault => simp [bind, Except.bind]

theorem map_eq_ok_iff
    {change : α → β}
    {outcome : Except ε α}
    {result : β} :
    change <$> outcome = .ok result ↔
      ∃ value, outcome = .ok value ∧ change value = result := by
  cases outcome with
  | ok value => simp [Functor.map, Except.map]
  | error fault => simp [Functor.map, Except.map]

/- A traversal gives a result for each item, in their order. -/
theorem mapM_eq_ok_iff
    {read : α → Except ε β}
    {items : List α}
    {values : List β} :
    items.mapM read = .ok values ↔
      List.Forall₂ (fun item value => read item = .ok value)
        items values := by
  induction items generalizing values with
  | nil =>
      rw [List.mapM_nil, List.forall₂_nil_left_iff]
      constructor
      · intro hValues
        cases hValues
        rfl
      · rintro rfl
        rfl
  | cons item items ih =>
      rw [List.mapM_cons, bind_eq_ok_iff,
        List.forall₂_cons_left_iff]
      constructor
      · rintro ⟨value, hItem, hRest⟩
        rcases bind_eq_ok_iff.mp hRest with
          ⟨more, hItems, hValues⟩
        cases hValues
        exact ⟨value, more, hItem, ih.mp hItems, rfl⟩
      · rintro ⟨value, more, hItem, hItems, rfl⟩
        refine ⟨value, hItem, ?_⟩
        rw [ih.mpr hItems]
        rfl

/- Every result of a traversal comes from one of the items. -/
theorem exists_of_mem_mapM
    {read : α → Except ε β}
    {items : List α}
    {values : List β}
    (hValues : items.mapM read = .ok values)
    {value : β}
    (hValue : value ∈ values) :
    ∃ item ∈ items, read item = .ok value := by
  have hAll := mapM_eq_ok_iff.mp hValues
  clear hValues
  induction hAll with
  | nil => cases hValue
  | @cons first result items values hFirst _ ih =>
      rcases List.mem_cons.mp hValue with rfl | hLater
      · exact ⟨first, List.mem_cons_self, hFirst⟩
      · rcases ih hLater with ⟨item, hItem, hRead⟩
        exact ⟨item, List.mem_cons_of_mem first hItem, hRead⟩

/- Every item has its result in a traversal. -/
theorem exists_mem_of_mapM
    {read : α → Except ε β}
    {items : List α}
    {values : List β}
    (hValues : items.mapM read = .ok values)
    {item : α}
    (hItem : item ∈ items) :
    ∃ value ∈ values, read item = .ok value := by
  have hAll := mapM_eq_ok_iff.mp hValues
  clear hValues
  induction hAll with
  | nil => cases hItem
  | @cons first result items values hFirst _ ih =>
      rcases List.mem_cons.mp hItem with rfl | hLater
      · exact ⟨result, List.mem_cons_self, hFirst⟩
      · rcases ih hLater with ⟨value, hValue, hRead⟩
        exact ⟨value, List.mem_cons_of_mem result hValue, hRead⟩

/- A traversal gives a result if every item does. -/
theorem exists_mapM_iff
    {read : α → Except ε β}
    {items : List α} :
    (∃ values, items.mapM read = .ok values) ↔
      ∀ item ∈ items, ∃ value, read item = .ok value := by
  constructor
  · rintro ⟨values, hValues⟩ item hItem
    rcases exists_mem_of_mapM hValues hItem with
      ⟨value, _, hRead⟩
    exact ⟨value, hRead⟩
  · intro hAll
    induction items with
    | nil => exact ⟨[], rfl⟩
    | cons item items ih =>
        rw [List.forall_mem_cons] at hAll
        rcases hAll.1 with ⟨value, hRead⟩
        rcases ih hAll.2 with ⟨values, hValues⟩
        refine ⟨value :: values, mapM_eq_ok_iff.mpr ?_⟩
        exact .cons hRead (mapM_eq_ok_iff.mp hValues)

/- An item with the same result may stand in the place of another. -/
theorem mapM_replace
    {read : α → Except ε β}
    {front back : List α}
    {item other : α}
    {values : List β}
    (hSame : ∀ value, read item = .ok value → read other = .ok value)
    (hValues : (front ++ item :: back).mapM read = .ok values) :
    (front ++ other :: back).mapM read = .ok values := by
  rw [mapM_eq_ok_iff] at hValues ⊢
  induction front generalizing values with
  | nil =>
      cases hValues with
      | cons hFirst hRest => exact .cons (hSame _ hFirst) hRest
  | cons first front ih =>
      cases hValues with
      | cons hFirst hRest => exact .cons hFirst (ih hRest)

/- The fault of a traversal is that of an item. -/
theorem exists_of_mapM_eq_error
    {read : α → Except ε β}
    {items : List α}
    {fault : ε}
    (hFault : items.mapM read = .error fault) :
    ∃ item ∈ items, read item = .error fault := by
  induction items with
  | nil => cases hFault
  | cons item items ih =>
      rw [List.mapM_cons] at hFault
      cases hRead : read item with
      | error first =>
          rw [hRead] at hFault
          cases hFault
          exact ⟨item, List.mem_cons_self, hRead⟩
      | ok value =>
          rw [hRead] at hFault
          cases hRest : items.mapM read with
          | error later =>
              simp only [hRest] at hFault
              cases hFault
              rcases ih hRest with ⟨other, hOther, hSame⟩
              exact
                ⟨other, List.mem_cons_of_mem item hOther, hSame⟩
          | ok values =>
              simp only [hRest] at hFault
              cases hFault

end TracedScript
