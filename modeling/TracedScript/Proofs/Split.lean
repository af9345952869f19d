import Mathlib

/-
  Cutting a list at a separator, part by part.

  Main declarations:
    * `Text.splitOn_append`: what comes before the first
      separator.
    * `Text.eq_append_flatMap_of_splitOn`: the parts make up
      the list.
    * `Text.notMem_of_mem_splitOn`
-/

------------------------------------------------------------
-- Splitting
------------------------------------------------------------

namespace TracedScript

namespace Text

variable {α : Type} [DecidableEq α]

/- A list has at least one part. -/
theorem exists_splitOn_eq_cons
    (separator : α)
    (text : List α) :
    ∃ first parts, text.splitOn separator = first :: parts :=
  List.exists_cons_of_ne_nil (List.splitOn_ne_nil separator text)

/- A separator at the start ends an empty part. -/
theorem splitOn_cons_separator
    (separator : α)
    (text : List α) :
    (separator :: text).splitOn separator =
      [] :: text.splitOn separator := by
  simp [List.splitOn_cons_eq_if_modifyHead]

/- Any other element belongs to the first part. -/
theorem splitOn_cons
    {separator a : α}
    {text first : List α}
    {parts : List (List α)}
    (hOther : a ≠ separator)
    (hSplit : text.splitOn separator = first :: parts) :
    (a :: text).splitOn separator = (a :: first) :: parts := by
  simp [List.splitOn_cons_eq_if_modifyHead, hOther, hSplit]

theorem splitOn_append
    {separator : α}
    {front text first : List α}
    {parts : List (List α)}
    (hFront : separator ∉ front)
    (hSplit : text.splitOn separator = first :: parts) :
    (front ++ text).splitOn separator =
      (front ++ first) :: parts := by
  induction front with
  | nil => exact hSplit
  | cons a front ih =>
      rw [List.mem_cons, not_or] at hFront
      exact splitOn_cons (Ne.symm hFront.1) (ih hFront.2)

/- Joined parts have a separator before each but the first. -/
omit [DecidableEq α] in
theorem intercalate_eq_append_flatMap
    (separator : α)
    (first : List α)
    (parts : List (List α)) :
    [separator].intercalate (first :: parts) =
      first ++ parts.flatMap (separator :: ·) := by
  induction parts generalizing first with
  | nil => simp
  | cons next parts ih =>
      rw [List.intercalate_cons_cons, ih]
      simp

theorem eq_append_flatMap_of_splitOn
    {separator : α}
    {text first : List α}
    {parts : List (List α)}
    (hSplit : text.splitOn separator = first :: parts) :
    text = first ++ parts.flatMap (separator :: ·) := by
  rw [← intercalate_eq_append_flatMap, ← hSplit,
    List.intercalate_splitOn]

/- A list whose last part is empty ends in a separator. -/
theorem getLast?_of_splitOn
    {separator : α}
    {text first : List α}
    {parts : List (List α)}
    (hSplit : text.splitOn separator = first :: parts)
    (hLast : parts.getLast? = some []) :
    text.getLast? = some separator := by
  rcases List.getLast?_eq_some_iff.mp hLast with
    ⟨front, rfl⟩
  rw [eq_append_flatMap_of_splitOn hSplit]
  simp

theorem notMem_of_mem_splitOn
    {separator : α}
    {text part : List α}
    (hPart : part ∈ text.splitOn separator) :
    separator ∉ part := by
  induction text generalizing part with
  | nil =>
      rw [List.splitOn_nil, List.mem_singleton] at hPart
      simp [hPart]
  | cons a rest ih =>
      rcases exists_splitOn_eq_cons separator rest with
        ⟨first, parts, hRest⟩
      by_cases hSeparator : a = separator
      · rw [hSeparator, splitOn_cons_separator,
          List.mem_cons] at hPart
        rcases hPart with rfl | hPart
        · simp
        · exact ih hPart
      · rw [splitOn_cons hSeparator hRest, List.mem_cons] at hPart
        rcases hPart with rfl | hPart
        · have hFirst : separator ∉ first :=
            ih (hRest ▸ List.mem_cons_self)
          simp [Ne.symm hSeparator, hFirst]
        · exact ih (hRest ▸ List.mem_cons_of_mem first hPart)

------------------------------------------------------------
-- Joining
------------------------------------------------------------

/- Joining brings in no character of its own. -/
theorem notMem_intercalate
    {c : Char}
    {between : String}
    (hBetween : c ∉ between.toList)
    {texts : List String}
    (hTexts : ∀ text ∈ texts, c ∉ text.toList) :
    c ∉ (between.intercalate texts).toList := by
  induction texts with
  | nil => simp
  | cons text texts ih =>
      rw [List.forall_mem_cons] at hTexts
      cases texts with
      | nil =>
          rw [String.intercalate_singleton]
          exact hTexts.1
      | cons next texts =>
          rw [String.intercalate_cons_cons]
          rw [String.toList_append, String.toList_append,
            List.mem_append, List.mem_append, not_or, not_or]
          exact ⟨⟨hTexts.1, hBetween⟩, ih hTexts.2⟩

end Text

end TracedScript
