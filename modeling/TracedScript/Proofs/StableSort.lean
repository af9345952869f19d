import Mathlib

/-
  Stable sorting by places in a text.

  Key definitions include:
    * `PlaceLe`: the order of places.
    * `StablySorted`: one list is the other in the order of
      places, with its ties in their order.

  The merge sort by places gives such a list, by
  `stablySorted_mergeSort`, and there is only one, by
  `StablySorted.unique`.
-/

------------------------------------------------------------
-- Ties
------------------------------------------------------------

namespace TracedScript

variable {α : Type}

/-
  Elements that are not after each other stay in their order.
  They are a sorted part of the list, which the merge sort
  keeps as a part, and no such element is added or lost.
-/
theorem filter_mergeSort_of_tied
    {le : α → α → Bool}
    (hTrans : ∀ a b c, le a b → le b c → le a c)
    (hTotal : ∀ a b, le a b || le b a)
    {tied : α → Bool}
    (hTied : ∀ a b, tied a → tied b → le a b)
    (items : List α) :
    (items.mergeSort le).filter tied = items.filter tied := by
  have hOrdered :
      (items.filter tied).Pairwise fun a b => le a b := by
    apply List.pairwise_of_forall_mem_list
    intro a hA b hB
    exact hTied a b (List.of_mem_filter hA) (List.of_mem_filter hB)
  have hPart :
      (items.filter tied).Sublist (items.mergeSort le) :=
    List.sublist_mergeSort hTrans hTotal hOrdered
      List.filter_sublist
  have hKept :
      (items.filter tied).Sublist
        ((items.mergeSort le).filter tied) := by
    simpa using hPart.filter tied
  have hLength :
      ((items.mergeSort le).filter tied).length =
        (items.filter tied).length :=
    ((List.mergeSort_perm items le).filter tied).length_eq
  exact (hKept.eq_of_length hLength.symm).symm

------------------------------------------------------------
-- Places
------------------------------------------------------------

/- The place of one element is not after that of the other. -/
def PlaceLe
    (line column : α → Nat)
    (a b : α) : Prop :=
  line a < line b
    ∨ (line a = line b ∧ column a ≤ column b)

variable {line column : α → Nat}

theorem PlaceLe.trans
    {a b c : α}
    (hLeft : PlaceLe line column a b)
    (hRight : PlaceLe line column b c) :
    PlaceLe line column a c := by
  unfold PlaceLe at *
  omega

theorem PlaceLe.total
    (a b : α) :
    PlaceLe line column a b ∨ PlaceLe line column b a := by
  unfold PlaceLe
  omega

/-
  One list has the elements of the other in the order of
  their places, and elements of one place in the order in
  which they were.
-/
structure StablySorted
    (line column : α → Nat)
    (source sorted : List α) : Prop where
  perm : sorted.Perm source
  ordered : sorted.Pairwise (PlaceLe line column)
  ties : ∀ atLine atColumn : Nat,
    sorted.filter
        (fun a => line a = atLine ∧ column a = atColumn) =
      source.filter
        (fun a => line a = atLine ∧ column a = atColumn)

/- Two lists agree on the elements of every place. -/
def SameTies
    (line column : α → Nat)
    (left right : List α) : Prop :=
  ∀ atLine atColumn : Nat,
    left.filter
        (fun a => line a = atLine ∧ column a = atColumn) =
      right.filter
        (fun a => line a = atLine ∧ column a = atColumn)

theorem SameTies.mem_iff
    {left right : List α}
    (hTies : SameTies line column left right)
    (a : α) :
    a ∈ left ↔ a ∈ right := by
  have hTied := congrArg (a ∈ ·) (hTies (line a) (column a))
  simpa using hTied

theorem SameTies.of_cons
    {left right : List α}
    {a : α}
    (hTies : SameTies line column (a :: left) (a :: right)) :
    SameTies line column left right := by
  intro atLine atColumn
  have hTied := hTies atLine atColumn
  rw [List.filter_cons, List.filter_cons] at hTied
  split at hTied
  · exact (List.cons.inj hTied).2
  · exact hTied

/- The first of two ordered lists with the same ties is the same. -/
theorem SameTies.head_eq
    {left right : List α}
    {a b : α}
    (hTies : SameTies line column (a :: left) (b :: right))
    (hLeft : (a :: left).Pairwise (PlaceLe line column))
    (hRight : (b :: right).Pairwise (PlaceLe line column)) :
    a = b := by
  rw [List.pairwise_cons] at hLeft hRight
  have hFirst : a = b ∨ a ∈ right :=
    List.mem_cons.mp ((hTies.mem_iff a).mp List.mem_cons_self)
  have hSecond : b = a ∨ b ∈ left :=
    List.mem_cons.mp ((hTies.mem_iff b).mpr List.mem_cons_self)
  rcases hFirst with hSame | hFirst
  · exact hSame
  · rcases hSecond with hSame | hSecond
    · exact hSame.symm
    · -- each is not after the other, so both have one place
      have hNotBefore := hRight.1 a hFirst
      have hNotAfter := hLeft.1 b hSecond
      have hPlace : line a = line b ∧ column a = column b := by
        unfold PlaceLe at hNotBefore hNotAfter
        omega
      have hTied := hTies (line b) (column b)
      simp only [hPlace, and_self, decide_true,
        List.filter_cons_of_pos] at hTied
      exact (List.cons.inj hTied).1

theorem SameTies.eq
    {left right : List α}
    (hTies : SameTies line column left right)
    (hLeft : left.Pairwise (PlaceLe line column))
    (hRight : right.Pairwise (PlaceLe line column)) :
    left = right := by
  induction left generalizing right with
  | nil =>
      symm
      simpa [List.eq_nil_iff_forall_not_mem] using hTies.mem_iff
  | cons a left ih =>
      cases right with
      | nil => simpa using hTies.mem_iff a
      | cons b right =>
          cases hTies.head_eq hLeft hRight
          rw [ih hTies.of_cons (List.pairwise_cons.mp hLeft).2
            (List.pairwise_cons.mp hRight).2]

/- A list can be put into the order of places in one way only. -/
theorem StablySorted.unique
    {source sorted other : List α}
    (hSorted : StablySorted line column source sorted)
    (hOther : StablySorted line column source other) :
    sorted = other := by
  have hTies : SameTies line column sorted other :=
    fun atLine atColumn =>
      (hSorted.ties atLine atColumn).trans
        (hOther.ties atLine atColumn).symm
  exact hTies.eq hSorted.ordered hOther.ordered

/- The merge sort by places is stable. -/
theorem stablySorted_mergeSort
    {le : α → α → Bool}
    (hLe : ∀ a b, le a b ↔ PlaceLe line column a b)
    (items : List α) :
    StablySorted line column items (items.mergeSort le) := by
  have hTrans : ∀ a b c, le a b → le b c → le a c := by
    intro a b c hLeft hRight
    rw [hLe] at hLeft hRight ⊢
    exact hLeft.trans hRight
  have hTotal : ∀ a b, le a b || le b a := by
    intro a b
    rw [Bool.or_eq_true, hLe, hLe]
    exact PlaceLe.total a b
  constructor
  · exact List.mergeSort_perm items le
  · exact (List.pairwise_mergeSort hTrans hTotal items).imp
      fun hOrder => (hLe _ _).mp hOrder
  · intro atLine atColumn
    apply filter_mergeSort_of_tied hTrans hTotal
    intro a b hA hB
    rw [hLe]
    simp only [decide_eq_true_eq] at hA hB
    unfold PlaceLe
    omega

/- A list that is in the order of places is left as it is. -/
theorem mergeSort_eq_self
    {le : α → α → Bool}
    (hLe : ∀ a b, le a b ↔ PlaceLe line column a b)
    {items : List α}
    (hOrdered : items.Pairwise (PlaceLe line column)) :
    items.mergeSort le = items :=
  List.mergeSort_of_pairwise
    (hOrdered.imp fun hOrder => (hLe _ _).mpr hOrder)

end TracedScript
