import TracedScript.Proofs.JsonRecords
import Mathlib.Data.List.Nodup
import Mathlib.Data.List.Perm.Basic

/-
  The members of an object that pass all checks.

  An object that is accepted has each of the known keys once,
  so that it does not matter where a known key stands and what
  other members there are.

  Key definitions include:
    * `Json.Accepted`: members that pass all checks.

  Main declarations:
    * `Json.memberChecks_done_iff`
    * `Json.Accepted.perm`, `Json.Accepted.lookup_perm`
    * `Json.Accepted.insert`, `Json.Accepted.replace`
-/

------------------------------------------------------------
-- Members
------------------------------------------------------------

namespace TracedScript

namespace Json

theorem map_snd_findMember
    (key : String)
    (members : List Member)
    (place : Nat) :
    (findMember key members place).map Prod.snd =
      members.lookup (some key) := by
  fun_induction findMember key members place with
  | case1 => rfl
  | case2 => simp
  | case3 name _ members place hOther ih =>
      have hSkip : (some key == some name) = false := by
        simpa using Ne.symm hOther
      rw [List.lookup_cons, hSkip, ih]
  | case4 _ members place ih =>
      have hSkip : (some key == none) = false := rfl
      rw [List.lookup_cons, hSkip, ih]

/- The key of a member, if it is among the known ones. -/
def knownKey?
    (known : List String)
    (member : Member) :
    Option String :=
  member.1.filter fun key => known.contains key

/-
  Members that pass all checks: every key is a text, the known
  ones come once, and all other values are accepted.
-/
structure Accepted
    (known : List String)
    (accepts : Draft → Bool)
    (members : List Member) : Prop where
  each :
    ∀ member ∈ members, ∃ key,
      member.1 = some key
        ∧ (key ∈ known ∨ accepts member.2 = true)
  once : (members.filterMap (knownKey? known)).Nodup

variable {known : List String} {accepts : Draft → Bool}
variable {members others front back : List Member}
variable {key : String} {value other : Draft}

theorem knownKey?_of_mem
    (hKnown : key ∈ known) :
    knownKey? known (some key, value) = some key := by
  simp [knownKey?, hKnown]

theorem knownKey?_of_notMem
    (hOther : key ∉ known) :
    knownKey? known (some key, value) = none := by
  simp [knownKey?, hOther]

theorem accepted_cons_of_mem
    (hKnown : key ∈ known) :
    Accepted known accepts ((some key, value) :: members) ↔
      key ∉ members.filterMap (knownKey? known)
        ∧ Accepted known accepts members := by
  constructor
  · rintro ⟨hEach, hOnce⟩
    rw [List.filterMap_cons_some (knownKey?_of_mem hKnown),
      List.nodup_cons] at hOnce
    rw [List.forall_mem_cons] at hEach
    exact ⟨hOnce.1, hEach.2, hOnce.2⟩
  · rintro ⟨hNew, hEach, hOnce⟩
    refine ⟨List.forall_mem_cons.mpr ⟨?_, hEach⟩, ?_⟩
    · exact ⟨key, rfl, .inl hKnown⟩
    · rw [List.filterMap_cons_some (knownKey?_of_mem hKnown)]
      exact List.nodup_cons.mpr ⟨hNew, hOnce⟩

theorem accepted_cons_of_notMem
    (hOther : key ∉ known) :
    Accepted known accepts ((some key, value) :: members) ↔
      accepts value = true
        ∧ Accepted known accepts members := by
  constructor
  · rintro ⟨hEach, hOnce⟩
    rw [List.filterMap_cons_none
      (knownKey?_of_notMem hOther)] at hOnce
    rw [List.forall_mem_cons] at hEach
    rcases hEach.1 with ⟨name, hName, hCases⟩
    cases hName
    rcases hCases with hKnown | hAccepts
    · exact absurd hKnown hOther
    · exact ⟨hAccepts, hEach.2, hOnce⟩
  · rintro ⟨hAccepts, hEach, hOnce⟩
    refine ⟨List.forall_mem_cons.mpr ⟨?_, hEach⟩, ?_⟩
    · exact ⟨key, rfl, .inr hAccepts⟩
    · rw [List.filterMap_cons_none (knownKey?_of_notMem hOther)]
      exact hOnce

/- The checks say of members that they are accepted. -/
theorem memberChecks_done_iff
    (seen : List String)
    (place : Nat) :
    (∀ check ∈ memberChecks known accepts members seen place,
        check = .done ()) ↔
      Accepted known accepts members
        ∧ ∀ key ∈ members.filterMap (knownKey? known),
          key ∉ seen := by
  induction members generalizing seen place with
  | nil =>
      constructor
      · intro _
        exact
          ⟨⟨List.forall_mem_nil _, List.nodup_nil⟩,
            List.forall_mem_nil _⟩
      · intro _
        exact List.forall_mem_nil _
  | cons member members ih =>
      rcases member with ⟨_ | key, value⟩
      · rw [memberChecks, List.forall_mem_cons]
        constructor
        · rintro ⟨hFailed, _⟩
          cases hFailed
        · rintro ⟨hAccepted, _⟩
          rcases hAccepted.each _ List.mem_cons_self with
            ⟨key, hKey, _⟩
          cases hKey
      · rw [memberChecks]
        by_cases hKnown : key ∈ known
        -- A known key is seen from then on.
        · rw [if_pos (List.contains_iff_mem.mpr hKnown),
            List.forall_mem_cons, Outcome.check_eq_done_iff, ih,
            List.filterMap_cons_some (knownKey?_of_mem hKnown),
            List.forall_mem_cons, accepted_cons_of_mem hKnown]
          have hUnseen :
              (!seen.contains key) = true ↔ key ∉ seen := by
            simp
          rw [hUnseen]
          constructor
          · rintro ⟨hSeen, hAccepted, hRest⟩
            refine ⟨⟨?_, hAccepted⟩, hSeen, ?_⟩
            · intro hMember
              exact hRest key hMember List.mem_cons_self
            · intro other hOther hBefore
              exact
                hRest other hOther (List.mem_cons_of_mem _ hBefore)
          · rintro ⟨⟨hNew, hAccepted⟩, hSeen, hRest⟩
            refine ⟨hSeen, hAccepted, ?_⟩
            intro other hOther hMember
            rcases List.mem_cons.mp hMember with rfl | hBefore
            · exact hNew hOther
            · exact hRest other hOther hBefore
        · rw [if_neg (mt List.contains_iff_mem.mp hKnown),
            List.forall_mem_cons, Outcome.check_eq_done_iff, ih,
            List.filterMap_cons_none (knownKey?_of_notMem hKnown),
            accepted_cons_of_notMem hKnown, and_assoc]

namespace Accepted

/- The value of a known key is that of its only member. -/
theorem lookup_eq_some_iff
    (hAccepted : Accepted known accepts members)
    (hKnown : key ∈ known) :
    members.lookup (some key) = some value ↔
      (some key, value) ∈ members := by
  constructor
  · intro hLookup
    rcases List.lookup_eq_some_iff.mp hLookup with
      ⟨front, back, rfl, _⟩
    simp
  · intro hMember
    rcases List.append_of_mem hMember with ⟨front, back, rfl⟩
    refine List.lookup_eq_some_iff.mpr ⟨front, back, rfl, ?_⟩
    intro first hFirst
    have hOnce := hAccepted.once
    rw [List.filterMap_append,
      List.filterMap_cons_some (knownKey?_of_mem hKnown),
      List.nodup_append] at hOnce
    refine bne_iff_ne.mpr ?_
    intro hSame
    have hBefore :
        key ∈ front.filterMap (knownKey? known) := by
      refine List.mem_filterMap.mpr ⟨first, hFirst, ?_⟩
      rcases first with ⟨name, before⟩
      cases hSame
      exact knownKey?_of_mem hKnown
    exact hOnce.2.2 key hBefore key List.mem_cons_self rfl

theorem perm
    (hAccepted : Accepted known accepts members)
    (hOrder : members.Perm others) :
    Accepted known accepts others := by
  refine ⟨?_, (hOrder.filterMap _).nodup hAccepted.once⟩
  intro member hMember
  exact hAccepted.each member (hOrder.mem_iff.mpr hMember)

/- Where a known key stands does not matter. -/
theorem lookup_perm
    (hAccepted : Accepted known accepts members)
    (hOrder : members.Perm others)
    (hKnown : key ∈ known) :
    others.lookup (some key) = members.lookup (some key) := by
  ext value
  rw [(hAccepted.perm hOrder).lookup_eq_some_iff hKnown,
    hAccepted.lookup_eq_some_iff hKnown, hOrder.mem_iff]

theorem insert
    (hAccepted : Accepted known accepts (front ++ back))
    (hOther : key ∉ known)
    (hAccepts : accepts value = true) :
    Accepted known accepts
      (front ++ (some key, value) :: back) := by
  refine perm ?_ List.perm_middle.symm
  exact
    (accepted_cons_of_notMem hOther).mpr ⟨hAccepts, hAccepted⟩

theorem replace
    (hAccepted :
      Accepted known accepts (front ++ (some key, value) :: back))
    (hAccepts :
      key ∉ known → accepts value = true → accepts other = true) :
    Accepted known accepts
      (front ++ (some key, other) :: back) := by
  refine perm ?_ List.perm_middle.symm
  have hFirst := hAccepted.perm List.perm_middle
  by_cases hKnown : key ∈ known
  · rw [accepted_cons_of_mem hKnown] at hFirst ⊢
    exact hFirst
  · rw [accepted_cons_of_notMem hKnown] at hFirst ⊢
    exact ⟨hAccepts hKnown hFirst.1, hFirst.2⟩

end Accepted

/- A new member hides no other. -/
theorem lookup_insert
    {name : String}
    (hOther : name ≠ key) :
    (front ++ (some key, value) :: back).lookup (some name) =
      (front ++ back).lookup (some name) := by
  have hSkip : (some name == some key) = false := by
    simpa using hOther
  rw [List.lookup_append, List.lookup_append, List.lookup_cons,
    hSkip]

/-
  If the value of a member is replaced, a lookup finds the same
  as before, or the new value instead of the old one.
-/
theorem lookup_replace
    (front back : List Member)
    (key : String)
    (value other : Draft)
    (name : String) :
    (front ++ (some key, other) :: back).lookup (some name) =
        (front ++ (some key, value) :: back).lookup (some name)
      ∨ (name = key
        ∧ (front ++ (some key, value) :: back).lookup
            (some name) =
          some value
        ∧ (front ++ (some key, other) :: back).lookup
            (some name) =
          some other) := by
  by_cases hName : name = key
  · subst hName
    cases hFront : front.lookup (some name) with
    | some before => simp [List.lookup_append, hFront]
    | none => simp [List.lookup_append, hFront]
  · rw [lookup_insert hName, lookup_insert hName]
    exact .inl rfl

end Json

end TracedScript
