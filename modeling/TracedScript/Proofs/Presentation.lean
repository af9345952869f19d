import TracedScript.Json.Tagged
import Mathlib.Data.List.Basic
import Mathlib.Logic.Relation

/-
  Other ways to write down the same records.

  A reader takes a record from the members of an object in any
  order, with others between them, or from an array. What may
  be changed in a value depends on what it is read as, so the
  changes are told apart by the shape of the value.

  Key definitions include:
    * `Json.Shape`: what the parts of a value are read as.
    * `Json.Family`: records of several kinds.
    * `Json.Step`: one change to a value of some shape.
    * `Json.Partwise`: properties that hold part by part.

  Main declarations:
    * `Json.Partwise.of_step`
    * `Json.Step.sound`, `Json.Step.grammatical`
-/

------------------------------------------------------------
-- Shapes
------------------------------------------------------------

namespace TracedScript

namespace Json

/-
  What the parts of a value are read as. Nothing is said about
  the parts of any value, and a tagged record has the shape of
  its kind.
-/
inductive Shape where
  | any
  | list (item : Shape)
  | record (fields : List (String × Shape))
  | tagged

/- The shape of a member, which a record need not know. -/
def Shape.ofMember
    (fields : List (String × Shape))
    (key : String) :
    Shape :=
  (fields.lookup key).getD .any

/- Records of several kinds, told apart under one key. -/
structure Family where
  key : String
  kinds : List (String × List (String × Shape))

namespace Family

/- The fields of the kind with a name or a number. -/
def fieldsOf?
    (family : Family) :
    Draft → Option (List (String × Shape))
  | .string (some name) => family.kinds.lookup name
  | .number (some (.natural index)) =>
      family.kinds[index]?.map Prod.snd
  | _ => none

/- The fields of a record, by its kind. -/
def fields?
    (family : Family) :
    Draft → Option (List (String × Shape))
  | .object members _ =>
      (members.lookup (some family.key)).bind family.fieldsOf?
  | .array (first :: _) _ => family.fieldsOf? first
  | _ => none

end Family

namespace Draft

/- A value without parts. -/
def isScalar : Draft → Bool
  | .null => true
  | .bool _ => true
  | .number _ => true
  | .string _ => true
  | _ => false

/- An array or an object. -/
def isContainer : Draft → Bool
  | .array _ _ => true
  | .object _ _ => true
  | _ => false

end Draft

------------------------------------------------------------
-- Steps
------------------------------------------------------------

/-
  One change to a value of some shape, in one place:
    * the members of an object come in another order,
    * a record gets a member that it does not know, without
      parts; where the record is strict it must be sound,
    * an object with all fields of a record is replaced by the
      array of their values,
    * or there is a change in one of its parts.
  Within the records of a family all records are strict.
-/
inductive Step
    (family : Family) :
    (strict : Bool) → Shape → Draft → Draft → Prop where
  | permuted
      {strict : Bool}
      {shape : Shape}
      {members others : List Member}
      {closed : Bool}
      (hOrder : members.Perm others) :
      Step family strict shape (.object members closed)
        (.object others closed)
  | inserted
      {strict : Bool}
      {fields : List (String × Shape)}
      {front back : List Member}
      {key : String}
      {value : Draft}
      {closed : Bool}
      (hKey : fields.lookup key = none)
      (hScalar : value.isScalar = true)
      (hSound : strict = true → value.sound 0 = true) :
      Step family strict (.record fields)
        (.object (front ++ back) closed)
        (.object (front ++ (some key, value) :: back) closed)
  | listed
      {strict : Bool}
      {fields : List (String × Shape)}
      {members : List Member}
      {values : List Draft}
      {closed : Bool}
      (hValues :
        fields.map (fun field => members.lookup (some field.1)) =
          values.map some) :
      Step family strict (.record fields)
        (.object members closed) (.array values closed)
  | member
      {strict : Bool}
      {fields : List (String × Shape)}
      {front back : List Member}
      {key : String}
      {value other : Draft}
      {closed : Bool}
      (hStep :
        Step family strict (Shape.ofMember fields key) value
          other) :
      Step family strict (.record fields)
        (.object (front ++ (some key, value) :: back) closed)
        (.object (front ++ (some key, other) :: back) closed)
  | field
      {strict : Bool}
      {fields : List (String × Shape)}
      {front back : List Draft}
      {key : String}
      {shape : Shape}
      {value other : Draft}
      {closed : Bool}
      (hField : fields[front.length]? = some (key, shape))
      (hStep : Step family strict shape value other) :
      Step family strict (.record fields)
        (.array (front ++ value :: back) closed)
        (.array (front ++ other :: back) closed)
  | item
      {strict : Bool}
      {shape : Shape}
      {front back : List Draft}
      {value other : Draft}
      {closed : Bool}
      (hStep : Step family strict shape value other) :
      Step family strict (.list shape)
        (.array (front ++ value :: back) closed)
        (.array (front ++ other :: back) closed)
  | ofKind
      {strict : Bool}
      {fields : List (String × Shape)}
      {value other : Draft}
      (hFields : family.fields? value = some fields)
      (hStep :
        Step family true (.record ((family.key, .any) :: fields))
          value other) :
      Step family strict .tagged value other
  | anyItem
      {strict : Bool}
      {front back : List Draft}
      {value other : Draft}
      {closed : Bool}
      (hStep : Step family strict .any value other) :
      Step family strict .any
        (.array (front ++ value :: back) closed)
        (.array (front ++ other :: back) closed)
  | anyMember
      {strict : Bool}
      {front back : List Member}
      {key : Option String}
      {value other : Draft}
      {closed : Bool}
      (hStep : Step family strict .any value other) :
      Step family strict .any
        (.object (front ++ (key, value) :: back) closed)
        (.object (front ++ (key, other) :: back) closed)

variable {family : Family} {strict : Bool} {shape : Shape}
variable {value other : Draft}

/- Only values with parts are changed, and they keep them. -/
theorem Step.isContainer
    (hStep : Step family strict shape value other) :
    value.isContainer = true ∧ other.isContainer = true := by
  induction hStep with
  | ofKind _ _ ih => exact ih
  | _ => exact ⟨rfl, rfl⟩

------------------------------------------------------------
-- Parts
------------------------------------------------------------

theorem Draft.soundItems_iff
    {depth : Nat}
    {items : List Draft} :
    Draft.soundItems depth items = true ↔
      ∀ item ∈ items, item.sound depth = true := by
  induction items with
  | nil => simp [Draft.soundItems]
  | cons item items ih =>
      rw [Draft.soundItems, Bool.and_eq_true, ih,
        List.forall_mem_cons]

theorem Draft.soundMembers_iff
    {depth : Nat}
    {members : List Member} :
    Draft.soundMembers depth members = true ↔
      ∀ member ∈ members,
        member.1.isSome = true
          ∧ member.2.sound depth = true := by
  induction members with
  | nil => simp [Draft.soundMembers]
  | cons member members ih =>
      rw [Draft.soundMembers, Bool.and_eq_true,
        Bool.and_eq_true, ih, List.forall_mem_cons]

theorem Draft.grammaticalItems_iff
    {items : List Draft} :
    Draft.grammaticalItems items = true ↔
      ∀ item ∈ items, item.grammatical = true := by
  induction items with
  | nil => simp [Draft.grammaticalItems]
  | cons item items ih =>
      rw [Draft.grammaticalItems, Bool.and_eq_true, ih,
        List.forall_mem_cons]

theorem Draft.grammaticalMembers_iff
    {members : List Member} :
    Draft.grammaticalMembers members = true ↔
      ∀ member ∈ members, member.2.grammatical = true := by
  induction members with
  | nil => simp [Draft.grammaticalMembers]
  | cons member members ih =>
      rw [Draft.grammaticalMembers, Bool.and_eq_true, ih,
        List.forall_mem_cons]

/-
  A property that a container has if it is closed, may be
  opened at its depth and all its parts have the property, with
  any keys that are texts.
-/
structure Partwise
    (holds : Nat → Draft → Prop)
    (opens : Nat → Prop)
    (names : Option String → Prop) : Prop where
  array :
    ∀ depth items closed,
      holds depth (.array items closed) ↔
        opens depth ∧ closed = true
          ∧ ∀ item ∈ items, holds (depth - 1) item
  object :
    ∀ depth members closed,
      holds depth (.object members closed) ↔
        opens depth ∧ closed = true
          ∧ ∀ member ∈ members,
            names member.1 ∧ holds (depth - 1) member.2
  text : ∀ key, names (some key)

theorem partwise_sound :
    Partwise (fun depth value => value.sound depth = true)
      (0 < ·) (fun key => key.isSome = true) where
  array depth items closed := by
    simp [Draft.sound, Draft.soundItems_iff, and_assoc]
  object depth members closed := by
    simp [Draft.sound, Draft.soundMembers_iff, and_assoc]
  text _ := rfl

theorem partwise_grammatical :
    Partwise (fun _ value => value.grammatical = true)
      (fun _ => True) (fun _ => True) where
  array _ items closed := by
    simp [Draft.grammatical, Draft.grammaticalItems_iff]
  object _ members closed := by
    simp [Draft.grammatical, Draft.grammaticalMembers_iff]
  text _ := trivial

/- What holds of an item in the middle of a list, and of all others. -/
theorem forall_mem_middle
    {α : Type}
    {front back : List α}
    {a : α}
    {p : α → Prop} :
    (∀ b ∈ front ++ a :: back, p b) ↔
      p a ∧ ∀ b ∈ front ++ back, p b := by
  simp only [List.forall_mem_append, List.forall_mem_cons]
  tauto

namespace Partwise

variable {holds : Nat → Draft → Prop}
variable {opens : Nat → Prop} {names : Option String → Prop}

/- The values that a record is listed with are among its members. -/
theorem mem_of_listed
    {fields : List (String × Shape)}
    {members : List Member}
    {values : List Draft}
    (hValues :
      fields.map (fun field => members.lookup (some field.1)) =
        values.map some)
    (hValue : value ∈ values) :
    ∃ member ∈ members, member.2 = value := by
  have hSome : some value ∈ values.map some :=
    List.mem_map_of_mem hValue
  rw [← hValues] at hSome
  rcases List.mem_map.mp hSome with ⟨field, _, hLookup⟩
  rcases List.lookup_eq_some_iff.mp hLookup with
    ⟨front, back, rfl, _⟩
  exact ⟨(some field.1, value), by simp, rfl⟩

/- A container keeps the property if one of its parts does. -/
theorem array_of_item
    (hPartwise : Partwise holds opens names)
    {front back : List Draft}
    {closed : Bool}
    {depth : Nat}
    (hHolds : holds depth (.array (front ++ value :: back) closed))
    (hItem : holds (depth - 1) value → holds (depth - 1) other) :
    holds depth (.array (front ++ other :: back) closed) := by
  rw [hPartwise.array, forall_mem_middle] at hHolds ⊢
  rcases hHolds with ⟨hOpens, hClosed, hValue, hOthers⟩
  exact ⟨hOpens, hClosed, hItem hValue, hOthers⟩

theorem object_of_member
    (hPartwise : Partwise holds opens names)
    {front back : List Member}
    {key : Option String}
    {closed : Bool}
    {depth : Nat}
    (hHolds :
      holds depth (.object (front ++ (key, value) :: back) closed))
    (hMember : holds (depth - 1) value → holds (depth - 1) other) :
    holds depth
      (.object (front ++ (key, other) :: back) closed) := by
  rw [hPartwise.object, forall_mem_middle] at hHolds ⊢
  rcases hHolds with ⟨hOpens, hClosed, ⟨hKey, hValue⟩, hOthers⟩
  exact ⟨hOpens, hClosed, ⟨hKey, hMember hValue⟩, hOthers⟩

/-
  A change keeps a property that holds part by part, if all
  members that may be inserted have it.
-/
theorem of_step
    (hPartwise : Partwise holds opens names)
    (hStep : Step family strict shape value other)
    (hScalars :
      ∀ scalar depth,
        scalar.isScalar = true →
        (strict = true → scalar.sound 0 = true) →
          holds depth scalar)
    (depth : Nat)
    (hHolds : holds depth value) :
    holds depth other := by
  induction hStep generalizing depth with
  | permuted hOrder =>
      rw [hPartwise.object] at hHolds ⊢
      refine ⟨hHolds.1, hHolds.2.1, ?_⟩
      intro member hMember
      exact hHolds.2.2 member (hOrder.mem_iff.mpr hMember)
  | inserted hKey hScalar hSound =>
      rw [hPartwise.object] at hHolds ⊢
      refine ⟨hHolds.1, hHolds.2.1, ?_⟩
      rw [forall_mem_middle]
      exact
        ⟨⟨hPartwise.text _, hScalars _ _ hScalar hSound⟩,
          hHolds.2.2⟩
  | listed hValues =>
      rw [hPartwise.object] at hHolds
      rw [hPartwise.array]
      refine ⟨hHolds.1, hHolds.2.1, ?_⟩
      intro item hItem
      rcases mem_of_listed hValues hItem with
        ⟨member, hMember, rfl⟩
      exact (hHolds.2.2 member hMember).2
  | member hStep ih =>
      exact hPartwise.object_of_member hHolds (ih hScalars _)
  | field hField hStep ih =>
      exact hPartwise.array_of_item hHolds (ih hScalars _)
  | item hStep ih =>
      exact hPartwise.array_of_item hHolds (ih hScalars _)
  | ofKind hFields hStep ih =>
      -- Within a kind only sound members may be inserted.
      refine ih ?_ _ hHolds
      intro scalar depth hScalar hSound
      exact hScalars scalar depth hScalar fun _ => hSound rfl
  | anyItem hStep ih =>
      exact hPartwise.array_of_item hHolds (ih hScalars _)
  | anyMember hStep ih =>
      exact hPartwise.object_of_member hHolds (ih hScalars _)

end Partwise

/- A value without parts is as sound at any depth. -/
theorem Draft.sound_of_isScalar
    {scalar : Draft}
    {depth : Nat}
    (hScalar : scalar.isScalar = true)
    (hSound : scalar.sound 0 = true) :
    scalar.sound depth = true := by
  cases scalar with
  | absent => cases hScalar
  | array items closed => cases hScalar
  | object members closed => cases hScalar
  | null => rfl
  | bool value => rfl
  | number value => exact hSound
  | string value => exact hSound

theorem Draft.grammatical_of_isScalar
    {scalar : Draft}
    (hScalar : scalar.isScalar = true) :
    scalar.grammatical = true := by
  cases scalar with
  | absent => cases hScalar
  | array items closed => cases hScalar
  | object members closed => cases hScalar
  | _ => rfl

namespace Step

/- Strict changes keep a value sound at any depth. -/
theorem sound
    (hStep : Step family true shape value other)
    {depth : Nat}
    (hSound : value.sound depth = true) :
    other.sound depth = true := by
  refine partwise_sound.of_step hStep ?_ depth hSound
  intro scalar depth hScalar hStrict
  exact Draft.sound_of_isScalar hScalar (hStrict rfl)

/- Changes keep a value written in full. -/
theorem grammatical
    (hStep : Step family strict shape value other)
    (hGrammatical : value.grammatical = true) :
    other.grammatical = true := by
  refine partwise_grammatical.of_step hStep ?_ 0 hGrammatical
  intro scalar _ hScalar _
  exact Draft.grammatical_of_isScalar hScalar

end Step

end Json

end TracedScript
