import TracedScript.Proofs.AcceptedMembers
import TracedScript.Proofs.Presentation
import Mathlib.Data.Option.Basic

/-
  Readers give the same results for all ways to write a value
  down.

  A record that is accepted has each of its keys once, so only
  the values of its fields matter, and these are found in any
  order and in the array of all fields as well.

  Key definitions include:
    * `Json.Reader.Respects`: changes keep the result.
    * `Json.Entry.Agrees`: fields that differ by a change.

  Main declarations:
    * `Json.Reader.record_eq_ok_iff`
    * `Json.Reader.respects_record`
-/

------------------------------------------------------------
-- Plain Readers
------------------------------------------------------------

namespace TracedScript

namespace Json

/- No change to a value changes what is read from it. -/
def Reader.Respects
    {α : Type}
    (reader : Reader α)
    (family : Family)
    (shape : Shape) : Prop :=
  ∀ strict access value other result,
    Step family strict shape value other →
    reader access value = .ok result →
      reader access other = .ok result

variable {family : Family} {shape : Shape}

namespace Reader

variable {α β : Type}

/- A reader for values without parts has nothing to respect. -/
theorem respects_of_scalar
    {reader : Reader α}
    (hScalar :
      ∀ access value result,
        reader access value = .ok result →
          value.isContainer = false) :
    reader.Respects family shape := by
  intro strict access value other result hStep hRead
  have hContainer := hStep.isContainer.1
  rw [hScalar access value result hRead] at hContainer
  cases hContainer

theorem respects_text :
    Reader.text.Respects family shape := by
  apply respects_of_scalar
  intro access value result hRead
  cases value with
  | array items closed => cases hRead
  | object members closed => cases hRead
  | _ => rfl

theorem respects_boolean :
    Reader.boolean.Respects family shape := by
  apply respects_of_scalar
  intro access value result hRead
  cases value with
  | array items closed => cases hRead
  | object members closed => cases hRead
  | _ => rfl

theorem respects_word32 :
    Reader.word32.Respects family shape := by
  apply respects_of_scalar
  intro access value result hRead
  cases value with
  | array items closed => cases hRead
  | object members closed => cases hRead
  | _ => rfl

theorem respects_map
    {reader : Reader α}
    (change : α → β)
    (hReader : reader.Respects family shape) :
    Reader.Respects
      (fun access value => change <$> reader access value)
      family shape := by
  intro strict access value other result hStep hRead
  rcases map_eq_ok_iff.mp hRead with ⟨inner, hInner, rfl⟩
  exact
    map_eq_ok_iff.mpr
      ⟨inner, hReader _ _ _ _ _ hStep hInner, rfl⟩

theorem optional_of_isContainer
    {reader : Reader α}
    {value : Draft}
    (access : Access)
    (hContainer : value.isContainer = true) :
    reader.optional access value =
      some <$> reader access value := by
  cases value with
  | null => cases hContainer
  | _ => rfl

theorem respects_optional
    {reader : Reader α}
    (hReader : reader.Respects family shape) :
    reader.optional.Respects family shape := by
  intro strict access value other result hStep hRead
  rw [optional_of_isContainer access hStep.isContainer.1] at hRead
  rw [optional_of_isContainer access hStep.isContainer.2]
  exact respects_map some hReader _ _ _ _ _ hStep hRead

theorem respects_list
    {item : Reader α}
    (hItem : item.Respects family shape) :
    (Reader.list item).Respects family (.list shape) := by
  intro strict access value other result hStep hRead
  cases hStep with
  | permuted hOrder => cases hRead
  | item hStep =>
      simp only [list] at hRead ⊢
      cases hEnter : access.enter? with
      | none =>
          rw [hEnter] at hRead
          cases hRead
      | some inner =>
          simp only [hEnter] at hRead ⊢
          rcases bind_eq_ok_iff.mp hRead with
            ⟨values, hValues, hClosed⟩
          refine bind_eq_ok_iff.mpr ⟨values, ?_, hClosed⟩
          exact
            mapM_replace
              (fun result => hItem _ _ _ _ result hStep) hValues

end Reader

------------------------------------------------------------
-- Entries
------------------------------------------------------------

variable {members front back : List Member}
variable {key : String} {value other : Draft}

/- A record as it is written. -/
def Parts.draft : Parts → Draft
  | .named members closed => .object members closed
  | .listed items closed => .array items closed

def Parts.closed : Parts → Bool
  | .named _ closed => closed
  | .listed _ closed => closed

namespace Entry

variable {α β : Type}

/- The value of a field, if it is there. -/
def value?
    (entry : Entry)
    (key : String) :
    Option Draft :=
  match entry.parts with
  | .named members _ => members.lookup (some key)
  | .listed items _ => items[entry.layout.keys.idxOf key]?

variable {entry : Entry} {reader : Reader α}

theorem field?_of_value?
    (hValue : entry.value? key = some value) :
    ∃ place,
      entry.field? key reader =
        some (.placed place (reader entry.access value)) := by
  rcases entry with
    ⟨layout, access, ⟨members, closed⟩ | ⟨items, closed⟩⟩
  · have hFind := map_snd_findMember key members 0
    rw [show members.lookup (some key) = some value from hValue,
      Option.map_eq_some_iff] at hFind
    rcases hFind with ⟨⟨place, _⟩, hFind, rfl⟩
    exact ⟨place, by simp [field?, hFind]⟩
  · simp only [value?] at hValue
    exact
      ⟨layout.keys.idxOf key, by simp only [field?, hValue]⟩

theorem field?_of_value?_eq_none
    (hClosed : entry.parts.closed = true)
    (hValue : entry.value? key = none) :
    entry.field? key reader = none := by
  rcases entry with
    ⟨layout, access, ⟨members, closed⟩ | ⟨items, closed⟩⟩
  · have hFind := map_snd_findMember key members 0
    rw [show members.lookup (some key) = none from hValue,
      Option.map_eq_none_iff] at hFind
    simp [field?, hFind]
  · simp only [value?] at hValue
    simp only [Parts.closed] at hClosed
    simp only [field?, hValue, hClosed, if_true]

theorem placed_eq_done_iff
    {place : Nat}
    {outcome : Except Fault α}
    {result : α} :
    Outcome.placed place outcome = .done result ↔
      outcome = .ok result := by
  cases outcome with
  | ok value => simp [Outcome.placed]
  | error fault => simp [Outcome.placed]

/- A field that must be there is read from its value. -/
theorem required_eq_done_iff
    {result : α}
    (hClosed : entry.parts.closed = true) :
    entry.required key reader = .done result ↔
      ∃ value,
        entry.value? key = some value
          ∧ reader entry.access value = .ok result := by
  unfold required
  cases hValue : entry.value? key with
  | none =>
      rw [field?_of_value?_eq_none hClosed hValue]
      simp
  | some value =>
      rcases field?_of_value? hValue with ⟨place, hField⟩
      rw [hField, Option.getD_some, placed_eq_done_iff]
      simp

theorem defaulted_eq_done_iff
    {default result : α}
    (hClosed : entry.parts.closed = true) :
    entry.defaulted key reader default = .done result ↔
      (entry.value? key = none ∧ default = result)
        ∨ ∃ value,
          entry.value? key = some value
            ∧ reader entry.access value = .ok result := by
  unfold defaulted
  cases hValue : entry.value? key with
  | none =>
      rw [field?_of_value?_eq_none hClosed hValue]
      simp
  | some value =>
      rcases field?_of_value? hValue with ⟨place, hField⟩
      rw [hField, Option.getD_some, placed_eq_done_iff]
      simp

/-
  Two records whose fields are the same, or differ by a change
  to a value of their shape.
-/
structure Agrees
    (family : Family)
    (strict : Bool)
    (fields : List (String × Shape))
    (entry later : Entry) : Prop where
  access : later.access = entry.access
  closed : entry.parts.closed = true
  laterClosed : later.parts.closed = true
  values :
    ∀ key shape,
      fields.lookup key = some shape →
        Option.Rel
          (fun value other =>
            value = other
              ∨ Step family strict shape value other)
          (entry.value? key) (later.value? key)

/- What is read from fields does not depend on the changes. -/
def FieldsRespect
    (family : Family)
    (fields : List (String × Shape))
    (read : Entry → Outcome α) : Prop :=
  ∀ strict entry later result,
    Agrees family strict fields entry later →
    read entry = .done result →
      read later = .done result

namespace FieldsRespect

variable {fields : List (String × Shape)}

theorem map
    {read : Entry → Outcome α}
    (hRead : FieldsRespect family fields read)
    (change : α → β) :
    FieldsRespect family fields fun entry =>
      change <$> read entry := by
  intro strict entry later result hAgrees hDone
  rcases Outcome.map_eq_done_iff.mp hDone with
    ⟨value, hValue, rfl⟩
  exact
    Outcome.map_done (hRead strict entry later value hAgrees hValue)

theorem seq
    {change : Entry → Outcome (α → β)}
    {read : Entry → Outcome α}
    (hChange : FieldsRespect family fields change)
    (hRead : FieldsRespect family fields read) :
    FieldsRespect family fields fun entry =>
      change entry <*> read entry := by
  intro strict entry later result hAgrees hDone
  rcases Outcome.seq_eq_done_iff.mp hDone with
    ⟨function, value, hFunction, hValue, rfl⟩
  exact
    Outcome.seq_done
      (hChange strict entry later function hAgrees hFunction)
      (hRead strict entry later value hAgrees hValue)

/- A reader that respects changes reads a changed field alike. -/
theorem read_of_rel
    {strict : Bool}
    {access : Access}
    {result : α}
    (hReader : reader.Respects family shape)
    (hRel :
      value = other ∨ Step family strict shape value other)
    (hRead : reader access value = .ok result) :
    reader access other = .ok result := by
  rcases hRel with rfl | hStep
  · exact hRead
  · exact hReader strict access value other result hStep hRead

theorem required
    (hField : fields.lookup key = some shape)
    (hReader : reader.Respects family shape) :
    FieldsRespect family fields fun entry =>
      entry.required key reader := by
  intro strict entry later result hAgrees hDone
  rw [required_eq_done_iff hAgrees.closed] at hDone
  rw [required_eq_done_iff hAgrees.laterClosed, hAgrees.access]
  rcases hDone with ⟨value, hValue, hRead⟩
  have hRel := hAgrees.values key shape hField
  rw [hValue] at hRel
  cases hLater : later.value? key with
  | none =>
      rw [hLater] at hRel
      cases hRel
  | some other =>
      rw [hLater] at hRel
      cases hRel with
      | some hRel =>
          exact ⟨other, rfl, read_of_rel hReader hRel hRead⟩

theorem defaulted
    (hField : fields.lookup key = some shape)
    (hReader : reader.Respects family shape)
    (default : α) :
    FieldsRespect family fields fun entry =>
      entry.defaulted key reader default := by
  intro strict entry later result hAgrees hDone
  rw [defaulted_eq_done_iff hAgrees.closed] at hDone
  rw [defaulted_eq_done_iff hAgrees.laterClosed, hAgrees.access]
  have hRel := hAgrees.values key shape hField
  rcases hDone with ⟨hNone, hDefault⟩ | ⟨value, hValue, hRead⟩
  · rw [hNone] at hRel
    cases hLater : later.value? key with
    | none => exact .inl ⟨rfl, hDefault⟩
    | some other =>
        rw [hLater] at hRel
        cases hRel
  · rw [hValue] at hRel
    cases hLater : later.value? key with
    | none =>
        rw [hLater] at hRel
        cases hRel
    | some other =>
        rw [hLater] at hRel
        cases hRel with
        | some hRel =>
            exact
              .inr ⟨other, rfl, read_of_rel hReader hRel hRead⟩

theorem optional
    (hField : fields.lookup key = some shape)
    (hReader : reader.Respects family shape) :
    FieldsRespect family fields fun entry =>
      entry.optional key reader :=
  defaulted hField (Reader.respects_optional hReader) none

end FieldsRespect

end Entry

------------------------------------------------------------
-- Records
------------------------------------------------------------

/- The place of a field in the array of all fields. -/
theorem getElem?_of_lookup
    {fields : List (String × Shape)}
    (hField : fields.lookup key = some shape) :
    fields[(fields.map Prod.fst).idxOf key]? =
      some (key, shape) := by
  induction fields with
  | nil => cases hField
  | cons field fields ih =>
      rcases field with ⟨name, first⟩
      by_cases hName : key = name
      · subst hName
        rw [List.lookup_cons, beq_self_eq_true] at hField
        cases hField
        simp
      · have hSkip : (key == name) = false :=
          beq_false_of_ne hName
        rw [List.lookup_cons, hSkip] at hField
        rw [List.map_cons, List.idxOf_cons_ne _ (Ne.symm hName),
          List.getElem?_cons_succ]
        exact ih hField

theorem getElem?_replace
    {α : Type}
    {front back : List α}
    {a b : α}
    {index : Nat}
    (hIndex : index ≠ front.length) :
    (front ++ b :: back)[index]? =
      (front ++ a :: back)[index]? := by
  rw [List.getElem?_append, List.getElem?_append]
  split
  · rfl
  · next hPast =>
      have hSome : index - front.length ≠ 0 := by omega
      rcases Nat.exists_eq_succ_of_ne_zero hSome with
        ⟨rest, hRest⟩
      rw [hRest, List.getElem?_cons_succ, List.getElem?_cons_succ]

namespace Entry

variable {layout : Layout} {inner : Access}

theorem checks_named_iff
    {closed : Bool} :
    (∀ check ∈ checks ⟨layout, inner, .named members closed⟩,
        check = .done ()) ↔
      Accepted layout.keys Draft.grammatical members
        ∧ closed = true := by
  unfold checks
  simp only [List.forall_mem_append, memberChecks_done_iff,
    List.mem_singleton, forall_eq, Outcome.check_eq_done_iff,
    List.not_mem_nil, not_false_eq_true, implies_true, and_true]

theorem checks_listed_iff
    {items : List Draft}
    {closed : Bool} :
    (∀ check ∈ checks ⟨layout, inner, .listed items closed⟩,
        check = .done ()) ↔
      closed = true ∧ items.length ≤ layout.keys.length := by
  unfold checks
  simp only [List.forall_mem_cons, Outcome.check_eq_done_iff,
    decide_eq_true_eq, List.not_mem_nil, false_implies,
    implies_true, and_true]

end Entry

namespace Reader

variable {α : Type} {access : Access}

/- A record is read from parts that pass all checks. -/
theorem record_eq_ok_iff
    {layout : Layout}
    {read : Entry → Outcome α}
    {result : α} :
    Reader.record layout read access value = .ok result ↔
      ∃ inner parts,
        access.enter? = some inner
          ∧ value = Parts.draft parts
          ∧ read ⟨layout, inner, parts⟩ = .done result
          ∧ ∀ check ∈ Entry.checks ⟨layout, inner, parts⟩,
            check = .done () := by
  constructor
  · intro hRead
    cases value with
    | object members closed =>
        simp only [record] at hRead
        split at hRead
        · cases hRead
        · next inner hEnter =>
            rw [Outcome.toExcept_checked_eq_ok_iff] at hRead
            exact ⟨inner, .named members closed, hEnter, rfl, hRead⟩
    | array items closed =>
        simp only [record] at hRead
        split at hRead
        · cases hRead
        · next inner hEnter =>
            rw [Outcome.toExcept_checked_eq_ok_iff] at hRead
            exact ⟨inner, .listed items closed, hEnter, rfl, hRead⟩
    | _ => cases hRead
  · rintro ⟨inner, parts, hEnter, rfl, hResult⟩
    cases parts with
    | named members closed =>
        simp only [record, Parts.draft, hEnter]
        exact Outcome.toExcept_checked_eq_ok_iff.mpr hResult
    | listed items closed =>
        simp only [record, Parts.draft, hEnter]
        exact Outcome.toExcept_checked_eq_ok_iff.mpr hResult

end Reader

namespace Entry

variable {name : String} {inner : Access} {strict : Bool}
variable {fields : List (String × Shape)}
variable {parts : Parts}

/- The entry of a record with the given fields. -/
def ofFields
    (name : String)
    (fields : List (String × Shape))
    (inner : Access)
    (parts : Parts) :
    Entry :=
  ⟨⟨name, fields.map Prod.fst⟩, inner, parts⟩

theorem mem_of_lookup
    (hField : fields.lookup key = some shape) :
    key ∈ fields.map Prod.fst := by
  rcases List.lookup_eq_some_iff.mp hField with
    ⟨front, back, rfl, _⟩
  simp

theorem notMem_of_lookup
    (hField : fields.lookup key = none) :
    key ∉ fields.map Prod.fst := by
  intro hMember
  rcases List.mem_map.mp hMember with ⟨field, hField', rfl⟩
  rw [List.lookup_eq_none_iff] at hField
  exact absurd (hField field hField') (by simp)

theorem rel_refl
    (found : Option Draft) :
    Option.Rel
      (fun value other =>
        value = other ∨ Step family strict shape value other)
      found found := by
  cases found with
  | none => exact .none
  | some value => exact .some (.inl rfl)

/- An object with all fields has them in the array as well. -/
theorem getElem?_of_listed
    {values : List Draft}
    (hValues :
      fields.map (fun field => members.lookup (some field.1)) =
        values.map some)
    (hField : fields.lookup key = some shape) :
    values[(fields.map Prod.fst).idxOf key]? =
      members.lookup (some key) := by
  have hPlace :=
    congrArg
      (fun list => list[(fields.map Prod.fst).idxOf key]?) hValues
  simp only [List.getElem?_map, getElem?_of_lookup hField,
    Option.map_some] at hPlace
  rcases Option.map_eq_some_iff.mp hPlace.symm with
    ⟨value, hValue, hSame⟩
  rw [hValue, hSame]

/- A change to an object. -/
theorem agrees_of_named
    {closed : Bool}
    (hStep :
      Step family strict (.record fields) (.object members closed)
        other)
    (hAccepted :
      Accepted (fields.map Prod.fst) Draft.grammatical members)
    (hClosed : closed = true) :
    ∃ later : Parts,
      other = later.draft
        ∧ (∀ check ∈ (ofFields name fields inner later).checks,
          check = .done ())
        ∧ Agrees family strict fields
          (ofFields name fields inner (.named members closed))
          (ofFields name fields inner later) := by
  cases hStep with
  | @permuted _ _ _ others _ hOrder =>
      refine
        ⟨.named others closed, rfl,
          checks_named_iff.mpr ⟨hAccepted.perm hOrder, hClosed⟩,
          rfl, hClosed, hClosed, ?_⟩
      intro key shape hField
      have hSame :=
        hAccepted.lookup_perm hOrder (mem_of_lookup hField)
      simp only [ofFields, value?, hSame]
      exact rel_refl _
  | @inserted _ _ front back key value _ hKey hScalar _ =>
      have hOther := notMem_of_lookup hKey
      refine
        ⟨.named (front ++ (some key, value) :: back) closed, rfl,
          checks_named_iff.mpr
            ⟨hAccepted.insert hOther
              (Draft.grammatical_of_isScalar hScalar), hClosed⟩,
          rfl, hClosed, hClosed, ?_⟩
      intro found shape hField
      have hApart : found ≠ key := by
        rintro rfl
        exact hOther (mem_of_lookup hField)
      simp only [ofFields, value?, lookup_insert hApart]
      exact rel_refl _
  | @listed _ _ _ values _ hValues =>
      have hLength :
          values.length = (fields.map Prod.fst).length := by
        simpa using (congrArg List.length hValues).symm
      refine
        ⟨.listed values closed, rfl,
          checks_listed_iff.mpr ⟨hClosed, hLength.le⟩, rfl,
          hClosed, hClosed, ?_⟩
      intro key shape hField
      simp only [ofFields, value?, getElem?_of_listed hValues hField]
      exact rel_refl _
  | @member _ _ front back key value other _ hStep =>
      refine
        ⟨.named (front ++ (some key, other) :: back) closed, rfl,
          checks_named_iff.mpr
            ⟨hAccepted.replace fun _ => hStep.grammatical,
              hClosed⟩,
          rfl, hClosed, hClosed, ?_⟩
      intro found shape hField
      simp only [ofFields, value?]
      rcases lookup_replace front back key value other found with
        hSame | ⟨rfl, hBefore, hAfter⟩
      · rw [hSame]
        exact rel_refl _
      · rw [hBefore, hAfter]
        rw [Shape.ofMember, hField, Option.getD_some] at hStep
        exact .some (.inr hStep)

/- A change to the array of all fields. -/
theorem agrees_of_listed
    {items : List Draft}
    {closed : Bool}
    (hStep :
      Step family strict (.record fields) (.array items closed)
        other)
    (hClosed : closed = true)
    (hLength : items.length ≤ (fields.map Prod.fst).length) :
    ∃ later : Parts,
      other = later.draft
        ∧ (∀ check ∈ (ofFields name fields inner later).checks,
          check = .done ())
        ∧ Agrees family strict fields
          (ofFields name fields inner (.listed items closed))
          (ofFields name fields inner later) := by
  cases hStep with
  | @field _ _ front back found shape value other _ hField hStep =>
      rw [List.length_append, List.length_cons] at hLength
      refine
        ⟨.listed (front ++ other :: back) closed, rfl,
          checks_listed_iff.mpr ⟨hClosed, ?_⟩, rfl, hClosed,
          hClosed, ?_⟩
      · rw [List.length_append, List.length_cons]
        exact hLength
      · intro key wanted hWanted
        have hPlace := getElem?_of_lookup hWanted
        simp only [ofFields, value?]
        -- Only the field at the place of the change differs.
        by_cases hHere :
            (fields.map Prod.fst).idxOf key = front.length
        · rw [hHere] at hPlace ⊢
          rw [hField] at hPlace
          cases hPlace
          rw [List.getElem?_append_right (le_refl _),
            List.getElem?_append_right (le_refl _), Nat.sub_self]
          exact .some (.inr hStep)
        · rw [getElem?_replace hHere]
          exact rel_refl _

/-
  A change to a record that passes its checks gives a record
  that passes them as well, with fields that agree.
-/
theorem agrees_of_step
    (hStep :
      Step family strict (.record fields) parts.draft other)
    (hChecks :
      ∀ check ∈ (ofFields name fields inner parts).checks,
        check = .done ()) :
    ∃ later : Parts,
      other = later.draft
        ∧ (∀ check ∈ (ofFields name fields inner later).checks,
          check = .done ())
        ∧ Agrees family strict fields
          (ofFields name fields inner parts)
          (ofFields name fields inner later) := by
  cases parts with
  | named members closed =>
      rcases checks_named_iff.mp hChecks with
        ⟨hAccepted, hClosed⟩
      exact agrees_of_named hStep hAccepted hClosed
  | listed items closed =>
      rcases checks_listed_iff.mp hChecks with
        ⟨hClosed, hLength⟩
      exact agrees_of_listed hStep hClosed hLength

end Entry

/- A record respects changes if the readers of its fields do. -/
theorem Reader.respects_record
    {α : Type}
    {name : String}
    {fields : List (String × Shape)}
    {read : Entry → Outcome α}
    (hRead : Entry.FieldsRespect family fields read) :
    (Reader.record ⟨name, fields.map Prod.fst⟩ read).Respects
      family (.record fields) := by
  intro strict access value other result hStep hOk
  rcases record_eq_ok_iff.mp hOk with
    ⟨inner, parts, hEnter, rfl, hResult, hChecks⟩
  rcases Entry.agrees_of_step hStep hChecks with
    ⟨later, rfl, hLater, hAgrees⟩
  exact
    record_eq_ok_iff.mpr
      ⟨inner, later, hEnter, rfl,
        hRead strict _ _ result hAgrees hResult, hLater⟩

end Json

end TracedScript
