import TracedScript.Json.Fault

/-
  Reading values of given types from a draft.

  Of several faults the first in the order of the text is
  reported. A record is read from an object or from an array
  of its fields: each field is read for itself, and the
  outcomes are joined so that the earliest problem wins.

  Key definitions include:
    * `Json.Access`: how a value is reached.
    * `Json.Reader`
    * `Json.Reader.text`, `Json.Reader.word32`,
      `Json.Reader.list`, `Json.Reader.optional`
    * `Json.Outcome`: a value or the earliest problem.
    * `Json.Reader.record`: records with named fields.
    * `Json.read`: reading a whole text.
-/

------------------------------------------------------------
-- Readers
------------------------------------------------------------

namespace TracedScript

namespace Json

/-
  How a value is reached: straight from the text, where
  `depth` more containers may be opened inside each other, or
  from a part of the text that was found sound before.
-/
inductive Access where
  | direct (depth : Nat)
  | copied
deriving DecidableEq, Repr

/- The access to the parts of a container, if it may be opened. -/
def Access.enter? : Access → Option Access
  | .direct 0 => none
  | .direct (depth + 1) => some (.direct depth)
  | .copied => some .copied

/- The number of containers that a text may open inside each other. -/
def nestingLimit : Nat := 127

/- A way to read values of a type. -/
abbrev Reader (α : Type) :=
  Access → Draft → Except Fault α

namespace Reader

/- A text. -/
def text : Reader String := fun _ draft =>
  match draft with
  | .string (some value) => .ok value
  | draft => .error (draft.mismatch .text)

/- A truth value. -/
def boolean : Reader Bool := fun _ draft =>
  match draft with
  | .bool value => .ok value
  | draft => .error (draft.mismatch .boolean)

/- A whole number of 32 bits. -/
def word32 : Reader UInt32 := fun _ draft =>
  match draft with
  | .number (some (.natural value)) =>
      if value < UInt32.size then .ok (UInt32.ofNat value)
      else
        .error
          (.misfit (.wrongValue (.number (.natural value)) .word32))
  | .number (some (.negative magnitude)) =>
      .error
        (.misfit
          (.wrongValue (.number (.negative magnitude)) .word32))
  | draft => .error (draft.mismatch .word32)

/- An array whose items are all read in the same way. -/
def list
    {α : Type}
    (item : Reader α) :
    Reader (List α) := fun access draft =>
  match draft with
  | .array items closed =>
      match access.enter? with
      | none => .error .malformed
      | some inner => do
          let values ← items.mapM (item inner)
          if closed then pure values else throw .malformed
  | draft => .error (draft.mismatch .sequence)

/- A value that may be null. -/
def optional
    {α : Type}
    (value : Reader α) :
    Reader (Option α) := fun access draft =>
  match draft with
  | .null => .ok none
  | draft => some <$> value access draft

end Reader

------------------------------------------------------------
-- Outcomes
------------------------------------------------------------

/- A fault and its place among the parts of a record. -/
structure Problem where
  place : Nat
  fault : Fault
deriving DecidableEq, Repr

/- The problem that comes first; of two at one place, the left one. -/
def Problem.earlier (left right : Problem) : Problem :=
  if right.place < left.place then right else left

/- What reading a part of a record gives. -/
inductive Outcome (α : Type) where
  | done (value : α)
  | failed (problem : Problem)

namespace Outcome

/- The outcome of reading a part at a given place. -/
def placed
    {α : Type}
    (place : Nat) :
    Except Fault α → Outcome α
  | .ok value => .done value
  | .error fault => .failed ⟨place, fault⟩

/- A problem unless a condition holds. -/
def check
    (condition : Bool)
    (place : Nat)
    (fault : Fault) :
    Outcome Unit :=
  if condition then .done () else .failed ⟨place, fault⟩

/- Applies the one outcome to the other; the earlier problem wins. -/
def apply
    {α β : Type} :
    Outcome (α → β) → Outcome α → Outcome β
  | .done f, .done a => .done (f a)
  | .done _, .failed p => .failed p
  | .failed p, .done _ => .failed p
  | .failed p, .failed q => .failed (p.earlier q)

instance : Applicative Outcome where
  pure := .done
  seq f a := f.apply (a ())

/- The earliest problem of several checks. -/
def all : List (Outcome Unit) → Outcome Unit
  | [] => .done ()
  | check :: checks => (fun _ _ => ()) <$> check <*> all checks

/- The outcome without its place. -/
def toExcept
    {α : Type} :
    Outcome α → Except Fault α
  | .done value => .ok value
  | .failed problem => .error problem.fault

end Outcome

------------------------------------------------------------
-- Members of an Object
------------------------------------------------------------

/- The first member with a key, with its place. -/
def findMember
    (key : String) :
    List Member → Nat → Option (Nat × Draft)
  | [], _ => none
  | (some name, value) :: members, place =>
      if name = key then some (place, value)
      else findMember key members (place + 1)
  | (none, _) :: members, place =>
      findMember key members (place + 1)

/-
  What is wrong with the members of an object apart from the
  values of the known keys: a key that is no text, a known
  key that was there before, or any other value that is not
  accepted.
-/
def memberChecks
    (known : List String)
    (accepts : Draft → Bool) :
    List Member → (seen : List String) → Nat → List (Outcome Unit)
  | [], _, _ => []
  | (none, _) :: members, seen, place =>
      .failed ⟨place, .malformed⟩
        :: memberChecks known accepts members seen (place + 1)
  | (some key, value) :: members, seen, place =>
      if known.contains key then
        .check (!seen.contains key) place
            (.misfit (.duplicateField key))
          :: memberChecks known accepts members (key :: seen)
            (place + 1)
      else
        .check (accepts value) place .malformed
          :: memberChecks known accepts members seen (place + 1)

------------------------------------------------------------
-- Records
------------------------------------------------------------

/- The name of a record and the keys of its fields in order. -/
structure Layout where
  name : String
  keys : List String

/- The parts of a record that is being read. -/
inductive Parts where
  | named (members : List Member) (closed : Bool)
  | listed (items : List Draft) (closed : Bool)

/- A record that is being read. -/
structure Entry where
  layout : Layout
  access : Access
  parts : Parts

namespace Entry

/-
  The field with a key, if it is there: by name in an object,
  by its number in an array. An array that breaks off before
  the field is malformed.
-/
def field?
    {α : Type}
    (entry : Entry)
    (key : String)
    (reader : Reader α) :
    Option (Outcome α) :=
  match entry.parts with
  | .named members _ =>
      (findMember key members 0).map fun (place, draft) =>
        .placed place (reader entry.access draft)
  | .listed items closed =>
      let place := entry.layout.keys.idxOf key
      match items[place]? with
      | some draft => some (.placed place (reader entry.access draft))
      | none =>
          if closed then none
          else some (.failed ⟨place, .malformed⟩)

/- The problem that a field is not there. -/
def absent
    (entry : Entry)
    (key : String) :
    Problem :=
  match entry.parts with
  | .named members _ =>
      ⟨members.length + 1, .misfit (.missingField key)⟩
  | .listed _ _ =>
      let place := entry.layout.keys.idxOf key
      ⟨place,
        .misfit
          (.tooShort place entry.layout.name
            entry.layout.keys.length)⟩

/- A field that must be there. -/
def required
    {α : Type}
    (entry : Entry)
    (key : String)
    (reader : Reader α) :
    Outcome α :=
  (entry.field? key reader).getD (.failed (entry.absent key))

/- A field that has a value also when it is not there. -/
def defaulted
    {α : Type}
    (entry : Entry)
    (key : String)
    (reader : Reader α)
    (value : α) :
    Outcome α :=
  (entry.field? key reader).getD (.done value)

/- A field that may be null or not there. -/
def optional
    {α : Type}
    (entry : Entry)
    (key : String)
    (reader : Reader α) :
    Outcome (Option α) :=
  entry.defaulted key reader.optional none

/-
  What is wrong with a record apart from its fields. Too long
  an array is malformed when it is read straight from the
  text.
-/
def checks (entry : Entry) : List (Outcome Unit) :=
  match entry.parts with
  | .named members closed =>
      memberChecks entry.layout.keys Draft.grammatical members [] 0
        ++ [.check closed members.length .malformed]
  | .listed items closed =>
      let fields := entry.layout.keys.length
      [.check closed items.length .malformed,
        .check (items.length ≤ fields) fields
          (match entry.access with
            | .direct _ => .malformed
            | .copied => .misfit (.tooLong items.length fields))]

end Entry

namespace Reader

/-
  A record, from an object or from an array of its fields.
-/
def record
    {α : Type}
    (layout : Layout)
    (fields : Entry → Outcome α) :
    Reader α := fun access draft =>
  let readParts (parts : Parts) : Except Fault α :=
    match access.enter? with
    | none => .error .malformed
    | some inner =>
        let entry : Entry := ⟨layout, inner, parts⟩
        ((fun value _ => value) <$> fields entry
          <*> Outcome.all entry.checks).toExcept
  match draft with
  | .object members closed => readParts (.named members closed)
  | .array items closed => readParts (.listed items closed)
  | draft => .error (draft.mismatch (.record layout.name))

end Reader

------------------------------------------------------------
-- Whole Texts
------------------------------------------------------------

/-
  Reads a whole text. Whether anything follows the value is
  looked at last.
-/
def read
    {α : Type}
    (reader : Reader α)
    (text : String) :
    Except Fault α := do
  let state := scan text
  let value ← reader (.direct nestingLimit) state.draft
  if state.isComplete then pure value else throw .malformed

end Json

end TracedScript
