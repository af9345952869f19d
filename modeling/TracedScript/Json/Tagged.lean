import TracedScript.Json.Reader

/-
  Records of several kinds, told apart by one of their keys.

  Key definitions include:
    * `Json.Reader.tagged`
    * `Json.Reader.oneOf`: a kind by its name or its number.
-/

------------------------------------------------------------
-- Tagged Records
------------------------------------------------------------

namespace TracedScript

namespace Json

/- Whether a value may be set aside, to be read later as a copy. -/
def Access.admits : Access → Draft → Bool
  | .direct depth, draft => draft.sound depth
  | .copied, _ => true

namespace Reader

/-
  One of some named kinds. In a copy the number of the kind
  will do as well.
-/
def oneOf
    {κ : Type}
    (kinds : List (String × κ)) :
    Reader κ := fun access draft =>
  match access, draft with
  | _, .string (some name) =>
      match kinds.lookup name with
      | some kind => .ok kind
      | none =>
          .error
            (.misfit (.unknownVariant name (kinds.map Prod.fst)))
  | .copied, .number (some (.natural index)) =>
      match kinds[index]? with
      | some kind => .ok kind.2
      | none =>
          .error
            (.misfit
              (.wrongValue (.number (.natural index))
                (.variantIndex kinds.length)))
  | _, draft => .error (draft.mismatch .variant)

/-
  A record whose kind stands under the given key, or comes
  first in an array. All other parts are set aside until the
  kind is known and the record is closed.
-/
def tagged
    {κ α : Type}
    (name key : String)
    (kind : Reader κ)
    (payload : κ → Reader α) :
    Reader α := fun access draft =>
  match draft with
  | .object members closed =>
      match access.enter? with
      | none => .error .malformed
      | some inner => do
          let tag : Outcome κ :=
            match findMember key members 0 with
            | some (place, draft) =>
                .placed place (kind inner draft)
            | none =>
                .failed
                  ⟨members.length + 1, .misfit (.missingField key)⟩
          let checks :=
            memberChecks [key] inner.admits members [] 0
              ++ [.check closed members.length .malformed]
          let found ←
            ((fun found _ => found) <$> tag
              <*> Outcome.all checks).toExcept
          payload found .copied draft
  | .array items closed =>
      match access.enter?, items with
      | none, _ => .error .malformed
      | some _, [] =>
          if closed then .error (.misfit (.missingField key))
          else .error .malformed
      | some inner, first :: rest => do
          let found ← kind inner first
          if closed && rest.all inner.admits then
            payload found .copied (.array rest true)
          else
            throw .malformed
  | draft => .error (draft.mismatch (.tagged name))

end Reader

end Json

end TracedScript
