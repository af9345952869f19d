import TracedScript.Json.Draft
import TracedScript.Text.Quoted

/-
  What can be wrong with a JSON text, and how it is said.

  Key definitions include:
    * `Json.Found`: what stands in the text.
    * `Json.Wanted`: what should stand there.
    * `Json.Misfit`: a value of the wrong shape.
    * `Json.Fault`: a misfit, or a text that is no JSON.
    * `Json.Misfit.message`
-/

------------------------------------------------------------
-- Faults
------------------------------------------------------------

namespace TracedScript

namespace Json

/- What stands in the text, as far as messages tell. -/
inductive Found where
  | null
  | bool (value : Bool)
  | number (value : Number)
  | string (value : String)
  | sequence
  | map
deriving DecidableEq, Repr

/- What should stand in the text. -/
inductive Wanted where
  | text
  | boolean
  | word32
  | sequence
  | record (name : String)
  | tagged (name : String)
  | variant
  | variantIndex (count : Nat)
deriving DecidableEq, Repr

/- A value of the wrong shape. -/
inductive Misfit where
  | wrongType (found : Found) (wanted : Wanted)
  | wrongValue (found : Found) (wanted : Wanted)
  | missingField (key : String)
  | duplicateField (key : String)
  | tooShort (count : Nat) (name : String) (fields : Nat)
  | tooLong (count : Nat) (fields : Nat)
  | unknownVariant (name : String) (known : List String)
  | noVariant (name : String)
  | notBoolean (text : String)
deriving DecidableEq, Repr

/- A fault of a text: it is no JSON, or it has the wrong shape. -/
inductive Fault where
  | malformed
  | misfit (cause : Misfit)
deriving DecidableEq, Repr

------------------------------------------------------------
-- Messages
------------------------------------------------------------

/- The text between two backticks. -/
def ticked (text : String) : String :=
  "`" ++ text ++ "`"

/- A number of things, with the plural of their name. -/
def counted
    (count : Nat)
    (noun : String) :
    String :=
  toString count ++ " " ++ noun ++ (if count = 1 then "" else "s")

namespace Found

/- How a message names what stands in the text. -/
def describe : Found → String
  | .null => "null"
  | .bool value =>
      "boolean " ++ ticked (if value then "true" else "false")
  | .number (.natural value) =>
      "integer " ++ ticked (toString value)
  | .number (.negative magnitude) =>
      "integer " ++ ticked ("-" ++ toString magnitude)
  | .number (.double negative magnitude) =>
      "floating point "
        ++ ticked ((if negative then "-" else "") ++ magnitude.text)
  | .string value => "string " ++ Text.quoted value
  | .sequence => "sequence"
  | .map => "map"

end Found

namespace Wanted

/- How a message names what should stand in the text. -/
def describe : Wanted → String
  | .text => "a string"
  | .boolean => "a boolean"
  | .word32 => "u32"
  | .sequence => "a sequence"
  | .record name => "struct " ++ name
  | .tagged name => "internally tagged enum " ++ name
  | .variant => "variant identifier"
  | .variantIndex count =>
      "variant index 0 <= i < " ++ toString count

end Wanted

namespace Misfit

/- The message for a value of the wrong shape. -/
def message : Misfit → String
  | .wrongType found wanted =>
      "invalid type: " ++ found.describe
        ++ ", expected " ++ wanted.describe
  | .wrongValue found wanted =>
      "invalid value: " ++ found.describe
        ++ ", expected " ++ wanted.describe
  | .missingField key => "missing field " ++ ticked key
  | .duplicateField key => "duplicate field " ++ ticked key
  | .tooShort count name fields =>
      "invalid length " ++ toString count
        ++ ", expected struct " ++ name
        ++ " with " ++ counted fields "element"
  | .tooLong count fields =>
      "invalid length " ++ toString count
        ++ ", expected " ++ counted fields "element"
        ++ " in sequence"
  | .unknownVariant name known =>
      "unknown variant " ++ ticked name ++ ", expected one of "
        ++ ", ".intercalate (known.map ticked)
  | .noVariant name =>
      "data did not match any variant of untagged enum " ++ name
  | .notBoolean text =>
      "invalid boolean value: '" ++ text
        ++ "'. Expected true, false, 'true', or 'false'"

end Misfit

------------------------------------------------------------
-- Faults of a Draft
------------------------------------------------------------

namespace Draft

/- What a draft is, unless it cannot be told. -/
def found? : Draft → Option Found
  | .absent => none
  | .null => some .null
  | .bool value => some (.bool value)
  | .number value => value.map .number
  | .string value => value.map .string
  | .array _ _ => some .sequence
  | .object _ _ => some .map

/- The fault of a draft that is not of the wanted type. -/
def mismatch
    (draft : Draft)
    (wanted : Wanted) :
    Fault :=
  match draft.found? with
  | none => .malformed
  | some found => .misfit (.wrongType found wanted)

end Draft

end Json

end TracedScript
