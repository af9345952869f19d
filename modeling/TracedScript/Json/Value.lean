import TracedScript.Json.Draft

/-
  JSON values and their compact text.

  Key definitions include:
    * `Json.Value`
    * `Json.Value.chars`, `Json.Value.write`
    * `Json.Value.draft`: the draft of a value.
    * `Json.Value.nesting`: how many containers lie inside
      each other.
-/

------------------------------------------------------------
-- Values
------------------------------------------------------------

namespace TracedScript

namespace Json

/- A value to be written. All numbers written are natural. -/
inductive Value where
  | null
  | bool (value : Bool)
  | number (value : Nat)
  | string (value : String)
  | array (items : List Value)
  | object (members : List (String × Value))
deriving Repr

------------------------------------------------------------
-- Text
------------------------------------------------------------

/- A character inside a string literal. -/
def escapeChar (c : Char) : List Char :=
  if c = '"' then ['\\', '"']
  else if c = '\\' then ['\\', '\\']
  else if c = '\x08' then ['\\', 'b']
  else if c = '\t' then ['\\', 't']
  else if c = '\n' then ['\\', 'n']
  else if c = '\x0c' then ['\\', 'f']
  else if c = '\r' then ['\\', 'r']
  else if c.toNat < 0x20 then
    ['\\', 'u', '0', '0',
      Nat.digitChar (c.toNat / 16), Nat.digitChar (c.toNat % 16)]
  else [c]

/- A string literal. -/
def literal (text : String) : List Char :=
  '"' :: text.toList.flatMap escapeChar ++ ['"']

namespace Value

mutual

/- The text of a value, without any blanks. -/
def chars : Value → List Char
  | .null => ['n', 'u', 'l', 'l']
  | .bool true => ['t', 'r', 'u', 'e']
  | .bool false => ['f', 'a', 'l', 's', 'e']
  | .number value => Nat.toDigits 10 value
  | .string value => literal value
  | .array items => '[' :: itemChars items ++ [']']
  | .object members => '\x7b' :: memberChars members ++ ['\x7d']

/- The text between the brackets of an array. -/
def itemChars : List Value → List Char
  | [] => []
  | [item] => item.chars
  | item :: items => item.chars ++ ',' :: itemChars items

/- The text between the brackets of an object. -/
def memberChars : List (String × Value) → List Char
  | [] => []
  | [(key, value)] => literal key ++ ':' :: value.chars
  | (key, value) :: members =>
      literal key ++ ':' :: value.chars
        ++ ',' :: memberChars members

end

/- The text of a value, without any blanks. -/
def write (value : Value) : String :=
  String.ofList value.chars

------------------------------------------------------------
-- Drafts and Nesting
------------------------------------------------------------

mutual

/- The draft of a value: it is written in full. -/
def draft : Value → Draft
  | .null => .null
  | .bool value => .bool value
  | .number value => .number (some (.natural value))
  | .string value => .string (some value)
  | .array items => .array (itemDrafts items) true
  | .object members => .object (memberDrafts members) true

/- The drafts of some items. -/
def itemDrafts : List Value → List Draft
  | [] => []
  | item :: items => item.draft :: itemDrafts items

/- The drafts of some members. -/
def memberDrafts : List (String × Value) → List Member
  | [] => []
  | (key, value) :: members =>
      (some key, value.draft) :: memberDrafts members

end

mutual

/- The number of containers that lie inside each other. -/
def nesting : Value → Nat
  | .array items => itemsNesting items + 1
  | .object members => membersNesting members + 1
  | _ => 0

/- The greatest nesting of some items. -/
def itemsNesting : List Value → Nat
  | [] => 0
  | item :: items => max item.nesting (itemsNesting items)

/- The greatest nesting of the values of some members. -/
def membersNesting : List (String × Value) → Nat
  | [] => 0
  | (_, value) :: members =>
      max value.nesting (membersNesting members)

end

end Value

/- An optional value, null when it is not there. -/
def orNull
    {α : Type}
    (value : α → Value) :
    Option α → Value
  | none => .null
  | some a => value a

/- A member that is left out when it has no value. -/
def memberIfSome
    {α : Type}
    (key : String)
    (value : α → Value) :
    Option α → List (String × Value)
  | none => []
  | some a => [(key, value a)]

/- An array of texts. -/
def texts (values : List String) : Value :=
  .array (values.map .string)

end Json

end TracedScript
