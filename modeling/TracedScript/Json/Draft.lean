import TracedScript.Json.Token

/-
  JSON texts as far as they can be read.

  A draft holds all of a text up to its first fault, so a
  reader that goes through a draft from left to right meets
  whatever is wrong in the order of the text.

  Key definitions include:
    * `Json.Draft`
    * `Json.Draft.grammatical`: the value is written in full.
    * `Json.Draft.sound`: it is also within the limits on
      nesting, on numbers and on surrogates.
    * `Json.State.step`: reading one more token.
    * `Json.scan`: reading all tokens of a text.
-/

------------------------------------------------------------
-- Drafts
------------------------------------------------------------

namespace TracedScript

namespace Json

/-
  A value as far as it can be read. An array or an object is
  closed when its end was reached; `absent` stands where a
  value should be and none is.
-/
inductive Draft where
  | absent
  | null
  | bool (value : Bool)
  | number (value : Option Number)
  | string (value : Option String)
  | array (items : List Draft) (closed : Bool)
  | object (members : List (Option String × Draft)) (closed : Bool)
deriving Repr

/- A member of an object: its key and its value. -/
abbrev Member := Option String × Draft

namespace Draft

mutual

/- Whether a value is written in full. -/
def grammatical : Draft → Bool
  | .absent => false
  | .array items closed => closed && grammaticalItems items
  | .object members closed => closed && grammaticalMembers members
  | _ => true

/- Whether all items are written in full. -/
def grammaticalItems : List Draft → Bool
  | [] => true
  | item :: items => item.grammatical && grammaticalItems items

/- Whether the values of all members are written in full. -/
def grammaticalMembers : List (Option String × Draft) → Bool
  | [] => true
  | (_, value) :: members =>
      value.grammatical && grammaticalMembers members

end

mutual

/-
  Whether a value is written in full, opens at most `depth`
  containers inside each other, and has neither a number
  beyond the largest double nor half of a surrogate pair.
-/
def sound (depth : Nat) : Draft → Bool
  | .absent => false
  | .null => true
  | .bool _ => true
  | .number value => value.isSome
  | .string value => value.isSome
  | .array items closed =>
      decide (0 < depth) && closed && soundItems (depth - 1) items
  | .object members closed =>
      decide (0 < depth) && closed
        && soundMembers (depth - 1) members

/- Whether all items are sound. -/
def soundItems (depth : Nat) : List Draft → Bool
  | [] => true
  | item :: items => item.sound depth && soundItems depth items

/- Whether all keys and values of some members are sound. -/
def soundMembers
    (depth : Nat) :
    List (Option String × Draft) → Bool
  | [] => true
  | (key, value) :: members =>
      key.isSome && value.sound depth && soundMembers depth members

end

end Draft

------------------------------------------------------------
-- Reading Tokens
------------------------------------------------------------

/-
  A container that is being read: the parts read before, last
  one first, and for an object the key whose value comes next.
-/
inductive Frame where
  | array (items : List Draft)
  | object (members : List Member) (key : Option String)

/- A container that ends without its closing bracket. -/
def Frame.cut
    (value : Draft) :
    Frame → Draft
  | .array items => .array (value :: items).reverse false
  | .object members key =>
      .object ((key, value) :: members).reverse false

/- What is being read, innermost container first. -/
inductive State where
  | awaitValue (stack : List Frame)
  | awaitItem (stack : List Frame)
  | awaitMember (stack : List Frame)
  | awaitKey (members : List Member) (stack : List Frame)
  | awaitColon
      (members : List Member)
      (key : Option String)
      (stack : List Frame)
  | after (value : Draft) (stack : List Frame)
  | stopped (result : Draft)

namespace State

/- The whole draft, when nothing follows in any container. -/
def unwind
    (value : Draft)
    (stack : List Frame) :
    Draft :=
  stack.foldl Frame.cut value

/- The draft of what was read so far. -/
def draft : State → Draft
  | .awaitValue stack => unwind .absent stack
  | .awaitItem stack => unwind (.array [] false) stack
  | .awaitMember stack => unwind (.object [] false) stack
  | .awaitKey members stack =>
      unwind (.object members.reverse false) stack
  | .awaitColon members key stack =>
      unwind (.object ((key, .absent) :: members).reverse false)
        stack
  | .after value stack => unwind value stack
  | .stopped result => result

/- Starts the value that begins with a token. -/
def begin
    (stack : List Frame) :
    Token → State
  | .null => .after .null stack
  | .bool value => .after (.bool value) stack
  | .number value => .after (.number value) stack
  | .string value => .after (.string value) stack
  | .openArray => .awaitItem stack
  | .openObject => .awaitMember stack
  | _ => .stopped (unwind .absent stack)

/- Reads one more token. -/
def step : State → Token → State
  | .awaitValue stack, token => begin stack token
  | .awaitItem stack, .closeArray => .after (.array [] true) stack
  | .awaitItem stack, token => begin (.array [] :: stack) token
  | .awaitMember stack, .closeObject => .after (.object [] true) stack
  | .awaitMember stack, .string key => .awaitColon [] key stack
  | .awaitKey members stack, .string key => .awaitColon members key stack
  | .awaitColon members key stack, .colon =>
      .awaitValue (.object members key :: stack)
  | .after value (.array items :: stack), .comma =>
      .awaitValue (.array (value :: items) :: stack)
  | .after value (.array items :: stack), .closeArray =>
      .after (.array (value :: items).reverse true) stack
  | .after value (.object members key :: stack), .comma =>
      .awaitKey ((key, value) :: members) stack
  | .after value (.object members key :: stack), .closeObject =>
      .after (.object ((key, value) :: members).reverse true) stack
  | state, _ => .stopped state.draft

/- Whether exactly one value was read, and nothing else. -/
def isComplete : State → Bool
  | .after _ [] => true
  | _ => false

end State

/- The state of reading after all tokens of a text. -/
def scan (text : String) : State :=
  (tokens text.toList).foldl State.step (.awaitValue [])

end Json

end TracedScript
