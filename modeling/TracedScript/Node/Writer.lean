import TracedScript.Node

/-
  Program trees as JSON values.

  Key definitions include:
    * `Node.value`
    * `Document.value`
    * `Document.write`: the text of a document.
-/

------------------------------------------------------------
-- Nodes
------------------------------------------------------------

namespace TracedScript

/- The members of a call. -/
def Call.members (call : Call) : List (String × Json.Value) :=
  [("pos", call.pos.value),
    ("name", .string call.name),
    ("arguments", Json.texts call.arguments)]

/- The place where the second branch begins. -/
def elseValue (pos : Position) : Json.Value :=
  .object [("pos", pos.value)]

mutual

/- The members of a node, apart from its kind. -/
def Node.members : Node → List (String × Json.Value)
  | .print pos value =>
      [("pos", pos.value), ("value", .string value)]
  | .declaration pos name value =>
      [("pos", pos.value),
        ("name", .string name),
        ("value", value.value)]
  | .assignment pos name initial operations =>
      [("pos", pos.value),
        ("name", .string name),
        ("initialValue", .string initial),
        ("operations", Json.texts operations)]
  | .conditional pos predicate thenBody elseBody elsePos close =>
      [("pos", pos.value),
        ("predicate", .string predicate),
        ("thenStatements", .array (Node.values thenBody)),
        ("elseStatements", .array (Node.values elseBody)),
        ("elseNode", Json.orNull elseValue elsePos),
        ("end", close.value)]
  | .loop pos predicate body close =>
      [("pos", pos.value),
        ("predicate", .string predicate),
        ("body", .array (Node.values body)),
        ("end", close.value)]
  | .function pos name parameters body =>
      [("pos", pos.value),
        ("name", .string name),
        ("parameters", Json.texts parameters),
        ("body", .array (Node.values body))]
  | .call made => made.members
  | .result pos value =>
      [("pos", pos.value), ("value", .string value)]
  | .boolean pos value =>
      [("pos", pos.value), ("value", .bool value)]
  | .callAssignment pos name made =>
      [("pos", pos.value),
        ("name", .string name),
        ("call", .object made.members)]
  | .program pos statements close =>
      [("pos", pos.value),
        ("statements", .array (Node.values statements)),
        ("end", close.value)]

/- Some nodes as JSON values, the kind of each one first. -/
def Node.values : List Node → List Json.Value
  | [] => []
  | node :: nodes =>
      .object (("kind", .string node.kind.tag) :: node.members)
        :: Node.values nodes

/- What a variable is declared with. -/
def Initializer.value : Initializer → Json.Value
  | .text value => .string value
  | .node node =>
      .object (("kind", .string node.kind.tag) :: node.members)

end

/- A node as a JSON value, its kind first. -/
def Node.value (node : Node) : Json.Value :=
  .object (("kind", .string node.kind.tag) :: node.members)

------------------------------------------------------------
-- Documents
------------------------------------------------------------

/- A program as a JSON value: it needs no kind. -/
def Program.value (program : Program) : Json.Value :=
  .object program.node.members

namespace Document

/- A document as a JSON value. -/
def value (document : Document) : Json.Value :=
  .object
    (("source", .string document.source)
      :: Json.memberIfSome "sourceText" .string
          document.sourceText
      ++ [("program", document.program.value)])

/- The text of a document. -/
def write (document : Document) : String :=
  document.value.write

end Document

end TracedScript
