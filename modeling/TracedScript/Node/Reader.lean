import TracedScript.Json.Tagged
import TracedScript.Node

/-
  Reading program trees from JSON.

  Key definitions include:
    * `Node.reader`: a node whose own nodes were set aside.
    * `Document.reader`
    * `Document.parse`: a document from a text.
-/

------------------------------------------------------------
-- Nodes
------------------------------------------------------------

namespace TracedScript

/- Reads a call. -/
def Call.reader : Json.Reader Call :=
  .record ⟨"CallNode", ["pos", "name", "arguments"]⟩ fun entry =>
    Call.mk
      <$> entry.required "pos" Position.reader
      <*> entry.required "name" .text
      <*> entry.defaulted "arguments" (.list .text) []

/- Reads the place where the second branch begins. -/
def elseReader : Json.Reader Position :=
  .record ⟨"ElseNode", ["pos"]⟩ fun entry =>
    entry.required "pos" Position.reader

/-
  Reads what a variable is declared with: a text, or a node
  with the given reader.
-/
def Initializer.reader
    (node : Json.Reader Node) :
    Json.Reader Initializer := fun access draft =>
  match draft with
  | .string (some value) => .ok (.text value)
  | draft =>
      match node access draft with
      | .ok value => .ok (.node value)
      | .error _ => .error (.misfit (.noVariant "Initializer"))

/- Reads a program; its statements are read as given. -/
def Program.readerWith
    (node : Json.Reader Node) :
    Json.Reader Program :=
  .record ⟨"ProgramNode", ["pos", "statements", "end"]⟩ fun entry =>
    Program.mk
      <$> entry.required "pos" Position.reader
      <*> entry.defaulted "statements" (.list node) []
      <*> entry.required "end" Position.reader

namespace Node

/- The kinds by their names, in the order of their numbers. -/
def kinds : List (String × Kind) :=
  Kind.all.map fun kind => (kind.tag, kind)

/- Reads the fields of a node of a known kind. -/
def fieldsReader
    (node : Json.Reader Node) :
    Kind → Json.Reader Node
  | .print =>
      .record ⟨"PrintNode", ["pos", "value"]⟩ fun entry =>
        Node.print
          <$> entry.required "pos" Position.reader
          <*> entry.required "value" .text
  | .declaration =>
      .record ⟨"IntDeclarationNode", ["pos", "name", "value"]⟩
        fun entry =>
          Node.declaration
            <$> entry.required "pos" Position.reader
            <*> entry.required "name" .text
            <*> entry.required "value" (Initializer.reader node)
  | .assignment =>
      .record
        ⟨"AssignmentNode",
          ["pos", "name", "initialValue", "operations"]⟩
        fun entry =>
          Node.assignment
            <$> entry.required "pos" Position.reader
            <*> entry.required "name" .text
            <*> entry.required "initialValue" .text
            <*> entry.defaulted "operations" (.list .text) []
  | .conditional =>
      .record
        ⟨"IfNode",
          ["pos", "predicate", "thenStatements",
            "elseStatements", "elseNode", "end"]⟩
        fun entry =>
          Node.conditional
            <$> entry.required "pos" Position.reader
            <*> entry.required "predicate" .text
            <*> entry.defaulted "thenStatements" (.list node) []
            <*> entry.defaulted "elseStatements" (.list node) []
            <*> entry.optional "elseNode" elseReader
            <*> entry.required "end" Position.reader
  | .loop =>
      .record
        ⟨"WhileNode", ["pos", "predicate", "body", "end"]⟩
        fun entry =>
          Node.loop
            <$> entry.required "pos" Position.reader
            <*> entry.required "predicate" .text
            <*> entry.defaulted "body" (.list node) []
            <*> entry.required "end" Position.reader
  | .function =>
      .record
        ⟨"FunctionDeclarationNode",
          ["pos", "name", "parameters", "body"]⟩
        fun entry =>
          Node.function
            <$> entry.required "pos" Position.reader
            <*> entry.required "name" .text
            <*> entry.defaulted "parameters" (.list .text) []
            <*> entry.defaulted "body" (.list node) []
  | .call => fun access draft =>
      Node.call <$> Call.reader access draft
  | .result =>
      .record ⟨"ReturnNode", ["pos", "value"]⟩ fun entry =>
        Node.result
          <$> entry.required "pos" Position.reader
          <*> entry.required "value" .text
  | .boolean =>
      .record ⟨"BoolNode", ["pos", "value"]⟩ fun entry =>
        Node.boolean
          <$> entry.required "pos" Position.reader
          <*> entry.required "value" .boolean
  | .callAssignment =>
      .record ⟨"CallAssignmentNode", ["pos", "name", "call"]⟩
        fun entry =>
          Node.callAssignment
            <$> entry.required "pos" Position.reader
            <*> entry.required "name" .text
            <*> entry.required "call" Call.reader
  | .program => fun access draft =>
      Program.node <$> Program.readerWith node access draft

/-
  Reads a node in which at most `levels` nodes lie inside
  each other, itself included.
-/
def readerTo : (levels : Nat) → Json.Reader Node
  | 0 => fun _ _ => .error .malformed
  | levels + 1 =>
      .tagged "Node" "kind" (.oneOf kinds)
        (fieldsReader (readerTo levels))

/-
  Reads a node. Each node is a container of its own, so no
  text within the limit on nesting has more levels.
-/
def reader : Json.Reader Node :=
  readerTo Json.nestingLimit

end Node

------------------------------------------------------------
-- Documents
------------------------------------------------------------

/- Reads a program. -/
def Program.reader : Json.Reader Program :=
  Program.readerWith Node.reader

namespace Document

/- Reads a document. -/
def reader : Json.Reader Document :=
  .record ⟨"AstDocument", ["source", "sourceText", "program"]⟩
    fun entry =>
      Document.mk
        <$> entry.required "source" .text
        <*> entry.optional "sourceText" .text
        <*> entry.required "program" Program.reader

/- Reads a document from a text. -/
def parse (text : String) : Except Json.Fault Document :=
  Json.read reader text

end Document

end TracedScript
