import TracedScript.Fragment
import TracedScript.Node
import TracedScript.Text.Blank

/-
  Script code for program trees.

  Key definitions include:
    * `Reason` and `NodeError`: why a node has no code.
    * `foldOperations`: operations applied from left to right.
    * `Node.compile`
    * `compileBlock`: the code of a list of statements.
    * `Program.compile`
-/

------------------------------------------------------------
-- Errors
------------------------------------------------------------

namespace TracedScript

/- What is wrong with a node. -/
inductive Reason where
  | elseWithoutIntroducer
  | nestedProgram
  | expressionStatement
  | invalidInitializer
  | emptyName
deriving DecidableEq, Repr

/- The words for what is wrong with a node. -/
def Reason.message : Reason → String
  | .elseWithoutIntroducer =>
      "else branch has statements but no `else` was recorded"
  | .nestedProgram => "a program block can only appear at the root"
  | .expressionStatement =>
      "an expression cannot stand alone as a statement"
  | .invalidInitializer => "initializer must be an expression"
  | .emptyName => "identifier is empty"

/- A node that has no code. -/
structure NodeError where
  kind : Kind
  position : Position
  reason : Reason
deriving DecidableEq, Repr

/- The message for a node that has no code. -/
def NodeError.message (error : NodeError) : String :=
  "malformed " ++ error.kind.label ++ " node at "
    ++ error.position.text ++ ": " ++ error.reason.message

------------------------------------------------------------
-- Indentation and Operations
------------------------------------------------------------

/- One step of indentation. -/
def indentUnit : String := "    "

/- The blanks at the start of a line. -/
def indentText (level : UInt32) : String :=
  String.join (List.replicate level.toNat indentUnit)

/- Operations applied from left to right, each in brackets. -/
def foldOperations
    (initial : String)
    (operations : List String) :
    String :=
  operations.foldl
    (fun folded operation => "(" ++ folded ++ operation ++ ")")
    initial

------------------------------------------------------------
-- Code of Nodes
------------------------------------------------------------

/- A name must have a character that is not blank. -/
def checkName
    (name : String)
    (kind : Kind)
    (position : Position) :
    Except NodeError Unit :=
  if Text.allBlank name then
    .error ⟨kind, position, .emptyName⟩
  else .ok ()

/- A node that is no statement cannot stand in a block. -/
def checkStatement (node : Node) : Except NodeError Unit :=
  match node.kind with
  | .program => .error ⟨node.kind, node.pos, .nestedProgram⟩
  | .boolean => .error ⟨node.kind, node.pos, .expressionStatement⟩
  | _ => .ok ()

/- The code of a truth value. -/
def booleanText (value : Bool) : String :=
  if value then "true" else "false"

/- The code of a call. -/
def Call.compile
    (file : FileId)
    (call : Call) :
    Except NodeError Fragment := do
  checkName call.name .call call.pos
  pure
    (.tagged ⟨call.pos, file⟩
      (call.name ++ "(" ++ ", ".intercalate call.arguments
        ++ ");\n"))

/- The code of what a variable is declared with. -/
def Initializer.compile
    (file : FileId) :
    Initializer → Except NodeError Fragment
  | .text value => .ok (.plain value)
  | .node (.boolean pos value) =>
      .ok (.tagged ⟨pos, file⟩ (booleanText value))
  | .node other =>
      .error ⟨other.kind, other.pos, .invalidInitializer⟩

/- The lines after an assignment that make its value whole. -/
def roundingLines
    (indent : String)
    (name : String) :
    List Fragment :=
  [.plain indent,
    .plain
      ("if (typeof(" ++ name ++ ") === \"boolean\") \x7b "
        ++ name ++ " = " ++ name ++ " ? 1 : 0; \x7d\n"),
    .plain indent,
    .plain
      (name ++ " = Math.sign(" ++ name
        ++ ") * Math.round(Math.abs(" ++ name ++ "));\n")]

mutual

/- The code of a node in a block at a level of indentation. -/
def Node.compile
    (file : FileId)
    (indent : UInt32) :
    Node → Except NodeError Fragment
  | .print pos value =>
      .ok
        (.tagged ⟨pos, file⟩
          ("console.log( " ++ value ++ " );\n"))
  | .declaration pos name value => do
      checkName name .declaration pos
      let value ← value.compile file
      pure
        ((Fragment.tagged ⟨pos, file⟩
          ("var " ++ name ++ " = ")).pushAll
            [value, .plain ";\n"])
  | .assignment pos name initial operations => do
      checkName name .assignment pos
      pure
        ((Fragment.tagged ⟨pos, file⟩
          ("var " ++ name ++ " = ("
            ++ foldOperations initial operations
            ++ ");\n")).pushAll
              (roundingLines (indentText indent) name))
  | .conditional pos predicate thenBody elseBody elsePos close => do
      let head :=
        Fragment.tagged ⟨pos, file⟩
          ("if (" ++ predicate ++ ") \x7b\n")
      let thenCode ← compileStatements file (indent + 1) thenBody
      let elseCode ←
        if elseBody.isEmpty then pure []
        else
          match elsePos with
          | none =>
              throw ⟨.conditional, pos, .elseWithoutIntroducer⟩
          | some elsePos => do
              let elseCode ←
                compileStatements file (indent + 1) elseBody
              pure
                [.plain (indentText indent),
                  .tagged ⟨elsePos, file⟩ "\x7d else \x7b\n",
                  .concat elseCode]
      pure
        (head.pushAll
          (.concat thenCode :: elseCode
            ++ [.plain (indentText indent),
              .tagged ⟨close, file⟩ "\x7d\n"]))
  | .loop pos predicate body close => do
      let code ← compileStatements file (indent + 1) body
      pure
        ((Fragment.tagged ⟨pos, file⟩
          ("while (" ++ predicate ++ ") \x7b\n")).pushAll
            [.concat code,
              .plain (indentText indent),
              .tagged ⟨close, file⟩ "\x7d\n"])
  | .function pos name parameters body => do
      checkName name .function pos
      let code ← compileStatements file (indent + 1) body
      pure
        ((Fragment.tagged ⟨pos, file⟩
          ("function " ++ name ++ " ("
            ++ ", ".intercalate parameters ++ ") \x7b\n")).pushAll
              [.concat code,
                .plain (indentText indent),
                .plain "\x7d\n"])
  | .call made => made.compile file
  | .result pos value =>
      .ok (.tagged ⟨pos, file⟩ ("return " ++ value ++ ";\n"))
  | .boolean pos value =>
      .ok (.tagged ⟨pos, file⟩ (booleanText value))
  | .callAssignment pos name made => do
      checkName name .callAssignment pos
      let code ← made.compile file
      pure
        ((Fragment.tagged ⟨pos, file⟩
          ("var " ++ name ++ " = ")).push code)
  | .program pos statements close => do
      let code ← compileStatements file (indent + 1) statements
      pure
        ((Fragment.tagged ⟨pos, file⟩ "(function() \x7b\n").pushAll
          [.concat code,
            .plain (indentText indent),
            .tagged ⟨close, file⟩ "\x7d());\n"])

/-
  The code of the statements of a block, each after its
  indentation. The first wrong statement is reported.
-/
def compileStatements
    (file : FileId)
    (indent : UInt32) :
    List Node → Except NodeError (List Fragment)
  | [] => .ok []
  | node :: nodes => do
      checkStatement node
      let code ← node.compile file indent
      let more ← compileStatements file indent nodes
      pure
        ((if indent = 0 then []
          else [Fragment.plain (indentText indent)])
            ++ code :: more)

end

/- The code of a block. -/
def compileBlock
    (file : FileId)
    (indent : UInt32)
    (statements : List Node) :
    Except NodeError Fragment :=
  Fragment.concat <$> compileStatements file indent statements

/- The code of a program. -/
def Program.compile
    (file : FileId)
    (program : Program) :
    Except NodeError Fragment :=
  program.node.compile file 0

end TracedScript
