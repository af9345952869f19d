import TracedScript.Position

/-
  Program trees.

  Key definitions include:
    * `Node`: a statement or an expression.
    * `Initializer`: what a variable is declared with.
    * `Program` and `Document`
    * `Kind`: the kinds of nodes, with their names.
-/

------------------------------------------------------------
-- Trees
------------------------------------------------------------

namespace TracedScript

/- A call of a function. -/
structure Call where
  pos : Position
  name : String
  arguments : List String
deriving DecidableEq, Repr

mutual

/-
  A node of a program tree, with the positions where its
  parts begin. Operands, predicates and arguments are texts
  that are copied to the output as they are.
-/
inductive Node where
  | print (pos : Position) (value : String)
  | declaration
      (pos : Position)
      (name : String)
      (value : Initializer)
  | assignment
      (pos : Position)
      (name initial : String)
      (operations : List String)
  | conditional
      (pos : Position)
      (predicate : String)
      (thenBody elseBody : List Node)
      (elsePos : Option Position)
      (close : Position)
  | loop
      (pos : Position)
      (predicate : String)
      (body : List Node)
      (close : Position)
  | function
      (pos : Position)
      (name : String)
      (parameters : List String)
      (body : List Node)
  | call (made : Call)
  | result (pos : Position) (value : String)
  | boolean (pos : Position) (value : Bool)
  | callAssignment
      (pos : Position)
      (name : String)
      (call : Call)
  | program
      (pos : Position)
      (statements : List Node)
      (close : Position)

/- What a variable is declared with: a text or a node. -/
inductive Initializer where
  | text (value : String)
  | node (value : Node)

end

/- A whole program. -/
structure Program where
  pos : Position
  statements : List Node
  close : Position

/- A program as a node. -/
def Program.node (program : Program) : Node :=
  .program program.pos program.statements program.close

/-
  A program with the name of its source and, if it is known,
  the text of its source.
-/
structure Document where
  source : String
  sourceText : Option String
  program : Program

------------------------------------------------------------
-- Kinds
------------------------------------------------------------

/- The kinds of nodes. -/
inductive Kind where
  | print
  | declaration
  | assignment
  | conditional
  | loop
  | function
  | call
  | result
  | boolean
  | callAssignment
  | program
deriving DecidableEq, Repr

namespace Kind

/- How messages name a kind of node. -/
def label : Kind → String
  | .print => "print"
  | .declaration => "int declaration"
  | .assignment => "assignment"
  | .conditional => "if"
  | .loop => "while"
  | .function => "function declaration"
  | .call => "call"
  | .result => "return"
  | .boolean => "boolean literal"
  | .callAssignment => "call assignment"
  | .program => "program"

/- How documents name a kind of node. -/
def tag : Kind → String
  | .print => "print"
  | .declaration => "intDeclaration"
  | .assignment => "assignment"
  | .conditional => "if"
  | .loop => "while"
  | .function => "functionDeclaration"
  | .call => "call"
  | .result => "return"
  | .boolean => "bool"
  | .callAssignment => "callAssignment"
  | .program => "program"

/- All kinds, in the order of their numbers in documents. -/
def all : List Kind :=
  [.print, .declaration, .assignment, .conditional, .loop,
    .function, .call, .result, .boolean, .callAssignment,
    .program]

end Kind

namespace Node

/- The kind of a node. -/
def kind : Node → Kind
  | .print .. => .print
  | .declaration .. => .declaration
  | .assignment .. => .assignment
  | .conditional .. => .conditional
  | .loop .. => .loop
  | .function .. => .function
  | .call .. => .call
  | .result .. => .result
  | .boolean .. => .boolean
  | .callAssignment .. => .callAssignment
  | .program .. => .program

/- The position where a node begins. -/
def pos : Node → Position
  | .print pos .. => pos
  | .declaration pos .. => pos
  | .assignment pos .. => pos
  | .conditional pos .. => pos
  | .loop pos .. => pos
  | .function pos .. => pos
  | .call made => made.pos
  | .result pos .. => pos
  | .boolean pos .. => pos
  | .callAssignment pos .. => pos
  | .program pos .. => pos

/- Whether a node is an expression and not a statement. -/
def isExpression : Node → Bool
  | .boolean .. => true
  | _ => false

end Node

end TracedScript
