import TracedScript.Node.Compile
import TracedScript.Proofs.Rendering

/-
  What the code of a program tree is made of, and what keeps
  a tree from having code.

  Compiling checks and writes in one pass. Here the two are
  taken apart: `Node.violations` lists all that is wrong with
  a node in the order in which it is looked at, and
  `Node.layout` lists the tags and texts of a node as if
  nothing were wrong. Compiling gives the first violation,
  or else a fragment with that layout.

  Key definitions include:
    * `NodeInduction`: induction on trees and their blocks.
    * `Yields`: a computation fails with the first of some
      faults, or else gives a result.
    * `Node.violations`, `blockViolations`
    * `Node.layout`, `blockLayout`

  Main declarations:
    * `Node.yields_compile`
    * `yields_compileBlock`
-/

------------------------------------------------------------
-- Induction on Trees
------------------------------------------------------------

namespace TracedScript

/- The steps of an induction on nodes and lists of nodes. -/
structure NodeInduction
    (P : Node → Prop)
    (Q : List Node → Prop) : Prop where
  print : ∀ pos value, P (.print pos value)
  declaration : ∀ pos name value,
    (∀ node, value = .node node → P node) →
      P (.declaration pos name value)
  assignment : ∀ pos name initial operations,
    P (.assignment pos name initial operations)
  conditional :
    ∀ pos predicate thenBody elseBody elsePos close,
      Q thenBody → Q elseBody →
        P (.conditional pos predicate thenBody elseBody
          elsePos close)
  loop : ∀ pos predicate body close,
    Q body → P (.loop pos predicate body close)
  function : ∀ pos name parameters body,
    Q body → P (.function pos name parameters body)
  call : ∀ made, P (.call made)
  result : ∀ pos value, P (.result pos value)
  boolean : ∀ pos value, P (.boolean pos value)
  callAssignment : ∀ pos name made,
    P (.callAssignment pos name made)
  program : ∀ pos statements close,
    Q statements → P (.program pos statements close)
  nil : Q []
  cons : ∀ node nodes, P node → Q nodes → Q (node :: nodes)

namespace NodeInduction

variable {P : Node → Prop} {Q : List Node → Prop}

mutual

/- The induction holds for every node. -/
theorem node
    (steps : NodeInduction P Q) :
    (node : Node) → P node
  | .print pos value => steps.print pos value
  | .declaration pos name (.text value) =>
      steps.declaration pos name (.text value) nofun
  | .declaration pos name (.node value) =>
      steps.declaration pos name (.node value)
        fun _ hValue =>
          Initializer.node.inj hValue ▸ node steps value
  | .assignment pos name initial operations =>
      steps.assignment pos name initial operations
  | .conditional pos predicate thenBody elseBody
        elsePos close =>
      steps.conditional pos predicate thenBody elseBody
        elsePos close (block steps thenBody)
        (block steps elseBody)
  | .loop pos predicate body close =>
      steps.loop pos predicate body close (block steps body)
  | .function pos name parameters body =>
      steps.function pos name parameters body
        (block steps body)
  | .call made => steps.call made
  | .result pos value => steps.result pos value
  | .boolean pos value => steps.boolean pos value
  | .callAssignment pos name made =>
      steps.callAssignment pos name made
  | .program pos statements close =>
      steps.program pos statements close
        (block steps statements)

/- The induction holds for every list of nodes. -/
theorem block
    (steps : NodeInduction P Q) :
    (nodes : List Node) → Q nodes
  | [] => steps.nil
  | first :: nodes =>
      steps.cons first nodes (node steps first)
        (block steps nodes)

end

end NodeInduction

------------------------------------------------------------
-- Computations That May Fail
------------------------------------------------------------

/-
  A computation that fails with the first of some faults.
  Without faults it gives a result with the stated view.
-/
inductive Yields
    {ε α β : Type}
    (view : α → β)
    (value : β) :
    List ε → Except ε α → Prop where
  | ok {result : α} :
      view result = value → Yields view value [] (.ok result)
  | error {fault : ε} {more : List ε} :
      Yields view value (fault :: more) (.error fault)

namespace Yields

variable {ε α β α' β' : Type}
variable {view : α → β} {value : β}
variable {faults : List ε} {outcome : Except ε α}

/- The faults of two steps come one after the other. -/
theorem bind
    {view' : α' → β'}
    {value' : β'}
    {more : List ε}
    {next : α → Except ε α'}
    (hFirst : Yields view value faults outcome)
    (hNext :
      ∀ result, view result = value →
        Yields view' value' more (next result)) :
    Yields view' value' (faults ++ more) (outcome >>= next) := by
  cases hFirst with
  | ok hView => exact hNext _ hView
  | error => exact .error

/- A last step without faults changes the view only. -/
theorem map
    {view' : α' → β'}
    {value' : β'}
    {change : α → α'}
    (hFirst : Yields view value faults outcome)
    (hView :
      ∀ result, view result = value →
        view' (change result) = value') :
    Yields view' value' faults
      (outcome >>= fun result => pure (change result)) := by
  rw [← List.append_nil faults]
  exact hFirst.bind fun result hResult =>
    .ok (hView result hResult)

theorem exists_ok_iff
    (hYields : Yields view value faults outcome) :
    (∃ result, outcome = .ok result) ↔ faults = [] := by
  cases hYields with
  | ok hView => simp
  | error => simp

theorem eq_error_iff
    (hYields : Yields view value faults outcome)
    (fault : ε) :
    outcome = .error fault ↔ faults.head? = some fault := by
  cases hYields with
  | ok hView => simp
  | error => simp

theorem view_eq
    {result : α}
    (hYields : Yields view value faults outcome)
    (hOk : outcome = .ok result) :
    view result = value := by
  cases hYields with
  | ok hView =>
      cases hOk
      exact hView
  | error => cases hOk

end Yields

------------------------------------------------------------
-- Violations
------------------------------------------------------------

/- A name without a character that is not blank. -/
def nameViolations
    (name : String)
    (kind : Kind)
    (position : Position) :
    List NodeError :=
  if Text.allBlank name then [⟨kind, position, .emptyName⟩]
  else []

def Call.violations (call : Call) : List NodeError :=
  nameViolations call.name .call call.pos

/- A node other than a truth value is not looked into. -/
def Initializer.violations : Initializer → List NodeError
  | .text _ => []
  | .node (.boolean ..) => []
  | .node other => [⟨other.kind, other.pos, .invalidInitializer⟩]

/- Statements after an `else` that is nowhere. -/
def elseViolations
    (pos : Position)
    (elseBody : List Node)
    (elsePos : Option Position) :
    List NodeError :=
  if elseBody.isEmpty = false ∧ elsePos = none then
    [⟨.conditional, pos, .elseWithoutIntroducer⟩]
  else []

/- A node that cannot be a statement. -/
def statementViolations (node : Node) : List NodeError :=
  match node.kind with
  | .program => [⟨.program, node.pos, .nestedProgram⟩]
  | .boolean => [⟨.boolean, node.pos, .expressionStatement⟩]
  | _ => []

mutual

/- All that is wrong with a node, in the order of its parts. -/
def Node.violations : Node → List NodeError
  | .print .. => []
  | .declaration pos name value =>
      nameViolations name .declaration pos ++ value.violations
  | .assignment pos name .. =>
      nameViolations name .assignment pos
  | .conditional pos _ thenBody elseBody elsePos _ =>
      blockViolations thenBody
        ++ (elseViolations pos elseBody elsePos
          ++ blockViolations elseBody)
  | .loop _ _ body _ => blockViolations body
  | .function pos name _ body =>
      nameViolations name .function pos ++ blockViolations body
  | .call made => made.violations
  | .result .. => []
  | .boolean .. => []
  | .callAssignment pos name made =>
      nameViolations name .callAssignment pos
        ++ made.violations
  | .program _ statements _ => blockViolations statements

/- All that is wrong with the statements of a block. -/
def blockViolations : List Node → List NodeError
  | [] => []
  | node :: nodes =>
      statementViolations node
        ++ (node.violations ++ blockViolations nodes)

end

------------------------------------------------------------
-- Layout
------------------------------------------------------------

open Fragment (Piece)

/- A text with a tag. -/
def marked
    (pos : Position)
    (file : FileId)
    (text : String) :
    List Piece :=
  [.mark ⟨pos, file⟩, .text text]

def Call.layout
    (file : FileId)
    (call : Call) :
    List Piece :=
  marked call.pos file
    (call.name ++ "(" ++ String.intercalate ", " call.arguments
      ++ ");\n")

def Initializer.layout
    (file : FileId) :
    Initializer → List Piece
  | .text value => [.text value]
  | .node (.boolean pos value) =>
      marked pos file (booleanText value)
  | .node _ => []

/- The blanks before a statement of a block. -/
def indentation (indent : UInt32) : List Piece :=
  if indent = 0 then [] else [.text (indentText indent)]

/- The line of an `else`, and the block after it. -/
def elseLayout
    (file : FileId)
    (indent : UInt32)
    (elsePos : Option Position)
    (block : List Piece) :
    List Piece :=
  match elsePos with
  | none => []
  | some pos =>
      .text (indentText indent)
        :: (marked pos file "\x7d else \x7b\n" ++ block)

mutual

/- The tags and texts of a node, each in its place. -/
def Node.layout
    (file : FileId)
    (indent : UInt32) :
    Node → List Piece
  | .print pos value =>
      marked pos file ("console.log( " ++ value ++ " );\n")
  | .declaration pos name value =>
      marked pos file ("var " ++ name ++ " = ")
        ++ (value.layout file ++ [.text ";\n"])
  | .assignment pos name initial operations =>
      marked pos file
          ("var " ++ name ++ " = ("
            ++ foldOperations initial operations ++ ");\n")
        ++ Fragment.piecesOf
          (roundingLines (indentText indent) name)
  | .conditional pos predicate thenBody elseBody elsePos close =>
      marked pos file ("if (" ++ predicate ++ ") \x7b\n")
        ++ (blockLayout file (indent + 1) thenBody
          ++ ((if elseBody.isEmpty then []
              else
                elseLayout file indent elsePos
                  (blockLayout file (indent + 1) elseBody))
            ++ (.text (indentText indent)
              :: marked close file "\x7d\n")))
  | .loop pos predicate body close =>
      marked pos file ("while (" ++ predicate ++ ") \x7b\n")
        ++ (blockLayout file (indent + 1) body
          ++ (.text (indentText indent)
            :: marked close file "\x7d\n"))
  | .function pos name parameters body =>
      marked pos file
          ("function " ++ name ++ " ("
            ++ String.intercalate ", " parameters ++ ") \x7b\n")
        ++ (blockLayout file (indent + 1) body
          ++ [.text (indentText indent), .text "\x7d\n"])
  | .call made => made.layout file
  | .result pos value =>
      marked pos file ("return " ++ value ++ ";\n")
  | .boolean pos value =>
      marked pos file (booleanText value)
  | .callAssignment pos name made =>
      marked pos file ("var " ++ name ++ " = ")
        ++ made.layout file
  | .program pos statements close =>
      marked pos file "(function() \x7b\n"
        ++ (blockLayout file (indent + 1) statements
          ++ (.text (indentText indent)
            :: marked close file "\x7d());\n"))

/- The tags and texts of a block, each statement indented. -/
def blockLayout
    (file : FileId)
    (indent : UInt32) :
    List Node → List Piece
  | [] => []
  | node :: nodes =>
      indentation indent
        ++ (node.layout file indent
          ++ blockLayout file indent nodes)

end

------------------------------------------------------------
-- Compilation
------------------------------------------------------------

theorem yields_checkName
    (name : String)
    (kind : Kind)
    (position : Position) :
    Yields id () (nameViolations name kind position)
      (checkName name kind position) := by
  unfold nameViolations checkName
  split
  · exact .error
  · exact .ok rfl

theorem yields_checkStatement
    (node : Node) :
    Yields id () (statementViolations node)
      (checkStatement node) := by
  cases node with
  | program => exact .error
  | boolean => exact .error
  | _ => exact .ok rfl

theorem Call.yields_compile
    (file : FileId)
    (call : Call) :
    Yields Fragment.pieces (call.layout file) call.violations
      (call.compile file) :=
  (yields_checkName call.name .call call.pos).map
    fun _ _ => rfl

theorem Initializer.yields_compile
    (file : FileId)
    (value : Initializer) :
    Yields Fragment.pieces (value.layout file)
      value.violations (value.compile file) := by
  cases value with
  | text value => exact .ok rfl
  | node node =>
      cases node with
      | boolean pos value => exact .ok rfl
      | _ => exact .error

/- The pieces of a tagged text with fragments after it. -/
theorem pieces_tagged_pushAll
    (pos : Position)
    (file : FileId)
    (text : String)
    (children : List Fragment) :
    ((Fragment.tagged ⟨pos, file⟩ text).pushAll children).pieces =
      marked pos file text ++ Fragment.piecesOf children := by
  rw [Fragment.pieces_pushAll]
  rfl

/-
  Compiling reports the first violation, or gives a fragment
  with the layout of the node. The block of an `else` is
  compiled only after its position was found.
-/
theorem nodeInduction_compile
    (file : FileId) :
    NodeInduction
      (fun node => ∀ indent,
        Yields Fragment.pieces (node.layout file indent)
          node.violations (node.compile file indent))
      (fun nodes => ∀ indent,
        Yields Fragment.piecesOf (blockLayout file indent nodes)
          (blockViolations nodes)
          (compileStatements file indent nodes)) where
  print pos value indent := by
    rw [Node.compile, Node.layout, Node.violations]
    exact .ok rfl
  declaration pos name value _ indent := by
    rw [Node.compile, Node.layout, Node.violations]
    refine (yields_checkName name .declaration pos).bind ?_
    intro _ _
    refine (value.yields_compile file).map ?_
    intro fragment hFragment
    rw [pieces_tagged_pushAll]
    simp [hFragment]
  assignment pos name initial operations indent := by
    rw [Node.compile, Node.layout, Node.violations]
    refine (yields_checkName name .assignment pos).map ?_
    intro _ _
    exact pieces_tagged_pushAll pos file _ _
  conditional pos predicate thenBody elseBody elsePos close
      hThen hElse indent := by
    rw [Node.compile, Node.layout, Node.violations]
    refine (hThen (indent + 1)).bind ?_
    intro thenCode hThenCode
    cases hEmpty : elseBody.isEmpty with
    | true =>
        rw [List.isEmpty_iff] at hEmpty
        subst hEmpty
        refine .ok ?_
        rw [pieces_tagged_pushAll]
        simp [hThenCode, marked]
    | false =>
        cases elsePos with
        | none =>
            simp only [elseViolations, hEmpty, and_self, if_true]
            exact .error
        | some elsePos =>
            simp only [elseViolations, reduceCtorEq, and_false,
              if_false, List.nil_append]
            refine (hElse (indent + 1)).map ?_
            intro elseCode hElseCode
            rw [pieces_tagged_pushAll]
            simp [hThenCode, hElseCode, elseLayout, marked]
  loop pos predicate body close hBody indent := by
    rw [Node.compile, Node.layout, Node.violations]
    refine (hBody (indent + 1)).map ?_
    intro code hCode
    rw [pieces_tagged_pushAll]
    simp [hCode, marked]
  function pos name parameters body hBody indent := by
    rw [Node.compile, Node.layout, Node.violations]
    refine (yields_checkName name .function pos).bind ?_
    intro _ _
    refine (hBody (indent + 1)).map ?_
    intro code hCode
    rw [pieces_tagged_pushAll]
    simp [hCode]
  call made indent := by
    rw [Node.compile, Node.layout, Node.violations]
    exact made.yields_compile file
  result pos value indent := by
    rw [Node.compile, Node.layout, Node.violations]
    exact .ok rfl
  boolean pos value indent := by
    rw [Node.compile, Node.layout, Node.violations]
    exact .ok rfl
  callAssignment pos name made indent := by
    rw [Node.compile, Node.layout, Node.violations]
    refine (yields_checkName name .callAssignment pos).bind ?_
    intro _ _
    refine (made.yields_compile file).map ?_
    intro code hCode
    rw [Fragment.pieces_push, hCode]
    rfl
  program pos statements close hStatements indent := by
    rw [Node.compile, Node.layout, Node.violations]
    refine (hStatements (indent + 1)).map ?_
    intro code hCode
    rw [pieces_tagged_pushAll]
    simp [hCode, marked]
  nil indent := by
    rw [compileStatements, blockLayout, blockViolations]
    exact .ok rfl
  cons node nodes hNode hNodes indent := by
    rw [compileStatements, blockLayout, blockViolations]
    refine (yields_checkStatement node).bind ?_
    intro _ _
    refine (hNode indent).bind ?_
    intro code hCode
    refine (hNodes indent).map ?_
    intro more hMore
    unfold indentation
    split <;> simp [hCode, hMore]

theorem Node.yields_compile
    (file : FileId)
    (indent : UInt32)
    (node : Node) :
    Yields Fragment.pieces (node.layout file indent)
      node.violations (node.compile file indent) :=
  (nodeInduction_compile file).node node indent

theorem yields_compileBlock
    (file : FileId)
    (indent : UInt32)
    (statements : List Node) :
    Yields Fragment.pieces (blockLayout file indent statements)
      (blockViolations statements)
      (compileBlock file indent statements) := by
  rw [compileBlock, map_eq_pure_bind]
  refine
    ((nodeInduction_compile file).block statements indent).map ?_
  intro fragments hFragments
  rw [Fragment.pieces_concat, hFragments]

end TracedScript
