import TracedScript.Proofs.Compilation

/-
  Exactly the well-formed trees have code, and for any other
  tree the first violation is reported.

  A tree is well formed by what its statements are, wherever
  they stand: `statementsOf` gives the statements of a block
  at any depth, and `Node.Allowed` says what each of them has
  to be.

  Key definitions include:
    * `statementsOf`
    * `Node.Allowed`
    * `WellFormedBlock`

  Main declarations:
    * `blockViolations_eq_nil_iff`
    * `compile_ok_iff_wellFormed`
-/

------------------------------------------------------------
-- Well-Formed Trees
------------------------------------------------------------

namespace TracedScript

mutual

/- The statements in the blocks of a node, at any depth. -/
def Node.innerStatements : Node → List Node
  | .conditional _ _ thenBody elseBody _ _ =>
      statementsOf thenBody ++ statementsOf elseBody
  | .loop _ _ body _ => statementsOf body
  | .function _ _ _ body => statementsOf body
  | .program _ statements _ => statementsOf statements
  | .print .. => []
  | .declaration .. => []
  | .assignment .. => []
  | .call .. => []
  | .result .. => []
  | .boolean .. => []
  | .callAssignment .. => []

/- The statements of a block, at any depth. -/
def statementsOf : List Node → List Node
  | [] => []
  | node :: nodes =>
      node :: (node.innerStatements ++ statementsOf nodes)

end

/- A name with a character that is not blank. -/
def HasName (name : String) : Prop :=
  ∃ c ∈ name.toList, Text.isBlank c = false

/- A text or a truth value. -/
def Initializer.Allowed : Initializer → Prop
  | .text _ => True
  | .node value => value.kind = .boolean

/- What a node has to have apart from its blocks. -/
def Node.PartsAllowed : Node → Prop
  | .declaration _ name value => HasName name ∧ value.Allowed
  | .assignment _ name .. => HasName name
  | .conditional _ _ _ elseBody elsePos _ =>
      elseBody ≠ [] → ∃ pos, elsePos = some pos
  | .function _ name .. => HasName name
  | .call made => HasName made.name
  | .callAssignment _ name made =>
      HasName name ∧ HasName made.name
  | .print .. => True
  | .loop .. => True
  | .result .. => True
  | .boolean .. => True
  | .program .. => True

/- What a statement of a block has to be. -/
structure Node.Allowed (node : Node) : Prop where
  notProgram : node.kind ≠ .program
  notBoolean : node.kind ≠ .boolean
  parts : node.PartsAllowed

/- Every statement is allowed, at any depth. -/
def WellFormedBlock (statements : List Node) : Prop :=
  ∀ node ∈ statementsOf statements, node.Allowed

def Program.WellFormed (program : Program) : Prop :=
  WellFormedBlock program.statements

------------------------------------------------------------
-- Trees without Violations
------------------------------------------------------------

theorem nameViolations_eq_nil_iff
    (name : String)
    (kind : Kind)
    (position : Position) :
    nameViolations name kind position = [] ↔ HasName name := by
  unfold nameViolations HasName Text.allBlank
  split
  · next hBlank =>
      rw [List.all_eq_true] at hBlank
      constructor
      · intro hNil
        cases hNil
      · rintro ⟨c, hMember, hVisible⟩
        rw [hBlank c hMember] at hVisible
        cases hVisible
  · next hVisible =>
      refine iff_of_true rfl ?_
      simpa using hVisible

theorem Initializer.violations_eq_nil_iff
    (value : Initializer) :
    value.violations = [] ↔ value.Allowed := by
  cases value with
  | text value => exact iff_of_true rfl trivial
  | node node =>
      cases node with
      | boolean => exact iff_of_true rfl rfl
      | _ =>
          simp [Initializer.violations, Initializer.Allowed,
            Node.kind]

theorem elseViolations_eq_nil_iff
    (pos : Position)
    (elseBody : List Node)
    (elsePos : Option Position) :
    elseViolations pos elseBody elsePos = [] ↔
      (elseBody ≠ [] → ∃ pos, elsePos = some pos) := by
  unfold elseViolations
  cases elsePos with
  | none => simp
  | some elsePos => simp

theorem statementViolations_eq_nil_iff
    (node : Node) :
    statementViolations node = [] ↔
      node.kind ≠ .program ∧ node.kind ≠ .boolean := by
  unfold statementViolations
  cases node.kind <;> simp

/-
  A node has no violations if its parts are allowed, and so
  are all statements in its blocks.
-/
theorem nodeInduction_violations :
    NodeInduction
      (fun node =>
        node.violations = [] ↔
          node.PartsAllowed
            ∧ ∀ inner ∈ node.innerStatements, inner.Allowed)
      (fun nodes =>
        blockViolations nodes = [] ↔ WellFormedBlock nodes) where
  print pos value := by
    simp [Node.violations, Node.PartsAllowed,
      Node.innerStatements]
  declaration pos name value _ := by
    simp [Node.violations, Node.PartsAllowed,
      Node.innerStatements, nameViolations_eq_nil_iff,
      value.violations_eq_nil_iff]
  assignment pos name initial operations := by
    simp [Node.violations, Node.PartsAllowed,
      Node.innerStatements, nameViolations_eq_nil_iff]
  conditional pos predicate thenBody elseBody elsePos close
      hThen hElse := by
    rw [Node.violations, Node.PartsAllowed,
      Node.innerStatements, List.append_eq_nil_iff,
      List.append_eq_nil_iff, hThen, hElse,
      elseViolations_eq_nil_iff, List.forall_mem_append]
    exact and_left_comm
  loop pos predicate body close hBody := by
    rw [Node.violations, Node.PartsAllowed,
      Node.innerStatements, hBody, true_and]
    rfl
  function pos name parameters body hBody := by
    rw [Node.violations, List.append_eq_nil_iff, hBody,
      nameViolations_eq_nil_iff]
    rfl
  call made := by
    simp [Node.violations, Call.violations, Node.PartsAllowed,
      Node.innerStatements, nameViolations_eq_nil_iff]
  result pos value := by
    simp [Node.violations, Node.PartsAllowed,
      Node.innerStatements]
  boolean pos value := by
    simp [Node.violations, Node.PartsAllowed,
      Node.innerStatements]
  callAssignment pos name made := by
    simp [Node.violations, Call.violations, Node.PartsAllowed,
      Node.innerStatements, nameViolations_eq_nil_iff]
  program pos statements close hStatements := by
    rw [Node.violations, Node.PartsAllowed,
      Node.innerStatements, hStatements, true_and]
    rfl
  nil := by
    simp [blockViolations, WellFormedBlock, statementsOf]
  cons node nodes hNode hNodes := by
    rw [blockViolations, List.append_eq_nil_iff,
      List.append_eq_nil_iff, hNode, hNodes,
      statementViolations_eq_nil_iff]
    unfold WellFormedBlock
    rw [statementsOf, List.forall_mem_cons,
      List.forall_mem_append]
    constructor
    · rintro ⟨⟨hProgram, hBoolean⟩, ⟨hParts, hInner⟩, hRest⟩
      exact ⟨⟨hProgram, hBoolean, hParts⟩, hInner, hRest⟩
    · rintro ⟨⟨hProgram, hBoolean, hParts⟩, hInner, hRest⟩
      exact ⟨⟨hProgram, hBoolean⟩, ⟨hParts, hInner⟩, hRest⟩

theorem blockViolations_eq_nil_iff
    (statements : List Node) :
    blockViolations statements = [] ↔
      WellFormedBlock statements :=
  nodeInduction_violations.block statements

------------------------------------------------------------
-- Trees That Have Code
------------------------------------------------------------

/-
  A block has code exactly if it is well formed, at every
  level of indentation and in every file, and so has a
  program. Otherwise the first violation is reported.
-/
theorem compile_ok_iff_wellFormed
    (file : FileId)
    (indent : UInt32) :
    (∀ statements : List Node,
        ((∃ fragment,
            compileBlock file indent statements = .ok fragment) ↔
          WellFormedBlock statements)
          ∧ ∀ error,
            compileBlock file indent statements = .error error ↔
              (blockViolations statements).head? = some error)
      ∧ ∀ program : Program,
          ((∃ fragment,
              program.node.compile file indent =
                .ok fragment) ↔
            program.WellFormed)
            ∧ ∀ error,
              program.node.compile file indent =
                  .error error ↔
                (blockViolations program.statements).head? =
                  some error := by
  constructor
  · intro statements
    have hYields := yields_compileBlock file indent statements
    constructor
    · rw [hYields.exists_ok_iff, blockViolations_eq_nil_iff]
    · exact hYields.eq_error_iff
  · intro program
    have hYields := program.node.yields_compile file indent
    have hViolations :
        program.node.violations =
          blockViolations program.statements := by
      rw [Program.node, Node.violations]
    rw [hViolations] at hYields
    constructor
    · rw [hYields.exists_ok_iff, blockViolations_eq_nil_iff,
        Program.WellFormed]
    · exact hYields.eq_error_iff

/- The missing `else` comes between the two blocks. -/
example :
    blockViolations
        [.conditional ⟨1, 0⟩ "x < 3"
          [.declaration ⟨2, 2⟩ " " (.node (.print ⟨2, 9⟩ "y"))]
          [.boolean ⟨4, 2⟩ true] none ⟨5, 0⟩] =
      [⟨.declaration, ⟨2, 2⟩, .emptyName⟩,
        ⟨.print, ⟨2, 9⟩, .invalidInitializer⟩,
        ⟨.conditional, ⟨1, 0⟩, .elseWithoutIntroducer⟩,
        ⟨.boolean, ⟨4, 2⟩, .expressionStatement⟩] := by
  cbv

end TracedScript
