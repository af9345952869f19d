import TracedScript.Proofs.Emission

/-
  Source positions do not change the code.

  Two trees that differ in their positions only are the same
  once all positions are left out. Leaving out positions
  before compiling comes to leaving them out of the
  violations, of the layout and of the boundaries, and
  neither the code nor the places of the records depend on
  them.

  Key definitions include:
    * `Node.unplaced`: a node with its positions left out.
    * `Fragment.Piece.unplaced`

  Main declarations:
    * `nodeInduction_unplaced_violations`,
      `nodeInduction_unplaced_layout`,
      `nodeInduction_unplaced_boundaries`
    * `Node.compile_cases_of_unplaced_eq`
    * `compile_ignores_positions`
-/

------------------------------------------------------------
-- Trees without Positions
------------------------------------------------------------

namespace TracedScript

/- The position that stands for any other. -/
def Position.nowhere : Position := ⟨0, 0⟩

def Call.unplaced (call : Call) : Call :=
  { call with pos := .nowhere }

mutual

/- A node with all of its positions left out. -/
@[simp]
def Node.unplaced : Node → Node
  | .print _ value => .print .nowhere value
  | .declaration _ name value =>
      .declaration .nowhere name value.unplaced
  | .assignment _ name initial operations =>
      .assignment .nowhere name initial operations
  | .conditional _ predicate thenBody elseBody elsePos _ =>
      .conditional .nowhere predicate (unplacedBlock thenBody)
        (unplacedBlock elseBody)
        (elsePos.map fun _ => .nowhere) .nowhere
  | .loop _ predicate body _ =>
      .loop .nowhere predicate (unplacedBlock body) .nowhere
  | .function _ name parameters body =>
      .function .nowhere name parameters (unplacedBlock body)
  | .call made => .call made.unplaced
  | .result _ value => .result .nowhere value
  | .boolean _ value => .boolean .nowhere value
  | .callAssignment _ name made =>
      .callAssignment .nowhere name made.unplaced
  | .program _ statements _ =>
      .program .nowhere (unplacedBlock statements) .nowhere

/- The nodes of a block, each with its positions left out. -/
@[simp]
def unplacedBlock : List Node → List Node
  | [] => []
  | node :: nodes => node.unplaced :: unplacedBlock nodes

/- What a variable is declared with, its positions left out. -/
@[simp]
def Initializer.unplaced : Initializer → Initializer
  | .text value => .text value
  | .node value => .node value.unplaced

end

theorem isEmpty_unplacedBlock
    (nodes : List Node) :
    (unplacedBlock nodes).isEmpty = nodes.isEmpty := by
  cases nodes with
  | nil => rw [unplacedBlock]
  | cons node nodes => rw [unplacedBlock]; rfl

------------------------------------------------------------
-- Violations
------------------------------------------------------------

/- An error with its position left out. -/
def NodeError.unplaced (error : NodeError) : NodeError :=
  { error with position := .nowhere }

theorem NodeError.eq_of_unplaced_eq
    {left right : NodeError}
    (hSame : left.unplaced = right.unplaced) :
    left.kind = right.kind ∧ left.reason = right.reason := by
  rcases left with ⟨kind, position, reason⟩
  rcases right with ⟨otherKind, otherPosition, otherReason⟩
  cases hSame
  exact ⟨rfl, rfl⟩

/- A boundary with its position left out. -/
def Boundary.unplaced (boundary : Boundary) : Boundary :=
  { boundary with position := .nowhere }

/- A piece with its position and its file left out. -/
def Fragment.Piece.unplaced : Fragment.Piece → Fragment.Piece
  | .mark _ => .mark ⟨.nowhere, ⟨0⟩⟩
  | .text content => .text content

open Fragment (Piece)

theorem map_unplaced_nameViolations
    (name : String)
    (kind : Kind)
    (position : Position) :
    (nameViolations name kind position).map
        NodeError.unplaced =
      nameViolations name kind .nowhere := by
  unfold nameViolations
  split <;> rfl

theorem Initializer.map_unplaced_violations
    (value : Initializer) :
    value.violations.map NodeError.unplaced =
      value.unplaced.violations := by
  cases value with
  | text value =>
      rw [Initializer.unplaced]
      rfl
  | node node =>
      rw [Initializer.unplaced]
      cases node <;> rw [Node.unplaced] <;> rfl

theorem map_unplaced_elseViolations
    (pos : Position)
    (elseBody : List Node)
    (elsePos : Option Position) :
    (elseViolations pos elseBody elsePos).map
        NodeError.unplaced =
      elseViolations .nowhere (unplacedBlock elseBody)
        (elsePos.map fun _ => .nowhere) := by
  unfold elseViolations
  simp only [isEmpty_unplacedBlock, Option.map_eq_none_iff]
  split <;> rfl

theorem map_unplaced_statementViolations
    (node : Node) :
    (statementViolations node).map NodeError.unplaced =
      statementViolations node.unplaced := by
  cases node <;> rw [Node.unplaced] <;> rfl

/- The violations of a tree are those without its positions. -/
theorem nodeInduction_unplaced_violations :
    NodeInduction
      (fun node =>
        node.violations.map NodeError.unplaced =
          node.unplaced.violations)
      (fun nodes =>
        (blockViolations nodes).map NodeError.unplaced =
          blockViolations (unplacedBlock nodes)) where
  print pos value := by
    simp [Node.violations, Node.unplaced]
  declaration pos name value _ := by
    simp [Node.violations, Node.unplaced,
      map_unplaced_nameViolations,
      value.map_unplaced_violations]
  assignment pos name initial operations := by
    simp [Node.violations, Node.unplaced,
      map_unplaced_nameViolations]
  conditional pos predicate thenBody elseBody elsePos close
      hThen hElse := by
    simp [Node.violations, Node.unplaced, hThen, hElse,
      map_unplaced_elseViolations]
  loop pos predicate body close hBody := by
    simp [Node.violations, Node.unplaced, hBody]
  function pos name parameters body hBody := by
    simp [Node.violations, Node.unplaced, hBody,
      map_unplaced_nameViolations]
  call made := by
    simp [Node.violations, Node.unplaced, Call.violations,
      Call.unplaced, map_unplaced_nameViolations]
  result pos value := by
    simp [Node.violations, Node.unplaced]
  boolean pos value := by
    simp [Node.violations, Node.unplaced]
  callAssignment pos name made := by
    simp [Node.violations, Node.unplaced, Call.violations,
      Call.unplaced, map_unplaced_nameViolations]
  program pos statements close hStatements := by
    simp [Node.violations, Node.unplaced, hStatements]
  nil := by
    simp [blockViolations, unplacedBlock]
  cons node nodes hNode hNodes := by
    simp [blockViolations, unplacedBlock, hNode, hNodes,
      map_unplaced_statementViolations]

------------------------------------------------------------
-- Layout and Boundaries
------------------------------------------------------------

@[simp] theorem map_unplaced_marked
    (pos : Position)
    (file : FileId)
    (text : String) :
    (marked pos file text).map Piece.unplaced =
      marked .nowhere ⟨0⟩ text :=
  rfl

@[simp] theorem unplaced_text
    (text : String) :
    Piece.unplaced (.text text) = .text text :=
  rfl

theorem Initializer.map_unplaced_layout
    (file : FileId)
    (value : Initializer) :
    (value.layout file).map Piece.unplaced =
      value.unplaced.layout ⟨0⟩ := by
  cases value with
  | text value =>
      rw [Initializer.unplaced]
      rfl
  | node node =>
      rw [Initializer.unplaced]
      cases node <;> rw [Node.unplaced] <;> rfl

/- The layout of a tree keeps its texts without positions. -/
theorem nodeInduction_unplaced_layout
    (file : FileId) :
    NodeInduction
      (fun node => ∀ indent,
        (node.layout file indent).map Piece.unplaced =
          node.unplaced.layout ⟨0⟩ indent)
      (fun nodes => ∀ indent,
        (blockLayout file indent nodes).map Piece.unplaced =
          blockLayout ⟨0⟩ indent (unplacedBlock nodes)) where
  print pos value indent := by
    simp [Node.layout, Node.unplaced]
  declaration pos name value _ indent := by
    simp [Node.layout, Node.unplaced,
      value.map_unplaced_layout]
  assignment pos name initial operations indent := by
    simp [Node.layout, Node.unplaced, roundingLines]
  conditional pos predicate thenBody elseBody elsePos close
      hThen hElse indent := by
    cases elsePos with
    | none =>
        simp [Node.layout, Node.unplaced, hThen, elseLayout]
    | some elsePos =>
        cases elseBody with
        | nil =>
            simp [Node.layout, Node.unplaced, hThen,
              unplacedBlock]
        | cons node nodes =>
            have hElse := hElse (indent + 1)
            rw [unplacedBlock] at hElse
            simp [Node.layout, Node.unplaced, hThen, hElse,
              elseLayout, unplacedBlock]
  loop pos predicate body close hBody indent := by
    simp [Node.layout, Node.unplaced, hBody]
  function pos name parameters body hBody indent := by
    simp [Node.layout, Node.unplaced, hBody]
  call made indent := by
    simp [Node.layout, Node.unplaced, Call.layout,
      Call.unplaced]
  result pos value indent := by
    simp [Node.layout, Node.unplaced]
  boolean pos value indent := by
    simp [Node.layout, Node.unplaced]
  callAssignment pos name made indent := by
    simp [Node.layout, Node.unplaced, Call.layout,
      Call.unplaced]
  program pos statements close hStatements indent := by
    simp [Node.layout, Node.unplaced, hStatements]
  nil indent := by
    simp [blockLayout, unplacedBlock]
  cons node nodes hNode hNodes indent := by
    simp only [blockLayout, unplacedBlock, indentation]
    split <;> simp [hNode, hNodes]

theorem Initializer.map_unplaced_boundaries
    (value : Initializer) :
    value.boundaries.map Boundary.unplaced =
      value.unplaced.boundaries := by
  cases value with
  | text value =>
      rw [Initializer.unplaced]
      rfl
  | node node =>
      rw [Initializer.unplaced]
      cases node <;> rw [Node.unplaced] <;> rfl

/- The boundaries of a tree keep their texts as well. -/
theorem nodeInduction_unplaced_boundaries :
    NodeInduction
      (fun node =>
        node.boundaries.map Boundary.unplaced =
          node.unplaced.boundaries)
      (fun nodes =>
        (blockBoundaries nodes).map Boundary.unplaced =
          blockBoundaries (unplacedBlock nodes)) where
  print pos value := by
    simp [Node.boundaries, Node.unplaced, Boundary.unplaced]
  declaration pos name value _ := by
    simp [Node.boundaries, Node.unplaced, Boundary.unplaced,
      ← value.map_unplaced_boundaries]
  assignment pos name initial operations := by
    simp [Node.boundaries, Node.unplaced, Boundary.unplaced]
  conditional pos predicate thenBody elseBody elsePos close
      hThen hElse := by
    cases elsePos with
    | none =>
        simp [Node.boundaries, Node.unplaced, hThen,
          elseBoundaries, Boundary.unplaced]
    | some elsePos =>
        cases elseBody with
        | nil =>
            simp [Node.boundaries, Node.unplaced, hThen,
              unplacedBlock, Boundary.unplaced]
        | cons node nodes =>
            rw [unplacedBlock] at hElse
            simp [Node.boundaries, Node.unplaced, hThen, hElse,
              elseBoundaries, unplacedBlock, Boundary.unplaced]
  loop pos predicate body close hBody := by
    simp [Node.boundaries, Node.unplaced, hBody,
      Boundary.unplaced]
  function pos name parameters body hBody := by
    simp [Node.boundaries, Node.unplaced, hBody,
      Boundary.unplaced]
  call made := by
    simp [Node.boundaries, Node.unplaced, Call.boundary,
      Call.unplaced, Boundary.unplaced]
  result pos value := by
    simp [Node.boundaries, Node.unplaced, Boundary.unplaced]
  boolean pos value := by
    simp [Node.boundaries, Node.unplaced, Boundary.unplaced]
  callAssignment pos name made := by
    simp [Node.boundaries, Node.unplaced, Call.boundary,
      Call.unplaced, Boundary.unplaced]
  program pos statements close hStatements := by
    simp [Node.boundaries, Node.unplaced, hStatements,
      Boundary.unplaced]
  nil := by
    simp [blockBoundaries, unplacedBlock]
  cons node nodes hNode hNodes := by
    simp [blockBoundaries, unplacedBlock, hNode, hNodes]

------------------------------------------------------------
-- Rendering
------------------------------------------------------------

namespace Fragment

/- The code does not depend on the tags. -/
theorem codeOf_map_unplaced
    (pieces : List Piece) :
    codeOf (pieces.map Piece.unplaced) = codeOf pieces := by
  induction pieces with
  | nil => rfl
  | cons piece pieces ih =>
      cases piece with
      | mark tag => exact ih
      | text text => exact congrArg (text ++ ·) ih

/- Nor do the places of the records. -/
theorem map_place_recordsFrom_unplaced
    (cursor : Cursor)
    (pieces : List Piece) :
    (recordsFrom cursor (pieces.map Piece.unplaced)).map
        Record.place =
      (recordsFrom cursor pieces).map Record.place := by
  induction pieces generalizing cursor with
  | nil => rfl
  | cons piece pieces ih =>
      cases piece with
      | mark tag => exact congrArg (cursor :: ·) (ih cursor)
      | text text => exact ih (cursor.advance text)

/- Pieces that differ in their tags only have the same code. -/
theorem code_eq_of_map_unplaced
    {left right : Fragment}
    (hPieces :
      left.pieces.map Piece.unplaced =
        right.pieces.map Piece.unplaced) :
    left.code = right.code
      ∧ left.records.map Record.place =
        right.records.map Record.place := by
  constructor
  · unfold code
    rw [← codeOf_map_unplaced left.pieces, hPieces,
      codeOf_map_unplaced]
  · unfold records
    rw [← map_place_recordsFrom_unplaced .start left.pieces,
      hPieces, map_place_recordsFrom_unplaced]

end Fragment

/- Records take their tags from the boundaries they stand for. -/
theorem Record.map_tag_of_standsFor
    {file : FileId}
    {code : String}
    {records : List Record}
    {boundaries : List Boundary}
    (hStands :
      List.Forall₂ (StandsFor file code) records boundaries) :
    records.map Record.tag =
      boundaries.map fun boundary =>
        ⟨boundary.position, file⟩ := by
  induction hStands with
  | nil => rfl
  | cons hFirst _ ih =>
      rw [List.map_cons, List.map_cons, ih, ← hFirst.position,
        ← hFirst.file]

------------------------------------------------------------
-- Compilation
------------------------------------------------------------

/-
  Two trees that are the same without their positions have
  violations that are the same without their positions, so
  both have code or both have none.
-/
theorem Node.compile_cases_of_unplaced_eq
    {left right : Node}
    (hSame : left.unplaced = right.unplaced)
    (leftFile rightFile : FileId)
    (indent : UInt32) :
    (∃ leftError rightError,
        left.compile leftFile indent = .error leftError
          ∧ right.compile rightFile indent = .error rightError
          ∧ leftError.unplaced = rightError.unplaced)
      ∨ ∃ leftCode rightCode,
        left.compile leftFile indent = .ok leftCode
          ∧ right.compile rightFile indent = .ok rightCode
          ∧ leftCode.pieces.map Piece.unplaced =
            rightCode.pieces.map Piece.unplaced := by
  have hViolations :
      left.violations.map NodeError.unplaced =
        right.violations.map NodeError.unplaced := by
    rw [nodeInduction_unplaced_violations.node left, hSame,
      nodeInduction_unplaced_violations.node right]
  have hLayout :
      (left.layout leftFile indent).map Piece.unplaced =
        (right.layout rightFile indent).map Piece.unplaced := by
    rw [(nodeInduction_unplaced_layout leftFile).node left,
      hSame,
      (nodeInduction_unplaced_layout rightFile).node right]
  have hLeft := left.yields_compile leftFile indent
  have hRight := right.yields_compile rightFile indent
  generalize left.violations = leftViolations at *
  generalize right.violations = rightViolations at *
  generalize left.compile leftFile indent = leftOutcome at *
  generalize right.compile rightFile indent = rightOutcome at *
  cases hLeft with
  | ok hLeftCode =>
      cases hRight with
      | ok hRightCode =>
          right
          refine ⟨_, _, rfl, rfl, ?_⟩
          rw [hLeftCode, hRightCode, hLayout]
      | error => cases hViolations
  | error =>
      cases hRight with
      | ok hRightCode => cases hViolations
      | error =>
          left
          exact
            ⟨_, _, rfl, rfl, (List.cons.inj hViolations).1⟩

/- The code and the records of an emitted document. -/
def Emission.output (emission : Emission) : Rendered where
  code := emission.code
  records := emission.records

/- What is emitted for a program, apart from the source map. -/
theorem Document.map_output_emit
    (document : Document)
    (options : EmitOptions) :
    (document.emit options).map Emission.output =
      ((document.program.compile ⟨0⟩).mapError .node).map
        Fragment.render := by
  have hFile : document.sourceFiles.1 = ⟨0⟩ := by
    rw [sourceFiles_eq]
  cases hCompile : document.program.compile ⟨0⟩ with
  | ok fragment =>
      rw [← hFile] at hCompile
      rw [emit_eq_ok options hCompile]
      rfl
  | error error =>
      rw [← hFile] at hCompile
      rw [emit_eq_error options hCompile]
      rfl

/-
  Programs that differ in their positions only, in any two
  files, either both have no code, for the same reason at a
  node of the same kind, or have the same code with records
  at the same places. A record takes its position and its
  file from its boundary, and the boundaries of the two
  programs are the same but for their positions. What is
  emitted for a program depends neither on the options nor
  on the source and its text.
-/
theorem compile_ignores_positions :
    (∀ (left right : Program) (leftFile rightFile : FileId),
        left.node.unplaced = right.node.unplaced →
          (∃ leftError rightError,
              left.compile leftFile = .error leftError
                ∧ right.compile rightFile = .error rightError
                ∧ leftError.kind = rightError.kind
                ∧ leftError.reason = rightError.reason)
            ∨ ∃ leftCode rightCode,
              left.compile leftFile = .ok leftCode
                ∧ right.compile rightFile = .ok rightCode
                ∧ leftCode.render.code = rightCode.render.code
                ∧ leftCode.render.records.map Record.place =
                  rightCode.render.records.map Record.place
                ∧ leftCode.render.records.map Record.tag =
                  left.node.boundaries.map
                    (fun boundary =>
                      ⟨boundary.position, leftFile⟩)
                ∧ rightCode.render.records.map Record.tag =
                  right.node.boundaries.map
                    (fun boundary =>
                      ⟨boundary.position, rightFile⟩)
                ∧ left.node.boundaries.map Boundary.text =
                  right.node.boundaries.map Boundary.text)
      ∧ ∀ (left right : Document)
          (leftOptions rightOptions : EmitOptions),
          left.program = right.program →
            (left.emit leftOptions).map Emission.output =
              (right.emit rightOptions).map
                Emission.output := by
  constructor
  · intro left right leftFile rightFile hSame
    rcases
        Node.compile_cases_of_unplaced_eq hSame leftFile
          rightFile 0 with
      ⟨leftError, rightError, hLeft, hRight, hError⟩
        | ⟨leftCode, rightCode, hLeft, hRight, hPieces⟩
    · left
      exact
        ⟨leftError, rightError, hLeft, hRight,
          NodeError.eq_of_unplaced_eq hError⟩
    · right
      have hCode := Fragment.code_eq_of_map_unplaced hPieces
      have hLeftTags :=
        Record.map_tag_of_standsFor (Node.records_standFor hLeft)
      have hRightTags :=
        Record.map_tag_of_standsFor
          (Node.records_standFor hRight)
      have hBoundaries :
          left.node.boundaries.map Boundary.unplaced =
            right.node.boundaries.map Boundary.unplaced := by
        rw [nodeInduction_unplaced_boundaries.node left.node,
          hSame,
          nodeInduction_unplaced_boundaries.node right.node]
      have hTexts :=
        congrArg (List.map Boundary.text) hBoundaries
      rw [List.map_map, List.map_map] at hTexts
      exact
        ⟨leftCode, rightCode, hLeft, hRight, hCode.1, hCode.2,
          hLeftTags, hRightTags, hTexts⟩
  · intro left right leftOptions rightOptions hProgram
    rw [Document.map_output_emit, Document.map_output_emit,
      hProgram]

/- A program with an `else`, and the same one moved elsewhere. -/
def elseProgram : Program :=
  ⟨⟨1, 0⟩, [elseSample], ⟨5, 0⟩⟩

def movedElseProgram : Program :=
  ⟨⟨8, 1⟩,
    [.conditional ⟨9, 0⟩ "x < 3" []
      [.declaration ⟨0, 0⟩ "y" (.node (.boolean ⟨7, 7⟩ true)),
        .callAssignment ⟨3, 3⟩ "z" ⟨⟨2, 2⟩, "f", ["x", "y"]⟩]
      (some ⟨9, 9⟩) ⟨1, 1⟩],
    ⟨4294967295, 0⟩⟩

theorem compile_ignores_positions_moved :
    elseProgram.node.unplaced = movedElseProgram.node.unplaced
      ∧ (∃ leftCode rightCode,
        elseProgram.compile ⟨0⟩ = .ok leftCode
          ∧ movedElseProgram.compile ⟨5⟩ = .ok rightCode
          ∧ leftCode.render.code = rightCode.render.code
          ∧ leftCode.render.records.map Record.place =
            rightCode.render.records.map Record.place)
      ∧ (Document.emit ⟨"a.src", none, elseProgram⟩
            ⟨"a.js", none, true⟩).map Emission.output =
        (Document.emit ⟨"b.src", some "text", elseProgram⟩
            {}).map Emission.output := by
  have hSame :
      elseProgram.node.unplaced =
        movedElseProgram.node.unplaced := by
    cbv
  have hViolations : elseProgram.node.violations = [] := by
    cbv
  refine ⟨hSame, ?_, ?_⟩
  · rcases
        compile_ignores_positions.1 elseProgram
          movedElseProgram ⟨0⟩ ⟨5⟩ hSame with
      ⟨leftError, _, hLeft, _⟩
        | ⟨leftCode, rightCode, hLeft, hRight, hCode, hPlaces,
            _⟩
    · rcases
          (elseProgram.node.yields_compile ⟨0⟩
            0).exists_ok_iff.mpr hViolations with
        ⟨fragment, hFragment⟩
      rw [Program.compile, hFragment] at hLeft
      cases hLeft
    · exact
        ⟨leftCode, rightCode, hLeft, hRight, hCode, hPlaces⟩
  · exact compile_ignores_positions.2 _ _ _ _ rfl

end TracedScript
