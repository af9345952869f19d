import TracedScript.Node.Reader
import TracedScript.Node.Writer
import TracedScript.Proofs.Compilation
import TracedScript.Proofs.JsonRecords

/-
  Reading the text of a document gives the document.

  Main declarations:
    * `nodeInduction_small`: all numbers of a tree are small.
    * `nodeInduction_reads`: a tree is read from its value.
    * `Document.parse_write`
-/

------------------------------------------------------------
-- Positions and Calls
------------------------------------------------------------

namespace TracedScript

open Json (Value Reader)
open Json.Outcome (map_done seq_done)
open Json.Entry (required_ofMembers defaulted_ofMembers
  optional_ofMembers)

theorem Position.reads_value
    (position : Position) :
    Position.reader.Reads position.value position := by
  apply Reader.reads_record
  · simp
  · intro inner hInner
    refine seq_done (map_done ?_) ?_
    · exact required_ofMembers hInner rfl
        (Reader.reads_word32 position.line)
    · exact required_ofMembers hInner rfl
        (Reader.reads_word32 position.column)

theorem reads_elseValue
    (pos : Position) :
    elseReader.Reads (elseValue pos) pos := by
  apply Reader.reads_record
  · simp
  · intro inner hInner
    exact required_ofMembers hInner rfl pos.reads_value

theorem elseValue_ne_null
    (pos : Position) :
    elseValue pos ≠ .null := by
  intro hNull
  cases hNull

/- A call is read from any members that include its own. -/
theorem Call.reads_members
    (call : Call)
    {members : List (String × Value)}
    (hKeys : (members.map Prod.fst).Nodup)
    (hPos : members.lookup "pos" = some call.pos.value)
    (hName : members.lookup "name" = some (.string call.name))
    (hArguments :
      members.lookup "arguments" =
        some (Json.texts call.arguments)) :
    Call.reader.Reads (.object members) call := by
  apply Reader.reads_record hKeys
  intro inner hInner
  refine seq_done (seq_done (map_done ?_) ?_) ?_
  · exact required_ofMembers hInner hPos call.pos.reads_value
  · exact required_ofMembers hInner hName
      (Reader.reads_text call.name)
  · exact defaulted_ofMembers hInner hArguments
      (Reader.reads_texts call.arguments) []

/- So is a program, if its statements can be read. -/
theorem Program.reads_members
    {node : Reader Node}
    (program : Program)
    {members : List (String × Value)}
    (hKeys : (members.map Prod.fst).Nodup)
    (hPos : members.lookup "pos" = some program.pos.value)
    (hStatements :
      members.lookup "statements" =
        some (.array (Node.values program.statements)))
    (hEnd : members.lookup "end" = some program.close.value)
    (hNodes :
      List.Forall₂ node.Reads (Node.values program.statements)
        program.statements) :
    (Program.readerWith node).Reads (.object members)
      program := by
  apply Reader.reads_record hKeys
  intro inner hInner
  refine seq_done (seq_done (map_done ?_) ?_) ?_
  · exact required_ofMembers hInner hPos
      program.pos.reads_value
  · exact defaulted_ofMembers hInner hStatements
      (Reader.reads_list hNodes) []
  · exact required_ofMembers hInner hEnd
      program.close.reads_value

/- What a variable is declared with is a text or a node. -/
theorem Initializer.reads_value
    {node : Reader Node}
    (value : Initializer)
    (hNode :
      ∀ inner, value = .node inner →
        node.Reads inner.value inner) :
    (Initializer.reader node).Reads value.value value := by
  intro access hAllows
  cases value with
  | text text =>
      rw [Initializer.value, Value.draft]
      rfl
  | node inner =>
      have hValue : (Initializer.node inner).value = inner.value := by
        rw [Initializer.value, Node.value]
      rw [hValue] at hAllows ⊢
      have hRead := hNode inner rfl access hAllows
      unfold Initializer.reader
      split
      · next hDraft =>
          rw [Node.value, Value.draft] at hDraft
          cases hDraft
      · rw [hRead]

------------------------------------------------------------
-- Nodes
------------------------------------------------------------

theorem Node.lookup_kinds
    (kind : Kind) :
    Node.kinds.lookup kind.tag = some kind := by
  cases kind <;> rfl

theorem Node.nodup_keys
    (node : Node) :
    ((("kind", Value.string node.kind.tag)
      :: node.members).map Prod.fst).Nodup := by
  cases node <;> simp [Node.members, Call.members]

theorem Node.nesting_value
    (node : Node) :
    node.value.nesting =
      Value.membersNesting node.members + 1 := by
  simp [Node.value, Value.nesting, Value.membersNesting]

/-
  A node is read at any number of levels that its nesting
  leaves, if the reader of its kind reads it when the nodes
  inside of it are read at one level less.
-/
theorem Node.reads_of_fields
    {node : Node}
    (hFields :
      ∀ levels,
        Value.membersNesting node.members ≤ levels →
          (fieldsReader (readerTo levels) node.kind).Reads
            node.value node)
    (levels : Nat)
    (hLevels : node.value.nesting ≤ levels) :
    (readerTo levels).Reads node.value node := by
  rw [nesting_value] at hLevels
  cases levels with
  | zero => omega
  | succ levels =>
      have hNode := hFields levels (by omega)
      rw [readerTo]
      rw [Node.value] at hNode ⊢
      exact Reader.reads_tagged "Node" (lookup_kinds node.kind)
        node.nodup_keys hNode

/- The nodes of a block are read one by one. -/
theorem Node.forall₂_reads_cons
    {node : Node}
    {nodes : List Node}
    {levels : Nat}
    (hNode :
      node.value.nesting ≤ levels →
        (readerTo levels).Reads node.value node)
    (hNodes :
      Value.itemsNesting (values nodes) ≤ levels →
        List.Forall₂ (readerTo levels).Reads (values nodes)
          nodes)
    (hLevels :
      Value.itemsNesting (values (node :: nodes)) ≤ levels) :
    List.Forall₂ (readerTo levels).Reads (values (node :: nodes))
      (node :: nodes) := by
  rw [values, ← Node.value, Value.itemsNesting, max_le_iff]
    at hLevels
  rw [values, ← Node.value]
  exact List.Forall₂.cons (hNode hLevels.1) (hNodes hLevels.2)

/-
  Every node is read from its value, and every block from its
  values, at any number of levels that their nesting leaves.
-/
theorem nodeInduction_reads :
    NodeInduction
      (fun node => ∀ levels, node.value.nesting ≤ levels →
        (Node.readerTo levels).Reads node.value node)
      (fun nodes => ∀ levels,
        Value.itemsNesting (Node.values nodes) ≤ levels →
          List.Forall₂ (Node.readerTo levels).Reads
            (Node.values nodes) nodes) where
  print pos value := by
    apply Node.reads_of_fields
    intro levels _
    rw [Node.value, Node.members, Node.kind, Node.fieldsReader]
    apply Reader.reads_record (by simp)
    intro inner hInner
    refine seq_done (map_done ?_) ?_
    · exact required_ofMembers hInner rfl pos.reads_value
    · exact required_ofMembers hInner rfl
        (Reader.reads_text value)
  declaration pos name value hValue := by
    apply Node.reads_of_fields
    intro levels hLevels
    rw [Node.members] at hLevels
    rw [Node.value, Node.members, Node.kind, Node.fieldsReader]
    apply Reader.reads_record (by simp)
    intro inner hInner
    refine seq_done (seq_done (map_done ?_) ?_) ?_
    · exact required_ofMembers hInner rfl pos.reads_value
    · exact required_ofMembers hInner rfl
        (Reader.reads_text name)
    · refine required_ofMembers hInner rfl
        (value.reads_value ?_)
      rintro node rfl
      apply hValue node rfl
      rw [Initializer.value, ← Node.value] at hLevels
      simp only [Value.membersNesting] at hLevels
      omega
  assignment pos name initial operations := by
    apply Node.reads_of_fields
    intro levels _
    rw [Node.value, Node.members, Node.kind, Node.fieldsReader]
    apply Reader.reads_record (by simp)
    intro inner hInner
    refine seq_done (seq_done (seq_done (map_done ?_) ?_) ?_) ?_
    · exact required_ofMembers hInner rfl pos.reads_value
    · exact required_ofMembers hInner rfl
        (Reader.reads_text name)
    · exact required_ofMembers hInner rfl
        (Reader.reads_text initial)
    · exact defaulted_ofMembers hInner rfl
        (Reader.reads_texts operations) []
  conditional pos predicate thenBody elseBody elsePos close
      hThen hElse := by
    apply Node.reads_of_fields
    intro levels hLevels
    simp only [Node.members, Value.membersNesting,
      Value.nesting] at hLevels
    rw [Node.value, Node.members, Node.kind, Node.fieldsReader]
    apply Reader.reads_record (by simp)
    intro inner hInner
    refine seq_done (seq_done (seq_done (seq_done (seq_done
      (map_done ?_) ?_) ?_) ?_) ?_) ?_
    · exact required_ofMembers hInner rfl pos.reads_value
    · exact required_ofMembers hInner rfl
        (Reader.reads_text predicate)
    · exact defaulted_ofMembers hInner rfl
        (Reader.reads_list (hThen levels (by omega))) []
    · exact defaulted_ofMembers hInner rfl
        (Reader.reads_list (hElse levels (by omega))) []
    · exact defaulted_ofMembers hInner rfl
        (Reader.reads_orNull reads_elseValue elseValue_ne_null
          elsePos) none
    · exact required_ofMembers hInner rfl close.reads_value
  loop pos predicate body close hBody := by
    apply Node.reads_of_fields
    intro levels hLevels
    simp only [Node.members, Value.membersNesting,
      Value.nesting] at hLevels
    rw [Node.value, Node.members, Node.kind, Node.fieldsReader]
    apply Reader.reads_record (by simp)
    intro inner hInner
    refine seq_done (seq_done (seq_done (map_done ?_) ?_) ?_) ?_
    · exact required_ofMembers hInner rfl pos.reads_value
    · exact required_ofMembers hInner rfl
        (Reader.reads_text predicate)
    · exact defaulted_ofMembers hInner rfl
        (Reader.reads_list (hBody levels (by omega))) []
    · exact required_ofMembers hInner rfl close.reads_value
  function pos name parameters body hBody := by
    apply Node.reads_of_fields
    intro levels hLevels
    simp only [Node.members, Value.membersNesting,
      Value.nesting] at hLevels
    rw [Node.value, Node.members, Node.kind, Node.fieldsReader]
    apply Reader.reads_record (by simp)
    intro inner hInner
    refine seq_done (seq_done (seq_done (map_done ?_) ?_) ?_) ?_
    · exact required_ofMembers hInner rfl pos.reads_value
    · exact required_ofMembers hInner rfl
        (Reader.reads_text name)
    · exact defaulted_ofMembers hInner rfl
        (Reader.reads_texts parameters) []
    · exact defaulted_ofMembers hInner rfl
        (Reader.reads_list (hBody levels (by omega))) []
  call made := by
    apply Node.reads_of_fields
    intro levels _
    rw [Node.value, Node.members, Node.kind, Node.fieldsReader]
    have hCall :=
      made.reads_members (Node.call made).nodup_keys rfl rfl rfl
    intro access hAllows
    exact map_eq_ok_iff.mpr ⟨made, hCall access hAllows, rfl⟩
  result pos value := by
    apply Node.reads_of_fields
    intro levels _
    rw [Node.value, Node.members, Node.kind, Node.fieldsReader]
    apply Reader.reads_record (by simp)
    intro inner hInner
    refine seq_done (map_done ?_) ?_
    · exact required_ofMembers hInner rfl pos.reads_value
    · exact required_ofMembers hInner rfl
        (Reader.reads_text value)
  boolean pos value := by
    apply Node.reads_of_fields
    intro levels _
    rw [Node.value, Node.members, Node.kind, Node.fieldsReader]
    apply Reader.reads_record (by simp)
    intro inner hInner
    refine seq_done (map_done ?_) ?_
    · exact required_ofMembers hInner rfl pos.reads_value
    · exact required_ofMembers hInner rfl
        (Reader.reads_boolean value)
  callAssignment pos name made := by
    apply Node.reads_of_fields
    intro levels _
    rw [Node.value, Node.members, Node.kind, Node.fieldsReader]
    apply Reader.reads_record (by simp)
    intro inner hInner
    have hCall :
        Call.reader.Reads (.object made.members) made := by
      apply made.reads_members _ rfl rfl rfl
      simp [Call.members]
    refine seq_done (seq_done (map_done ?_) ?_) ?_
    · exact required_ofMembers hInner rfl pos.reads_value
    · exact required_ofMembers hInner rfl
        (Reader.reads_text name)
    · exact required_ofMembers hInner rfl hCall
  program pos statements close hStatements := by
    apply Node.reads_of_fields
    intro levels hLevels
    simp only [Node.members, Value.membersNesting,
      Value.nesting] at hLevels
    have hProgram :=
      Program.reads_members ⟨pos, statements, close⟩
        (Node.program pos statements close).nodup_keys rfl rfl
        rfl (hStatements levels (by omega))
    rw [Node.value, Node.kind, Node.fieldsReader]
    intro access hAllows
    exact map_eq_ok_iff.mpr ⟨_, hProgram access hAllows, rfl⟩
  nil := by
    intro levels _
    rw [Node.values]
    exact List.Forall₂.nil
  cons node nodes hNode hNodes := by
    intro levels hLevels
    exact Node.forall₂_reads_cons (hNode levels)
      (hNodes levels) hLevels

------------------------------------------------------------
-- Small Numbers
------------------------------------------------------------

theorem Position.small_value
    (position : Position) :
    position.value.Small := by
  have hLine := position.line.toNat_lt
  have hColumn := position.column.toNat_lt
  simp only [Position.value, Value.Small, Json.SmallMembers,
    Json.Scaled.limit, and_true]
  omega

theorem Call.small_members
    (call : Call) :
    Json.SmallMembers call.members := by
  simp [Call.members, Json.SmallMembers, Value.Small,
    call.pos.small_value, Json.small_texts]

/- A tree has no numbers but those of its positions. -/
theorem nodeInduction_small :
    NodeInduction
      (fun node => Json.SmallMembers node.members)
      (fun nodes => Json.SmallItems (Node.values nodes)) where
  print pos value := by
    simp [Node.members, Json.SmallMembers, Value.Small,
      pos.small_value]
  declaration pos name value hValue := by
    cases value with
    | text text =>
        simp [Node.members, Initializer.value,
          Json.SmallMembers, Value.Small, pos.small_value]
    | node node =>
        simp [Node.members, Initializer.value,
          Json.SmallMembers, Value.Small, pos.small_value,
          hValue node rfl]
  assignment pos name initial operations := by
    simp [Node.members, Json.SmallMembers, Value.Small,
      pos.small_value, Json.small_texts]
  conditional pos predicate thenBody elseBody elsePos close
      hThen hElse := by
    cases elsePos with
    | none =>
        simp [Node.members, Json.SmallMembers, Value.Small,
          Json.orNull, pos.small_value, close.small_value,
          hThen, hElse]
    | some elsePos =>
        simp [Node.members, Json.SmallMembers, Value.Small,
          Json.orNull, elseValue, pos.small_value,
          close.small_value, elsePos.small_value, hThen, hElse]
  loop pos predicate body close hBody := by
    simp [Node.members, Json.SmallMembers, Value.Small,
      pos.small_value, close.small_value, hBody]
  function pos name parameters body hBody := by
    simp [Node.members, Json.SmallMembers, Value.Small,
      pos.small_value, Json.small_texts, hBody]
  call made := by
    simp [Node.members, made.small_members]
  result pos value := by
    simp [Node.members, Json.SmallMembers, Value.Small,
      pos.small_value]
  boolean pos value := by
    simp [Node.members, Json.SmallMembers, Value.Small,
      pos.small_value]
  callAssignment pos name made := by
    simp [Node.members, Json.SmallMembers, Value.Small,
      pos.small_value, made.small_members]
  program pos statements close hStatements := by
    simp [Node.members, Json.SmallMembers, Value.Small,
      pos.small_value, close.small_value, hStatements]
  nil := by
    simp [Node.values, Json.SmallItems]
  cons node nodes hNode hNodes := by
    simp [Node.values, Json.SmallItems, Json.SmallMembers,
      Value.Small, hNode, hNodes]

------------------------------------------------------------
-- Documents
------------------------------------------------------------

namespace Document

theorem small_value
    (document : Document) :
    document.value.Small := by
  have hProgram :=
    nodeInduction_small.node document.program.node
  rcases document with ⟨source, _ | sourceText, program⟩
  · simp [value, Program.value, Json.memberIfSome, Value.Small,
      Json.SmallMembers, hProgram]
  · simp [value, Program.value, Json.memberIfSome, Value.Small,
      Json.SmallMembers, hProgram]

/- The statements of a document lie within its nesting. -/
theorem statements_nesting_le
    (document : Document) :
    Value.itemsNesting
        (Node.values document.program.statements) ≤
      document.value.nesting := by
  rcases document with ⟨source, _ | sourceText, program⟩
  · simp only [value, Program.value, Program.node, Node.members,
      Json.memberIfSome, Value.nesting, Value.membersNesting,
      List.cons_append, List.nil_append]
    omega
  · simp only [value, Program.value, Program.node, Node.members,
      Json.memberIfSome, Value.nesting, Value.membersNesting,
      List.cons_append, List.nil_append]
    omega

/- A document is read from its value. -/
theorem reads_value
    (document : Document)
    (hNesting : document.value.nesting ≤ Json.nestingLimit) :
    reader.Reads document.value document := by
  have hStatements :=
    nodeInduction_reads.block document.program.statements
      Json.nestingLimit
      (le_trans document.statements_nesting_le hNesting)
  have hProgram :
      Program.reader.Reads document.program.value
        document.program := by
    apply document.program.reads_members _ rfl rfl rfl
      hStatements
    simp [Program.node, Node.members]
  rcases document with ⟨source, sourceText, program⟩
  have hKeys :
      ((("source", Value.string source)
        :: Json.memberIfSome "sourceText" .string sourceText
        ++ [("program", program.value)]).map Prod.fst).Nodup := by
    cases sourceText <;> simp [Json.memberIfSome]
  apply Reader.reads_record hKeys
  intro inner hInner
  refine seq_done (seq_done (map_done ?_) ?_) ?_
  · exact required_ofMembers hInner rfl
      (Reader.reads_text source)
  · exact optional_ofMembers hInner
      (by cases sourceText <;> rfl) Reader.reads_text nofun
  · exact required_ofMembers hInner
      (by cases sourceText <;> rfl) hProgram

/- Reading the text of a document gives the document. -/
theorem parse_write
    {document : Document}
    (hNesting : document.value.nesting ≤ Json.nestingLimit) :
    parse document.write = .ok document := by
  rw [parse, write, Json.read_write reader document.small_value]
  exact document.reads_value hNesting _ hNesting

end Document

end TracedScript
