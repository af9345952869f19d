import TracedScript.Proofs.DocumentText
import TracedScript.Proofs.JsonNesting

/-
  Documents that were read can be written and read again.

  A reader makes no value that nests deeper than the text: a
  list that is left out is written as an empty array, and for
  that there is room, since each record with such a list has a
  position, which is a container as well.

  Main declarations:
    * `Node.fits_readerTo`: nodes are written in the room they
      were read from.
    * `Document.nesting_le_of_parse`
    * `Document.parse_write_iff_nesting_le`
-/

------------------------------------------------------------
-- Positions and Calls
------------------------------------------------------------

namespace TracedScript

open Json (Value Reader)
open Json.Outcome (map_eq_done_iff seq_eq_done_iff)
open Json.Entry (required_le_room defaulted_le_room)

theorem Position.nesting_value
    (position : Position) :
    position.value.nesting = 1 := by
  simp [value, Value.nesting, Value.membersNesting]

theorem Position.fits_reader :
    Position.reader.Fits Position.value := by
  apply Reader.fits_record
  intro entry position _
  rw [nesting_value]
  exact Nat.le_add_left 1 _

theorem fits_elseReader : elseReader.Fits elseValue := by
  apply Reader.fits_record
  intro entry pos hFields
  have hPos := required_le_room Position.fits_reader hFields
  simp only [elseValue, Value.nesting, Value.membersNesting]
  omega

/-
  A list that may be left out fits beside a position: where a
  position was read, there is room for an empty array.
-/
theorem list_le_room
    {α : Type}
    {item : Reader α}
    {write : α → Value}
    {entry : Json.Entry}
    {key : String}
    {pos : Position}
    {results : List α}
    (hItem : item.Fits write)
    (hPos : entry.required "pos" Position.reader = .done pos)
    (hList :
      entry.defaulted key (.list item) [] = .done results) :
    (Value.array (results.map write)).nesting ≤ entry.room := by
  have hRoom := required_le_room Position.fits_reader hPos
  rw [Position.nesting_value] at hRoom
  have hNil :
      (Value.array (([] : List α).map write)).nesting ≤
        entry.room := by
    simpa [Value.nesting, Value.itemsNesting] using hRoom
  have hFits := Reader.fits_list hItem
  exact (defaulted_le_room hFits hNil hList :)

theorem Call.fits_reader :
    Call.reader.Fits (fun call => .object call.members) := by
  apply Reader.fits_record
  intro entry call hFields
  simp only [seq_eq_done_iff, map_eq_done_iff] at hFields
  rcases hFields with
    ⟨_, arguments, ⟨_, name, ⟨pos, hPos, rfl⟩, _, rfl⟩,
      hArguments, rfl⟩
  have hPosRoom := required_le_room Position.fits_reader hPos
  have hTexts := list_le_room Reader.fits_text hPos hArguments
  rw [← Json.texts] at hTexts
  simp only [Call.members, Value.nesting, Value.membersNesting]
  omega

------------------------------------------------------------
-- Nodes
------------------------------------------------------------

theorem Node.values_eq_map
    (nodes : List Node) :
    Node.values nodes = nodes.map Node.value := by
  induction nodes with
  | nil => rw [values, List.map_nil]
  | cons node nodes ih => rw [values, List.map_cons, ih, value]

section Fields

variable {node : Reader Node}

theorem Node.block_le_room
    {entry : Json.Entry}
    {key : String}
    {pos : Position}
    {nodes : List Node}
    (hNode : node.Fits Node.value)
    (hPos : entry.required "pos" Position.reader = .done pos)
    (hBlock :
      entry.defaulted key (.list node) [] = .done nodes) :
    Value.itemsNesting (Node.values nodes) + 1 ≤ entry.room := by
  have hList := list_le_room hNode hPos hBlock
  rw [Value.nesting, ← Node.values_eq_map] at hList
  exact hList

theorem Initializer.fits_reader
    (hNode : node.Fits Node.value) :
    (Initializer.reader node).Fits Initializer.value := by
  intro access draft value hRead
  unfold Initializer.reader at hRead
  split at hRead
  · cases hRead
    simp [Initializer.value, Value.nesting]
  · split at hRead
    · next inner hInner =>
        cases hRead
        rw [Initializer.value, ← Node.value]
        exact hNode access _ inner hInner
    · cases hRead

theorem Program.fits_readerWith
    (hNode : node.Fits Node.value) :
    (Program.readerWith node).Fits Program.value := by
  apply Reader.fits_record
  intro entry program hFields
  simp only [seq_eq_done_iff, map_eq_done_iff] at hFields
  rcases hFields with
    ⟨_, close, ⟨_, statements, ⟨pos, hPos, rfl⟩, hStatements,
      rfl⟩, hClose, rfl⟩
  have hPosRoom := required_le_room Position.fits_reader hPos
  have hCloseRoom :=
    required_le_room Position.fits_reader hClose
  have hBlock := Node.block_le_room hNode hPos hStatements
  simp only [Program.value, Program.node, Node.members,
    Value.nesting, Value.membersNesting]
  omega

/- A node with a position and a value that is no container fits. -/
theorem Node.fits_plain
    {α : Type}
    {layout : Json.Layout}
    {value : Reader α}
    {make : Position → α → Node}
    (hMake :
      ∀ pos a,
        Value.membersNesting (make pos a).members =
          pos.value.nesting) :
    (Reader.record layout fun entry =>
      make
        <$> entry.required "pos" Position.reader
        <*> entry.required "value" value).Fits Node.value := by
  apply Reader.fits_record
  intro entry result hFields
  simp only [seq_eq_done_iff, map_eq_done_iff] at hFields
  rcases hFields with ⟨_, a, ⟨pos, hPos, rfl⟩, _, rfl⟩
  have hPosRoom := required_le_room Position.fits_reader hPos
  rw [nesting_value, hMake]
  omega

/- The fields of each kind fit if the nodes in them do. -/
theorem Node.fits_fieldsReader
    (hNode : node.Fits Node.value)
    (kind : Kind) :
    (Node.fieldsReader node kind).Fits Node.value := by
  cases kind with
  | print =>
      rw [fieldsReader]
      apply fits_plain
      intro pos value
      simp [members, Value.membersNesting, Value.nesting]
  | declaration =>
      rw [fieldsReader]
      apply Reader.fits_record
      intro entry result hFields
      simp only [seq_eq_done_iff, map_eq_done_iff] at hFields
      rcases hFields with
        ⟨_, value, ⟨_, name, ⟨pos, hPos, rfl⟩, _, rfl⟩, hValue,
          rfl⟩
      have hPosRoom :=
        required_le_room Position.fits_reader hPos
      have hValueRoom :=
        required_le_room (Initializer.fits_reader hNode) hValue
      simp only [nesting_value, members, Value.nesting,
        Value.membersNesting]
      omega
  | assignment =>
      rw [fieldsReader]
      apply Reader.fits_record
      intro entry result hFields
      simp only [seq_eq_done_iff, map_eq_done_iff] at hFields
      rcases hFields with
        ⟨_, operations, ⟨_, initial, ⟨_, name, ⟨pos, hPos, rfl⟩,
          _, rfl⟩, _, rfl⟩, hOperations, rfl⟩
      have hPosRoom :=
        required_le_room Position.fits_reader hPos
      have hTexts :=
        list_le_room Reader.fits_text hPos hOperations
      rw [← Json.texts] at hTexts
      simp only [nesting_value, members, Value.nesting,
        Value.membersNesting]
      omega
  | conditional =>
      rw [fieldsReader]
      apply Reader.fits_record
      intro entry result hFields
      simp only [seq_eq_done_iff, map_eq_done_iff] at hFields
      rcases hFields with
        ⟨_, close, ⟨_, elsePos, ⟨_, elseBody, ⟨_, thenBody, ⟨_,
          predicate, ⟨pos, hPos, rfl⟩, _, rfl⟩, hThen, rfl⟩,
          hElse, rfl⟩, hElsePos, rfl⟩, hClose, rfl⟩
      have hPosRoom :=
        required_le_room Position.fits_reader hPos
      have hThenRoom := block_le_room hNode hPos hThen
      have hElseRoom := block_le_room hNode hPos hElse
      have hElsePosRoom :=
        defaulted_le_room (Reader.fits_optional fits_elseReader)
          (by simp [Json.orNull, Value.nesting]) hElsePos
      have hCloseRoom :=
        required_le_room Position.fits_reader hClose
      simp only [nesting_value, members, Value.nesting,
        Value.membersNesting]
      omega
  | loop =>
      rw [fieldsReader]
      apply Reader.fits_record
      intro entry result hFields
      simp only [seq_eq_done_iff, map_eq_done_iff] at hFields
      rcases hFields with
        ⟨_, close, ⟨_, body, ⟨_, predicate, ⟨pos, hPos, rfl⟩, _,
          rfl⟩, hBody, rfl⟩, hClose, rfl⟩
      have hPosRoom :=
        required_le_room Position.fits_reader hPos
      have hBodyRoom := block_le_room hNode hPos hBody
      have hCloseRoom :=
        required_le_room Position.fits_reader hClose
      simp only [nesting_value, members, Value.nesting,
        Value.membersNesting]
      omega
  | function =>
      rw [fieldsReader]
      apply Reader.fits_record
      intro entry result hFields
      simp only [seq_eq_done_iff, map_eq_done_iff] at hFields
      rcases hFields with
        ⟨_, body, ⟨_, parameters, ⟨_, name, ⟨pos, hPos, rfl⟩, _,
          rfl⟩, hParameters, rfl⟩, hBody, rfl⟩
      have hPosRoom :=
        required_le_room Position.fits_reader hPos
      have hTexts :=
        list_le_room Reader.fits_text hPos hParameters
      have hBodyRoom := block_le_room hNode hPos hBody
      rw [← Json.texts] at hTexts
      simp only [nesting_value, members, Value.nesting,
        Value.membersNesting]
      omega
  | call =>
      intro access draft result hRead
      rcases map_eq_ok_iff.mp hRead with ⟨made, hMade, rfl⟩
      have hCall := Call.fits_reader access draft made hMade
      rw [Value.nesting] at hCall
      rw [nesting_value, members]
      exact hCall
  | result =>
      rw [fieldsReader]
      apply fits_plain
      intro pos value
      simp [members, Value.membersNesting, Value.nesting]
  | boolean =>
      rw [fieldsReader]
      apply fits_plain
      intro pos value
      simp [members, Value.membersNesting, Value.nesting]
  | callAssignment =>
      rw [fieldsReader]
      apply Reader.fits_record
      intro entry result hFields
      simp only [seq_eq_done_iff, map_eq_done_iff] at hFields
      rcases hFields with
        ⟨_, made, ⟨_, name, ⟨pos, hPos, rfl⟩, _, rfl⟩, hMade,
          rfl⟩
      have hPosRoom :=
        required_le_room Position.fits_reader hPos
      have hMadeRoom := required_le_room Call.fits_reader hMade
      simp only [nesting_value, members, Value.nesting,
        Value.membersNesting] at hMadeRoom ⊢
      omega
  | program =>
      intro access draft result hRead
      rcases map_eq_ok_iff.mp hRead with ⟨program, hProgram, rfl⟩
      have hRoom :=
        Program.fits_readerWith hNode access draft program
          hProgram
      rw [Program.value, Value.nesting] at hRoom
      rw [nesting_value]
      exact hRoom

end Fields

/-
  Nodes of any number of levels are written in the room they
  were read from.
-/
theorem Node.fits_readerTo
    (levels : Nat) :
    (Node.readerTo levels).Fits Node.value := by
  induction levels with
  | zero =>
      intro access draft result hRead
      cases hRead
  | succ levels ih =>
      exact Reader.fits_tagged "Node" "kind"
        (Node.fits_fieldsReader ih)

------------------------------------------------------------
-- Documents
------------------------------------------------------------

namespace Document

theorem fits_reader :
    Document.reader.Fits Document.value := by
  apply Reader.fits_record
  intro entry document hFields
  simp only [seq_eq_done_iff, map_eq_done_iff] at hFields
  rcases hFields with
    ⟨_, program, ⟨_, sourceText, ⟨source, _, rfl⟩, _, rfl⟩,
      hProgram, rfl⟩
  have hRoom :=
    required_le_room
      (Program.fits_readerWith
        (Node.fits_readerTo Json.nestingLimit)) hProgram
  cases sourceText with
  | none =>
      simp only [value, Json.memberIfSome, Value.nesting,
        Value.membersNesting, List.cons_append, List.nil_append]
      omega
  | some text =>
      simp only [value, Json.memberIfSome, Value.nesting,
        Value.membersNesting, List.cons_append, List.nil_append]
      omega

/- What was read from a text nests no deeper than a text may. -/
theorem nesting_le_of_parse
    {text : String}
    {document : Document}
    (hParse : parse text = .ok document) :
    document.value.nesting ≤ Json.nestingLimit := by
  rcases bind_eq_ok_iff.mp hParse with
    ⟨found, hFound, hComplete⟩
  have hRoom := fits_reader _ _ found hFound
  split at hComplete
  · cases hComplete
    exact hRoom
  · cases hComplete

/-
  Exactly the documents within the limit on nesting are read
  back from their text. Whatever was read from some text is
  such a document: it is read back from its own text, and
  writing it once more changes nothing.
-/
theorem parse_write_iff_nesting_le :
    (∀ document : Document,
      parse document.write = .ok document ↔
        document.value.nesting ≤ Json.nestingLimit)
      ∧ (∀ (text : String) (document : Document),
        parse text = .ok document →
          document.value.nesting ≤ Json.nestingLimit
            ∧ parse document.write = .ok document)
      ∧ ∀ text again : String,
        write <$> parse text = .ok again →
          write <$> parse again = .ok again := by
  have hAgain :
      ∀ (text : String) (document : Document),
        parse text = .ok document →
          parse document.write = .ok document := by
    intro text document hParse
    exact parse_write (nesting_le_of_parse hParse)
  refine ⟨?_, ?_, ?_⟩
  · intro document
    exact ⟨nesting_le_of_parse, parse_write⟩
  · intro text document hParse
    exact ⟨nesting_le_of_parse hParse, hAgain text document hParse⟩
  · intro text again hText
    rcases map_eq_ok_iff.mp hText with ⟨document, hParse, rfl⟩
    exact map_eq_ok_iff.mpr
      ⟨document, hAgain text document hParse, rfl⟩

/-
  A document given by arrays of its fields, with a node whose
  kind is given by its number: it is read back from its own
  text, which has an object for each record.
-/
theorem parse_write_iff_nesting_le_listed :
    ∃ document : Document,
      parse
          ("[\"a\\u000ab\",null,[[1,0],[[\"intDeclaration\","
            ++ "[1,2],\"x\",[8,[1,6],true]]],[2,0]]]") =
        .ok document
        ∧ document.value.nesting = 6
        ∧ parse document.write = .ok document := by
  have hParse :
      parse
          ("[\"a\\u000ab\",null,[[1,0],[[\"intDeclaration\","
            ++ "[1,2],\"x\",[8,[1,6],true]]],[2,0]]]") =
        .ok ⟨"a\nb", none, ⟨1, 0⟩,
          [.declaration ⟨1, 2⟩ "x" (.node (.boolean ⟨1, 6⟩ true))],
          ⟨2, 0⟩⟩ := by
    cbv
  exact
    ⟨_, hParse, by cbv,
      (parse_write_iff_nesting_le.2.1 _ _ hParse).2⟩

end Document

end TracedScript
