import TracedScript.Node.Reader
import TracedScript.Proofs.PresentedKinds

/-
  Documents may be written down in many ways.

  In an accepted document the members of any object may come in
  another order, its records may have members that they do not
  know, and each record may be given by the array of its
  fields. The document that is read stays the same.

  Key definitions include:
    * `Kind.fields`: the fields of the nodes of a kind.
    * `Node.family`: nodes as records of several kinds.
    * `Document.shape`

  Main declarations:
    * `Node.respects_readerTo`
    * `Document.parse_of_changes`
-/

------------------------------------------------------------
-- Shapes
------------------------------------------------------------

namespace TracedScript

open Json (Draft Family Member Reader Shape Step)
open Json.Entry (FieldsRespect)

def Position.shape : Shape :=
  .record [("line", .any), ("column", .any)]

def elseShape : Shape :=
  .record [("pos", Position.shape)]

def Call.fields : List (String × Shape) :=
  [("pos", Position.shape), ("name", .any),
    ("arguments", .list .any)]

def Program.fields : List (String × Shape) :=
  [("pos", Position.shape), ("statements", .list .tagged),
    ("end", Position.shape)]

/- The fields of the nodes of a kind, without the kind itself. -/
def Kind.fields : Kind → List (String × Shape)
  | .print => [("pos", Position.shape), ("value", .any)]
  | .declaration =>
      [("pos", Position.shape), ("name", .any),
        ("value", .tagged)]
  | .assignment =>
      [("pos", Position.shape), ("name", .any),
        ("initialValue", .any), ("operations", .list .any)]
  | .conditional =>
      [("pos", Position.shape), ("predicate", .any),
        ("thenStatements", .list .tagged),
        ("elseStatements", .list .tagged),
        ("elseNode", elseShape), ("end", Position.shape)]
  | .loop =>
      [("pos", Position.shape), ("predicate", .any),
        ("body", .list .tagged), ("end", Position.shape)]
  | .function =>
      [("pos", Position.shape), ("name", .any),
        ("parameters", .list .any), ("body", .list .tagged)]
  | .call => Call.fields
  | .result => [("pos", Position.shape), ("value", .any)]
  | .boolean => [("pos", Position.shape), ("value", .any)]
  | .callAssignment =>
      [("pos", Position.shape), ("name", .any),
        ("call", .record Call.fields)]
  | .program => Program.fields

/- Nodes are told apart by their kinds. -/
def Node.family : Family :=
  ⟨"kind", Kind.all.map fun kind => (kind.tag, kind.fields)⟩

def Document.shape : Shape :=
  .record
    [("source", .any), ("sourceText", .any),
      ("program", .record Program.fields)]

------------------------------------------------------------
-- Nodes
------------------------------------------------------------

variable {family : Family} {node : Reader Node}

theorem Position.respects_reader :
    Position.reader.Respects family Position.shape := by
  refine Reader.respects_record (.seq (.map ?_ _) ?_)
  · exact .required rfl Reader.respects_word32
  · exact .required rfl Reader.respects_word32

section Fields

variable {key : String} {fields : List (String × Shape)}

theorem respects_position
    (hField : fields.lookup key = some Position.shape) :
    FieldsRespect family fields fun entry =>
      entry.required key Position.reader :=
  .required hField Position.respects_reader

theorem respects_text
    (hField : fields.lookup key = some .any) :
    FieldsRespect family fields fun entry =>
      entry.required key Reader.text :=
  .required hField Reader.respects_text

theorem respects_texts
    (hField : fields.lookup key = some (.list .any)) :
    FieldsRespect family fields fun entry =>
      entry.defaulted key (.list Reader.text) [] :=
  .defaulted hField (Reader.respects_list Reader.respects_text) []

theorem respects_nodes
    (hNode : node.Respects family .tagged)
    (hField : fields.lookup key = some (.list .tagged)) :
    FieldsRespect family fields fun entry =>
      entry.defaulted key (.list node) [] :=
  .defaulted hField (Reader.respects_list hNode) []

end Fields

theorem respects_elseReader :
    elseReader.Respects family elseShape :=
  Reader.respects_record (respects_position rfl)

theorem Call.respects_reader :
    Call.reader.Respects family (.record Call.fields) := by
  unfold Call.reader
  refine Reader.respects_record (.seq (.seq (.map ?_ _) ?_) ?_)
  · exact respects_position rfl
  · exact respects_text rfl
  · exact respects_texts rfl

theorem Initializer.reader_eq_ok_iff
    {access : Json.Access}
    {value : Draft}
    {result : Initializer}
    (hContainer : value.isContainer = true) :
    Initializer.reader node access value = .ok result ↔
      ∃ found,
        node access value = .ok found
          ∧ Initializer.node found = result := by
  cases value with
  | array items closed =>
      simp only [Initializer.reader]
      cases node access (.array items closed) with
      | ok found => simp
      | error fault => simp
  | object members closed =>
      simp only [Initializer.reader]
      cases node access (.object members closed) with
      | ok found => simp
      | error fault => simp
  | _ => cases hContainer

/- A text has no parts that could be changed. -/
theorem Initializer.respects_reader
    (hNode : node.Respects family .tagged) :
    (Initializer.reader node).Respects family .tagged := by
  intro strict access value other result hStep hRead
  rcases hStep.isContainer with ⟨hValue, hOther⟩
  rw [Initializer.reader_eq_ok_iff hValue] at hRead
  rw [Initializer.reader_eq_ok_iff hOther]
  rcases hRead with ⟨found, hFound, hResult⟩
  exact ⟨found, hNode _ _ _ _ _ hStep hFound, hResult⟩

theorem Program.respects_readerWith
    (hNode : node.Respects family .tagged) :
    (Program.readerWith node).Respects family
      (.record Program.fields) := by
  unfold Program.readerWith
  refine Reader.respects_record (.seq (.seq (.map ?_ _) ?_) ?_)
  · exact respects_position rfl
  · exact respects_nodes hNode rfl
  · exact respects_position rfl

namespace Node

/- The records of all kinds respect changes if their nodes do. -/
theorem respects_fieldsReader
    (hNode : node.Respects family .tagged)
    (kind : Kind) :
    (fieldsReader node kind).Respects family
      (.record kind.fields) := by
  cases kind with
  | print =>
      unfold fieldsReader Kind.fields
      refine Reader.respects_record (.seq (.map ?_ _) ?_)
      · exact respects_position rfl
      · exact respects_text rfl
  | declaration =>
      unfold fieldsReader
      refine Reader.respects_record (.seq (.seq (.map ?_ _) ?_) ?_)
      · exact respects_position rfl
      · exact respects_text rfl
      · exact .required rfl (Initializer.respects_reader hNode)
  | assignment =>
      unfold fieldsReader
      refine
        Reader.respects_record
          (.seq (.seq (.seq (.map ?_ _) ?_) ?_) ?_)
      · exact respects_position rfl
      · exact respects_text rfl
      · exact respects_text rfl
      · exact respects_texts rfl
  | conditional =>
      unfold fieldsReader
      refine
        Reader.respects_record
          (.seq
            (.seq (.seq (.seq (.seq (.map ?_ _) ?_) ?_) ?_) ?_)
            ?_)
      · exact respects_position rfl
      · exact respects_text rfl
      · exact respects_nodes hNode rfl
      · exact respects_nodes hNode rfl
      · exact .optional rfl respects_elseReader
      · exact respects_position rfl
  | loop =>
      unfold fieldsReader
      refine
        Reader.respects_record
          (.seq (.seq (.seq (.map ?_ _) ?_) ?_) ?_)
      · exact respects_position rfl
      · exact respects_text rfl
      · exact respects_nodes hNode rfl
      · exact respects_position rfl
  | function =>
      unfold fieldsReader
      refine
        Reader.respects_record
          (.seq (.seq (.seq (.map ?_ _) ?_) ?_) ?_)
      · exact respects_position rfl
      · exact respects_text rfl
      · exact respects_texts rfl
      · exact respects_nodes hNode rfl
  | call => exact Reader.respects_map Node.call Call.respects_reader
  | result =>
      unfold fieldsReader
      refine Reader.respects_record (.seq (.map ?_ _) ?_)
      · exact respects_position rfl
      · exact respects_text rfl
  | boolean =>
      unfold fieldsReader
      refine Reader.respects_record (.seq (.map ?_ _) ?_)
      · exact respects_position rfl
      · exact .required rfl Reader.respects_boolean
  | callAssignment =>
      unfold fieldsReader
      refine Reader.respects_record (.seq (.seq (.map ?_ _) ?_) ?_)
      · exact respects_position rfl
      · exact respects_text rfl
      · exact .required rfl Call.respects_reader
  | program =>
      exact
        Reader.respects_map Program.node
          (Program.respects_readerWith hNode)

theorem respects_readerTo
    (levels : Nat) :
    (readerTo levels).Respects Node.family .tagged := by
  induction levels with
  | zero =>
      intro strict access value other result hStep hRead
      cases hRead
  | succ levels ih =>
      have hKinds :
          Node.family.kinds =
            kinds.map fun kind => (kind.1, kind.2.fields) := by
        unfold Node.family kinds
        rw [List.map_map]
        rfl
      exact
        Reader.respects_tagged hKinds (respects_fieldsReader ih)

end Node

------------------------------------------------------------
-- Documents
------------------------------------------------------------

/- A reader that respects one change respects all of them. -/
theorem Json.Reader.Respects.changes
    {α : Type}
    {reader : Reader α}
    {shape : Shape}
    (hReader : reader.Respects family shape)
    {strict : Bool}
    {access : Json.Access}
    {value other : Draft}
    {result : α}
    (hChanges :
      Relation.ReflTransGen (Step family strict shape) value
        other)
    (hRead : reader access value = .ok result) :
    reader access other = .ok result := by
  induction hChanges with
  | refl => exact hRead
  | tail _ hStep ih => exact hReader _ _ _ _ _ hStep ih

namespace Document

theorem respects_reader :
    Document.reader.Respects Node.family Document.shape := by
  refine Reader.respects_record (.seq (.seq (.map ?_ _) ?_) ?_)
  · exact .required rfl Reader.respects_text
  · exact .optional rfl Reader.respects_text
  · exact
      .required rfl
        (Program.respects_readerWith
          (Node.respects_readerTo Json.nestingLimit))

/- A text that is one value is read from that value. -/
theorem parse_of_scan
    {text : String}
    {value : Draft}
    (hScan : Json.scan text = .after value []) :
    parse text = reader (.direct Json.nestingLimit) value := by
  unfold parse Json.read
  rw [hScan]
  simp only [Json.State.draft, Json.State.unwind,
    List.foldl_nil, Json.State.isComplete, if_true]
  exact bind_pure _

/-
  If a text is accepted, then so is every text of a value that
  comes from its value by changes: to the order of members, to
  members that are not known and to the form of records. It
  gives the same document.
-/
theorem parse_of_changes
    {text other : String}
    {value : Draft}
    {document : Document}
    (hParse : parse text = .ok document)
    (hChanges :
      Relation.ReflTransGen
        (Step Node.family false Document.shape)
        (Json.scan text).draft value)
    (hOther : Json.scan other = .after value []) :
    parse other = .ok document := by
  rcases bind_eq_ok_iff.mp hParse with ⟨found, hFound, hText⟩
  have hSame : found = document := by
    split at hText
    · cases hText
      rfl
    · cases hText
  rw [parse_of_scan hOther, ← hSame]
  exact respects_reader.changes hChanges hFound

def pairDraft (first second : Nat) : Draft :=
  .array
    [.number (some (.natural first)),
      .number (some (.natural second))] true

/- A document with one statement and the given members before it. -/
def soleDraft
    (members : List Member)
    (statement : Draft) :
    Draft :=
  .object
    (members ++
      [(some "program",
        .array
          [pairDraft 1 0, .array [statement] true,
            pairDraft 2 0] true)]) true

/- A change to the only statement. -/
theorem step_soleDraft
    {members : List Member}
    {statement other : Draft}
    (hStep : Step Node.family false .tagged statement other) :
    Step Node.family false Document.shape
      (soleDraft members statement) (soleDraft members other) := by
  have hItem :
      Step Node.family false (.list .tagged)
        (.array [statement] true) (.array [other] true) :=
    @Step.item _ _ _ [] [] _ _ _ hStep
  exact
    .member
      (@Step.field _ _ Program.fields [pairDraft 1 0]
        [pairDraft 2 0] "statements" (.list .tagged) _ _ _ rfl
        hItem)

/- A statement that prints at a place. -/
def printMembers (pos : Draft) : List Member :=
  [(some "kind", .string (some "print")), (some "pos", pos),
    (some "value", .string (some "x"))]

/-
  The kind of a statement goes to the end, then the statement
  is given by the array of its fields and the members of its
  position are swapped. The document gets a member with a
  number beyond all limits.
-/
theorem changes_print
    (source line column : Member) :
    Relation.ReflTransGen
      (Step Node.family false Document.shape)
      (soleDraft [source]
        (.object (printMembers (.object [line, column] true))
          true))
      (soleDraft [(some "more", .number none), source]
        (.array
          [.string (some "print"), .object [column, line] true,
            .string (some "x")] true)) := by
  have hInserted (statement : Draft) :
      Step Node.family false Document.shape
        (soleDraft [source] statement)
        (soleDraft [(some "more", .number none), source]
          statement) :=
    @Step.inserted _ _ _ [] _ "more" (.number none) _ rfl rfl
      (fun hStrict => Bool.noConfusion hStrict)
  have hMoved (kind pos value : Member) :
      Step Node.family false .tagged
        (.object [kind, pos, value] true)
        (.object [pos, value, kind] true) :=
    .permuted (@List.perm_append_comm _ [kind] [pos, value])
  have hListed (pos value : Draft) :
      Step Node.family false .tagged
        (.object
          [(some "pos", pos), (some "value", value),
            (some "kind", .string (some "print"))] true)
        (.array [.string (some "print"), pos, value] true) :=
    @Step.ofKind _ _ Kind.print.fields _ _ rfl (.listed rfl)
  have hSwapped (value : Draft) :
      Step Node.family false .tagged
        (.array
          [.string (some "print"), .object [line, column] true,
            value] true)
        (.array
          [.string (some "print"), .object [column, line] true,
            value] true) :=
    @Step.ofKind _ _ Kind.print.fields _ _ rfl
      (@Step.field _ _ _ [.string (some "print")] [value] "pos"
        Position.shape _ _ _ rfl (.permuted (.swap _ _ _)))
  exact
    .head (hInserted _)
      (.head (step_soleDraft (hMoved _ _ _))
        (.head (step_soleDraft (hListed _ _))
          (.single (step_soleDraft (hSwapped _)))))

/- A text with one statement that prints. -/
def printText (pos more : String) : String :=
  "\x7b\"source\":\"a\",\"program\":[[1,0],[\x7b\"kind\":\"print\","
    ++ "\"pos\":" ++ pos ++ ",\"value\":\"x\"" ++ more
    ++ "\x7d],[2,0]]\x7d"

theorem parse_of_changes_print :
    parse (printText "\x7b\"line\":1,\"column\":2\x7d" "") =
        .ok ⟨"a", none, ⟨1, 0⟩, [.print ⟨1, 2⟩ "x"], ⟨2, 0⟩⟩
      ∧ parse
          ("\x7b\"more\":1e999,\"source\":\"a\",\"program\":[[1,0],"
            ++ "[[\"print\",\x7b\"column\":2,\"line\":1\x7d,\"x\"]],"
            ++ "[2,0]]\x7d") =
        .ok ⟨"a", none, ⟨1, 0⟩, [.print ⟨1, 2⟩ "x"], ⟨2, 0⟩⟩ := by
  have hText :
      Json.scan (printText "\x7b\"line\":1,\"column\":2\x7d" "") =
        .after
          (soleDraft [(some "source", .string (some "a"))]
            (.object
              (printMembers
                (.object
                  [(some "line", .number (some (.natural 1))),
                    (some "column", .number (some (.natural 2)))]
                  true))
              true)) [] := by
    unfold printText
    cbv
  have hOther :
      Json.scan
          ("\x7b\"more\":1e999,\"source\":\"a\",\"program\":[[1,0],"
            ++ "[[\"print\",\x7b\"column\":2,\"line\":1\x7d,\"x\"]],"
            ++ "[2,0]]\x7d") =
        .after
          (soleDraft
            [(some "more", .number none),
              (some "source", .string (some "a"))]
            (.array
              [.string (some "print"),
                .object
                  [(some "column", .number (some (.natural 2))),
                    (some "line", .number (some (.natural 1)))]
                  true,
                .string (some "x")] true)) [] := by
    cbv
  have hParse := (parse_of_scan hText).trans rfl
  refine ⟨hParse, parse_of_changes hParse ?_ hOther⟩
  rw [hText]
  exact changes_print _ _ _

/-
  A node is set aside before it is read. So it may not get a
  member whose number is beyond all limits or whose text or key
  has half of a surrogate pair, though it does not know the key
  and the value has no parts.
-/
theorem parse_unsound_member :
    (Json.scan (printText "[1,2]" "") =
        .after
          (soleDraft [(some "source", .string (some "a"))]
            (.object (printMembers (pairDraft 1 2)) true)) []
      ∧ parse (printText "[1,2]" "") =
        .ok ⟨"a", none, ⟨1, 0⟩, [.print ⟨1, 2⟩ "x"], ⟨2, 0⟩⟩)
      ∧ ((Node.family.key, .any) :: Kind.print.fields).lookup
          "more" = none
      ∧ ∀ change ∈
          ([(",\"more\":1e999", (some "more", .number none)),
            (",\"more\":\"\\ud800\"", (some "more", .string none)),
            (",\"\\ud800\":null", (none, .null))] :
            List (String × Member)),
        change.2.2.isScalar = true
          ∧ Json.scan (printText "[1,2]" change.1) =
            .after
              (soleDraft [(some "source", .string (some "a"))]
                (.object
                  (printMembers (pairDraft 1 2) ++ [change.2])
                  true)) []
          ∧ parse (printText "[1,2]" change.1) =
            .error .malformed := by
  have hReads {text : String} {value : Draft}
      {result : Except Json.Fault Document}
      (hScan : Json.scan text = .after value [])
      (hResult :
        reader (.direct Json.nestingLimit) value = result) :
      Json.scan text = .after value [] ∧ parse text = result :=
    ⟨hScan, (parse_of_scan hScan).trans hResult⟩
  simp only [List.forall_mem_cons, List.not_mem_nil,
    false_implies, implies_true, and_true]
  refine ⟨?_, rfl, ⟨rfl, ?_⟩, ⟨rfl, ?_⟩, ⟨rfl, ?_⟩⟩
  all_goals
    unfold printText
    exact hReads (by cbv) rfl

end Document

end TracedScript
