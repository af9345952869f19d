import TracedScript.Proofs.Indentation

/-
  Every record points at the construct that it names.

  Key definitions include:
    * `Boundary`: a source position and the text of what
      begins there.
    * `Node.boundaries`: the boundaries of a node in the order
      of the source.
    * `Record.StandsFor`: a record stands for a boundary.

  Main declarations:
    * `nodeInduction_announces`
    * `Announces.records_standFor`
    * `render_records_boundaries`
-/

------------------------------------------------------------
-- Boundaries
------------------------------------------------------------

namespace TracedScript

/- A source position and the text of what begins there. -/
structure Boundary where
  position : Position
  text : String
deriving DecidableEq, Repr

def Call.boundary (call : Call) : Boundary where
  position := call.pos
  text :=
    call.name ++ "(" ++ String.intercalate ", " call.arguments ++ ");\n"

/- Only a truth value begins a construct of its own. -/
def Initializer.boundaries : Initializer → List Boundary
  | .text _ => []
  | .node (.boolean pos value) => [⟨pos, booleanText value⟩]
  | .node _ => []

/- The boundary of an `else`, and those of its block. -/
def elseBoundaries
    (elsePos : Option Position)
    (block : List Boundary) :
    List Boundary :=
  match elsePos with
  | none => []
  | some pos => ⟨pos, "\x7d else \x7b\n"⟩ :: block

mutual

/- The boundaries of a node, in the order of the source. -/
def Node.boundaries : Node → List Boundary
  | .print pos value =>
      [⟨pos, "console.log( " ++ value ++ " );\n"⟩]
  | .declaration pos name value =>
      ⟨pos, "var " ++ name ++ " = "⟩ :: value.boundaries
  | .assignment pos name initial operations =>
      [⟨pos,
        "var " ++ name ++ " = ("
          ++ foldOperations initial operations ++ ");\n"⟩]
  | .conditional pos predicate thenBody elseBody elsePos close =>
      ⟨pos, "if (" ++ predicate ++ ") \x7b\n"⟩
        :: (blockBoundaries thenBody
          ++ ((if elseBody.isEmpty then []
              else
                elseBoundaries elsePos
                  (blockBoundaries elseBody))
            ++ [⟨close, "\x7d\n"⟩]))
  | .loop pos predicate body close =>
      ⟨pos, "while (" ++ predicate ++ ") \x7b\n"⟩
        :: (blockBoundaries body ++ [⟨close, "\x7d\n"⟩])
  | .function pos name parameters body =>
      ⟨pos,
        "function " ++ name ++ " ("
          ++ String.intercalate ", " parameters ++ ") \x7b\n"⟩
        :: blockBoundaries body
  | .call made => [made.boundary]
  | .result pos value => [⟨pos, "return " ++ value ++ ";\n"⟩]
  | .boolean pos value => [⟨pos, booleanText value⟩]
  | .callAssignment pos name made =>
      [⟨pos, "var " ++ name ++ " = "⟩, made.boundary]
  | .program pos statements close =>
      ⟨pos, "(function() \x7b\n"⟩
        :: (blockBoundaries statements
          ++ [⟨close, "\x7d());\n"⟩])

/- The boundaries of the statements of a block. -/
def blockBoundaries : List Node → List Boundary
  | [] => []
  | node :: nodes => node.boundaries ++ blockBoundaries nodes

end

/-
  A record stands for a boundary: it carries the position of
  the boundary and the file, and the place that it has, in
  words, is that of a point where the code reads on with the
  text of the boundary. In a short code it is the place of no
  other point, so that the text is found by line and column.
-/
structure Record.StandsFor
    (file : FileId)
    (code : String)
    (record : Record)
    (boundary : Boundary) : Prop where
  position : record.tag.position = boundary.position
  file : record.tag.file = file
  point :
    ∃ before rest,
      code = before ++ boundary.text ++ rest
        ∧ record.place = Cursor.start.advance before
  text :
    Text.Short code →
      ∃ rest,
        record.place.toPlace.read? code =
          some (boundary.text ++ rest)

------------------------------------------------------------
-- Announced Boundaries
------------------------------------------------------------

open Fragment (Piece Mark marksFrom codeOf)

/- A mark with the tag of a boundary, before its text. -/
structure MarksBoundary
    (file : FileId)
    (mark : Mark)
    (boundary : Boundary) : Prop where
  tag : mark.tag = ⟨boundary.position, file⟩
  text : ∃ rest, mark.after = boundary.text ++ rest

theorem MarksBoundary.extend
    {file : FileId}
    {mark : Mark}
    {boundary : Boundary}
    (hMark : MarksBoundary file mark boundary)
    (text : String) :
    MarksBoundary file (mark.extend text) boundary := by
  rcases hMark.text with ⟨rest, hRest⟩
  refine ⟨hMark.tag, rest ++ text, ?_⟩
  simp [Mark.extend, hRest, String.append_assoc]

/- The tags of some pieces announce the boundaries, one by one. -/
def Announces
    (file : FileId)
    (pieces : List Piece)
    (boundaries : List Boundary) : Prop :=
  ∀ before,
    List.Forall₂ (MarksBoundary file)
      (marksFrom before pieces) boundaries

namespace Announces

variable {file : FileId}
variable {pieces more : List Piece}
variable {boundaries others : List Boundary}

theorem nil : Announces file [] [] :=
  fun _ => List.Forall₂.nil

theorem text
    (text : String)
    (hPieces : Announces file pieces boundaries) :
    Announces file (.text text :: pieces) boundaries :=
  fun before => hPieces (before ++ text)

/- What follows some pieces leaves their announcements alone. -/
theorem append
    (hPieces : Announces file pieces boundaries)
    (hMore : Announces file more others) :
    Announces file (pieces ++ more) (boundaries ++ others) := by
  intro before
  rw [Fragment.marksFrom_append]
  apply List.rel_append
  · rw [List.forall₂_map_left_iff]
    exact (hPieces before).imp
      fun _ _ hMark => hMark.extend (codeOf more)
  · exact hMore (before ++ codeOf pieces)

theorem marked
    (pos : Position)
    (file : FileId)
    (text : String) :
    Announces file (marked pos file text) [⟨pos, text⟩] := by
  intro before
  refine List.Forall₂.cons ?_ List.Forall₂.nil
  exact ⟨rfl, "", rfl⟩

end Announces

theorem Initializer.announces_layout
    (file : FileId)
    (value : Initializer) :
    Announces file (value.layout file) value.boundaries := by
  cases value with
  | text value => exact Announces.nil.text value
  | node node =>
      cases node with
      | boolean pos value =>
          exact Announces.marked pos file (booleanText value)
      | _ => exact Announces.nil

theorem announces_elseLayout
    {file : FileId}
    {block : List Piece}
    {boundaries : List Boundary}
    (indent : UInt32)
    (elsePos : Option Position)
    (hBlock : Announces file block boundaries) :
    Announces file (elseLayout file indent elsePos block)
      (elseBoundaries elsePos boundaries) := by
  cases elsePos with
  | none => exact Announces.nil
  | some pos =>
      exact
        ((Announces.marked pos file _).append hBlock).text
          (indentText indent)

/-
  The layout of a node announces its boundaries, whatever the
  indentation. The blanks are texts without a tag, so a tag
  stands after them and right before its own text.
-/
theorem nodeInduction_announces
    (file : FileId) :
    NodeInduction
      (fun node => ∀ indent,
        Announces file (node.layout file indent) node.boundaries)
      (fun nodes => ∀ indent,
        Announces file (blockLayout file indent nodes)
          (blockBoundaries nodes)) where
  print pos value indent := by
    rw [Node.layout, Node.boundaries]
    exact Announces.marked pos file _
  declaration pos name value _ indent := by
    rw [Node.layout, Node.boundaries]
    have hValue :
        Announces file (value.layout file ++ [.text ";\n"])
          (value.boundaries ++ []) :=
      (value.announces_layout file).append
        (Announces.nil.text ";\n")
    rw [List.append_nil] at hValue
    exact (Announces.marked pos file _).append hValue
  assignment pos name initial operations indent := by
    rw [Node.layout, Node.boundaries]
    exact (Announces.marked pos file _).append
      ((((Announces.nil.text _).text _).text _).text _)
  conditional pos predicate thenBody elseBody elsePos close
      hThen hElse indent := by
    rw [Node.layout, Node.boundaries]
    have hClose :
        Announces file
          (.text (indentText indent)
            :: marked close file "\x7d\n")
          [⟨close, "\x7d\n"⟩] :=
      (Announces.marked close file _).text (indentText indent)
    refine (Announces.marked pos file _).append ?_
    refine (hThen (indent + 1)).append ?_
    split
    · exact hClose
    · exact
        (announces_elseLayout indent elsePos
          (hElse (indent + 1))).append hClose
  loop pos predicate body close hBody indent := by
    rw [Node.layout, Node.boundaries]
    refine (Announces.marked pos file _).append ?_
    refine (hBody (indent + 1)).append ?_
    exact (Announces.marked close file _).text
      (indentText indent)
  function pos name parameters body hBody indent := by
    rw [Node.layout, Node.boundaries]
    refine (Announces.marked pos file _).append ?_
    rw [← List.append_nil (blockBoundaries body)]
    refine (hBody (indent + 1)).append ?_
    exact (Announces.nil.text _).text (indentText indent)
  call made indent := by
    rw [Node.layout, Node.boundaries]
    exact Announces.marked made.pos file _
  result pos value indent := by
    rw [Node.layout, Node.boundaries]
    exact Announces.marked pos file _
  boolean pos value indent := by
    rw [Node.layout, Node.boundaries]
    exact Announces.marked pos file _
  callAssignment pos name made indent := by
    rw [Node.layout, Node.boundaries]
    exact (Announces.marked pos file _).append
      (Announces.marked made.pos file _)
  program pos statements close hStatements indent := by
    rw [Node.layout, Node.boundaries]
    refine (Announces.marked pos file _).append ?_
    refine (hStatements (indent + 1)).append ?_
    exact (Announces.marked close file _).text
      (indentText indent)
  nil indent := by
    rw [blockLayout, blockBoundaries]
    exact Announces.nil
  cons node nodes hNode hNodes indent := by
    rw [blockLayout, blockBoundaries]
    have hStatement :=
      (hNode indent).append (hNodes indent)
    unfold indentation
    split
    · exact hStatement
    · exact hStatement.text (indentText indent)

------------------------------------------------------------
-- Records
------------------------------------------------------------

/-
  Announced boundaries are those that the records of a
  fragment stand for.
-/
theorem Announces.records_standFor
    {file : FileId}
    {fragment : Fragment}
    {boundaries : List Boundary}
    (hAnnounces : Announces file fragment.pieces boundaries) :
    List.Forall₂ (Record.StandsFor file fragment.code)
      fragment.records boundaries := by
  refine Fragment.forall₂_records (hAnnounces "") ?_
  intro mark hMark boundary hBoundary
  rcases hBoundary.text with ⟨rest, hRest⟩
  constructor
  case position => exact congrArg Tag.position hBoundary.tag
  case file => exact congrArg Tag.file hBoundary.tag
  case point =>
    refine ⟨mark.before, rest, ?_, rfl⟩
    rw [Fragment.code_eq_before_append_after hMark, hRest,
      String.append_assoc]
  case text =>
    intro hShort
    refine ⟨rest, ?_⟩
    rw [Fragment.read?_record hShort hMark, hRest]

/- The records of a node that has code, by its boundaries. -/
theorem Node.records_standFor
    {file : FileId}
    {indent : UInt32}
    {node : Node}
    {fragment : Fragment}
    (hCompile : node.compile file indent = .ok fragment) :
    List.Forall₂ (Record.StandsFor file fragment.code)
      fragment.records node.boundaries := by
  apply Announces.records_standFor
  rw [(node.yields_compile file indent).view_eq hCompile]
  exact (nodeInduction_announces file).node node indent

/- A truth value in a block that stands after an `else`. -/
def elseSample : Node :=
  .conditional ⟨1, 0⟩ "x < 3" []
    [.declaration ⟨2, 4⟩ "y" (.node (.boolean ⟨2, 12⟩ true)),
      .callAssignment ⟨3, 4⟩ "z" ⟨⟨3, 8⟩, "f", ["x", "y"]⟩]
    (some ⟨1, 9⟩) ⟨4, 0⟩

/- A loop without statements, whose end stands after blanks. -/
def loopAlone : Node :=
  .loop ⟨1, 0⟩ "x" [] ⟨2, 0⟩

theorem render_loopAlone
    {level : UInt32}
    {fragment : Fragment}
    (hCompile : loopAlone.compile ⟨0⟩ level = .ok fragment) :
    fragment.render =
      ⟨"while (x) \x7b\n" ++ (indentText level ++ "\x7d\n"),
        [⟨⟨1, 0⟩, ⟨⟨1, 0⟩, ⟨0⟩⟩⟩,
          ⟨⟨2, 4 * level⟩, ⟨⟨2, 0⟩, ⟨0⟩⟩⟩]⟩ := by
  have hHead :
      Cursor.start.advance "while (x) \x7b\n" = ⟨2, 0⟩ := by
    cbv
  rw [Fragment.render_eq_renderOf,
    (loopAlone.yields_compile ⟨0⟩ level).view_eq hCompile,
    loopAlone, Node.layout, Fragment.renderOf, blockLayout]
  simp only [marked, List.cons_append, List.nil_append, codeOf,
    Fragment.recordsFrom, String.append_empty]
  change
    (⟨"while (x) \x7b\n" ++ (indentText level ++ "\x7d\n"),
      [⟨.start, _⟩,
        ⟨(Cursor.start.advance "while (x) \x7b\n").advance
          (indentText level), _⟩]⟩ : Rendered) = _
  rw [hHead, Cursor.advance_indentText, UInt32.zero_add]
  rfl

end TracedScript
