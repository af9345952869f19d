import TracedScript.Proofs.Indentation
import TracedScript.Proofs.WellFormed

/-
  Places of statements in the code of a program.

  A statement begins a line of its own, whatever its texts are:
  all that is written before it ends in a line feed, and the
  blanks of its level follow. So the column of its record is
  known from its depth, and no two statements begin in one
  line.

  Key definitions include:
    * `Landmark`: a source position with a record, and the
      level of the line that it begins, if it begins one.
    * `Node.landmarks`: the landmarks of a node in the order of
      the source.
    * `headings`: the records that begin a line.
    * `Spaced`: every tag stands before a text of its own.
    * `Laid`: pieces from one start of a line to another, and
      the landmarks in them.

  Main declarations:
    * `Spaced.pairwise_lt_recordsFrom`
    * `Laid.append`
    * `Laid.opening`
    * `nodeInduction_laid`
    * `render_program_places`
-/

------------------------------------------------------------
-- Landmarks
------------------------------------------------------------

namespace TracedScript

/-
  A position with a record. It has a level if its record is
  the first thing in a line: the line of a statement, of an
  `else` or of an end.
-/
structure Landmark where
  position : Position
  level : Option Nat
deriving DecidableEq, Repr

/- A truth value stands within the line of its declaration. -/
def Initializer.landmarks : Initializer → List Landmark
  | .text _ => []
  | .node (.boolean pos _) => [⟨pos, none⟩]
  | .node _ => []

/- The landmark of an `else`, and those of its block. -/
def elseLandmarks
    (level : Nat)
    (elsePos : Option Position)
    (block : List Landmark) :
    List Landmark :=
  match elsePos with
  | none => []
  | some pos => ⟨pos, some level⟩ :: block

mutual

/-
  The landmarks of a node at a level. The statements in a
  block are one level deeper than the lines around it.
-/
def Node.landmarks (level : Nat) : Node → List Landmark
  | .print pos _ => [⟨pos, some level⟩]
  | .declaration pos _ value =>
      ⟨pos, some level⟩ :: value.landmarks
  | .assignment pos .. => [⟨pos, some level⟩]
  | .conditional pos _ thenBody elseBody elsePos close =>
      ⟨pos, some level⟩
        :: (blockLandmarks (level + 1) thenBody
          ++ ((if elseBody.isEmpty then []
              else
                elseLandmarks level elsePos
                  (blockLandmarks (level + 1) elseBody))
            ++ [⟨close, some level⟩]))
  | .loop pos _ body close =>
      ⟨pos, some level⟩
        :: (blockLandmarks (level + 1) body
          ++ [⟨close, some level⟩])
  | .function pos _ _ body =>
      ⟨pos, some level⟩ :: blockLandmarks (level + 1) body
  | .call made => [⟨made.pos, some level⟩]
  | .result pos _ => [⟨pos, some level⟩]
  | .boolean pos _ => [⟨pos, none⟩]
  | .callAssignment pos _ made =>
      [⟨pos, some level⟩, ⟨made.pos, none⟩]
  | .program pos statements close =>
      ⟨pos, some level⟩
        :: (blockLandmarks (level + 1) statements
          ++ [⟨close, some level⟩])

/- The landmarks of the statements of a block. -/
def blockLandmarks (level : Nat) : List Node → List Landmark
  | [] => []
  | node :: nodes =>
      node.landmarks level ++ blockLandmarks level nodes

end

open Fragment (Piece Spot codeOf spotsFrom)

/-
  A spot is at a landmark. Every level of a landmark is four
  columns wide.
-/
structure SpotAt
    (file : FileId)
    (spot : Spot)
    (landmark : Landmark) : Prop where
  tag : spot.tag = ⟨landmark.position, file⟩
  column :
    ∀ level, landmark.level = some level →
      spot.place.column = 4 * level

/- A record points at a landmark. -/
structure Record.PointsAt
    (file : FileId)
    (record : Record)
    (landmark : Landmark) : Prop where
  tag : record.tag = ⟨landmark.position, file⟩
  column :
    ∀ level, landmark.level = some level →
      record.place.column.toNat = 4 * level

/- What stands at the landmarks that begin a line. -/
def headings
    {α : Type}
    (items : List α)
    (landmarks : List Landmark) :
    List α :=
  ((items.zip landmarks).filter
    fun pair => pair.2.level.isSome).map Prod.fst

theorem headings_append
    {α : Type}
    {items others : List α}
    {landmarks more : List Landmark}
    (hLength : items.length = landmarks.length) :
    headings (items ++ others) (landmarks ++ more) =
      headings items landmarks ++ headings others more := by
  unfold headings
  rw [List.zip_append hLength, List.filter_append,
    List.map_append]

theorem headings_map
    {α β : Type}
    (view : α → β)
    (items : List α)
    (landmarks : List Landmark) :
    headings (items.map view) landmarks =
      (headings items landmarks).map view := by
  unfold headings
  rw [List.zip_map_left, List.filter_map, List.map_map,
    List.map_map]
  rfl

theorem headings_eq_nil
    {α : Type}
    (items : List α)
    {landmarks : List Landmark}
    (hNone : ∀ landmark ∈ landmarks, landmark.level = none) :
    headings items landmarks = [] := by
  unfold headings
  rw [List.map_eq_nil_iff, List.filter_eq_nil_iff]
  intro pair hPair
  rw [hNone pair.2 (List.of_mem_zip hPair).2]
  exact Bool.false_ne_true

theorem mem_of_mem_headings
    {α : Type}
    {items : List α}
    {landmarks : List Landmark}
    {item : α}
    (hItem : item ∈ headings items landmarks) :
    item ∈ items := by
  unfold headings at hItem
  rcases List.mem_map.mp hItem with ⟨pair, hPair, rfl⟩
  exact (List.of_mem_zip (List.mem_of_mem_filter hPair)).1

theorem le_line_of_mem_headings
    {place : Place}
    {pieces : List Piece}
    {landmarks : List Landmark}
    {spot : Spot}
    (hSpot :
      spot ∈ headings (spotsFrom place pieces) landmarks) :
    place.line ≤ spot.place.line :=
  (Fragment.le_place_of_mem_spotsFrom
    (mem_of_mem_headings hSpot)).line_le

------------------------------------------------------------
-- Texts That End a Line
------------------------------------------------------------

namespace Text

/- A text whose last line is ended. -/
def EndsLine (text : String) : Prop :=
  ∃ front, text = front ++ "\n"

theorem EndsLine.append
    {right : String}
    (hRight : EndsLine right)
    (left : String) :
    EndsLine (left ++ right) := by
  rcases hRight with ⟨front, rfl⟩
  exact ⟨left ++ front, String.append_assoc.symm⟩

theorem EndsLine.ne_empty
    {text : String}
    (hText : EndsLine text) :
    text ≠ "" := by
  rcases hText with ⟨front, rfl⟩
  simp

end Text

open Text (EndsLine)

namespace Place

/- A text that ends a line leads to the start of a later line. -/
theorem exists_advance_endsLine
    (place : Place)
    {text : String}
    (hText : EndsLine text) :
    ∃ later,
      place.advance text = ⟨later, 0⟩ ∧ place.line < later := by
  rcases hText with ⟨front, rfl⟩
  refine ⟨(place.advance front).line + 1, ?_, ?_⟩
  · exact advance_append_feed place front
  · exact Nat.lt_succ_of_le (line_le_advance place front)

end Place

------------------------------------------------------------
-- Tags before Texts
------------------------------------------------------------

/- Every tag stands before a text of its own. -/
inductive Spaced : List Piece → Prop where
  | nil : Spaced []
  | text (text : String) {pieces : List Piece} :
      Spaced pieces → Spaced (.text text :: pieces)
  | tagged (tag : Tag) {text : String} {pieces : List Piece} :
      text ≠ "" → Spaced pieces →
        Spaced (.mark tag :: .text text :: pieces)

theorem Spaced.append
    {left right : List Piece}
    (hLeft : Spaced left)
    (hRight : Spaced right) :
    Spaced (left ++ right) := by
  induction hLeft with
  | nil => exact hRight
  | text text _ ih => exact ih.text text
  | tagged tag hText _ ih => exact ih.tagged tag hText

theorem IsMargin.spaced
    {level : UInt32}
    {blanks : List Piece}
    (hBlanks : IsMargin level blanks) :
    Spaced blanks := by
  cases hBlanks with
  | blanks => exact Spaced.nil.text (indentText level)
  | nothing => exact .nil

/- What follows a margin stands in the column of its level. -/
theorem IsMargin.spotsFrom_append
    {level : UInt32}
    {blanks : List Piece}
    (hBlanks : IsMargin level blanks)
    (place : Place)
    (pieces : List Piece) :
    spotsFrom place (blanks ++ pieces) =
      spotsFrom ⟨place.line, place.column + 4 * level.toNat⟩
        pieces := by
  rw [Fragment.spotsFrom_append, hBlanks.codeOf_eq,
    Place.advance_indentText]
  cases hBlanks with
  | blanks => rfl
  | nothing => rfl

/- No two tags stand at the same place. -/
theorem Spaced.pairwise_lt_spotsFrom
    {pieces : List Piece}
    (hPieces : Spaced pieces)
    (place : Place) :
    (spotsFrom place pieces).Pairwise fun left right =>
      Place.Lt left.place right.place := by
  induction hPieces generalizing place with
  | nil => exact List.Pairwise.nil
  | text text _ ih => exact ih (place.advance text)
  | @tagged tag text pieces hText _ ih =>
      refine List.Pairwise.cons ?_ (ih (place.advance text))
      intro spot hSpot
      exact (place.lt_advance hText).trans_le
        (Fragment.le_place_of_mem_spotsFrom hSpot)

------------------------------------------------------------
-- Pieces within a Line
------------------------------------------------------------

/- Pieces whose landmarks do not begin a line. -/
structure Inline
    (file : FileId)
    (pieces : List Piece)
    (landmarks : List Landmark) : Prop where
  spaced : Spaced pieces
  spots :
    ∀ place,
      List.Forall₂ (SpotAt file)
        (spotsFrom place pieces) landmarks
  level : ∀ landmark ∈ landmarks, landmark.level = none

namespace Inline

variable {file : FileId}
variable {pieces : List Piece} {landmarks : List Landmark}

theorem nil : Inline file [] [] where
  spaced := .nil
  spots _ := .nil
  level := by simp

theorem text
    (text : String)
    (hPieces : Inline file pieces landmarks) :
    Inline file (.text text :: pieces) landmarks where
  spaced := hPieces.spaced.text text
  spots place := hPieces.spots (place.advance text)
  level := hPieces.level

theorem marked
    (pos : Position)
    {text : String}
    (hText : text ≠ "")
    (hPieces : Inline file pieces landmarks) :
    Inline file (marked pos file text ++ pieces)
      (⟨pos, none⟩ :: landmarks) where
  spaced := hPieces.spaced.tagged ⟨pos, file⟩ hText
  spots place := by
    refine .cons ?_ (hPieces.spots (place.advance text))
    exact ⟨rfl, by simp⟩
  level := List.forall_mem_cons.mpr ⟨rfl, hPieces.level⟩

end Inline

theorem Initializer.inline_layout
    {file : FileId}
    (value : Initializer)
    (text : String) :
    Inline file (value.layout file ++ [.text text])
      value.landmarks := by
  cases value with
  | text value => exact (Inline.nil.text text).text value
  | node node =>
      cases node with
      | boolean pos value =>
          have hText : booleanText value ≠ "" := by
            cases value <;> decide
          exact (Inline.nil.text text).marked pos hText
      | _ => exact Inline.nil.text text

------------------------------------------------------------
-- Pieces from Line to Line
------------------------------------------------------------

/-
  Pieces that begin at the start of a line and end there, and
  the landmarks in them. The records that begin a line do so
  on different lines, all before the line where the pieces
  end.
-/
structure Laid
    (file : FileId)
    (pieces : List Piece)
    (landmarks : List Landmark) : Prop where
  spaced : Spaced pieces
  ends :
    ∀ line, ∃ later,
      (Place.mk line 0).advance (codeOf pieces) = ⟨later, 0⟩
  spots :
    ∀ line,
      List.Forall₂ (SpotAt file)
        (spotsFrom ⟨line, 0⟩ pieces) landmarks
  increasing :
    ∀ line,
      (headings (spotsFrom ⟨line, 0⟩ pieces)
        landmarks).Pairwise
          fun left right => left.place.line < right.place.line
  within :
    ∀ line,
      ∀ spot ∈
          headings (spotsFrom ⟨line, 0⟩ pieces) landmarks,
        spot.place.line <
          ((Place.mk line 0).advance (codeOf pieces)).line

namespace Laid

variable {file : FileId}
variable {pieces more : List Piece}
variable {landmarks others : List Landmark}

theorem nil : Laid file [] [] where
  spaced := .nil
  ends line := ⟨line, Place.advance_empty ⟨line, 0⟩⟩
  spots _ := .nil
  increasing _ := .nil
  within _ := by simp [headings]

/- What follows begins on the line where the pieces end. -/
theorem headings_spotsFrom_append
    (hPieces : Laid file pieces landmarks)
    {line later : Nat}
    (hLater :
      (Place.mk line 0).advance (codeOf pieces) = ⟨later, 0⟩)
    (more : List Piece)
    (others : List Landmark) :
    headings (spotsFrom ⟨line, 0⟩ (pieces ++ more))
        (landmarks ++ others) =
      headings (spotsFrom ⟨line, 0⟩ pieces) landmarks
        ++ headings (spotsFrom ⟨later, 0⟩ more) others := by
  rw [Fragment.spotsFrom_append, hLater,
    headings_append (hPieces.spots line).length_eq]

theorem append
    (hPieces : Laid file pieces landmarks)
    (hMore : Laid file more others) :
    Laid file (pieces ++ more) (landmarks ++ others) where
  spaced := hPieces.spaced.append hMore.spaced
  ends line := by
    rcases hPieces.ends line with ⟨later, hLater⟩
    rw [Fragment.codeOf_append, Place.advance_append, hLater]
    exact hMore.ends later
  spots line := by
    rcases hPieces.ends line with ⟨later, hLater⟩
    rw [Fragment.spotsFrom_append, hLater]
    exact List.rel_append (hPieces.spots line)
      (hMore.spots later)
  increasing line := by
    rcases hPieces.ends line with ⟨later, hLater⟩
    rw [hPieces.headings_spotsFrom_append hLater,
      List.pairwise_append]
    refine
      ⟨hPieces.increasing line, hMore.increasing later, ?_⟩
    intro left hLeft right hRight
    have hBefore := hPieces.within line left hLeft
    rw [hLater] at hBefore
    exact Nat.lt_of_lt_of_le hBefore
      (le_line_of_mem_headings hRight)
  within line spot hSpot := by
    rcases hPieces.ends line with ⟨later, hLater⟩
    rw [hPieces.headings_spotsFrom_append hLater] at hSpot
    rw [Fragment.codeOf_append, Place.advance_append, hLater]
    rcases List.mem_append.mp hSpot with hFirst | hRest
    · have hBefore := hPieces.within line spot hFirst
      rw [hLater] at hBefore
      exact Nat.lt_of_lt_of_le hBefore
        (Place.line_le_advance ⟨later, 0⟩ (codeOf more))
    · exact hMore.within later spot hRest

/-
  A record that begins a line, and all that follows up to the
  end of a line. No other record begins a line there.
-/
theorem opening
    {level : UInt32}
    {blanks : List Piece}
    (hBlanks : IsMargin level blanks)
    (pos : Position)
    {text : String}
    (hText : text ≠ "")
    (hPieces : Inline file pieces landmarks)
    (hEnds : EndsLine (text ++ codeOf pieces)) :
    Laid file (blanks ++ (marked pos file text ++ pieces))
      (⟨pos, some level.toNat⟩ :: landmarks) := by
  have hCode :
      EndsLine
        (codeOf (blanks ++ (marked pos file text ++ pieces))) := by
    rw [Fragment.codeOf_append]
    exact hEnds.append (codeOf blanks)
  have hSpots :
      ∀ line,
        spotsFrom ⟨line, 0⟩
            (blanks ++ (marked pos file text ++ pieces)) =
          ⟨⟨line, 4 * level.toNat⟩, ⟨pos, file⟩⟩
            :: spotsFrom
              ((Place.mk line (4 * level.toNat)).advance text)
              pieces := by
    intro line
    rw [hBlanks.spotsFrom_append, Nat.zero_add]
    rfl
  have hHeadings :
      ∀ line,
        headings
            (spotsFrom ⟨line, 0⟩
              (blanks ++ (marked pos file text ++ pieces)))
            (⟨pos, some level.toNat⟩ :: landmarks) =
          [⟨⟨line, 4 * level.toNat⟩, ⟨pos, file⟩⟩] := by
    intro line
    rw [hSpots]
    exact congrArg (List.cons _)
      (headings_eq_nil _ hPieces.level)
  have hSpaced :
      Spaced (blanks ++ (marked pos file text ++ pieces)) :=
    hBlanks.spaced.append
      (hPieces.spaced.tagged ⟨pos, file⟩ hText)
  refine ⟨hSpaced, ?_, ?_, ?_, ?_⟩
  · intro line
    rcases Place.exists_advance_endsLine ⟨line, 0⟩ hCode with
      ⟨later, hLater, _⟩
    exact ⟨later, hLater⟩
  · intro line
    rw [hSpots]
    refine .cons ⟨rfl, ?_⟩ (hPieces.spots _)
    rintro _ ⟨⟩
    rfl
  · intro line
    rw [hHeadings]
    exact List.pairwise_singleton _ _
  · intro line spot hSpot
    rcases Place.exists_advance_endsLine ⟨line, 0⟩ hCode with
      ⟨later, hLater, hLess⟩
    rw [hHeadings, List.mem_singleton] at hSpot
    rw [hSpot, hLater]
    exact hLess

/- A record that begins a line, alone. -/
theorem heading
    {level : UInt32}
    {blanks : List Piece}
    (hBlanks : IsMargin level blanks)
    (pos : Position)
    {text : String}
    (hText : EndsLine text) :
    Laid file (blanks ++ marked pos file text)
      [⟨pos, some level.toNat⟩] := by
  have hEnds : EndsLine (text ++ codeOf []) := by
    rwa [codeOf, String.append_empty]
  rw [← List.append_nil (marked pos file text)]
  exact opening hBlanks pos hText.ne_empty Inline.nil hEnds

/- A statement whose first text is followed by more lines. -/
theorem statement
    (level : UInt32)
    (pos : Position)
    {text : String}
    (hText : EndsLine text)
    (hMore : Laid file more others) :
    Laid file (indentation level ++ (marked pos file text ++ more))
      (⟨pos, some level.toNat⟩ :: others) := by
  rw [← List.append_assoc]
  exact (heading (isMargin_indentation level) pos hText).append
    hMore

/- Lines without a record. -/
theorem plain
    (level : UInt32)
    {text : String}
    (hText : EndsLine text) :
    Laid file [.text (indentText level), .text text] [] where
  spaced := (Spaced.nil.text text).text (indentText level)
  ends line := by
    have hCode :
        EndsLine (codeOf [.text (indentText level), .text text]) := by
      rw [codeOf, codeOf, codeOf, String.append_empty]
      exact hText.append (indentText level)
    rcases Place.exists_advance_endsLine ⟨line, 0⟩ hCode with
      ⟨later, hLater, _⟩
    exact ⟨later, hLater⟩
  spots _ := .nil
  increasing _ := .nil
  within _ := by simp [headings, spotsFrom]

end Laid

------------------------------------------------------------
-- Ends of Statements
------------------------------------------------------------

/- The last of some pieces end a line. -/
theorem endsLine_codeOf_append
    (pieces : List Piece)
    {last : List Piece}
    (hLast : EndsLine (codeOf last)) :
    EndsLine (codeOf (pieces ++ last)) := by
  rw [Fragment.codeOf_append]
  exact hLast.append (codeOf pieces)

theorem endsLine_codeOf_text
    {text : String}
    (hText : EndsLine text) :
    EndsLine (codeOf [.text text]) := by
  rwa [codeOf, codeOf, String.append_empty]

theorem Call.endsLine_text
    (call : Call) :
    EndsLine
      (call.name ++ "(" ++ String.intercalate ", " call.arguments
        ++ ");\n") :=
  EndsLine.append ⟨");", rfl⟩ _

/- Only a truth value leaves its line open. -/
theorem Node.endsLine_layout
    (file : FileId)
    (level : UInt32)
    {node : Node}
    (hKind : node.kind ≠ .boolean) :
    EndsLine (codeOf (node.layout file level)) := by
  cases node with
  | print pos value =>
      rw [Node.layout]
      exact endsLine_codeOf_text (EndsLine.append ⟨" );", rfl⟩ _)
  | declaration pos name value =>
      rw [Node.layout]
      exact endsLine_codeOf_append _
        (endsLine_codeOf_append _
          (endsLine_codeOf_text ⟨";", rfl⟩))
  | assignment pos name initial operations =>
      rw [Node.layout]
      have hLast :
          EndsLine
            (codeOf
              [.text
                (name ++ " = Math.sign(" ++ name
                  ++ ") * Math.round(Math.abs(" ++ name
                  ++ "));\n")]) :=
        endsLine_codeOf_text (EndsLine.append ⟨"));", rfl⟩ _)
      exact endsLine_codeOf_append _
        (endsLine_codeOf_append [_, _, _] hLast)
  | conditional pos predicate thenBody elseBody elsePos close =>
      rw [Node.layout]
      exact endsLine_codeOf_append _
        (endsLine_codeOf_append _
          (endsLine_codeOf_append _
            (endsLine_codeOf_append [_, _]
              (endsLine_codeOf_text ⟨"\x7d", rfl⟩))))
  | loop pos predicate body close =>
      rw [Node.layout]
      exact endsLine_codeOf_append _
        (endsLine_codeOf_append _
          (endsLine_codeOf_append [_, _]
            (endsLine_codeOf_text ⟨"\x7d", rfl⟩)))
  | function pos name parameters body =>
      rw [Node.layout]
      exact endsLine_codeOf_append _
        (endsLine_codeOf_append _
          (endsLine_codeOf_append [_]
            (endsLine_codeOf_text ⟨"\x7d", rfl⟩)))
  | call made =>
      rw [Node.layout]
      exact endsLine_codeOf_text made.endsLine_text
  | result pos value =>
      rw [Node.layout]
      exact endsLine_codeOf_text (EndsLine.append ⟨";", rfl⟩ _)
  | boolean pos value => exact absurd rfl hKind
  | callAssignment pos name made =>
      rw [Node.layout]
      exact endsLine_codeOf_append _
        (endsLine_codeOf_text made.endsLine_text)
  | program pos statements close =>
      rw [Node.layout]
      exact endsLine_codeOf_append _
        (endsLine_codeOf_append _
          (endsLine_codeOf_append [_, _]
            (endsLine_codeOf_text ⟨"\x7d());", rfl⟩)))

------------------------------------------------------------
-- Statements from Line to Line
------------------------------------------------------------

theorem laid_elseLayout
    {file : FileId}
    {block : List Piece}
    {landmarks : List Landmark}
    (level : UInt32)
    (elsePos : Option Position)
    (hBlock : Laid file block landmarks) :
    Laid file (elseLayout file level elsePos block)
      (elseLandmarks level.toNat elsePos landmarks) := by
  cases elsePos with
  | none => exact Laid.nil
  | some pos =>
      have hElse : EndsLine "\x7d else \x7b\n" :=
        ⟨"\x7d else \x7b", rfl⟩
      exact (Laid.heading (.blanks level) pos hElse).append hBlock

/- The statements of a block are one level deeper than it. -/
theorem laid_inner
    {file : FileId}
    {nodes : List Node}
    (hBlock :
      ∀ level : UInt32,
        level.toNat + blockDepth nodes < 2 ^ 32 →
          Laid file (blockLayout file level nodes)
            (blockLandmarks level.toNat nodes))
    {level : UInt32}
    (hLevel : level.toNat + (blockDepth nodes + 1) < 2 ^ 32) :
    Laid file (blockLayout file (level + 1) nodes)
      (blockLandmarks (level.toNat + 1) nodes) := by
  have hNext : (level + 1).toNat = level.toNat + 1 :=
    toNat_next_level (by omega)
  rw [← hNext]
  exact hBlock (level + 1) (by omega)

/-
  A statement at a level fills whole lines, and its landmarks
  have that level. The texts in it may have line feeds: no
  landmark with a level comes after them before the line feed
  that ends the statement or opens its block.
-/
theorem nodeInduction_laid
    (file : FileId) :
    NodeInduction
      (fun node =>
        node.kind ≠ .boolean → node.violations = [] →
          ∀ level : UInt32,
            level.toNat + node.depth < 2 ^ 32 →
              Laid file
                (indentation level ++ node.layout file level)
                (node.landmarks level.toNat))
      (fun nodes =>
        blockViolations nodes = [] →
          ∀ level : UInt32,
            level.toNat + blockDepth nodes < 2 ^ 32 →
              Laid file (blockLayout file level nodes)
                (blockLandmarks level.toNat nodes)) where
  print pos value _ _ level _ := by
    rw [Node.layout, Node.landmarks]
    exact Laid.heading (isMargin_indentation level) pos
      (EndsLine.append ⟨" );", rfl⟩ _)
  declaration pos name value _ hKind _ level _ := by
    have hEnds := Node.endsLine_layout file level hKind
    rw [Node.layout] at hEnds
    rw [Node.layout, Node.landmarks]
    have hText : "var " ++ name ++ " = " ≠ "" := by
      simp
    exact Laid.opening (isMargin_indentation level) pos hText
      (value.inline_layout ";\n") hEnds
  assignment pos name initial operations _ _ level _ := by
    rw [Node.layout, Node.landmarks]
    refine Laid.statement level pos
      (EndsLine.append ⟨");", rfl⟩ _) ?_
    exact
      (Laid.plain level
        (EndsLine.append ⟨" ? 1 : 0; \x7d", rfl⟩ _)).append
      (Laid.plain level (EndsLine.append ⟨"));", rfl⟩ _))
  conditional pos predicate thenBody elseBody elsePos close
      hThen hElse _ hViolations level hLevel := by
    rw [Node.violations, List.append_eq_nil_iff,
      List.append_eq_nil_iff] at hViolations
    rcases hViolations with ⟨hThenOk, _, hElseOk⟩
    rw [Node.layout, Node.landmarks]
    rw [Node.depth] at hLevel
    refine Laid.statement level pos
      (EndsLine.append ⟨") \x7b", rfl⟩ _) ?_
    refine (laid_inner (hThen hThenOk) (by omega)).append ?_
    refine Laid.append ?_
      (Laid.heading (.blanks level) close ⟨"\x7d", rfl⟩)
    split
    · exact Laid.nil
    · exact laid_elseLayout level elsePos
        (laid_inner (hElse hElseOk) (by omega))
  loop pos predicate body close hBody _ hViolations level
      hLevel := by
    rw [Node.violations] at hViolations
    rw [Node.depth] at hLevel
    rw [Node.layout, Node.landmarks]
    refine Laid.statement level pos
      (EndsLine.append ⟨") \x7b", rfl⟩ _) ?_
    refine (laid_inner (hBody hViolations) hLevel).append ?_
    exact Laid.heading (.blanks level) close ⟨"\x7d", rfl⟩
  function pos name parameters body hBody _ hViolations
      level hLevel := by
    rw [Node.violations, List.append_eq_nil_iff] at hViolations
    rw [Node.depth] at hLevel
    rw [Node.layout, Node.landmarks,
      ← List.append_nil (blockLandmarks (level.toNat + 1) body)]
    refine Laid.statement level pos
      (EndsLine.append ⟨") \x7b", rfl⟩ _) ?_
    refine (laid_inner (hBody hViolations.2) hLevel).append ?_
    exact Laid.plain level ⟨"\x7d", rfl⟩
  call made _ _ level _ := by
    rw [Node.layout, Node.landmarks]
    exact Laid.heading (isMargin_indentation level) made.pos
      made.endsLine_text
  result pos value _ _ level _ := by
    rw [Node.layout, Node.landmarks]
    exact Laid.heading (isMargin_indentation level) pos
      (EndsLine.append ⟨";", rfl⟩ _)
  boolean pos value hKind := absurd rfl hKind
  callAssignment pos name made hKind _ level _ := by
    have hEnds := Node.endsLine_layout file level hKind
    rw [Node.layout] at hEnds
    rw [Node.layout, Node.landmarks]
    have hText : "var " ++ name ++ " = " ≠ "" := by
      simp
    have hCall :
        Inline file (made.layout file) [⟨made.pos, none⟩] :=
      Inline.nil.marked made.pos made.endsLine_text.ne_empty
    exact Laid.opening (isMargin_indentation level) pos hText
      hCall hEnds
  program pos statements close hStatements _ hViolations
      level hLevel := by
    rw [Node.violations] at hViolations
    rw [Node.depth] at hLevel
    rw [Node.layout, Node.landmarks]
    refine Laid.statement level pos ⟨"(function() \x7b", rfl⟩ ?_
    refine (laid_inner (hStatements hViolations) hLevel).append ?_
    exact Laid.heading (.blanks level) close ⟨"\x7d());", rfl⟩
  nil _ level _ := by
    rw [blockLayout, blockLandmarks]
    exact Laid.nil
  cons node nodes hNode hNodes hViolations level hLevel := by
    rw [blockViolations, List.append_eq_nil_iff,
      List.append_eq_nil_iff,
      statementViolations_eq_nil_iff] at hViolations
    rcases hViolations with ⟨⟨_, hKind⟩, hNodeOk, hNodesOk⟩
    rw [blockDepth] at hLevel
    rw [blockLayout, blockLandmarks, ← List.append_assoc]
    exact (hNode hKind hNodeOk level (by omega)).append
      (hNodes hNodesOk level (by omega))

------------------------------------------------------------
-- Depth and Size
------------------------------------------------------------

/- The number of bytes in the code of some pieces. -/
def codeSize (pieces : List Piece) : Nat :=
  (Text.bytes (codeOf pieces)).length

theorem codeSize_append
    (left right : List Piece) :
    codeSize (left ++ right) = codeSize left + codeSize right := by
  rw [codeSize, Fragment.codeOf_append, Text.bytes_append,
    List.length_append, codeSize, codeSize]

theorem codeSize_marked_pos
    (pos : Position)
    (file : FileId)
    {text : String}
    (hText : EndsLine text) :
    0 < codeSize (marked pos file text) := by
  have hCode : codeOf (marked pos file text) = text := by
    simp [marked, codeOf]
  rw [codeSize, hCode, Text.length_bytes, Nat.pos_iff_ne_zero,
    ne_eq, String.utf8ByteSize_eq_zero_iff]
  exact hText.ne_empty

/- The block of an `else` that is not written is empty. -/
theorem depth_le_codeSize_else
    (file : FileId)
    (level : UInt32)
    {pos : Position}
    {elseBody : List Node}
    {elsePos : Option Position}
    (hElse : elseViolations pos elseBody elsePos = [])
    {block : List Piece}
    (hBlock : blockDepth elseBody ≤ codeSize block) :
    blockDepth elseBody ≤
      codeSize
        (if elseBody.isEmpty then []
        else elseLayout file level elsePos block) := by
  cases elseBody with
  | nil => exact Nat.zero_le _
  | cons node nodes =>
      cases elsePos with
      | none => simp [elseViolations] at hElse
      | some elsePos =>
          have hLayout :
              codeSize
                  (elseLayout file level (some elsePos) block) =
                codeSize
                    (.text (indentText level)
                      :: marked elsePos file "\x7d else \x7b\n")
                  + codeSize block :=
            codeSize_append
              (.text (indentText level)
                :: marked elsePos file "\x7d else \x7b\n")
              block
          rw [List.isEmpty_cons, if_neg Bool.false_ne_true,
            hLayout]
          omega

/- Every block that stands within another takes up room. -/
theorem nodeInduction_depth_le
    (file : FileId) :
    NodeInduction
      (fun node =>
        node.violations = [] →
          ∀ level,
            node.depth ≤ codeSize (node.layout file level))
      (fun nodes =>
        blockViolations nodes = [] →
          ∀ level,
            blockDepth nodes ≤
              codeSize (blockLayout file level nodes)) where
  print _ _ _ _ := Nat.zero_le _
  declaration _ _ _ _ _ _ := Nat.zero_le _
  assignment _ _ _ _ _ _ := Nat.zero_le _
  conditional pos predicate thenBody elseBody elsePos close
      hThen hElse hViolations level := by
    rw [Node.violations, List.append_eq_nil_iff,
      List.append_eq_nil_iff] at hViolations
    rcases hViolations with ⟨hThenOk, hElsePos, hElseOk⟩
    have hThenSize := hThen hThenOk (level + 1)
    have hElseSize :=
      depth_le_codeSize_else file level hElsePos
        (hElse hElseOk (level + 1))
    have hHead :
        0 < codeSize
          (marked pos file ("if (" ++ predicate ++ ") \x7b\n")) :=
      codeSize_marked_pos pos file
        (EndsLine.append ⟨") \x7b", rfl⟩ _)
    rw [Node.depth, Node.layout, codeSize_append, codeSize_append,
      codeSize_append]
    omega
  loop pos predicate body close hBody hViolations level := by
    rw [Node.violations] at hViolations
    have hInner := hBody hViolations (level + 1)
    have hHead :
        0 < codeSize
          (marked pos file ("while (" ++ predicate ++ ") \x7b\n")) :=
      codeSize_marked_pos pos file
        (EndsLine.append ⟨") \x7b", rfl⟩ _)
    rw [Node.depth, Node.layout, codeSize_append, codeSize_append]
    omega
  function pos name parameters body hBody hViolations level := by
    rw [Node.violations, List.append_eq_nil_iff] at hViolations
    have hInner := hBody hViolations.2 (level + 1)
    have hHead :
        0 < codeSize
          (marked pos file
            ("function " ++ name ++ " ("
              ++ String.intercalate ", " parameters
              ++ ") \x7b\n")) :=
      codeSize_marked_pos pos file
        (EndsLine.append ⟨") \x7b", rfl⟩ _)
    rw [Node.depth, Node.layout, codeSize_append, codeSize_append]
    omega
  call _ _ _ := Nat.zero_le _
  result _ _ _ _ := Nat.zero_le _
  boolean _ _ _ _ := Nat.zero_le _
  callAssignment _ _ _ _ _ := Nat.zero_le _
  program pos statements close hStatements hViolations level := by
    rw [Node.violations] at hViolations
    have hInner := hStatements hViolations (level + 1)
    have hHead :
        0 < codeSize (marked pos file "(function() \x7b\n") :=
      codeSize_marked_pos pos file ⟨"(function() \x7b", rfl⟩
    rw [Node.depth, Node.layout, codeSize_append, codeSize_append]
    omega
  nil _ _ := Nat.zero_le _
  cons node nodes hNode hNodes hViolations level := by
    rw [blockViolations, List.append_eq_nil_iff,
      List.append_eq_nil_iff] at hViolations
    have hFirst := hNode hViolations.2.1 level
    have hRest := hNodes hViolations.2.2 level
    rw [blockDepth, blockLayout, codeSize_append, codeSize_append]
    omega

------------------------------------------------------------
-- Places in a Program
------------------------------------------------------------

/- A statement in a block without violations has none itself. -/
theorem nodeInduction_statementsOf :
    NodeInduction
      (fun node =>
        node.violations = [] →
          ∀ inner ∈ node.innerStatements,
            inner.kind ≠ .boolean ∧ inner.violations = [])
      (fun nodes =>
        blockViolations nodes = [] →
          ∀ inner ∈ statementsOf nodes,
            inner.kind ≠ .boolean ∧ inner.violations = []) where
  print _ _ _ := by
    simp [Node.innerStatements]
  declaration _ _ _ _ _ := by
    simp [Node.innerStatements]
  assignment _ _ _ _ _ := by
    simp [Node.innerStatements]
  conditional _ _ _ _ _ _ hThen hElse hViolations := by
    rw [Node.violations, List.append_eq_nil_iff,
      List.append_eq_nil_iff] at hViolations
    rw [Node.innerStatements, List.forall_mem_append]
    exact ⟨hThen hViolations.1, hElse hViolations.2.2⟩
  loop _ _ _ _ hBody hViolations := by
    rw [Node.violations] at hViolations
    rw [Node.innerStatements]
    exact hBody hViolations
  function _ _ _ _ hBody hViolations := by
    rw [Node.violations, List.append_eq_nil_iff] at hViolations
    rw [Node.innerStatements]
    exact hBody hViolations.2
  call _ _ := by
    simp [Node.innerStatements]
  result _ _ _ := by
    simp [Node.innerStatements]
  boolean _ _ _ := by
    simp [Node.innerStatements]
  callAssignment _ _ _ _ := by
    simp [Node.innerStatements]
  program _ _ _ hStatements hViolations := by
    rw [Node.violations] at hViolations
    rw [Node.innerStatements]
    exact hStatements hViolations
  nil _ := by
    simp [statementsOf]
  cons node nodes hNode hNodes hViolations := by
    rw [blockViolations, List.append_eq_nil_iff,
      List.append_eq_nil_iff,
      statementViolations_eq_nil_iff] at hViolations
    rcases hViolations with ⟨⟨_, hKind⟩, hNodeOk, hNodesOk⟩
    rw [statementsOf, List.forall_mem_cons,
      List.forall_mem_append]
    exact ⟨⟨hKind, hNodeOk⟩, hNode hNodeOk, hNodes hNodesOk⟩

/-
  A short code of a program fills whole lines, since no level
  in it is too large for a word.
-/
theorem laid_program
    {file : FileId}
    {program : Program}
    {fragment : Fragment}
    (hCompile : program.compile file = .ok fragment)
    (hShort : Text.Short fragment.code) :
    Laid file fragment.pieces (program.node.landmarks 0) := by
  have hYields := program.node.yields_compile file 0
  have hViolations : program.node.violations = [] :=
    hYields.exists_ok_iff.mp ⟨fragment, hCompile⟩
  have hPieces :
      fragment.pieces = program.node.layout file 0 :=
    hYields.view_eq hCompile
  have hKind : program.node.kind ≠ .boolean := by
    simp [Program.node, Node.kind]
  have hDepth :
      program.node.depth ≤ codeSize fragment.pieces := by
    rw [hPieces]
    exact (nodeInduction_depth_le file).node program.node
      hViolations 0
  have hSize : codeSize fragment.pieces < 2 ^ 32 - 1 := hShort
  have hLevel :
      (0 : UInt32).toNat + program.node.depth < 2 ^ 32 := by
    change 0 + _ < _
    omega
  rw [hPieces]
  exact (nodeInduction_laid file).node program.node hKind
    hViolations 0 hLevel

/- Records point at landmarks if their spots are there. -/
theorem forall₂_pointsAt
    {file : FileId}
    {records : List Record}
    {landmarks : List Landmark}
    (hSpots :
      List.Forall₂ (SpotAt file) (records.map Spot.ofRecord)
        landmarks) :
    List.Forall₂ (Record.PointsAt file) records landmarks := by
  rw [List.forall₂_map_left_iff] at hSpots
  refine hSpots.imp ?_
  intro record landmark hSpot
  exact ⟨hSpot.tag, hSpot.column⟩

/-
  In a short code of a program no two records share a place,
  and they come in the order of their places. The record of a
  statement, an `else` or an end stands in the column of its
  level: 0 for the program itself, 1 for its statements, and
  one more in each block. Such records are on different lines,
  for every statement has a text that ends a line. The code
  begins and ends with that of a function which is called at
  once.
-/
theorem render_program_places
    (file : FileId)
    (program : Program)
    (fragment : Fragment)
    (hCompile : program.compile file = .ok fragment)
    (hShort : Text.Short fragment.render.code) :
    (fragment.render.records.Pairwise fun left right =>
        Place.Lt left.place.toPlace right.place.toPlace)
      ∧ List.Forall₂ (Record.PointsAt file)
          fragment.render.records (program.node.landmarks 0)
      ∧ ((headings fragment.render.records
          (program.node.landmarks 0)).Pairwise
            fun left right => left.place.line < right.place.line)
      ∧ (∀ node ∈ statementsOf program.statements,
          ∀ level, ∃ code,
            node.compile file level = .ok code
              ∧ EndsLine code.render.code)
      ∧ ∃ middle,
          fragment.render.code =
            "(function() \x7b\n" ++ middle ++ "\x7d());\n" := by
  have hYields := program.node.yields_compile file 0
  have hViolations : program.node.violations = [] :=
    hYields.exists_ok_iff.mp ⟨fragment, hCompile⟩
  have hPieces :
      fragment.pieces = program.node.layout file 0 :=
    hYields.view_eq hCompile
  have hLaid := laid_program hCompile hShort
  have hSpots := Fragment.map_ofRecord_records hShort
  refine ⟨?_, ?_, ?_, ?_, ?_⟩
  · exact Fragment.pairwise_records_of_spots hShort
      (hLaid.spaced.pairwise_lt_spotsFrom .start)
  · apply forall₂_pointsAt
    change
      List.Forall₂ _ (fragment.records.map Spot.ofRecord) _
    rw [hSpots]
    exact hLaid.spots 1
  · have hLines := hLaid.increasing 1
    change
      (headings (spotsFrom .start fragment.pieces) _).Pairwise _
        at hLines
    rw [← hSpots, headings_map, List.pairwise_map] at hLines
    exact hLines.imp UInt32.lt_iff_toNat_lt.mpr
  · intro node hNode level
    rw [Program.node, Node.violations] at hViolations
    rcases
        nodeInduction_statementsOf.block program.statements
          hViolations node hNode with
      ⟨hKind, hNodeOk⟩
    have hNodeYields := node.yields_compile file level
    rcases hNodeYields.exists_ok_iff.mpr hNodeOk with
      ⟨code, hCode⟩
    refine ⟨code, hCode, ?_⟩
    change EndsLine (codeOf code.pieces)
    rw [hNodeYields.view_eq hCode]
    exact Node.endsLine_layout file level hKind
  · refine ⟨codeOf (blockLayout file 1 program.statements), ?_⟩
    change codeOf fragment.pieces = _
    rw [hPieces, Program.node, Node.layout]
    simp [marked, codeOf, indentText, String.append_assoc]

/- A text of three lines, and records within their lines. -/
def brokenSample : Program where
  pos := ⟨1, 0⟩
  statements :=
    [.print ⟨2, 2⟩ "\"𝄞\"\n\n  + x",
      .conditional ⟨5, 2⟩ "x"
        [.declaration ⟨6, 4⟩ "y" (.node (.boolean ⟨6, 12⟩ true))]
        [.callAssignment ⟨8, 4⟩ "z" ⟨⟨8, 8⟩, "f", ["\n"]⟩]
        (some ⟨7, 2⟩) ⟨9, 2⟩]
  close := ⟨10, 0⟩

def brokenLandmarks : List Landmark :=
  [⟨⟨1, 0⟩, some 0⟩, ⟨⟨2, 2⟩, some 1⟩, ⟨⟨5, 2⟩, some 1⟩,
    ⟨⟨6, 4⟩, some 2⟩, ⟨⟨6, 12⟩, none⟩, ⟨⟨7, 2⟩, some 1⟩,
    ⟨⟨8, 4⟩, some 2⟩, ⟨⟨8, 8⟩, none⟩, ⟨⟨9, 2⟩, some 1⟩,
    ⟨⟨10, 0⟩, some 0⟩]

theorem render_program_places_broken :
    ∃ fragment,
      brokenSample.compile ⟨7⟩ = .ok fragment
        ∧ Text.Short fragment.render.code
        ∧ (fragment.render.records.Pairwise fun left right =>
            Place.Lt left.place.toPlace right.place.toPlace)
        ∧ List.Forall₂ (Record.PointsAt ⟨7⟩)
            fragment.render.records brokenLandmarks
        ∧ ((headings fragment.render.records
            brokenLandmarks).Pairwise
              fun left right =>
                left.place.line < right.place.line) := by
  have hYields := brokenSample.node.yields_compile ⟨7⟩ 0
  have hViolations : brokenSample.node.violations = [] := by
    cbv
  have hLandmarks :
      brokenSample.node.landmarks 0 = brokenLandmarks := by
    cbv
  rcases hYields.exists_ok_iff.mpr hViolations with
    ⟨fragment, hCompile⟩
  have hShort : Text.Short fragment.render.code := by
    change Text.Short (codeOf fragment.pieces)
    rw [hYields.view_eq hCompile]
    unfold Text.Short
    cbv
  have hPlaces :=
    render_program_places ⟨7⟩ brokenSample fragment hCompile
      hShort
  rw [hLandmarks] at hPlaces
  exact
    ⟨fragment, hCompile, hShort, hPlaces.1, hPlaces.2.1,
      hPlaces.2.2.1⟩

end TracedScript
