import TracedScript.Proofs.Compilation
import TracedScript.Proofs.Composition
import TracedScript.Proofs.Split

/-
  Code of a block one level deeper.

  A block whose texts stay within their lines is written line
  by line, and the level of the block shows only in the blanks
  at the start of each line. So a deeper level adds the same
  blanks to every line, and moves every record to the right.

  Key definitions include:
    * `Text.lines`: the lines of a text.
    * `Node.texts`, `blockTexts`: the texts of a tree.
    * `IsMargin`: blanks at the start of a line.
    * `OneLine`: pieces that fill up one line.
    * `Deeper`: the same lines at a level and at the next.

  Main declarations:
    * `Deeper.append`
    * `Deeper.line`
    * `nodeInduction_deeper`
    * `render_compileBlock_deeper`
-/

------------------------------------------------------------
-- Lines
------------------------------------------------------------

namespace TracedScript

namespace Text

/- The lines of a text, each with the line feed that ends it. -/
def lines : List Char → List (List Char)
  | [] => []
  | c :: rest =>
      if c = '\n' then [c] :: lines rest
      else
        match lines rest with
        | [] => [[c]]
        | first :: more => (c :: first) :: more

theorem lines_append_feed
    {body : List Char}
    (hBody : '\n' ∉ body)
    (rest : List Char) :
    lines (body ++ '\n' :: rest) =
      (body ++ ['\n']) :: lines rest := by
  induction body with
  | nil => simp [lines]
  | cons c body ih =>
      rw [List.mem_cons, not_or] at hBody
      rw [List.cons_append, lines, if_neg (Ne.symm hBody.1),
        ih hBody.2]
      rfl

/- The lines of a text in which every line is ended. -/
theorem lines_flatMap_feed
    {bodies : List (List Char)}
    (hBodies : ∀ body ∈ bodies, '\n' ∉ body) :
    lines (bodies.flatMap (· ++ ['\n'])) =
      bodies.map (· ++ ['\n']) := by
  induction bodies with
  | nil => rfl
  | cons body bodies ih =>
      rw [List.forall_mem_cons] at hBodies
      rw [List.flatMap_cons, List.append_assoc,
        List.singleton_append, lines_append_feed hBodies.1,
        ih hBodies.2, List.map_cons]

/- A text that stays within a line. -/
def Unbroken (text : String) : Prop :=
  '\n' ∉ text.toList

instance (text : String) : Decidable (Unbroken text) :=
  inferInstanceAs (Decidable ('\n' ∉ text.toList))

theorem unbroken_append_iff
    (left right : String) :
    Unbroken (left ++ right) ↔
      Unbroken left ∧ Unbroken right := by
  simp [Unbroken]

theorem Unbroken.append
    {left right : String}
    (hLeft : Unbroken left)
    (hRight : Unbroken right) :
    Unbroken (left ++ right) :=
  (unbroken_append_iff left right).mpr ⟨hLeft, hRight⟩

/- A text that fills up a line and ends it. -/
def IsLine (text : String) : Prop :=
  ∃ body, Unbroken body ∧ text = body ++ "\n"

theorem Unbroken.isLine_append
    {left right : String}
    (hLeft : Unbroken left)
    (hRight : IsLine right) :
    IsLine (left ++ right) := by
  rcases hRight with ⟨body, hBody, rfl⟩
  exact ⟨left ++ body, hLeft.append hBody,
    String.append_assoc.symm⟩

/- A text in the middle of a line. -/
theorem Unbroken.isLine_within
    {text : String}
    (hText : Unbroken text)
    {front back : String}
    (hFront : Unbroken front)
    (hBack : IsLine back) :
    IsLine (front ++ text ++ back) :=
  (hFront.append hText).isLine_append hBack

end Text

open Text (Unbroken IsLine)

/- Operations stay within the line of their parts. -/
theorem unbroken_foldOperations
    {initial : String}
    {operations : List String}
    (hInitial : Unbroken initial)
    (hOperations : ∀ operation ∈ operations, Unbroken operation) :
    Unbroken (foldOperations initial operations) := by
  unfold foldOperations
  induction operations generalizing initial with
  | nil => exact hInitial
  | cons operation operations ih =>
      rw [List.forall_mem_cons] at hOperations
      have hOpen : Unbroken "(" := by decide
      have hClose : Unbroken ")" := by decide
      exact ih
        (((hOpen.append hInitial).append hOperations.1).append hClose)
        hOperations.2

------------------------------------------------------------
-- Places in a Line
------------------------------------------------------------

namespace Place

/- A line feed leads to the start of the next line. -/
theorem advance_append_feed
    (place : Place)
    (text : String) :
    place.advance (text ++ "\n") =
      ⟨(place.advance text).line + 1, 0⟩ := by
  rw [advance_append, advance_eq_foldl _ "\n"]
  rfl

theorem advance_unbroken
    (place : Place)
    {text : String}
    (hText : Unbroken text) :
    place.advance text =
      ⟨place.line,
        place.column
          + (text.toList.map Text.charUnits).sum⟩ := by
  rw [advance_eq_ite, if_neg hText]

theorem advance_isLine
    (place : Place)
    {text : String}
    (hText : IsLine text) :
    place.advance text = ⟨place.line + 1, 0⟩ := by
  rcases hText with ⟨body, hBody, rfl⟩
  rw [advance_append_feed, advance_unbroken place hBody]

end Place

namespace Cursor

theorem advance_unbroken
    (cursor : Cursor)
    {text : String}
    (hText : Unbroken text) :
    cursor.advance text =
      ⟨cursor.line,
        cursor.column
          + UInt32.ofNat
            (text.toList.map Text.charUnits).sum⟩ := by
  rw [advance_eq_ite, if_neg hText]

theorem advance_isLine
    (cursor : Cursor)
    {text : String}
    (hText : IsLine text) :
    cursor.advance text = ⟨cursor.line + 1, 0⟩ := by
  rw [advance_eq_ofPlace, Place.advance_isLine _ hText]
  simp [ofPlace, toPlace, UInt32.ofNat_add]

end Cursor

------------------------------------------------------------
-- Levels
------------------------------------------------------------

theorem indentText_zero : indentText 0 = "" := rfl

/- The number of the next level, as long as it is a word. -/
theorem toNat_next_level
    {level : UInt32}
    (hLevel : level.toNat + 1 < 2 ^ 32) :
    (level + 1).toNat = level.toNat + 1 := by
  rw [UInt32.toNat_add, UInt32.toNat_one, Nat.mod_eq_of_lt hLevel]

theorem indentText_succ
    {level : UInt32}
    (hLevel : level.toNat + 1 < 2 ^ 32) :
    indentText (level + 1) = indentUnit ++ indentText level := by
  rw [indentText, toNat_next_level hLevel, List.replicate_succ,
    String.join_cons, indentText]

theorem toList_join_replicate
    (count : Nat) :
    (String.join (List.replicate count indentUnit)).toList =
      List.replicate (4 * count) ' ' := by
  induction count with
  | zero => rfl
  | succ count ih =>
      rw [List.replicate_succ, String.join_cons,
        String.toList_append, ih, Nat.mul_succ, Nat.add_comm,
        List.replicate_add]
      rfl

/- A level is four blanks wide. -/
theorem toList_indentText
    (level : UInt32) :
    (indentText level).toList =
      List.replicate (4 * level.toNat) ' ' :=
  toList_join_replicate level.toNat

theorem unbroken_indentText
    (level : UInt32) :
    Unbroken (indentText level) := by
  rw [Unbroken, toList_indentText, List.mem_replicate]
  rintro ⟨_, hSame⟩
  exact absurd hSame (by decide)

theorem Place.advance_indentText
    (place : Place)
    (level : UInt32) :
    place.advance (indentText level) =
      ⟨place.line, place.column + 4 * level.toNat⟩ := by
  rw [advance_unbroken place (unbroken_indentText level),
    toList_indentText, List.map_replicate, List.sum_replicate]
  simp [Text.charUnits]

theorem Cursor.advance_indentText
    (cursor : Cursor)
    (level : UInt32) :
    cursor.advance (indentText level) =
      ⟨cursor.line, cursor.column + 4 * level⟩ := by
  rw [advance_eq_ofPlace, Place.advance_indentText]
  simp [ofPlace, toPlace, UInt32.ofNat_add, UInt32.ofNat_mul]

------------------------------------------------------------
-- Margins and Lines of Pieces
------------------------------------------------------------

open Fragment (Piece codeOf recordsFrom)

/- The blanks of a level, which may be left out at the lowest. -/
inductive IsMargin : UInt32 → List Piece → Prop where
  | blanks (level : UInt32) :
      IsMargin level [.text (indentText level)]
  | nothing : IsMargin 0 []

theorem isMargin_indentation
    (level : UInt32) :
    IsMargin level (indentation level) := by
  unfold indentation
  split
  · next hZero =>
      rw [hZero]
      exact .nothing
  · exact .blanks level

namespace IsMargin

variable {level : UInt32} {blanks : List Piece}

theorem codeOf_eq
    (hBlanks : IsMargin level blanks) :
    codeOf blanks = indentText level := by
  cases hBlanks with
  | blanks => simp [codeOf]
  | nothing => rfl

/- The records after a margin are those of what follows it. -/
theorem recordsFrom_append
    (hBlanks : IsMargin level blanks)
    (cursor : Cursor)
    (pieces : List Piece) :
    recordsFrom cursor (blanks ++ pieces) =
      recordsFrom ⟨cursor.line, cursor.column + 4 * level⟩
        pieces := by
  rw [← Cursor.advance_indentText]
  cases hBlanks with
  | blanks => rfl
  | nothing => simp [indentText_zero]

end IsMargin

/- Pieces that fill up one line and end it. -/
inductive OneLine : List Piece → Prop where
  | last {text : String} :
      IsLine text → OneLine [.text text]
  | text {text : String} {pieces : List Piece} :
      Unbroken text → OneLine pieces →
        OneLine (.text text :: pieces)
  | mark (tag : Tag) {pieces : List Piece} :
      OneLine pieces → OneLine (.mark tag :: pieces)

theorem OneLine.marked
    (pos : Position)
    (file : FileId)
    {text : String}
    (hText : IsLine text) :
    OneLine (marked pos file text) :=
  .mark ⟨pos, file⟩ (.last hText)

theorem OneLine.isLine_codeOf
    {pieces : List Piece}
    (hPieces : OneLine pieces) :
    IsLine (codeOf pieces) := by
  induction hPieces with
  | last hText =>
      rw [codeOf, codeOf, String.append_empty]
      exact hText
  | text hText _ ih => exact hText.isLine_append ih
  | mark tag _ ih => exact ih

/- A record one level further to the right. -/
def Record.deeper (record : Record) : Record :=
  { record with
    place := ⟨record.place.line, record.place.column + 4⟩ }

/-
  All tags of a line stand before its line feed, so the column
  at the start of the line is in the column of every record.
-/
theorem OneLine.recordsFrom_deeper
    {pieces : List Piece}
    (hPieces : OneLine pieces)
    (line column : UInt32) :
    recordsFrom ⟨line, column + 4⟩ pieces =
      (recordsFrom ⟨line, column⟩ pieces).map Record.deeper := by
  induction hPieces generalizing column with
  | last hText => rfl
  | text hText _ ih =>
      rw [recordsFrom, recordsFrom, Cursor.advance_unbroken _ hText,
        Cursor.advance_unbroken _ hText, ← ih,
        UInt32.add_assoc, UInt32.add_comm 4, UInt32.add_assoc]
  | mark tag _ ih =>
      rw [recordsFrom, recordsFrom, ih, List.map_cons]
      rfl

------------------------------------------------------------
-- One Level Deeper
------------------------------------------------------------

/-
  Pieces at a level and at the next. Both begin at the start
  of a line and end there, and the second have one more unit
  of blanks in every line.
-/
structure Deeper (pieces deeper : List Piece) : Prop where
  lines :
    ∃ bodies : List (List Char),
      (∀ body ∈ bodies, '\n' ∉ body)
        ∧ (codeOf pieces).toList = bodies.flatMap (· ++ ['\n'])
        ∧ (codeOf deeper).toList =
            bodies.flatMap
              (indentUnit.toList ++ · ++ ['\n'])
  ends :
    ∀ line, ∃ later,
      (Cursor.mk line 0).advance (codeOf pieces) = ⟨later, 0⟩
        ∧ (Cursor.mk line 0).advance (codeOf deeper) =
            ⟨later, 0⟩
  records :
    ∀ line,
      recordsFrom ⟨line, 0⟩ deeper =
        (recordsFrom ⟨line, 0⟩ pieces).map Record.deeper

namespace Deeper

variable {pieces deeper more moreDeeper : List Piece}

theorem nil : Deeper [] [] where
  lines := ⟨[], by simp [codeOf]⟩
  ends line := by simp [codeOf]
  records _ := rfl

theorem append
    (hPieces : Deeper pieces deeper)
    (hMore : Deeper more moreDeeper) :
    Deeper (pieces ++ more) (deeper ++ moreDeeper) where
  lines := by
    rcases hPieces.lines with ⟨bodies, hBodies, hCode, hDeeper⟩
    rcases hMore.lines with ⟨others, hOthers, hRest, hRestDeeper⟩
    refine ⟨bodies ++ others, ?_, ?_, ?_⟩
    · exact List.forall_mem_append.mpr ⟨hBodies, hOthers⟩
    · simp [hCode, hRest]
    · simp [hDeeper, hRestDeeper]
  ends line := by
    rcases hPieces.ends line with ⟨middle, hEnd, hDeeperEnd⟩
    rcases hMore.ends middle with ⟨later, hLater, hDeeperLater⟩
    refine ⟨later, ?_, ?_⟩
    · rw [Fragment.codeOf_append, Cursor.advance_append, hEnd,
        hLater]
    · rw [Fragment.codeOf_append, Cursor.advance_append,
        hDeeperEnd, hDeeperLater]
  records line := by
    rcases hPieces.ends line with ⟨middle, hEnd, hDeeperEnd⟩
    rw [Fragment.recordsFrom_append, Fragment.recordsFrom_append,
      hEnd, hDeeperEnd, hPieces.records, hMore.records,
      List.map_append]

/- One line with its margin, at a level and at the next. -/
theorem line
    {level : UInt32}
    (hLevel : level.toNat + 1 < 2 ^ 32)
    {blanks moreBlanks : List Piece}
    (hBlanks : IsMargin level blanks)
    (hMoreBlanks : IsMargin (level + 1) moreBlanks)
    (hPieces : OneLine pieces) :
    Deeper (blanks ++ pieces) (moreBlanks ++ pieces) where
  lines := by
    rcases hPieces.isLine_codeOf with ⟨body, hBody, hCode⟩
    have hFirst : Unbroken (indentText level ++ body) :=
      (unbroken_indentText level).append hBody
    refine
      ⟨[(indentText level ++ body).toList],
        List.forall_mem_singleton.mpr hFirst, ?_, ?_⟩
    · simp [hBlanks.codeOf_eq, hCode]
    · simp [hMoreBlanks.codeOf_eq, hCode, indentText_succ hLevel]
  ends line := by
    refine ⟨line + 1, ?_, ?_⟩
    · rw [Fragment.codeOf_append, hBlanks.codeOf_eq]
      exact Cursor.advance_isLine _
        ((unbroken_indentText level).isLine_append
          hPieces.isLine_codeOf)
    · rw [Fragment.codeOf_append, hMoreBlanks.codeOf_eq]
      exact Cursor.advance_isLine _
        ((unbroken_indentText (level + 1)).isLine_append
          hPieces.isLine_codeOf)
  records line := by
    have hColumn :
        (0 : UInt32) + 4 * (level + 1) = 0 + 4 * level + 4 := by
      grind
    rw [hBlanks.recordsFrom_append, hMoreBlanks.recordsFrom_append,
      hColumn, hPieces.recordsFrom_deeper]

/- A line within a statement. -/
theorem textLine
    {level : UInt32}
    (hLevel : level.toNat + 1 < 2 ^ 32)
    (hPieces : OneLine pieces) :
    Deeper (.text (indentText level) :: pieces)
      (.text (indentText (level + 1)) :: pieces) :=
  line hLevel (.blanks level) (.blanks (level + 1)) hPieces

/- The first line of a statement. -/
theorem firstLine
    {level : UInt32}
    (hLevel : level.toNat + 1 < 2 ^ 32)
    (hPieces : OneLine pieces) :
    Deeper (indentation level ++ pieces)
      (indentation (level + 1) ++ pieces) :=
  line hLevel (isMargin_indentation level)
    (isMargin_indentation (level + 1)) hPieces

/- A statement whose first line is followed by more lines. -/
theorem statement
    {level : UInt32}
    (hLevel : level.toNat + 1 < 2 ^ 32)
    {first : List Piece}
    (hFirst : OneLine first)
    (hMore : Deeper more moreDeeper) :
    Deeper (indentation level ++ (first ++ more))
      (indentation (level + 1) ++ (first ++ moreDeeper)) := by
  rw [← List.append_assoc, ← List.append_assoc]
  exact (firstLine hLevel hFirst).append hMore

end Deeper

------------------------------------------------------------
-- Texts of a Tree
------------------------------------------------------------

def Call.texts (call : Call) : List String :=
  call.name :: call.arguments

/- A truth value has no text of its own. -/
def Initializer.texts : Initializer → List String
  | .text value => [value]
  | .node _ => []

mutual

/- The texts of a node and of the blocks in it. -/
def Node.texts : Node → List String
  | .print _ value => [value]
  | .declaration _ name value => name :: value.texts
  | .assignment _ name initial operations =>
      name :: initial :: operations
  | .conditional _ predicate thenBody elseBody _ _ =>
      predicate :: (blockTexts thenBody ++ blockTexts elseBody)
  | .loop _ predicate body _ => predicate :: blockTexts body
  | .function _ name parameters body =>
      name :: (parameters ++ blockTexts body)
  | .call made => made.texts
  | .result _ value => [value]
  | .boolean .. => []
  | .callAssignment _ name made => name :: made.texts
  | .program _ statements _ => blockTexts statements

/- The texts of the statements of a block, at any depth. -/
def blockTexts : List Node → List String
  | [] => []
  | node :: nodes => node.texts ++ blockTexts nodes

end

mutual

/- How many blocks of a node stand within each other. -/
def Node.depth : Node → Nat
  | .conditional _ _ thenBody elseBody _ _ =>
      max (blockDepth thenBody) (blockDepth elseBody) + 1
  | .loop _ _ body _ => blockDepth body + 1
  | .function _ _ _ body => blockDepth body + 1
  | .program _ statements _ => blockDepth statements + 1
  | _ => 0

/- How many blocks of some statements stand within each other. -/
def blockDepth : List Node → Nat
  | [] => 0
  | node :: nodes => max node.depth (blockDepth nodes)

end

------------------------------------------------------------
-- Statements One Level Deeper
------------------------------------------------------------

/- The level of a block within another is a word as well. -/
theorem inner_level_lt
    {level : UInt32}
    {depth : Nat}
    (hLevel : level.toNat + (depth + 1) + 1 < 2 ^ 32) :
    (level + 1).toNat + depth + 1 < 2 ^ 32 := by
  rw [toNat_next_level (by omega)]
  omega

/- The line that ends a block. -/
theorem isLine_brace : IsLine "\x7d\n" :=
  ⟨"\x7d", by decide, rfl⟩

/- What stands before the value of a variable. -/
theorem unbroken_binding
    {name : String}
    (hName : Unbroken name) :
    Unbroken ("var " ++ name ++ " = ") := by
  simp only [Text.unbroken_append_iff, hName]
  decide

theorem Call.isLine_text
    {call : Call}
    (hTexts : ∀ text ∈ call.texts, Unbroken text) :
    IsLine
      (call.name ++ "(" ++ String.intercalate ", " call.arguments
        ++ ");\n") := by
  rw [Call.texts, List.forall_mem_cons] at hTexts
  have hOpen : Unbroken "(" := by decide
  have hArguments :
      Unbroken (String.intercalate ", " call.arguments) :=
    Text.notMem_intercalate (by decide) hTexts.2
  have hEnd : IsLine ");\n" := ⟨");", by decide, rfl⟩
  exact ((hTexts.1.append hOpen).append hArguments).isLine_append
    hEnd

theorem Initializer.oneLine_layout
    (file : FileId)
    {value : Initializer}
    (hTexts : ∀ text ∈ value.texts, Unbroken text)
    {pieces : List Piece}
    (hPieces : OneLine pieces) :
    OneLine (value.layout file ++ pieces) := by
  cases value with
  | text value =>
      exact .text (hTexts value (List.mem_singleton_self value))
        hPieces
  | node node =>
      cases node with
      | boolean pos value =>
          have hText : Unbroken (booleanText value) := by
            cases value <;> decide
          exact .mark ⟨pos, file⟩ (.text hText hPieces)
      | _ => exact hPieces

/- The lines that make the value of a variable whole. -/
theorem deeper_roundingLines
    {level : UInt32}
    (hLevel : level.toNat + 1 < 2 ^ 32)
    {name : String}
    (hName : Unbroken name) :
    Deeper
      (Fragment.piecesOf
        (roundingLines (indentText level) name))
      (Fragment.piecesOf
        (roundingLines (indentText (level + 1)) name)) := by
  have hTest :
      IsLine
        ("if (typeof(" ++ name ++ ") === \"boolean\") \x7b "
          ++ name ++ " = " ++ name ++ " ? 1 : 0; \x7d\n") := by
    refine Text.Unbroken.isLine_append ?_
      ⟨" ? 1 : 0; \x7d", by decide, rfl⟩
    simp only [Text.unbroken_append_iff, hName]
    decide
  have hRound :
      IsLine
        (name ++ " = Math.sign(" ++ name
          ++ ") * Math.round(Math.abs(" ++ name ++ "));\n") := by
    refine Text.Unbroken.isLine_append ?_
      ⟨"));", by decide, rfl⟩
    simp only [Text.unbroken_append_iff, hName]
    decide
  exact
    (Deeper.textLine hLevel (.last hTest)).append
      (Deeper.textLine hLevel (.last hRound))

theorem deeper_elseLayout
    (file : FileId)
    {level : UInt32}
    (hLevel : level.toNat + 1 < 2 ^ 32)
    (elsePos : Option Position)
    {block deeper : List Piece}
    (hBlock : Deeper block deeper) :
    Deeper (elseLayout file level elsePos block)
      (elseLayout file (level + 1) elsePos deeper) := by
  cases elsePos with
  | none => exact Deeper.nil
  | some pos =>
      have hElse : IsLine "\x7d else \x7b\n" :=
        ⟨"\x7d else \x7b", by decide, rfl⟩
      exact
        (Deeper.textLine hLevel (.marked pos file hElse)).append
          hBlock

/-
  A statement begins with blanks and ends with a line feed, and
  so does each of its lines. What stands in a block of it is
  one level deeper already, and one more at the next level.
-/
theorem nodeInduction_deeper
    (file : FileId) :
    NodeInduction
      (fun node =>
        statementViolations node = [] → node.violations = [] →
          (∀ text ∈ node.texts, Unbroken text) →
            ∀ level : UInt32,
              level.toNat + node.depth + 1 < 2 ^ 32 →
              Deeper (indentation level ++ node.layout file level)
                (indentation (level + 1)
                  ++ node.layout file (level + 1)))
      (fun nodes =>
        blockViolations nodes = [] →
          (∀ text ∈ blockTexts nodes, Unbroken text) →
            ∀ level : UInt32,
              level.toNat + blockDepth nodes + 1 < 2 ^ 32 →
              Deeper (blockLayout file level nodes)
                (blockLayout file (level + 1) nodes)) where
  print pos value _ _ hTexts level hLevel := by
    rw [Node.texts, List.forall_mem_singleton] at hTexts
    rw [Node.layout, Node.layout]
    have hLine : IsLine ("console.log( " ++ value ++ " );\n") :=
      hTexts.isLine_within (by decide) ⟨" );", by decide, rfl⟩
    exact Deeper.firstLine (by omega) (.marked pos file hLine)
  declaration pos name value _ _ _ hTexts level hLevel := by
    rw [Node.texts, List.forall_mem_cons] at hTexts
    rw [Node.layout, Node.layout]
    have hEnd : IsLine ";\n" := ⟨";", by decide, rfl⟩
    have hValue :
        OneLine (value.layout file ++ [.text ";\n"]) :=
      value.oneLine_layout file hTexts.2 (.last hEnd)
    exact Deeper.firstLine (by omega)
      (.mark ⟨pos, file⟩
        (.text (unbroken_binding hTexts.1) hValue))
  assignment pos name initial operations _ _ hTexts level hLevel := by
    rw [Node.texts, List.forall_mem_cons,
      List.forall_mem_cons] at hTexts
    rcases hTexts with ⟨hName, hInitial, hOperations⟩
    rw [Node.layout, Node.layout]
    have hHead : Unbroken ("var " ++ name ++ " = (") := by
      simp only [Text.unbroken_append_iff, hName]
      decide
    have hLine :
        IsLine
          ("var " ++ name ++ " = ("
            ++ foldOperations initial operations ++ ");\n") :=
      (unbroken_foldOperations hInitial hOperations).isLine_within
        hHead ⟨");", by decide, rfl⟩
    exact Deeper.statement (by omega) (.marked pos file hLine)
      (deeper_roundingLines (by omega) hName)
  conditional pos predicate thenBody elseBody elsePos close
      hThen hElse _ hViolations hTexts level hLevel := by
    rw [Node.violations, List.append_eq_nil_iff,
      List.append_eq_nil_iff] at hViolations
    rw [Node.texts, List.forall_mem_cons,
      List.forall_mem_append] at hTexts
    rcases hViolations with ⟨hThenOk, _, hElseOk⟩
    rcases hTexts with ⟨hPredicate, hThenTexts, hElseTexts⟩
    rw [Node.depth] at hLevel
    rw [Node.layout, Node.layout]
    have hLine : IsLine ("if (" ++ predicate ++ ") \x7b\n") :=
      hPredicate.isLine_within (by decide)
        ⟨") \x7b", by decide, rfl⟩
    refine Deeper.statement (by omega) (.marked pos file hLine) ?_
    refine
      (hThen hThenOk hThenTexts (level + 1)
        (inner_level_lt (by omega))).append ?_
    refine Deeper.append ?_
      (Deeper.textLine (by omega) (.marked close file isLine_brace))
    split
    · exact Deeper.nil
    · exact deeper_elseLayout file (by omega) elsePos
        (hElse hElseOk hElseTexts (level + 1)
          (inner_level_lt (by omega)))
  loop pos predicate body close hBody _ hViolations hTexts
      level hLevel := by
    rw [Node.violations] at hViolations
    rw [Node.texts, List.forall_mem_cons] at hTexts
    rw [Node.depth] at hLevel
    rw [Node.layout, Node.layout]
    have hLine : IsLine ("while (" ++ predicate ++ ") \x7b\n") :=
      hTexts.1.isLine_within (by decide)
        ⟨") \x7b", by decide, rfl⟩
    refine Deeper.statement (by omega) (.marked pos file hLine) ?_
    refine
      (hBody hViolations hTexts.2 (level + 1)
        (inner_level_lt hLevel)).append ?_
    exact Deeper.textLine (by omega) (.marked close file isLine_brace)
  function pos name parameters body hBody _ hViolations hTexts
      level hLevel := by
    rw [Node.violations, List.append_eq_nil_iff] at hViolations
    rw [Node.texts, List.forall_mem_cons,
      List.forall_mem_append] at hTexts
    rcases hTexts with ⟨hName, hParameters, hBodyTexts⟩
    rw [Node.depth] at hLevel
    rw [Node.layout, Node.layout]
    have hHead : Unbroken ("function " ++ name ++ " (") := by
      simp only [Text.unbroken_append_iff, hName]
      decide
    have hList : Unbroken (String.intercalate ", " parameters) :=
      Text.notMem_intercalate (by decide) hParameters
    have hLine :
        IsLine
          ("function " ++ name ++ " ("
            ++ String.intercalate ", " parameters ++ ") \x7b\n") :=
      hList.isLine_within hHead ⟨") \x7b", by decide, rfl⟩
    refine Deeper.statement (by omega) (.marked pos file hLine) ?_
    refine
      (hBody hViolations.2 hBodyTexts (level + 1)
        (inner_level_lt hLevel)).append ?_
    exact Deeper.textLine (by omega) (.last isLine_brace)
  call made _ _ hTexts level hLevel := by
    rw [Node.texts] at hTexts
    rw [Node.layout, Node.layout]
    exact Deeper.firstLine (by omega)
      (.marked made.pos file (Call.isLine_text hTexts))
  result pos value _ _ hTexts level hLevel := by
    rw [Node.texts, List.forall_mem_singleton] at hTexts
    rw [Node.layout, Node.layout]
    have hLine : IsLine ("return " ++ value ++ ";\n") :=
      hTexts.isLine_within (by decide) ⟨";", by decide, rfl⟩
    exact Deeper.firstLine (by omega) (.marked pos file hLine)
  boolean pos value hStatement := by
    cases hStatement
  callAssignment pos name made _ _ hTexts level hLevel := by
    rw [Node.texts, List.forall_mem_cons] at hTexts
    rw [Node.layout, Node.layout]
    have hCall : OneLine (made.layout file) :=
      .marked made.pos file (Call.isLine_text hTexts.2)
    exact Deeper.firstLine (by omega)
      (.mark ⟨pos, file⟩
        (.text (unbroken_binding hTexts.1) hCall))
  program pos statements close _ hStatement := by
    cases hStatement
  nil _ _ level _ := by
    rw [blockLayout, blockLayout]
    exact Deeper.nil
  cons node nodes hNode hNodes hViolations hTexts level
      hLevel := by
    rw [blockViolations, List.append_eq_nil_iff,
      List.append_eq_nil_iff] at hViolations
    rw [blockTexts, List.forall_mem_append] at hTexts
    rw [blockDepth] at hLevel
    rcases hViolations with ⟨hStatement, hNodeOk, hNodesOk⟩
    rw [blockLayout, blockLayout, ← List.append_assoc,
      ← List.append_assoc]
    exact
      (hNode hStatement hNodeOk hTexts.1 level (by omega)).append
        (hNodes hNodesOk hTexts.2 level (by omega))

------------------------------------------------------------
-- Blocks One Level Deeper
------------------------------------------------------------

/- The lines of a deeper code have four more bytes each. -/
theorem length_flatMap_deeper
    (bodies : List (List Char)) :
    ((bodies.flatMap (indentUnit.toList ++ · ++ ['\n'])).flatMap
        String.utf8EncodeChar).length =
      ((bodies.flatMap (· ++ ['\n'])).flatMap
          String.utf8EncodeChar).length
        + 4 * bodies.length := by
  have hUnit :
      (indentUnit.toList.flatMap String.utf8EncodeChar).length =
        4 := by
    cbv
  induction bodies with
  | nil => rfl
  | cons body bodies ih =>
      simp only [List.flatMap_cons, List.flatMap_append,
        List.length_append, List.length_cons, ih, hUnit]
      omega

/- A deeper code is longer, unless there is none. -/
theorem Deeper.length_bytes_add_le
    {pieces deeper : List Piece}
    (hDeeper : Deeper pieces deeper)
    (hCode : codeOf pieces ≠ "") :
    (Text.bytes (codeOf pieces)).length + 4 ≤
      (Text.bytes (codeOf deeper)).length := by
  rcases hDeeper.lines with ⟨bodies, _, hPieces, hNext⟩
  have hBodies : bodies ≠ [] := by
    rintro rfl
    exact hCode (String.toList_eq_nil_iff.mp hPieces)
  have hLength := List.length_pos_iff.mpr hBodies
  rw [Text.bytes_eq_flatMap, Text.bytes_eq_flatMap, hPieces,
    hNext, length_flatMap_deeper]
  omega

/- In a short deeper code every record is four columns further. -/
theorem Deeper.toPlace_deeper
    {fragment deeper : Fragment}
    (hDeeper : Deeper fragment.pieces deeper.pieces)
    (hShort : Text.Short deeper.code)
    {record : Record}
    (hRecord : record ∈ fragment.records) :
    record.deeper.place.toPlace =
      ⟨record.place.line.toNat,
        record.place.column.toNat + 4⟩ := by
  rw [Fragment.records_eq_map_marks, List.mem_map] at hRecord
  rcases hRecord with ⟨mark, hMark, rfl⟩
  have hCode := Fragment.code_eq_before_append_after hMark
  have hBytes :
      (Text.bytes mark.before).length + 4 < 2 ^ 32 := by
    by_cases hEmpty : mark.before = ""
    · rw [hEmpty]
      decide
    · have hLonger :
          (Text.bytes fragment.code).length + 4 ≤
            (Text.bytes deeper.code).length := by
        apply hDeeper.length_bytes_add_le
        intro hNone
        change fragment.code = "" at hNone
        rw [hNone] at hCode
        exact hEmpty (String.append_eq_empty_iff.mp hCode.symm).1
      rw [hCode, Text.bytes_append, List.length_append] at hLonger
      unfold Text.Short at hShort
      omega
  have hSize := Place.size_advance_le .start mark.before
  have hLine := Place.line_le_advance .start mark.before
  change 1 ≤ _ at hLine
  change _ ≤ 1 + 0 + _ at hSize
  have hFits : (Place.start.advance mark.before).Fits := by
    constructor <;> omega
  have hColumn :
      mark.record.place.column.toNat + 4 < 2 ^ 32 := by
    change (Cursor.start.advance mark.before).toPlace.column + 4 < _
    rw [Cursor.advance_start, Cursor.toPlace_ofPlace hFits]
    omega
  change Place.mk _ (_ + 4 : UInt32).toNat = _
  rw [UInt32.toNat_add]
  change Place.mk _ ((_ + 4) % 2 ^ 32) = _
  rw [Nat.mod_eq_of_lt hColumn]
  rfl

/- A loop with two records in one line, in a function. -/
def loopSample : List Node :=
  [.function ⟨1, 0⟩ "f" ["a"]
    [.loop ⟨2, 2⟩ "a"
      [.callAssignment ⟨3, 4⟩ "b" ⟨⟨3, 8⟩, "g", ["\"𝄞\""]⟩]
      ⟨4, 2⟩]]

/- One statement, whose record stands right after the blanks. -/
def printSample : List Node :=
  [.print ⟨1, 0⟩ "x"]

theorem records_printSample
    {level : UInt32}
    {fragment : Fragment}
    (hCompile : compileBlock ⟨0⟩ level printSample = .ok fragment) :
    fragment.render.records =
      [⟨⟨1, 4 * level⟩, ⟨⟨1, 0⟩, ⟨0⟩⟩⟩] := by
  have hYields := yields_compileBlock ⟨0⟩ level printSample
  change recordsFrom .start fragment.pieces = _
  rw [hYields.view_eq hCompile, printSample, blockLayout,
    (isMargin_indentation level).recordsFrom_append]
  simp [blockLayout, Node.layout, marked, recordsFrom,
    Cursor.start]

end TracedScript
