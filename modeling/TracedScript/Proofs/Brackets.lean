import TracedScript.Proofs.Indentation
import TracedScript.Proofs.NestedTexts

/-
  Brackets in generated code.

  The pieces of a construct open and close brackets in turn, so
  that all that is open at a place in the code is known from
  the constructs around it.

  Key definitions include:
    * `Site`: a source position with a record, what its record
      is for, and how deep its construct is.
    * `Node.sites`: the sites of a node in the order of the
      source.
    * `Walks`: pieces that lead from open brackets to others,
      and the sites in them.

  Main declarations:
    * `Walks.append`
    * `nodeInduction_walks`
    * `Walks.records_standAt`
    * `render_program_nested`
-/

------------------------------------------------------------
-- Sites
------------------------------------------------------------

namespace TracedScript

open Text (Bracket Nested Leads)

/-
  What a record is for: where a construct begins, where its
  `else` is, where it ends, or a part within its line.
-/
inductive Role where
  | opening
  | branch
  | closing
  | inner
deriving DecidableEq, Repr

/- A position, the depth of its construct, and its role. -/
structure Site where
  position : Position
  depth : Nat
  role : Role
deriving DecidableEq, Repr

/-
  How many braces are open at a site. The brace of a construct
  is open until its `else` and until its end.
-/
def Site.braces (site : Site) : Nat :=
  match site.role with
  | .opening => site.depth
  | .inner => site.depth
  | .branch => site.depth + 1
  | .closing => site.depth + 1

def Initializer.sites
    (depth : Nat) :
    Initializer → List Site
  | .text _ => []
  | .node (.boolean pos _) => [⟨pos, depth, .inner⟩]
  | .node _ => []

def elseSites
    (depth : Nat)
    (elsePos : Option Position)
    (block : List Site) :
    List Site :=
  match elsePos with
  | none => []
  | some pos => ⟨pos, depth, .branch⟩ :: block

mutual

/- The sites of a node at a depth, in the order of the source. -/
def Node.sites
    (depth : Nat) :
    Node → List Site
  | .print pos _ => [⟨pos, depth, .opening⟩]
  | .declaration pos _ value =>
      ⟨pos, depth, .opening⟩ :: value.sites depth
  | .assignment pos .. => [⟨pos, depth, .opening⟩]
  | .conditional pos _ thenBody elseBody elsePos close =>
      ⟨pos, depth, .opening⟩
        :: (blockSites (depth + 1) thenBody
          ++ ((if elseBody.isEmpty then []
              else
                elseSites depth elsePos
                  (blockSites (depth + 1) elseBody))
            ++ [⟨close, depth, .closing⟩]))
  | .loop pos _ body close =>
      ⟨pos, depth, .opening⟩
        :: (blockSites (depth + 1) body
          ++ [⟨close, depth, .closing⟩])
  | .function pos _ _ body =>
      ⟨pos, depth, .opening⟩ :: blockSites (depth + 1) body
  | .call made => [⟨made.pos, depth, .opening⟩]
  | .result pos _ => [⟨pos, depth, .opening⟩]
  | .boolean pos _ => [⟨pos, depth, .inner⟩]
  | .callAssignment pos _ made =>
      [⟨pos, depth, .opening⟩, ⟨made.pos, depth, .inner⟩]
  | .program pos statements close =>
      ⟨pos, depth, .opening⟩
        :: (blockSites (depth + 1) statements
          ++ [⟨close, depth, .closing⟩])

/- The sites of the statements of a block. -/
def blockSites
    (depth : Nat) :
    List Node → List Site
  | [] => []
  | node :: nodes => node.sites depth ++ blockSites depth nodes

end

/-
  A record at a site: it carries the position and the file,
  and the code up to its place leaves the braces open that
  are open at the site.
-/
structure Record.StandsAt
    (file : FileId)
    (code : String)
    (record : Record)
    (site : Site) : Prop where
  tag : record.tag = ⟨site.position, file⟩
  braces :
    ∃ before after,
      code = before ++ after
        ∧ Cursor.start.advance before = record.place
        ∧ Text.braceDepth before = site.braces

------------------------------------------------------------
-- Open Brackets of Pieces
------------------------------------------------------------

open Fragment (Piece Mark marksFrom codeOf)

/- A mark with the tag of a site, and what is open before it. -/
structure MarksSite
    (file : FileId)
    (mark : Mark)
    (site : Site) : Prop where
  tag : mark.tag = ⟨site.position, file⟩
  opened :
    ∃ opened,
      Leads mark.before [] opened
        ∧ opened.count .curly = site.braces

/-
  Pieces that lead from some open brackets to others, and
  whose tags are at the sites, one by one.
-/
structure Walks
    (file : FileId)
    (before after : List Bracket)
    (pieces : List Piece)
    (sites : List Site) : Prop where
  leads : Leads (codeOf pieces) before after
  marks :
    ∀ text, Leads text [] before →
      List.Forall₂ (MarksSite file) (marksFrom text pieces) sites

namespace Walks

variable {file : FileId}
variable {before middle after : List Bracket}
variable {pieces more : List Piece}
variable {sites others : List Site}

theorem nil : Walks file before before [] [] where
  leads := rfl
  marks _ _ := .nil

theorem append
    (hPieces : Walks file before middle pieces sites)
    (hMore : Walks file middle after more others) :
    Walks file before after (pieces ++ more)
      (sites ++ others) where
  leads := by
    rw [Fragment.codeOf_append]
    exact hPieces.leads.append hMore.leads
  marks text hText := by
    rw [Fragment.marksFrom_append]
    apply List.rel_append
    · rw [List.forall₂_map_left_iff]
      exact (hPieces.marks text hText).imp
        fun _ _ hMark => ⟨hMark.tag, hMark.opened⟩
    · exact hMore.marks _ (hText.append hPieces.leads)

/- A text without a tag. -/
theorem text
    {text : String}
    (hText : Leads text before middle)
    (hPieces : Walks file middle after pieces sites) :
    Walks file before after (.text text :: pieces) sites where
  leads := hText.append hPieces.leads
  marks _ hFront := hPieces.marks _ (hFront.append hText)

/- A text whose tag is at a site. -/
theorem marked
    {text : String}
    (site : Site)
    (hBraces : before.count .curly = site.braces)
    (hText : Leads text before after) :
    Walks file before after
      (marked site.position file text) [site] where
  leads := by
    simpa [TracedScript.marked, codeOf] using hText
  marks _ hFront := by
    refine List.Forall₂.cons ?_ List.Forall₂.nil
    exact ⟨rfl, before, hFront, hBraces⟩

end Walks

------------------------------------------------------------
-- Texts of Constructs
------------------------------------------------------------

/- A nested text between what opens and what closes brackets. -/
theorem Text.Nested.leads_within
    {text front back : String}
    {before middle after : List Bracket}
    (hText : Nested text.toList)
    (hFront : Leads front before middle)
    (hBack : Leads back middle after) :
    Leads (front ++ text ++ back) before after :=
  (hFront.append (hText.leads middle)).append hBack

theorem nested_joined
    {texts : List String}
    (hTexts : ∀ text ∈ texts, Nested text.toList) :
    Nested (String.intercalate ", " texts).toList := by
  induction texts with
  | nil => exact .nil
  | cons text texts ih =>
      rw [List.forall_mem_cons] at hTexts
      cases texts with
      | nil =>
          rw [String.intercalate_singleton]
          exact hTexts.1
      | cons next texts =>
          have hComma : Nested ", ".toList := by decide
          rw [String.intercalate_cons_cons, String.toList_append,
            String.toList_append]
          exact (hTexts.1.append hComma).append (ih hTexts.2)

/- Operations are nested when their parts are. -/
theorem nested_foldOperations
    {initial : String}
    {operations : List String}
    (hInitial : Nested initial.toList)
    (hOperations :
      ∀ operation ∈ operations, Nested operation.toList) :
    Nested (foldOperations initial operations).toList := by
  unfold foldOperations
  induction operations generalizing initial with
  | nil => exact hInitial
  | cons operation operations ih =>
      rw [List.forall_mem_cons] at hOperations
      have hFront : Leads ("(" ++ initial) [] [.round] :=
        Leads.append rfl (hInitial.leads [.round])
      have hFolded :
          Leads ("(" ++ initial ++ operation ++ ")") [] [] :=
        hOperations.1.leads_within hFront rfl
      exact ih ((Text.nested_iff_openAfter _).mpr hFolded)
        hOperations.2

theorem nested_indentText
    (level : UInt32) :
    Nested (indentText level).toList := by
  unfold indentText
  induction level.toNat with
  | zero => exact .nil
  | succ count ih =>
      have hUnit : Nested indentUnit.toList := by decide
      rw [List.replicate_succ, String.join_cons,
        String.toList_append]
      exact hUnit.append ih

/- What stands before the value of a variable. -/
theorem leads_introduction
    {name : String}
    (hName : Nested name.toList)
    (opened : List Bracket) :
    Leads ("var " ++ name ++ " = ") opened opened :=
  hName.leads_within (rfl : Leads "var " opened opened) rfl

theorem Call.leads
    {call : Call}
    (hTexts : ∀ text ∈ call.texts, Nested text.toList)
    (opened : List Bracket) :
    Leads
      (call.name ++ "(" ++ String.intercalate ", " call.arguments
        ++ ");\n")
      opened opened := by
  rw [Call.texts, List.forall_mem_cons] at hTexts
  have hName : Leads (call.name ++ "(") opened (.round :: opened) :=
    (hTexts.1.leads opened).append rfl
  exact (nested_joined hTexts.2).leads_within hName rfl

theorem Initializer.walks_layout
    {value : Initializer}
    (hTexts : ∀ text ∈ value.texts, Nested text.toList)
    (file : FileId)
    {depth : Nat}
    {opened : List Bracket}
    (hDepth : opened.count .curly = depth) :
    Walks file opened opened (value.layout file)
      (value.sites depth) := by
  cases value with
  | text value =>
      rw [Initializer.texts, List.forall_mem_singleton] at hTexts
      exact Walks.nil.text (hTexts.leads opened)
  | node node =>
      cases node with
      | boolean pos value =>
          cases value
          · exact Walks.marked ⟨pos, depth, .inner⟩ hDepth rfl
          · exact Walks.marked ⟨pos, depth, .inner⟩ hDepth rfl
      | _ => exact Walks.nil

/- The lines after an assignment close all that they open. -/
theorem walks_roundingLines
    {name : String}
    (hName : Nested name.toList)
    (file : FileId)
    (indent : UInt32)
    (opened : List Bracket) :
    Walks file opened opened
      (Fragment.piecesOf (roundingLines (indentText indent) name))
      [] := by
  have hIndent := (nested_indentText indent).leads opened
  have hCheck :
      Leads
        ("if (typeof(" ++ name ++ ") === \"boolean\") \x7b "
          ++ name ++ " = " ++ name ++ " ? 1 : 0; \x7d\n")
        opened opened := by
    have hFirst :
        Leads
          ("if (typeof(" ++ name ++ ") === \"boolean\") \x7b ")
          opened (.curly :: opened) :=
      hName.leads_within
        (rfl :
          Leads "if (typeof(" opened (.round :: .round :: opened))
        rfl
    have hSecond :
        Leads
          ("if (typeof(" ++ name ++ ") === \"boolean\") \x7b "
            ++ name ++ " = ")
          opened (.curly :: opened) :=
      hName.leads_within hFirst rfl
    exact hName.leads_within hSecond rfl
  have hRound :
      Leads
        (name ++ " = Math.sign(" ++ name
          ++ ") * Math.round(Math.abs(" ++ name ++ "));\n")
        opened opened := by
    have hFirst :
        Leads (name ++ " = Math.sign(") opened
          (.round :: opened) :=
      (hName.leads opened).append rfl
    have hSecond :
        Leads
          (name ++ " = Math.sign(" ++ name
            ++ ") * Math.round(Math.abs(")
          opened (.round :: .round :: opened) :=
      hName.leads_within hFirst rfl
    exact hName.leads_within hSecond rfl
  exact
    (((Walks.nil.text hRound).text hIndent).text hCheck).text
      hIndent

------------------------------------------------------------
-- Open Brackets of Constructs
------------------------------------------------------------

/- One more brace is open in a block than around it. -/
theorem count_inside
    {depth : Nat}
    {opened : List Bracket}
    (hDepth : opened.count .curly = depth) :
    (Bracket.curly :: opened).count .curly = depth + 1 := by
  rw [List.count_cons_self, hDepth]

/- The last line of a block, with the tag of its end. -/
theorem walks_close
    (file : FileId)
    (indent : UInt32)
    (close : Position)
    {depth : Nat}
    {opened : List Bracket}
    (hDepth : opened.count .curly = depth)
    {text : String}
    {after : List Bracket}
    (hText : Leads text (.curly :: opened) after) :
    Walks file (.curly :: opened) after
      (.text (indentText indent) :: marked close file text)
      [⟨close, depth, .closing⟩] := by
  refine Walks.text ((nested_indentText indent).leads _) ?_
  exact Walks.marked ⟨close, depth, .closing⟩
    (count_inside hDepth) hText

theorem walks_elseLayout
    {file : FileId}
    {block : List Piece}
    {sites : List Site}
    {depth : Nat}
    {opened : List Bracket}
    (indent : UInt32)
    (elsePos : Option Position)
    (hDepth : opened.count .curly = depth)
    (hBlock :
      Walks file (.curly :: opened) (.curly :: opened) block
        sites) :
    Walks file (.curly :: opened) (.curly :: opened)
      (elseLayout file indent elsePos block)
      (elseSites depth elsePos sites) := by
  cases elsePos with
  | none => exact Walks.nil
  | some pos =>
      have hElse :
          Walks file (.curly :: opened) (.curly :: opened)
            (marked pos file "\x7d else \x7b\n")
            [⟨pos, depth, .branch⟩] :=
        Walks.marked ⟨pos, depth, .branch⟩
          (count_inside hDepth) rfl
      exact
        (hElse.append hBlock).text
          ((nested_indentText indent).leads _)

/-
  A node closes all that it opens, and at each of its sites
  the braces of the constructs around the site are open. The
  induction is over the tree, for any open brackets before
  the node: a block has one more brace open than the construct
  that it is in.
-/
theorem nodeInduction_walks
    (file : FileId) :
    NodeInduction
      (fun node =>
        (∀ text ∈ node.texts, Nested text.toList) →
          ∀ indent depth opened, opened.count .curly = depth →
            Walks file opened opened (node.layout file indent)
              (node.sites depth))
      (fun nodes =>
        (∀ text ∈ blockTexts nodes, Nested text.toList) →
          ∀ indent depth opened, opened.count .curly = depth →
            Walks file opened opened
              (blockLayout file indent nodes)
              (blockSites depth nodes)) where
  print pos value hTexts indent depth opened hDepth := by
    rw [Node.texts, List.forall_mem_singleton] at hTexts
    rw [Node.layout, Node.sites]
    exact Walks.marked ⟨pos, depth, .opening⟩ hDepth
      (hTexts.leads_within
        (rfl : Leads "console.log( " opened (.round :: opened))
        rfl)
  declaration pos name value _ hTexts indent depth opened
      hDepth := by
    rw [Node.texts, List.forall_mem_cons] at hTexts
    rw [Node.layout, Node.sites]
    have hValue :
        Walks file opened opened
          (value.layout file ++ [.text ";\n"])
          (value.sites depth ++ []) :=
      (value.walks_layout hTexts.2 file hDepth).append
        (Walks.nil.text rfl)
    rw [List.append_nil] at hValue
    exact
      (Walks.marked ⟨pos, depth, .opening⟩ hDepth
        (leads_introduction hTexts.1 opened)).append hValue
  assignment pos name initial operations hTexts indent depth
      opened hDepth := by
    rw [Node.texts, List.forall_mem_cons,
      List.forall_mem_cons] at hTexts
    rcases hTexts with ⟨hName, hInitial, hOperations⟩
    rw [Node.layout, Node.sites]
    have hHead :
        Leads ("var " ++ name ++ " = (") opened
          (.round :: opened) :=
      hName.leads_within (rfl : Leads "var " opened opened) rfl
    have hLine :
        Leads
          ("var " ++ name ++ " = ("
            ++ foldOperations initial operations ++ ");\n")
          opened opened :=
      (nested_foldOperations hInitial hOperations).leads_within
        hHead rfl
    exact
      (Walks.marked ⟨pos, depth, .opening⟩ hDepth hLine).append
        (walks_roundingLines hName file indent opened)
  conditional pos predicate thenBody elseBody elsePos close
      hThen hElse hTexts indent depth opened hDepth := by
    rw [Node.texts, List.forall_mem_cons,
      List.forall_mem_append] at hTexts
    rcases hTexts with ⟨hPredicate, hThenTexts, hElseTexts⟩
    rw [Node.layout, Node.sites]
    have hInside := count_inside hDepth
    have hHead :
        Leads ("if (" ++ predicate ++ ") \x7b\n") opened
          (.curly :: opened) :=
      hPredicate.leads_within
        (rfl : Leads "if (" opened (.round :: opened)) rfl
    have hClose :=
      walks_close file indent close hDepth
        (rfl : Leads "\x7d\n" (.curly :: opened) opened)
    refine
      (Walks.marked ⟨pos, depth, .opening⟩ hDepth hHead).append ?_
    refine
      (hThen hThenTexts (indent + 1) (depth + 1) _ hInside).append
        ?_
    split
    · exact hClose
    · exact
        (walks_elseLayout indent elsePos hDepth
          (hElse hElseTexts (indent + 1) (depth + 1) _
            hInside)).append hClose
  loop pos predicate body close hBody hTexts indent depth opened
      hDepth := by
    rw [Node.texts, List.forall_mem_cons] at hTexts
    rw [Node.layout, Node.sites]
    have hInside := count_inside hDepth
    have hHead :
        Leads ("while (" ++ predicate ++ ") \x7b\n") opened
          (.curly :: opened) :=
      hTexts.1.leads_within
        (rfl : Leads "while (" opened (.round :: opened)) rfl
    refine
      (Walks.marked ⟨pos, depth, .opening⟩ hDepth hHead).append ?_
    refine
      (hBody hTexts.2 (indent + 1) (depth + 1) _ hInside).append
        ?_
    exact walks_close file indent close hDepth rfl
  function pos name parameters body hBody hTexts indent depth
      opened hDepth := by
    rw [Node.texts, List.forall_mem_cons,
      List.forall_mem_append] at hTexts
    rcases hTexts with ⟨hName, hParameters, hBodyTexts⟩
    rw [Node.layout, Node.sites]
    have hInside := count_inside hDepth
    have hFront :
        Leads ("function " ++ name ++ " (") opened
          (.round :: opened) :=
      hName.leads_within
        (rfl : Leads "function " opened opened) rfl
    have hHead :
        Leads
          ("function " ++ name ++ " ("
            ++ String.intercalate ", " parameters ++ ") \x7b\n")
          opened (.curly :: opened) :=
      (nested_joined hParameters).leads_within hFront rfl
    refine
      (Walks.marked ⟨pos, depth, .opening⟩ hDepth hHead).append ?_
    rw [← List.append_nil (blockSites (depth + 1) body)]
    refine
      (hBody hBodyTexts (indent + 1) (depth + 1) _ hInside).append
        ?_
    have hClose :
        Walks file (.curly :: opened) opened [.text "\x7d\n"] [] :=
      Walks.nil.text rfl
    exact hClose.text ((nested_indentText indent).leads _)
  call made hTexts indent depth opened hDepth := by
    rw [Node.texts] at hTexts
    rw [Node.layout, Node.sites]
    exact Walks.marked ⟨made.pos, depth, .opening⟩ hDepth
      (Call.leads hTexts opened)
  result pos value hTexts indent depth opened hDepth := by
    rw [Node.texts, List.forall_mem_singleton] at hTexts
    rw [Node.layout, Node.sites]
    exact Walks.marked ⟨pos, depth, .opening⟩ hDepth
      (hTexts.leads_within (rfl : Leads "return " opened opened)
        rfl)
  boolean pos value _ indent depth opened hDepth := by
    rw [Node.layout, Node.sites]
    refine Walks.marked ⟨pos, depth, .inner⟩ hDepth ?_
    cases value <;> rfl
  callAssignment pos name made hTexts indent depth opened
      hDepth := by
    rw [Node.texts, List.forall_mem_cons] at hTexts
    rw [Node.layout, Node.sites]
    exact
      (Walks.marked ⟨pos, depth, .opening⟩ hDepth
        (leads_introduction hTexts.1 opened)).append
          (Walks.marked ⟨made.pos, depth, .inner⟩ hDepth
            (Call.leads hTexts.2 opened))
  program pos statements close hStatements hTexts indent depth
      opened hDepth := by
    rw [Node.texts] at hTexts
    rw [Node.layout, Node.sites]
    have hOutside :
        (Bracket.round :: opened).count .curly = depth := by
      rw [List.count_cons_of_ne (by decide), hDepth]
    have hHead :
        Leads "(function() \x7b\n" opened
          (.curly :: .round :: opened) :=
      rfl
    refine
      (Walks.marked ⟨pos, depth, .opening⟩ hDepth hHead).append ?_
    refine
      (hStatements hTexts (indent + 1) (depth + 1) _
        (count_inside hOutside)).append ?_
    exact walks_close file indent close hOutside rfl
  nil _ indent depth opened _ := by
    rw [blockLayout, blockSites]
    exact Walks.nil
  cons node nodes hNode hNodes hTexts indent depth opened
      hDepth := by
    rw [blockTexts, List.forall_mem_append] at hTexts
    rw [blockLayout, blockSites]
    have hStatement :=
      (hNode hTexts.1 indent depth opened hDepth).append
        (hNodes hTexts.2 indent depth opened hDepth)
    unfold indentation
    split
    · exact hStatement
    · exact hStatement.text ((nested_indentText indent).leads _)

------------------------------------------------------------
-- Programs
------------------------------------------------------------

/- The records of a fragment whose pieces start with nothing open. -/
theorem Walks.records_standAt
    {file : FileId}
    {fragment : Fragment}
    {after : List Bracket}
    {sites : List Site}
    (hWalks : Walks file [] after fragment.pieces sites) :
    List.Forall₂ (Record.StandsAt file fragment.code)
      fragment.records sites := by
  refine Fragment.forall₂_records (hWalks.marks "" rfl) ?_
  intro mark hMark site hSite
  rcases hSite.opened with ⟨opened, hOpened, hBraces⟩
  refine ⟨hSite.tag, mark.before, mark.after, ?_, rfl, ?_⟩
  · exact Fragment.code_eq_before_append_after hMark
  · rw [hOpened.braceDepth_eq, hBraces]

/-
  The code of a program is nested when its texts are, and the
  braces that are open at a record are those of the constructs
  around it: as many as the depth where a construct begins,
  and one more at its `else` and at its end.
-/
theorem render_program_nested
    (file : FileId)
    (program : Program)
    (fragment : Fragment)
    (hCompile : program.compile file = .ok fragment)
    (hTexts :
      ∀ text ∈ program.node.texts, Nested text.toList) :
    Nested fragment.render.code.toList
      ∧ List.Forall₂
          (Record.StandsAt file fragment.render.code)
          fragment.render.records
          (program.node.sites 0) := by
  have hWalks :
      Walks file [] [] fragment.pieces (program.node.sites 0) := by
    rw [(program.node.yields_compile file 0).view_eq hCompile]
    exact (nodeInduction_walks file).node program.node hTexts 0 0
      [] rfl
  constructor
  · rw [Text.nested_iff_openAfter]
    exact hWalks.leads
  · exact hWalks.records_standAt

/-
  Brackets in the texts of a function with an `else` and of a
  call, where a brace is open in three constructs at once.
-/
def bracketSample : Program where
  pos := ⟨1, 0⟩
  statements :=
    [.function ⟨1, 4⟩ "f" ["a", "b"]
        [.conditional ⟨2, 4⟩ "a[b] < g(b)"
          [.assignment ⟨3, 8⟩ "c" "1" ["+ (a)", "* a[(0)]"]]
          [.declaration ⟨5, 8⟩ "d"
            (.node (.boolean ⟨5, 16⟩ true))]
          (some ⟨4, 4⟩) ⟨6, 4⟩],
      .callAssignment ⟨8, 4⟩ "e"
        ⟨⟨8, 8⟩, "f", ["[1]", "\x7b\x7d"]⟩]
  close := ⟨9, 0⟩

theorem render_program_nested_sample :
    ∃ fragment,
      bracketSample.compile ⟨7⟩ = .ok fragment
        ∧ Nested fragment.render.code.toList
        ∧ List.Forall₂
            (Record.StandsAt ⟨7⟩ fragment.render.code)
            fragment.render.records
            [⟨⟨1, 0⟩, 0, .opening⟩,
              ⟨⟨1, 4⟩, 1, .opening⟩,
              ⟨⟨2, 4⟩, 2, .opening⟩,
              ⟨⟨3, 8⟩, 3, .opening⟩,
              ⟨⟨4, 4⟩, 2, .branch⟩,
              ⟨⟨5, 8⟩, 3, .opening⟩,
              ⟨⟨5, 16⟩, 3, .inner⟩,
              ⟨⟨6, 4⟩, 2, .closing⟩,
              ⟨⟨8, 4⟩, 1, .opening⟩,
              ⟨⟨8, 8⟩, 1, .inner⟩,
              ⟨⟨9, 0⟩, 0, .closing⟩] := by
  have hViolations : bracketSample.node.violations = [] := by
    cbv
  rcases
      (bracketSample.node.yields_compile ⟨7⟩ 0).exists_ok_iff.mpr
        hViolations with
    ⟨fragment, hCompile⟩
  have hTexts :
      ∀ text ∈ bracketSample.node.texts, Nested text.toList := by
    decide +kernel
  exact ⟨fragment, hCompile,
    render_program_nested ⟨7⟩ bracketSample fragment hCompile
      hTexts⟩

end TracedScript
