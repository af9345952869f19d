import TracedScript.Proofs.MappingText
import TracedScript.Proofs.Results

/-
  The texts that are written for mappings, among all texts
  that can be read.

  Reading is lenient: empty segments, segments of one or five
  numbers, numbers with leading zeros, columns that go back
  and empty lines at the end are all read. Writing what was
  read gives the same text exactly if there is nothing of
  that kind.

  Key definitions include:
    * `Mapping.CanonicalSegment`
    * `Mapping.CanonicalText`: the form of a text alone.
    * `Mapping.ColumnsOrdered`: no column goes back.

  Main declarations:
    * `Mapping.encodeFrom_of_decodeLines`: what was read from
      a canonical text is written as that text.
    * `Mapping.canonicalText_encode`: what is written is a
      canonical text.
    * `MapBuilder.encodedMappings_eq_iff_canonical`
-/

------------------------------------------------------------
-- Canonical Texts
------------------------------------------------------------

namespace TracedScript

namespace Mapping

/-
  A segment of four numbers, each of them with the digits
  that are written for it.
-/
def CanonicalSegment (segment : List Char) : Prop :=
  ∃ fields : List Int,
    Vlq.decodeAll? segment = some fields
      ∧ fields.length = 4
      ∧ segment = fields.flatMap Vlq.encode

/-
  A text that does not end in an empty line, without empty
  segments next to a comma, and of canonical segments only.
-/
structure CanonicalText (text : List Char) : Prop where
  ended : text.getLast? ≠ some ';'
  separated :
    ∀ line ∈ List.splitOn ';' text,
      ',' ∈ line → [] ∉ List.splitOn ',' line
  segments :
    ∀ line ∈ List.splitOn ';' text,
      ∀ segment ∈ List.splitOn ',' line,
        segment ≠ [] → CanonicalSegment segment

/- On each line no column is before an earlier one. -/
def ColumnsOrdered (mappings : List Mapping) : Prop :=
  mappings.Pairwise fun left right =>
    left.generatedLine = right.generatedLine →
      left.generatedColumn ≤ right.generatedColumn

/- A line without segments, or of canonical segments only. -/
def CanonicalLine (line : List Char) : Prop :=
  line = []
    ∨ ∀ segment ∈ List.splitOn ',' line, CanonicalSegment segment

theorem CanonicalSegment.ne_nil
    {segment : List Char}
    (hSegment : CanonicalSegment segment) :
    segment ≠ [] := by
  rcases hSegment with ⟨fields, hFields, hLength, _⟩
  intro hNil
  rw [hNil, Vlq.decodeAll?] at hFields
  cases hFields
  cases hLength

/- A canonical segment has digits only. -/
theorem CanonicalSegment.notMem
    {segment : List Char}
    {c : Char}
    (hSegment : CanonicalSegment segment)
    (hNone : Base64.value? c = none) :
    c ∉ segment := by
  rcases hSegment with ⟨fields, _, _, hText⟩
  intro hMember
  rw [hText, List.mem_flatMap] at hMember
  rcases hMember with ⟨value, _, hDigit⟩
  have hSome := Vlq.value?_isSome_of_mem_encode hDigit
  rw [hNone] at hSome
  cases hSome

theorem CanonicalSegment.split
    {segment : List Char}
    (hSegment : CanonicalSegment segment)
    {separator : Char}
    (hNone : Base64.value? separator = none) :
    List.splitOn separator segment = [segment] :=
  List.splitOn_eq_singleton (hSegment.notMem hNone)

/- The two conditions on the segments of a line are one. -/
theorem canonicalLine_iff
    (line : List Char) :
    CanonicalLine line ↔
      (',' ∈ line → [] ∉ List.splitOn ',' line)
        ∧ ∀ segment ∈ List.splitOn ',' line,
          segment ≠ [] → CanonicalSegment segment := by
  constructor
  · rintro (rfl | hSegments)
    · simp [List.splitOn]
    · constructor
      · intro _ hEmpty
        exact (hSegments [] hEmpty).ne_nil rfl
      · intro segment hSegment _
        exact hSegments segment hSegment
  · rintro ⟨hSeparated, hSegments⟩
    by_cases hNil : line = []
    · exact Or.inl hNil
    · right
      intro segment hSegment
      apply hSegments segment hSegment
      intro hEmpty
      subst hEmpty
      by_cases hComma : ',' ∈ line
      · exact hSeparated hComma hSegment
      · rw [List.splitOn_eq_singleton hComma,
          List.mem_singleton] at hSegment
        exact hNil hSegment.symm

theorem canonicalText_iff
    (text : List Char) :
    CanonicalText text ↔
      text.getLast? ≠ some ';'
        ∧ ∀ line ∈ List.splitOn ';' text, CanonicalLine line := by
  constructor
  · intro hText
    refine ⟨hText.ended, ?_⟩
    intro line hLine
    rw [canonicalLine_iff]
    exact ⟨hText.separated line hLine, hText.segments line hLine⟩
  · rintro ⟨hEnded, hLines⟩
    constructor
    · exact hEnded
    · intro line hLine
      exact ((canonicalLine_iff line).mp (hLines line hLine)).1
    · intro line hLine
      exact ((canonicalLine_iff line).mp (hLines line hLine)).2

------------------------------------------------------------
-- Writing Gives Canonical Texts
------------------------------------------------------------

theorem canonicalText_nil : CanonicalText [] := by
  rw [canonicalText_iff]
  constructor
  · simp
  · intro line hLine
    exact Or.inl (List.mem_singleton.mp hLine)

/- An empty line may stand before any text but the empty one. -/
theorem CanonicalText.semicolon
    {text : List Char}
    (hText : CanonicalText text)
    (hNonempty : text ≠ []) :
    CanonicalText (';' :: text) := by
  rw [canonicalText_iff] at hText ⊢
  constructor
  · rw [List.getLast?_cons_of_ne_nil hNonempty]
    exact hText.1
  · rw [Text.splitOn_cons_separator, List.forall_mem_cons]
    exact ⟨Or.inl rfl, hText.2⟩

theorem CanonicalText.semicolons
    {text : List Char}
    (hText : CanonicalText text)
    (hNonempty : text ≠ [])
    (gap : Nat) :
    CanonicalText (List.replicate gap ';' ++ text) := by
  induction gap with
  | zero => exact hText
  | succ gap ih =>
      rw [List.replicate_succ, List.cons_append]
      apply ih.semicolon
      simp [hNonempty]

/- A text that makes a canonical text with a segment before it. -/
def ContinuesSegment (text : List Char) : Prop :=
  ∀ segment, CanonicalSegment segment →
    CanonicalText (segment ++ text)

theorem continuesSegment_nil : ContinuesSegment [] := by
  intro segment hSegment
  have hSemicolon : ';' ∉ segment := hSegment.notMem rfl
  rw [List.append_nil, canonicalText_iff,
    hSegment.split rfl]
  constructor
  · intro hLast
    exact hSemicolon (List.mem_of_getLast? hLast)
  · intro line hLine
    right
    rw [List.mem_singleton.mp hLine, hSegment.split rfl]
    simpa using hSegment

theorem ContinuesSegment.comma
    {segment text : List Char}
    (hText : ContinuesSegment text)
    (hSegment : CanonicalSegment segment) :
    ContinuesSegment (',' :: (segment ++ text)) := by
  intro before hBefore
  have hNonempty : segment ++ text ≠ [] := by
    simp [hSegment.ne_nil]
  rcases Text.exists_splitOn_eq_cons ';' text with
    ⟨first, others, hSplit⟩
  have hLines :
      List.splitOn ';' (segment ++ text) =
        (segment ++ first) :: others :=
    Text.splitOn_append (hSegment.notMem rfl) hSplit
  have hAllLines :
      List.splitOn ';' (before ++ ',' :: (segment ++ text)) =
        (before ++ ',' :: (segment ++ first)) :: others :=
    Text.splitOn_append (hBefore.notMem rfl)
      (Text.splitOn_cons (by decide) hLines)
  have hCanonical := hText segment hSegment
  rw [canonicalText_iff, hLines, List.forall_mem_cons]
    at hCanonical
  rcases hCanonical with ⟨hEnded, hFirst, hOthers⟩
  have hSegments :
      ∀ other ∈ List.splitOn ',' (segment ++ first),
        CanonicalSegment other :=
    hFirst.resolve_left (by simp [hSegment.ne_nil])
  rw [canonicalText_iff, hAllLines, List.forall_mem_cons]
  refine ⟨?_, Or.inr ?_, hOthers⟩
  · rw [List.getLast?_append_of_ne_nil _ (List.cons_ne_nil _ _),
      List.getLast?_cons_of_ne_nil hNonempty]
    exact hEnded
  · rw [List.splitOn_append_cons_self_of_not_mem (hBefore.notMem rfl),
      List.forall_mem_cons]
    exact ⟨hBefore, hSegments⟩

theorem CanonicalText.continuesSegment
    {text : List Char}
    (hText : CanonicalText text)
    (hNonempty : text ≠ []) :
    ContinuesSegment (';' :: text) := by
  intro before hBefore
  rw [canonicalText_iff] at hText ⊢
  constructor
  · rw [List.getLast?_append_of_ne_nil _ (List.cons_ne_nil _ _),
      List.getLast?_cons_of_ne_nil hNonempty]
    exact hText.1
  · rw [List.splitOn_append_cons_self_of_not_mem (hBefore.notMem rfl),
      List.forall_mem_cons]
    refine ⟨Or.inr ?_, hText.2⟩
    rw [hBefore.split rfl]
    simpa using hBefore

/- The segment of a mapping is canonical. -/
theorem canonicalSegment_segment
    {before : Totals}
    {mapping : Mapping}
    (hBefore : before.InRange)
    (hMapping : mapping.InRange) :
    CanonicalSegment (mapping.segment before) := by
  refine ⟨mapping.differences before, ?_, rfl,
    segment_eq_flatMap before mapping⟩
  exact decodeAll?_segment hBefore hMapping

/- What is written after a mapping continues its segment. -/
theorem continuesSegment_encodeFrom
    (line : Nat)
    (before : Totals)
    (mappings : List Mapping)
    (hBefore : before.InRange)
    (hRange : ∀ mapping ∈ mappings, mapping.InRange) :
    ContinuesSegment (encodeFrom line false before mappings) := by
  induction mappings generalizing line before with
  | nil => exact continuesSegment_nil
  | cons mapping mappings ih =>
      rw [List.forall_mem_cons] at hRange
      simp only [encodeFrom, List.append_assoc]
      generalize mapping.generatedLine - line = gap
      have hRest :=
        ih (line + gap) mapping.totals hRange.1.totals hRange.2
      cases gap with
      | zero =>
          exact hRest.comma
            (canonicalSegment_segment hBefore hRange.1)
      | succ gap =>
          have hSegment :=
            canonicalSegment_segment hBefore.newLine hRange.1
          have hNonempty :
              mapping.segment before.newLine
                  ++ encodeFrom (line + (gap + 1)) false
                    mapping.totals mappings ≠ [] := by
            simp [hSegment.ne_nil]
          have hLines :=
            (hRest _ hSegment).semicolons hNonempty gap
          exact hLines.continuesSegment (by simp [hNonempty])

theorem canonicalText_encodeFrom
    (line : Nat)
    (before : Totals)
    (mappings : List Mapping)
    (hBefore : before.InRange)
    (hRange : ∀ mapping ∈ mappings, mapping.InRange) :
    CanonicalText (encodeFrom line true before mappings) := by
  cases mappings with
  | nil => exact canonicalText_nil
  | cons mapping mappings =>
      rw [List.forall_mem_cons] at hRange
      simp only [encodeFrom, List.append_assoc]
      generalize hStart :
        (if mapping.generatedLine - line = 0 then before
          else before.newLine) = start
      have hStartRange : start.InRange := by
        rw [← hStart]
        split
        · exact hBefore
        · exact hBefore.newLine
      have hSegment :=
        canonicalSegment_segment hStartRange hRange.1
      have hRest :=
        continuesSegment_encodeFrom
          (line + (mapping.generatedLine - line))
          mapping.totals mappings hRange.1.totals hRange.2
      have hText := hRest _ hSegment
      rw [if_neg (by simp), List.nil_append]
      exact hText.semicolons (by simp [hSegment.ne_nil]) _

/- The text of some mappings is canonical. -/
theorem canonicalText_encode
    (mappings : List Mapping)
    (hRange : ∀ mapping ∈ mappings, mapping.InRange) :
    CanonicalText (encode mappings).toList := by
  rw [encode, String.toList_ofList]
  apply canonicalText_encodeFrom
  · exact Totals.zero_inRange
  · intro mapping hMapping
    exact hRange mapping
      ((stablySorted_sort mappings).perm.mem_iff.mp hMapping)

theorem columnsOrdered_of_pairwise
    {mappings : List Mapping}
    (hOrdered : mappings.Pairwise Le) :
    ColumnsOrdered mappings := by
  refine hOrdered.imp ?_
  intro left right hLe hLine
  unfold Le at hLe
  omega

theorem columnsOrdered_sort
    (mappings : List Mapping) :
    ColumnsOrdered (sort mappings) :=
  columnsOrdered_of_pairwise (stablySorted_sort mappings).ordered

------------------------------------------------------------
-- The Number of Lines
------------------------------------------------------------

/- The greatest generated line, zero without mappings. -/
def lastLine (mappings : List Mapping) : Nat :=
  (mappings.map generatedLine).foldr max 0

/- Each line that is passed over or ended has a semicolon. -/
theorem count_semicolon_encodeFrom
    (line : Nat)
    (fresh : Bool)
    (before : Totals)
    (mappings : List Mapping) :
    line + (encodeFrom line fresh before mappings).count ';' =
      max line (lastLine mappings) := by
  induction mappings generalizing line fresh before with
  | nil => simp [encodeFrom, lastLine]
  | cons mapping mappings ih =>
      have hSegment (start : Totals) :
          (mapping.segment start).count ';' = 0 :=
        List.count_eq_zero.mpr (notMem_segment rfl start mapping)
      have hComma (condition : Prop) [Decidable condition] :
          (if condition then [','] else []).count ';' = 0 := by
        split <;> rfl
      have hRest :=
        ih (line + (mapping.generatedLine - line)) false
          mapping.totals
      have hLast :
          lastLine (mapping :: mappings) =
            max mapping.generatedLine (lastLine mappings) :=
        rfl
      simp only [encodeFrom, List.count_append, hSegment,
        hComma, List.count_replicate_self]
      omega

theorem lastLine_sort
    (mappings : List Mapping) :
    lastLine (sort mappings) = lastLine mappings :=
  ((stablySorted_sort mappings).perm.map
    generatedLine).foldr_eq 0

theorem count_semicolon_encode
    (mappings : List Mapping) :
    (encode mappings).toList.count ';' = lastLine mappings := by
  have hCount :=
    count_semicolon_encodeFrom 0 true .zero (sort mappings)
  rw [lastLine_sort] at hCount
  rw [encode, String.toList_ofList]
  omega

------------------------------------------------------------
-- What Is Read
------------------------------------------------------------

theorem inRange?_eq_some
    {number : Int}
    {value : Nat}
    (hValue : inRange? number = some value) :
    (0 ≤ number ∧ number < bound) ∧ (value : Int) = number := by
  unfold inRange? at hValue
  split at hValue
  · next hRange =>
      cases hValue
      exact ⟨hRange, Int.toNat_of_nonneg hRange.1⟩
  · cases hValue

/- A mapping is found only for totals that are in range. -/
theorem ofTotals?_eq_some
    {line : Nat}
    {totals : Totals}
    {mapping : Mapping}
    (hMapping : ofTotals? line totals = some mapping) :
    mapping.generatedLine = line
      ∧ mapping.totals = totals
      ∧ totals.InRange := by
  simp only [ofTotals?, Option.bind_eq_bind, Option.pure_def,
    Option.bind_eq_some_iff] at hMapping
  rcases hMapping with
    ⟨column, hColumn, source, hSource, sourceLine, hSourceLine,
      sourceColumn, hSourceColumn, hResult⟩
  cases hResult
  have hColumn := inRange?_eq_some hColumn
  have hSource := inRange?_eq_some hSource
  have hSourceLine := inRange?_eq_some hSourceLine
  have hSourceColumn := inRange?_eq_some hSourceColumn
  refine ⟨rfl, ?_, ?_⟩
  · unfold Mapping.totals
    rw [hColumn.2, hSource.2, hSourceLine.2, hSourceColumn.2]
  · exact
      ⟨hColumn.1, hSource.1, hSourceLine.1, hSourceColumn.1⟩

theorem Totals.InRange.mapping
    {mapping : Mapping}
    (hTotals : mapping.totals.InRange)
    (hLine : mapping.generatedLine < bound) :
    mapping.InRange := by
  unfold Mapping.totals at hTotals
  rcases hTotals with
    ⟨hColumn, hSource, hSourceLine, hSourceColumn⟩
  refine ⟨hLine, ?_⟩
  simp only at hColumn hSource hSourceLine hSourceColumn
  omega

/- The mapping of a segment is where the totals lead to. -/
theorem decodeSegment_eq_ok
    {line : Nat}
    {before after : Totals}
    {segment : List Char}
    {mapping : Mapping}
    (hDecode :
      decodeSegment line before segment =
        .ok (after, some mapping)) :
    mapping.generatedLine = line
      ∧ mapping.totals = after
      ∧ after.InRange := by
  unfold decodeSegment at hDecode
  dsimp only at hDecode
  split at hDecode
  · cases hDecode
  · split at hDecode
    · cases hDecode
    · split at hDecode
      · cases hDecode
      · split at hDecode
        · cases hDecode
        · next hMapping =>
            cases hDecode
            exact ofTotals?_eq_some hMapping
    · cases hDecode

/- One segment is read, and then the segments after it. -/
theorem decodeSegments_cons_eq_ok
    {line : Nat}
    {before after : Totals}
    {segment : List Char}
    {segments : List (List Char)}
    {mappings : List Mapping}
    (hNonempty : segment ≠ [])
    (hDecode :
      decodeSegments line before (segment :: segments) =
        .ok (after, mappings)) :
    ∃ middle found more,
      decodeSegment line before segment = .ok (middle, found)
        ∧ decodeSegments line middle segments =
          .ok (after, more)
        ∧ mappings = found.toList ++ more := by
  rw [decodeSegments, if_neg hNonempty] at hDecode
  rcases bind_eq_ok_iff.mp hDecode with
    ⟨⟨middle, found⟩, hFirst, hRest⟩
  rcases bind_eq_ok_iff.mp hRest with
    ⟨⟨last, more⟩, hMore, hResult⟩
  cases hResult
  exact ⟨middle, found, more, hFirst, hMore, rfl⟩

/- The mappings of a line are on that line, and in range. -/
theorem decodeSegments_eq_ok
    {line : Nat}
    {before after : Totals}
    {segments : List (List Char)}
    {mappings : List Mapping}
    (hDecode :
      decodeSegments line before segments =
        .ok (after, mappings)) :
    ∀ mapping ∈ mappings,
      mapping.generatedLine = line
        ∧ mapping.totals.InRange := by
  induction segments generalizing before mappings with
  | nil =>
      cases hDecode
      exact List.forall_mem_nil _
  | cons segment segments ih =>
      by_cases hEmpty : segment = []
      · rw [hEmpty, decodeSegments_nil_cons] at hDecode
        exact ih hDecode
      · rcases decodeSegments_cons_eq_ok hEmpty hDecode with
          ⟨middle, found, more, hFirst, hMore, rfl⟩
        rw [List.forall_mem_append]
        refine ⟨?_, ih hMore⟩
        intro mapping hMapping
        rw [Option.mem_toList] at hMapping
        subst hMapping
        rcases decodeSegment_eq_ok hFirst with
          ⟨hLine, rfl, hRange⟩
        exact ⟨hLine, hRange⟩

/- One line is read, and then the lines after it. -/
theorem decodeLines_cons_eq_ok
    {line : Nat}
    {before : Totals}
    {text : List Char}
    {texts : List (List Char)}
    {mappings : List Mapping}
    (hDecode :
      decodeLines line before (text :: texts) = .ok mappings) :
    ∃ after found more,
      decodeSegments line before.newLine (List.splitOn ',' text) =
          .ok (after, found)
        ∧ decodeLines (line + 1) after texts = .ok more
        ∧ mappings = found ++ more := by
  rw [decodeLines] at hDecode
  rcases bind_eq_ok_iff.mp hDecode with
    ⟨⟨after, found⟩, hFirst, hRest⟩
  rcases bind_eq_ok_iff.mp hRest with ⟨more, hMore, hResult⟩
  cases hResult
  exact ⟨after, found, more, hFirst, hMore, rfl⟩

/- The mappings of some lines are on those lines, and in range. -/
theorem decodeLines_eq_ok
    {line : Nat}
    {before : Totals}
    {texts : List (List Char)}
    {mappings : List Mapping}
    (hDecode : decodeLines line before texts = .ok mappings) :
    ∀ mapping ∈ mappings,
      line ≤ mapping.generatedLine
        ∧ mapping.generatedLine < line + texts.length
        ∧ mapping.totals.InRange := by
  induction texts generalizing line before mappings with
  | nil =>
      cases hDecode
      exact List.forall_mem_nil _
  | cons text texts ih =>
      rcases decodeLines_cons_eq_ok hDecode with
        ⟨after, found, more, hFirst, hMore, rfl⟩
      rw [List.forall_mem_append, List.length_cons]
      constructor
      · intro mapping hMapping
        rcases decodeSegments_eq_ok hFirst mapping hMapping with
          ⟨hLine, hRange⟩
        exact ⟨by omega, by omega, hRange⟩
      · intro mapping hMapping
        rcases ih hMore mapping hMapping with
          ⟨hLine, hLength, hRange⟩
        exact ⟨by omega, by omega, hRange⟩

/- Mappings are read in the order of their lines. -/
theorem pairwise_line_of_decodeLines
    {line : Nat}
    {before : Totals}
    {texts : List (List Char)}
    {mappings : List Mapping}
    (hDecode : decodeLines line before texts = .ok mappings) :
    mappings.Pairwise fun left right =>
      left.generatedLine ≤ right.generatedLine := by
  induction texts generalizing line before mappings with
  | nil =>
      cases hDecode
      exact List.Pairwise.nil
  | cons text texts ih =>
      rcases decodeLines_cons_eq_ok hDecode with
        ⟨after, found, more, hFirst, hMore, rfl⟩
      have hFound := decodeSegments_eq_ok hFirst
      rw [List.pairwise_append]
      refine ⟨?_, ih hMore, ?_⟩
      · apply List.pairwise_of_forall_mem_list
        intro left hLeft right hRight
        have hLeftLine := (hFound left hLeft).1
        have hRightLine := (hFound right hRight).1
        omega
      · intro left hLeft right hRight
        have hLeftLine := (hFound left hLeft).1
        have hRightLine := (decodeLines_eq_ok hMore right hRight).1
        omega

/- Mappings that are read are in range, line by line. -/
theorem inRange_of_decode
    {text : String}
    {mappings : List Mapping}
    (hLines : (List.splitOn ';' text.toList).length ≤ bound)
    (hDecode : decode text = .ok mappings) :
    ∀ mapping ∈ mappings, mapping.InRange := by
  intro mapping hMapping
  rcases decodeLines_eq_ok hDecode mapping hMapping with
    ⟨_, hLength, hRange⟩
  exact hRange.mapping (by omega)

/- If no column goes back, they are in their order as well. -/
theorem pairwise_le_of_decode
    {text : String}
    {mappings : List Mapping}
    (hDecode : decode text = .ok mappings)
    (hColumns : ColumnsOrdered mappings) :
    mappings.Pairwise Le := by
  have hLines := pairwise_line_of_decodeLines hDecode
  refine (hLines.and hColumns).imp ?_
  rintro left right ⟨hLine, hColumn⟩
  unfold Le
  omega

------------------------------------------------------------
-- Writing What Was Read
------------------------------------------------------------

/- A canonical segment is that of the mapping read from it. -/
theorem segment_of_decodeSegment
    {line : Nat}
    {before after : Totals}
    {segment : List Char}
    {found : Option Mapping}
    (hSegment : CanonicalSegment segment)
    (hDecode :
      decodeSegment line before segment = .ok (after, found)) :
    ∃ mapping,
      found = some mapping
        ∧ mapping.generatedLine = line
        ∧ mapping.totals = after
        ∧ mapping.segment before = segment := by
  rcases hSegment with ⟨fields, hFields, hLength, hText⟩
  rcases List.length_eq_four.mp hLength with
    ⟨column, source, sourceLine, sourceColumn, rfl⟩
  simp only [decodeSegment, hFields, List.length_nil,
    Nat.not_lt_zero, if_false] at hDecode
  split at hDecode
  · cases hDecode
  · next mapping hMapping =>
      cases hDecode
      rcases ofTotals?_eq_some hMapping with
        ⟨hLine, hTotals, _⟩
      refine ⟨mapping, rfl, hLine, hTotals, ?_⟩
      rw [segment_eq_flatMap, hText]
      simp [differences, hTotals]

/- A mapping on the current line. -/
theorem encodeFrom_cons_same
    (fresh : Bool)
    (before : Totals)
    (mapping : Mapping)
    (mappings : List Mapping) :
    encodeFrom mapping.generatedLine fresh before
        (mapping :: mappings) =
      (if fresh then [] else [','])
        ++ (mapping.segment before
          ++ encodeFrom mapping.generatedLine false
            mapping.totals mappings) := by
  cases fresh with
  | true => simp [encodeFrom]
  | false => simp [encodeFrom]

/- Mappings on later lines are written after a semicolon. -/
theorem encodeFrom_later
    {line : Nat}
    {mapping : Mapping}
    (fresh : Bool)
    (before : Totals)
    (mappings : List Mapping)
    (hLine : line < mapping.generatedLine) :
    encodeFrom line fresh before (mapping :: mappings) =
      ';' :: encodeFrom (line + 1) true before.newLine
        (mapping :: mappings) := by
  have hGap :
      mapping.generatedLine - line =
        mapping.generatedLine - (line + 1) + 1 := by
    omega
  have hStart (gap : Nat) :
      (if gap = 0 then before.newLine
        else before.newLine.newLine) = before.newLine := by
    split <;> rfl
  simp only [encodeFrom, hGap, hStart, List.replicate_succ]
  simp [Nat.add_assoc, Nat.add_comm]

/- The segments after the first one of a line. -/
theorem encodeFrom_of_decodeSegments
    {line : Nat}
    {before after : Totals}
    {segments : List (List Char)}
    {mappings : List Mapping}
    (hSegments : ∀ segment ∈ segments, CanonicalSegment segment)
    (hDecode :
      decodeSegments line before segments =
        .ok (after, mappings))
    (more : List Mapping) :
    encodeFrom line false before (mappings ++ more) =
      segments.flatMap (',' :: ·)
        ++ encodeFrom line false after more := by
  induction segments generalizing before mappings with
  | nil =>
      cases hDecode
      rfl
  | cons segment segments ih =>
      rw [List.forall_mem_cons] at hSegments
      rcases
          decodeSegments_cons_eq_ok hSegments.1.ne_nil
            hDecode with
        ⟨middle, found, others, hFirst, hOthers, rfl⟩
      rcases segment_of_decodeSegment hSegments.1 hFirst with
        ⟨mapping, rfl, rfl, rfl, rfl⟩
      have hRest := ih hSegments.2 hOthers
      change encodeFrom _ _ _ (mapping :: (others ++ more)) = _
      rw [encodeFrom_cons_same, hRest, List.flatMap_cons]
      simp

/- All segments of a line that is not empty. -/
theorem encodeFrom_of_decodeLine
    {line : Nat}
    {before after : Totals}
    {text : List Char}
    {mappings : List Mapping}
    (hText : CanonicalLine text)
    (hNonempty : text ≠ [])
    (hDecode :
      decodeSegments line before (List.splitOn ',' text) =
        .ok (after, mappings)) :
    mappings ≠ []
      ∧ ∀ more,
        encodeFrom line true before (mappings ++ more) =
          text ++ encodeFrom line false after more := by
  have hSegments := hText.resolve_left hNonempty
  rcases Text.exists_splitOn_eq_cons ',' text with
    ⟨segment, segments, hSplit⟩
  rw [hSplit] at hDecode
  rw [hSplit, List.forall_mem_cons] at hSegments
  rcases
      decodeSegments_cons_eq_ok hSegments.1.ne_nil hDecode with
    ⟨middle, found, others, hFirst, hOthers, rfl⟩
  rcases segment_of_decodeSegment hSegments.1 hFirst with
    ⟨mapping, rfl, rfl, rfl, rfl⟩
  refine ⟨List.cons_ne_nil _ _, ?_⟩
  intro more
  have hRest :=
    encodeFrom_of_decodeSegments hSegments.2 hOthers more
  change encodeFrom _ _ _ (mapping :: (others ++ more)) = _
  rw [encodeFrom_cons_same, hRest,
    Text.eq_append_flatMap_of_splitOn hSplit]
  simp

/-
  The lines after a line. An empty line leaves no mapping, so
  its semicolon is written with the next mapping only; there
  is one, since the last line is not empty.
-/
theorem encodeFrom_of_decodeLines
    {line : Nat}
    (fresh : Bool)
    {before : Totals}
    {texts : List (List Char)}
    {mappings : List Mapping}
    (hTexts : ∀ text ∈ texts, CanonicalLine text)
    (hLast : texts.getLast? ≠ some [])
    (hDecode :
      decodeLines (line + 1) before texts = .ok mappings) :
    encodeFrom line fresh before mappings =
      texts.flatMap (';' :: ·) := by
  induction texts generalizing line fresh before mappings with
  | nil =>
      cases hDecode
      rfl
  | cons text texts ih =>
      have hLines := decodeLines_eq_ok hDecode
      rcases decodeLines_cons_eq_ok hDecode with
        ⟨after, found, more, hFirst, hMore, rfl⟩
      rw [List.forall_mem_cons] at hTexts
      have hRestLast : texts.getLast? ≠ some [] := by
        cases texts with
        | nil => simp
        | cons next texts => simpa using hLast
      have hRest (fresh : Bool) :=
        ih fresh hTexts.2 hRestLast hMore
      have hNewLine :
          found ++ more ≠ []
            ∧ encodeFrom (line + 1) true before.newLine
                (found ++ more) =
              text ++ texts.flatMap (';' :: ·) := by
        by_cases hEmpty : text = []
        · subst hEmpty
          cases hFirst
          refine ⟨?_, hRest true⟩
          intro hNone
          have hNothing := hRest true
          rw [List.nil_append] at hNone
          rw [hNone] at hNothing
          cases texts with
          | nil => exact hLast rfl
          | cons next texts => cases hNothing
        · rcases
              encodeFrom_of_decodeLine hTexts.1 hEmpty
                hFirst with
            ⟨hFound, hText⟩
          refine ⟨by simp [hFound], ?_⟩
          rw [hText more, hRest false]
      rcases List.exists_cons_of_ne_nil hNewLine.1 with
        ⟨mapping, others, hMappings⟩
      have hLine : line < mapping.generatedLine := by
        have hFirstLine := hLines mapping (by simp [hMappings])
        omega
      rw [List.flatMap_cons, List.cons_append, ← hNewLine.2,
        hMappings]
      exact encodeFrom_later fresh before others hLine

/- What was read from a canonical text is written as before. -/
theorem encodeFrom_of_decode
    {text : String}
    {mappings : List Mapping}
    (hText : CanonicalText text.toList)
    (hDecode : decode text = .ok mappings) :
    encodeFrom 0 true .zero mappings = text.toList := by
  rcases Text.exists_splitOn_eq_cons ';' text.toList with
    ⟨first, others, hSplit⟩
  have hOthersLast : others.getLast? ≠ some [] := by
    intro hLast
    exact hText.ended (Text.getLast?_of_splitOn hSplit hLast)
  rw [canonicalText_iff, hSplit, List.forall_mem_cons] at hText
  rcases hText with ⟨_, hFirstLine, hOtherLines⟩
  rw [decode, hSplit] at hDecode
  rcases decodeLines_cons_eq_ok hDecode with
    ⟨after, found, more, hFirst, hMore, rfl⟩
  have hRest (fresh : Bool) :=
    encodeFrom_of_decodeLines fresh hOtherLines hOthersLast
      hMore
  rw [Text.eq_append_flatMap_of_splitOn hSplit]
  by_cases hEmpty : first = []
  · subst hEmpty
    cases hFirst
    exact hRest true
  · rcases encodeFrom_of_decodeLine hFirstLine hEmpty hFirst with
      ⟨_, hLine⟩
    change encodeFrom 0 true Totals.zero.newLine _ = _
    rw [hLine more, hRest false]

/-
  Writing what was read from a text gives the text exactly if
  it is canonical and no column goes back.
-/
theorem encode_eq_iff_of_decode
    {text : String}
    {mappings : List Mapping}
    (hLines : (List.splitOn ';' text.toList).length ≤ bound)
    (hDecode : decode text = .ok mappings) :
    encode mappings = text ↔
      CanonicalText text.toList ∧ ColumnsOrdered mappings := by
  have hRange := inRange_of_decode hLines hDecode
  constructor
  · intro hText
    have hSort : sort mappings = mappings := by
      have hAgain := decode_encode mappings hRange
      rw [hText, hDecode] at hAgain
      exact (Except.ok.inj hAgain).symm
    constructor
    · rw [← hText]
      exact canonicalText_encode mappings hRange
    · rw [← hSort]
      exact columnsOrdered_sort mappings
  · rintro ⟨hText, hColumns⟩
    have hOrdered := pairwise_le_of_decode hDecode hColumns
    rw [encode, sort_eq_self hOrdered,
      encodeFrom_of_decode hText hDecode, String.ofList_toList]

theorem encode_sort
    (mappings : List Mapping) :
    encode (sort mappings) = encode mappings := by
  unfold encode
  rw [sort_eq_self (stablySorted_sort mappings).ordered]

end Mapping

------------------------------------------------------------
-- Source Maps
------------------------------------------------------------

namespace MapBuilder

/- A new source map to which some mappings are added. -/
def ofMappings
    (file : String)
    (mappings : List Mapping) :
    MapBuilder :=
  mappings.foldl addMapping { file := file }

theorem mappings_foldl_addMapping
    (builder : MapBuilder)
    (mappings : List Mapping) :
    (mappings.foldl addMapping builder).mappings =
      builder.mappings ++ mappings := by
  induction mappings generalizing builder with
  | nil => simp
  | cons mapping mappings ih =>
      rw [List.foldl_cons, ih]
      simp [addMapping]

theorem encodedMappings_ofMappings
    (file : String)
    (mappings : List Mapping) :
    (ofMappings file mappings).encodedMappings =
      Mapping.encode mappings := by
  rw [encodedMappings, ofMappings, mappings_foldl_addMapping,
    List.nil_append]

/-
  The text of mappings that was read is written again as it
  was exactly if it is canonical and no column goes back. Any
  text that is written is so, with a semicolon for each line
  up to the last one with a mapping, and is itself written
  again as it is.
-/
theorem encodedMappings_eq_iff_canonical
    (file : String) :
    (∀ (text : String) (mappings : List Mapping),
        (List.splitOn ';' text.toList).length ≤ Mapping.bound →
        Mapping.decode text = .ok mappings →
          ((ofMappings file mappings).encodedMappings = text ↔
            Mapping.CanonicalText text.toList
              ∧ Mapping.ColumnsOrdered mappings)
          ∧ ∃ again,
            Mapping.decode
                (ofMappings file mappings).encodedMappings =
              .ok again
            ∧ (ofMappings file again).encodedMappings =
              (ofMappings file mappings).encodedMappings)
      ∧ ∀ builder : MapBuilder,
          (∀ mapping ∈ builder.mappings, mapping.InRange) →
            Mapping.CanonicalText builder.encodedMappings.toList
            ∧ (∃ mappings,
              Mapping.decode builder.encodedMappings =
                  .ok mappings
                ∧ Mapping.ColumnsOrdered mappings)
            ∧ builder.encodedMappings.toList.count ';' =
              Mapping.lastLine builder.mappings := by
  constructor
  · intro text mappings hLines hDecode
    have hRange := Mapping.inRange_of_decode hLines hDecode
    rw [encodedMappings_ofMappings]
    refine
      ⟨Mapping.encode_eq_iff_of_decode hLines hDecode,
        Mapping.sort mappings,
        Mapping.decode_encode mappings hRange, ?_⟩
    rw [encodedMappings_ofMappings, Mapping.encode_sort]
  · intro builder hRange
    exact
      ⟨Mapping.canonicalText_encode builder.mappings hRange,
        ⟨Mapping.sort builder.mappings,
          Mapping.decode_encode builder.mappings hRange,
          Mapping.columnsOrdered_sort builder.mappings⟩,
        Mapping.count_semicolon_encode builder.mappings⟩

/-
  A text of canonical segments whose second column goes back
  to zero, and mappings that were added out of their order.
-/
theorem encodedMappings_eq_iff_canonical_back :
    (List.splitOn ';' ";CAAA,DAAA".toList).length ≤ Mapping.bound
      ∧ Mapping.decode ";CAAA,DAAA" =
        .ok [⟨1, 1, 0, 0, 0⟩, ⟨1, 0, 0, 0, 0⟩]
      ∧ (ofMappings "out.js"
          [⟨1, 1, 0, 0, 0⟩, ⟨1, 0, 0, 0, 0⟩]).encodedMappings ≠
        ";CAAA,DAAA"
      ∧ (∀ mapping ∈ tiedMappings, mapping.InRange)
      ∧ Mapping.CanonicalText
        (encodedMappings
          ⟨"out.js", none, [], [], [], tiedMappings⟩).toList
      ∧ (encodedMappings
          ⟨"out.js", none, [], [], [], tiedMappings⟩).toList.count ';' =
        2 := by
  have hLines :
      (List.splitOn ';' ";CAAA,DAAA".toList).length ≤
        Mapping.bound := by
    decide
  have hDecode :
      Mapping.decode ";CAAA,DAAA" =
        .ok [⟨1, 1, 0, 0, 0⟩, ⟨1, 0, 0, 0, 0⟩] := by
    cbv
  have hRange :
      ∀ mapping ∈ tiedMappings, mapping.InRange := by
    decide
  have hText :=
    (encodedMappings_eq_iff_canonical "out.js").1 _ _ hLines
      hDecode
  have hBuilder :=
    (encodedMappings_eq_iff_canonical "out.js").2
      ⟨"out.js", none, [], [], [], tiedMappings⟩ hRange
  refine
    ⟨hLines, hDecode, ?_, hRange, hBuilder.1, hBuilder.2.2⟩
  intro hSame
  have hColumns := (hText.1.mp hSame).2
  unfold Mapping.ColumnsOrdered at hColumns
  simp at hColumns

end MapBuilder

end TracedScript
