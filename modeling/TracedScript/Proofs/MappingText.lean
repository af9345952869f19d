import TracedScript.Mapping.Decode
import TracedScript.Proofs.Split
import TracedScript.Proofs.StableSort
import TracedScript.Proofs.Vlq
import TracedScript.SourceMap.Builder

/-
  Reading the text of mappings gives the mappings in the
  order of their generated positions.

  The reader works on lines that are cut into segments, the
  writer goes from mapping to mapping. They meet in
  `Mapping.decodeFrom`, which reads on from a place within a
  line and so takes a text piece by piece.

  Key definitions include:
    * `Mapping.decodeFrom`
    * `Mapping.Totals.InRange`

  Main declarations:
    * `Mapping.decodeFrom_segment`
    * `Mapping.decodeFrom_encodeFrom`
    * `Mapping.decode_encode`
    * `MapBuilder.decode_encodedMappings`
-/

------------------------------------------------------------
-- Reading Piece by Piece
------------------------------------------------------------

namespace TracedScript

namespace Mapping

/-
  Reads a text that begins within a line, after segments with
  the given totals.
-/
def decodeFrom
    (line : Nat)
    (totals : Totals)
    (text : List Char) :
    Except Fault (List Mapping) :=
  match List.splitOn ';' text with
  | [] => .ok []
  | first :: others => do
      let (totals, mappings) ←
        decodeSegments line totals (List.splitOn ',' first)
      let more ← decodeLines (line + 1) totals others
      pure (mappings ++ more)

theorem decode_eq_decodeFrom
    (text : String) :
    decode text = decodeFrom 0 .zero text.toList := by
  unfold decode decodeFrom
  rcases Text.exists_splitOn_eq_cons ';' text.toList with
    ⟨first, others, hSplit⟩
  rw [hSplit]
  rfl

/- An empty segment is passed over. -/
theorem decodeSegments_nil_cons
    (line : Nat)
    (totals : Totals)
    (segments : List (List Char)) :
    decodeSegments line totals ([] :: segments) =
      decodeSegments line totals segments := by
  rw [decodeSegments, if_pos rfl]

theorem decodeFrom_comma
    (line : Nat)
    (totals : Totals)
    (text : List Char) :
    decodeFrom line totals (',' :: text) =
      decodeFrom line totals text := by
  rcases Text.exists_splitOn_eq_cons ';' text with
    ⟨first, others, hSplit⟩
  have hComma :
      List.splitOn ';' (',' :: text) =
        (',' :: first) :: others :=
    Text.splitOn_cons (by decide) hSplit
  simp only [decodeFrom, hSplit, hComma,
    Text.splitOn_cons_separator, decodeSegments_nil_cons]

theorem decodeFrom_semicolon
    (line : Nat)
    (totals : Totals)
    (text : List Char) :
    decodeFrom line totals (';' :: text) =
      decodeFrom (line + 1) totals.newLine text := by
  rcases Text.exists_splitOn_eq_cons ';' text with
    ⟨first, others, hSplit⟩
  have hEmpty :
      decodeSegments line totals (List.splitOn ',' []) =
        pure (totals, []) := rfl
  simp only [decodeFrom, Text.splitOn_cons_separator, hSplit,
    hEmpty, decodeLines, pure_bind, bind_pure, List.nil_append]

theorem decodeFrom_semicolons
    (gap line : Nat)
    (totals : Totals)
    (text : List Char) :
    decodeFrom line totals (List.replicate gap ';' ++ text) =
      decodeFrom (line + gap)
        (if gap = 0 then totals else totals.newLine) text := by
  induction gap generalizing line totals with
  | zero => rfl
  | succ gap ih =>
      have hTotals :
          (if gap = 0 then totals.newLine
            else totals.newLine.newLine) = totals.newLine := by
        split <;> rfl
      rw [List.replicate_succ, List.cons_append,
        decodeFrom_semicolon, ih, hTotals,
        if_neg (Nat.succ_ne_zero gap)]
      congr 1
      omega

/- A text that a segment can stand before. -/
def EndsSegment (text : List Char) : Prop :=
  text = [] ∨ text.head? = some ',' ∨ text.head? = some ';'

/- A text after a segment has an empty part at its start. -/
theorem EndsSegment.split
    {text : List Char}
    (hEnds : EndsSegment text) :
    ∃ first others segments,
      List.splitOn ';' text = first :: others
        ∧ List.splitOn ',' first = [] :: segments := by
  rcases hEnds with hNil | hComma | hSemicolon
  · subst hNil
    exact ⟨[], [], [], rfl, rfl⟩
  · rcases List.head?_eq_some_iff.mp hComma with ⟨rest, rfl⟩
    rcases Text.exists_splitOn_eq_cons ';' rest with
      ⟨first, others, hSplit⟩
    exact
      ⟨',' :: first, others, List.splitOn ',' first,
        Text.splitOn_cons (by decide) hSplit,
        Text.splitOn_cons_separator ',' first⟩
  · rcases List.head?_eq_some_iff.mp hSemicolon with ⟨rest, rfl⟩
    exact
      ⟨[], List.splitOn ';' rest, [],
        Text.splitOn_cons_separator ';' rest, rfl⟩

/-
  A segment is read by itself, and the text after it from the
  totals that the segment leads to.
-/
theorem decodeFrom_segment
    (line : Nat)
    (totals : Totals)
    {segment text : List Char}
    (hNonempty : segment ≠ [])
    (hComma : ',' ∉ segment)
    (hSemicolon : ';' ∉ segment)
    (hEnds : EndsSegment text) :
    decodeFrom line totals (segment ++ text) = (do
      let (totals, mapping) ← decodeSegment line totals segment
      let more ← decodeFrom line totals text
      pure (mapping.toList ++ more)) := by
  rcases hEnds.split with
    ⟨first, others, segments, hLines, hSegments⟩
  have hAllLines :
      List.splitOn ';' (segment ++ text) =
        (segment ++ first) :: others :=
    Text.splitOn_append hSemicolon hLines
  have hAllSegments :
      List.splitOn ',' (segment ++ first) = segment :: segments := by
    simpa using Text.splitOn_append hComma hSegments
  simp only [decodeFrom, hLines, hAllLines, hSegments,
    hAllSegments, decodeSegments_nil_cons]
  rw [decodeSegments, if_neg hNonempty]
  simp only [bind_assoc, pure_bind, List.append_assoc]

------------------------------------------------------------
-- Reading One Segment
------------------------------------------------------------

/- All totals are within the range of mappings. -/
structure Totals.InRange (totals : Totals) : Prop where
  column : 0 ≤ totals.column ∧ totals.column < bound
  source : 0 ≤ totals.source ∧ totals.source < bound
  sourceLine :
    0 ≤ totals.sourceLine ∧ totals.sourceLine < bound
  sourceColumn :
    0 ≤ totals.sourceColumn ∧ totals.sourceColumn < bound

theorem Totals.zero_inRange : Totals.zero.InRange := by
  constructor <;> decide

theorem Totals.InRange.newLine
    {totals : Totals}
    (hTotals : totals.InRange) :
    totals.newLine.InRange :=
  { hTotals with column := Totals.zero_inRange.column }

theorem InRange.totals
    {mapping : Mapping}
    (hMapping : mapping.InRange) :
    mapping.totals.InRange := by
  rcases hMapping with
    ⟨_, hColumn, hSource, hSourceLine, hSourceColumn⟩
  constructor <;> simp only [Mapping.totals] <;> omega

/- The numbers of a mapping in range are found again. -/
theorem ofTotals?_totals
    {mapping : Mapping}
    (hMapping : mapping.InRange) :
    ofTotals? mapping.generatedLine mapping.totals =
      some mapping := by
  rcases hMapping.totals with
    ⟨hColumn, hSource, hSourceLine, hSourceColumn⟩
  simp only [ofTotals?, inRange?, if_pos hColumn,
    if_pos hSource, if_pos hSourceLine, if_pos hSourceColumn]
  rfl

/- The differences that the segment of a mapping is made of. -/
def differences
    (before : Totals)
    (mapping : Mapping) :
    List Int :=
  [mapping.totals.column - before.column,
    mapping.totals.source - before.source,
    mapping.totals.sourceLine - before.sourceLine,
    mapping.totals.sourceColumn - before.sourceColumn]

theorem segment_eq_flatMap
    (before : Totals)
    (mapping : Mapping) :
    mapping.segment before =
      (mapping.differences before).flatMap Vlq.encode := by
  simp [segment, differences]

/- The difference of two numbers in range is read back. -/
theorem natAbs_sub_le
    {left right : Int}
    (hLeft : 0 ≤ left ∧ left < bound)
    (hRight : 0 ≤ right ∧ right < bound) :
    (left - right).natAbs ≤ Vlq.maxMagnitude := by
  unfold bound at hLeft hRight
  unfold Vlq.maxMagnitude
  omega

/- The differences of a mapping are read from its segment. -/
theorem decodeAll?_segment
    {before : Totals}
    {mapping : Mapping}
    (hBefore : before.InRange)
    (hMapping : mapping.InRange) :
    Vlq.decodeAll? (mapping.segment before) =
      some (mapping.differences before) := by
  have hTotals := hMapping.totals
  rw [segment_eq_flatMap]
  apply Vlq.decodeAll?_flatMap_encode
  simp only [differences, List.forall_mem_cons]
  exact
    ⟨natAbs_sub_le hTotals.column hBefore.column,
      natAbs_sub_le hTotals.source hBefore.source,
      natAbs_sub_le hTotals.sourceLine hBefore.sourceLine,
      natAbs_sub_le hTotals.sourceColumn
        hBefore.sourceColumn,
      List.forall_mem_nil _⟩

/- The segment of a mapping is read as that mapping. -/
theorem decodeSegment_segment
    {before : Totals}
    {mapping : Mapping}
    (hBefore : before.InRange)
    (hMapping : mapping.InRange) :
    decodeSegment mapping.generatedLine before
        (mapping.segment before) =
      .ok (mapping.totals, some mapping) := by
  have hDecode := decodeAll?_segment hBefore hMapping
  simp only [decodeSegment, hDecode, differences]
  simp only [add_sub_cancel, List.length_nil, Nat.not_lt_zero,
    if_false, ofTotals?_totals hMapping]

theorem segment_ne_nil
    (before : Totals)
    (mapping : Mapping) :
    mapping.segment before ≠ [] := by
  simp [segment, Vlq.encode_ne_nil]

/- A segment has digits only. -/
theorem notMem_segment
    {c : Char}
    (hNone : Base64.value? c = none)
    (before : Totals)
    (mapping : Mapping) :
    c ∉ mapping.segment before := by
  rw [segment_eq_flatMap]
  exact Vlq.notMem_flatMap_encode hNone _

------------------------------------------------------------
-- Reading What Is Written
------------------------------------------------------------

/- What follows a mapping starts with a separator. -/
theorem endsSegment_encodeFrom
    (line : Nat)
    (before : Totals)
    (mappings : List Mapping) :
    EndsSegment (encodeFrom line false before mappings) := by
  cases mappings with
  | nil => exact Or.inl rfl
  | cons mapping mappings =>
      unfold encodeFrom
      cases mapping.generatedLine - line with
      | zero => exact Or.inr (Or.inl rfl)
      | succ gap => exact Or.inr (Or.inr rfl)

/-
  One step of the reader against one step of the writer: both
  pass to the line of the mapping, drop the column if that
  is a new line, and then agree on the totals.
-/
theorem decodeFrom_encodeFrom_cons
    {line : Nat}
    {before : Totals}
    {mapping : Mapping}
    (fresh : Bool)
    (mappings : List Mapping)
    (hBefore : before.InRange)
    (hMapping : mapping.InRange)
    (hLine : line ≤ mapping.generatedLine) :
    decodeFrom line before
        (encodeFrom line fresh before (mapping :: mappings)) =
      (do
        let more ←
          decodeFrom mapping.generatedLine mapping.totals
            (encodeFrom mapping.generatedLine false
              mapping.totals mappings)
        pure (mapping :: more)) := by
  have hGap :
      line + (mapping.generatedLine - line) =
        mapping.generatedLine := by
    omega
  simp only [encodeFrom, List.append_assoc,
    decodeFrom_semicolons, hGap]
  generalize hStart :
    (if mapping.generatedLine - line = 0 then before
      else before.newLine) = start
  have hStartRange : start.InRange := by
    rw [← hStart]
    split
    · exact hBefore
    · exact hBefore.newLine
  have hSegment :
      decodeFrom mapping.generatedLine start
          (mapping.segment start
            ++ encodeFrom mapping.generatedLine false
              mapping.totals mappings) =
        (do
          let more ←
            decodeFrom mapping.generatedLine mapping.totals
              (encodeFrom mapping.generatedLine false
                mapping.totals mappings)
          pure (mapping :: more)) := by
    rw [decodeFrom_segment mapping.generatedLine start
      (segment_ne_nil start mapping)
      (notMem_segment rfl start mapping)
      (notMem_segment rfl start mapping)
      (endsSegment_encodeFrom _ _ mappings),
      decodeSegment_segment hStartRange hMapping]
    rfl
  split
  · rw [List.singleton_append, decodeFrom_comma, hSegment]
  · rw [List.nil_append, hSegment]

/- Sorted mappings are read back from any place on. -/
theorem decodeFrom_encodeFrom
    (line : Nat)
    (fresh : Bool)
    (before : Totals)
    (mappings : List Mapping)
    (hBefore : before.InRange)
    (hRange : ∀ mapping ∈ mappings, mapping.InRange)
    (hLines :
      ∀ mapping ∈ mappings, line ≤ mapping.generatedLine)
    (hOrdered : mappings.Pairwise Le) :
    decodeFrom line before
        (encodeFrom line fresh before mappings) =
      .ok mappings := by
  induction mappings generalizing line fresh before with
  | nil => rfl
  | cons mapping mappings ih =>
      rw [List.pairwise_cons] at hOrdered
      rw [List.forall_mem_cons] at hRange hLines
      rw [decodeFrom_encodeFrom_cons fresh mappings hBefore
        hRange.1 hLines.1]
      have hLater :
          ∀ other ∈ mappings,
            mapping.generatedLine ≤ other.generatedLine := by
        intro other hOther
        have hLe := hOrdered.1 other hOther
        unfold Le at hLe
        omega
      rw [ih mapping.generatedLine false mapping.totals
        hRange.1.totals hRange.2 hLater hOrdered.2]
      rfl

/- The sort of mappings is stable. -/
theorem stablySorted_sort
    (mappings : List Mapping) :
    StablySorted generatedLine generatedColumn mappings
      (sort mappings) := by
  apply stablySorted_mergeSort
  intro left right
  exact decide_eq_true_iff

/- Mappings that are in their order stay so. -/
theorem sort_eq_self
    {mappings : List Mapping}
    (hOrdered : mappings.Pairwise Le) :
    sort mappings = mappings := by
  have hLe :
      ∀ left right : Mapping,
        decide (Le left right) = true ↔
          PlaceLe generatedLine generatedColumn
            left right := by
    intro left right
    exact decide_eq_true_iff
  exact mergeSort_eq_self hLe hOrdered

/- Reading the text of mappings gives them in their order. -/
theorem decode_encode
    (mappings : List Mapping)
    (hRange : ∀ mapping ∈ mappings, mapping.InRange) :
    decode (encode mappings) = .ok (sort mappings) := by
  have hSorted := stablySorted_sort mappings
  rw [decode_eq_decodeFrom, encode, String.toList_ofList]
  apply decodeFrom_encodeFrom
  · exact Totals.zero_inRange
  · intro mapping hMapping
    exact hRange mapping (hSorted.perm.mem_iff.mp hMapping)
  · intro mapping _
    exact Nat.zero_le _
  · exact hSorted.ordered

/- Two lists have one text if they are the same when sorted. -/
theorem encode_eq_encode_iff
    {left right : List Mapping}
    (hLeft : ∀ mapping ∈ left, mapping.InRange)
    (hRight : ∀ mapping ∈ right, mapping.InRange) :
    encode left = encode right ↔ sort left = sort right := by
  constructor
  · intro hText
    have hDecode := decode_encode left hLeft
    rw [hText, decode_encode right hRight] at hDecode
    exact (Except.ok.inj hDecode).symm
  · intro hSort
    unfold encode
    rw [hSort]

end Mapping

------------------------------------------------------------
-- Source Maps
------------------------------------------------------------

namespace MapBuilder

/-
  The text of the mappings of a source map says all that was
  put in: reading it gives their stable sort by generated
  position, and source maps with another sort have another
  text.
-/
theorem decode_encodedMappings
    (builder : MapBuilder)
    (hRange : ∀ mapping ∈ builder.mappings, mapping.InRange) :
    Mapping.decode builder.encodedMappings =
        .ok (Mapping.sort builder.mappings)
      ∧ StablySorted Mapping.generatedLine
          Mapping.generatedColumn builder.mappings
          (Mapping.sort builder.mappings)
      ∧ ∀ other : MapBuilder,
          (∀ mapping ∈ other.mappings, mapping.InRange) →
            (builder.encodedMappings = other.encodedMappings ↔
              Mapping.sort builder.mappings =
                Mapping.sort other.mappings) := by
  refine ⟨?_, ?_, ?_⟩
  · exact Mapping.decode_encode builder.mappings hRange
  · exact Mapping.stablySorted_sort builder.mappings
  · intro other hOther
    exact Mapping.encode_eq_encode_iff hRange hOther

/-
  Two mappings at one generated position after a line without
  mappings, put in before the first ones, and a repeated
  mapping with the greatest line.
-/
def tiedMappings : List Mapping :=
  [⟨2, 5, 1, 0, 4294967295⟩, ⟨0, 0, 0, 4294967295, 0⟩,
    ⟨2, 5, 0, 7, 7⟩, ⟨0, 0, 0, 4294967295, 0⟩]

theorem decode_encodedMappings_ties :
    (∀ mapping ∈ tiedMappings, mapping.InRange)
      ∧ Mapping.decode
          (encodedMappings ⟨"out.js", none, [], [], [], tiedMappings⟩) =
        .ok
          [⟨0, 0, 0, 4294967295, 0⟩, ⟨0, 0, 0, 4294967295, 0⟩,
            ⟨2, 5, 1, 0, 4294967295⟩, ⟨2, 5, 0, 7, 7⟩] := by
  have hRange :
      ∀ mapping ∈ tiedMappings, mapping.InRange := by
    decide
  have hSort :
      Mapping.sort tiedMappings =
        [⟨0, 0, 0, 4294967295, 0⟩, ⟨0, 0, 0, 4294967295, 0⟩,
          ⟨2, 5, 1, 0, 4294967295⟩, ⟨2, 5, 0, 7, 7⟩] := by
    cbv
  refine ⟨hRange, ?_⟩
  rw [← hSort]
  exact
    (decode_encodedMappings
      ⟨"out.js", none, [], [], [], tiedMappings⟩ hRange).1

end MapBuilder

end TracedScript
