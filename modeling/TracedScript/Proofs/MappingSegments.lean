import TracedScript.Proofs.MappingForm
import TracedScript.Proofs.VlqNumerals

/-
  Which texts are read as mappings, and what is wrong with the
  others.

  A text is seen as the list of its segments. Whether one of
  them can be read depends on its numbers and on sums over the
  segments before it; the first one that cannot be read is the
  one that is reported.

  Key definitions include:
    * `Mapping.segments`: the segments of a text, with lines.
    * `Mapping.totalsAfter`: sums over some segments.
    * `Mapping.Accepts`, `Mapping.Rejects`
    * `Mapping.places`: what some segments lead to.

  Main declarations:
    * `Mapping.separatedInduction`
    * `Mapping.prefix_segmentsAt_iff`: where segments stand.
    * `Mapping.decodeSegment_cases`: reading one segment.
    * `Mapping.explains_decodeFrom`: reading a whole text.
    * `Mapping.decode_iff_segments`
-/

------------------------------------------------------------
-- Segments of a Text
------------------------------------------------------------

namespace TracedScript

namespace Mapping

/- A segment, with its generated line. -/
structure Segment where
  line : Nat
  text : List Char
deriving DecidableEq, Repr

/- The segments of some lines; empty ones are left out. -/
def segmentsOf (line : Nat) : List (List Char) → List Segment
  | [] => []
  | text :: texts =>
      ((List.splitOn ',' text).filter (· ≠ [])).map (Segment.mk line)
        ++ segmentsOf (line + 1) texts

/- The segments of a text that begins on a line. -/
def segmentsAt (line : Nat) (text : List Char) : List Segment :=
  segmentsOf line (List.splitOn ';' text)

/- The segments of a text. -/
def segments (text : String) : List Segment :=
  segmentsAt 0 text.toList

/- A text without separators. -/
def Unseparated (run : List Char) : Prop :=
  ',' ∉ run ∧ ';' ∉ run

/- What stands between two segments. -/
def IsSeparator (c : Char) : Prop :=
  c = ',' ∨ c = ';'

/- The line after a separator. -/
def lineAfter (line : Nat) (separator : Char) : Nat :=
  if separator = ';' then line + 1 else line

/- The only segment of a text without separators, or none. -/
def here (line : Nat) (run : List Char) : List Segment :=
  if run = [] then [] else [⟨line, run⟩]

theorem here_of_ne_nil
    (line : Nat)
    {run : List Char}
    (hRun : run ≠ []) :
    here line run = [⟨line, run⟩] :=
  if_neg hRun

theorem map_filter_cons
    (line : Nat)
    (run : List Char)
    (parts : List (List Char)) :
    ((run :: parts).filter (· ≠ [])).map (Segment.mk line) =
      here line run
        ++ (parts.filter (· ≠ [])).map (Segment.mk line) := by
  by_cases hEmpty : run = []
  · simp [here, hEmpty]
  · simp [here, hEmpty]

theorem segmentsAt_unseparated
    (line : Nat)
    {run : List Char}
    (hRun : Unseparated run) :
    segmentsAt line run = here line run := by
  rw [segmentsAt, List.splitOn_eq_singleton hRun.2, segmentsOf,
    List.splitOn_eq_singleton hRun.1, map_filter_cons, segmentsOf]
  simp

theorem segmentsAt_separator
    (line : Nat)
    {run : List Char}
    {separator : Char}
    (hRun : Unseparated run)
    (hSeparator : IsSeparator separator)
    (rest : List Char) :
    segmentsAt line (run ++ separator :: rest) =
      here line run
        ++ segmentsAt (lineAfter line separator) rest := by
  rcases Text.exists_splitOn_eq_cons ';' rest with
    ⟨first, others, hSplit⟩
  rcases hSeparator with rfl | rfl
  · have hComma :
        List.splitOn ';' (',' :: rest) = (',' :: first) :: others :=
      Text.splitOn_cons (by decide) hSplit
    rw [segmentsAt, Text.splitOn_append hRun.2 hComma, segmentsOf,
      List.splitOn_append_cons_self_of_not_mem hRun.1, map_filter_cons,
      segmentsAt, hSplit, segmentsOf, List.append_assoc]
    rfl
  · rw [segmentsAt, List.splitOn_append_cons_self_of_not_mem hRun.2, segmentsOf,
      List.splitOn_eq_singleton hRun.1, map_filter_cons,
      List.filter_nil, List.map_nil, List.append_nil]
    rfl

/-
  A text has no separators, or a text without separators
  stands before its first one.
-/
theorem separatedInduction
    {motive : List Char → Prop}
    (run : ∀ run, Unseparated run → motive run)
    (separator : ∀ run separator rest,
      Unseparated run → IsSeparator separator →
        motive rest → motive (run ++ separator :: rest))
    (text : List Char) :
    motive text := by
  have hAll (front : List Char) (hFront : Unseparated front) :
      motive (front ++ text) := by
    induction text generalizing front with
    | nil =>
        rw [List.append_nil]
        exact run front hFront
    | cons c rest ih =>
        by_cases hSeparator : IsSeparator c
        · have hRest : motive rest := ih [] (by simp [Unseparated])
          exact separator front c rest hFront hSeparator hRest
        · rw [← List.singleton_append, ← List.append_assoc]
          apply ih
          unfold IsSeparator at hSeparator
          unfold Unseparated at hFront ⊢
          simp only [List.mem_append, List.mem_singleton]
          grind
  exact hAll [] (by simp [Unseparated])

------------------------------------------------------------
-- Where Segments Stand
------------------------------------------------------------

/- A text that a segment can stand after. -/
def OpensSegment (text : List Char) : Prop :=
  text = [] ∨ text.getLast? = some ',' ∨ text.getLast? = some ';'

/-
  A segment of a text with a part of the text before it. It
  reaches from one separator to the next one.
-/
structure Stands
    (line : Nat)
    (text before : List Char)
    (segment : Segment) :
    Prop where
  nonempty : segment.text ≠ []
  unseparated : Unseparated segment.text
  opened : OpensSegment before
  ended : ∃ after,
    EndsSegment after ∧ text = before ++ (segment.text ++ after)
  counted : segment.line = line + before.count ';'

theorem endsSegment_iff
    (text : List Char) :
    EndsSegment text ↔
      text = []
        ∨ ∃ separator rest,
          IsSeparator separator ∧ text = separator :: rest := by
  cases text with
  | nil => simp [EndsSegment]
  | cons c rest => simp [EndsSegment, IsSeparator]

theorem endsSegment_separator
    {separator : Char}
    (hSeparator : IsSeparator separator)
    (rest : List Char) :
    EndsSegment (separator :: rest) :=
  (endsSegment_iff _).mpr
    (Or.inr ⟨separator, rest, hSeparator, rfl⟩)

/- The end of a text decides whether a segment can follow. -/
theorem opensSegment_separator_iff
    (run text : List Char)
    {separator : Char}
    (hSeparator : IsSeparator separator) :
    OpensSegment (run ++ separator :: text) ↔
      OpensSegment text := by
  unfold IsSeparator at hSeparator
  unfold OpensSegment
  by_cases hEmpty : text = []
  · simpa [hEmpty] using hSeparator
  · rw [List.getLast?_append_of_ne_nil _ (List.cons_ne_nil _ _),
      List.getLast?_cons_of_ne_nil hEmpty]
    simp [hEmpty]

/- Without a separator, only the start is before a segment. -/
theorem OpensSegment.eq_nil
    {run : List Char}
    (hOpens : OpensSegment run)
    (hRun : Unseparated run) :
    run = [] := by
  rcases hOpens with hEmpty | hComma | hSemicolon
  · exact hEmpty
  · exact absurd (List.mem_of_getLast? hComma) hRun.1
  · exact absurd (List.mem_of_getLast? hSemicolon) hRun.2

theorem count_semicolon_separator
    (line : Nat)
    {run : List Char}
    {separator : Char}
    (hRun : Unseparated run)
    (hSeparator : IsSeparator separator)
    (text : List Char) :
    line + (run ++ separator :: text).count ';' =
      lineAfter line separator + text.count ';' := by
  have hCount : run.count ';' = 0 :=
    List.count_eq_zero.mpr hRun.2
  rcases hSeparator with rfl | rfl
  · simp [hCount, lineAfter]
  · simp [hCount, lineAfter]
    omega

/- A segment stands in a text as it does after a separator. -/
theorem stands_separator_iff
    {line : Nat}
    {run rest before : List Char}
    {separator : Char}
    {segment : Segment}
    (hRun : Unseparated run)
    (hSeparator : IsSeparator separator) :
    Stands line (run ++ separator :: rest)
        (run ++ separator :: before) segment ↔
      Stands (lineAfter line separator) rest before segment := by
  have hCount :=
    count_semicolon_separator line hRun hSeparator before
  have hOpens :=
    opensSegment_separator_iff run before hSeparator
  constructor
  · rintro ⟨hNonempty, hUnseparated, hOpened, ⟨after, hAfter, hText⟩,
      hLine⟩
    refine ⟨hNonempty, hUnseparated, hOpens.mp hOpened, ?_, ?_⟩
    · refine ⟨after, hAfter, ?_⟩
      simpa using hText
    · rw [hLine, hCount]
  · rintro ⟨hNonempty, hUnseparated, hOpened, ⟨after, hAfter, hText⟩,
      hLine⟩
    refine ⟨hNonempty, hUnseparated, hOpens.mpr hOpened, ?_, ?_⟩
    · refine ⟨after, hAfter, ?_⟩
      simp [hText]
    · rw [hLine, hCount]

theorem prefix_here_append_iff
    {line : Nat}
    {run : List Char}
    {front more : List Segment}
    {segment : Segment} :
    front ++ [segment] <+: here line run ++ more ↔
      (front = [] ∧ run ≠ [] ∧ segment = ⟨line, run⟩)
        ∨ ∃ later,
          front = here line run ++ later
            ∧ later ++ [segment] <+: more := by
  by_cases hEmpty : run = []
  · simp [here, hEmpty]
  · cases front with
    | nil => simp [here, hEmpty]
    | cons first front =>
        simp [here, hEmpty, List.cons_prefix_cons]

theorem stands_of_prefix
    {line : Nat}
    {text : List Char}
    {front : List Segment}
    {segment : Segment}
    (hPrefix : front ++ [segment] <+: segmentsAt line text) :
    ∃ before,
      Stands line text before segment
        ∧ front = segmentsAt line before := by
  induction text using separatedInduction
      generalizing line front with
  | run run hRun =>
      rw [segmentsAt_unseparated line hRun,
        ← List.append_nil (here line run),
        prefix_here_append_iff] at hPrefix
      rcases hPrefix with ⟨rfl, hNonempty, rfl⟩ | ⟨later, _, hLater⟩
      · refine ⟨[], ⟨hNonempty, hRun, Or.inl rfl, ?_, rfl⟩, rfl⟩
        exact ⟨[], Or.inl rfl, by simp⟩
      · simp at hLater
  | separator run separator rest hRun hSeparator ih =>
      rw [segmentsAt_separator line hRun hSeparator,
        prefix_here_append_iff] at hPrefix
      rcases hPrefix with
        ⟨rfl, hNonempty, rfl⟩ | ⟨later, rfl, hLater⟩
      · refine ⟨[], ⟨hNonempty, hRun, Or.inl rfl, ?_, rfl⟩, rfl⟩
        exact
          ⟨separator :: rest, endsSegment_separator hSeparator rest,
            rfl⟩
      · rcases ih hLater with ⟨before, hStands, rfl⟩
        refine ⟨run ++ separator :: before, ?_, ?_⟩
        · exact (stands_separator_iff hRun hSeparator).mpr hStands
        · rw [segmentsAt_separator line hRun hSeparator]

theorem prefix_of_stands
    {line : Nat}
    {text before : List Char}
    {segment : Segment}
    (hStands : Stands line text before segment) :
    segmentsAt line before ++ [segment] <+: segmentsAt line text := by
  induction before using separatedInduction
      generalizing line text with
  | run run hRun =>
      have hEmpty := hStands.opened.eq_nil hRun
      subst hEmpty
      rcases hStands.ended with ⟨after, hAfter, rfl⟩
      have hSegment :
          here line segment.text = [segment] := by
        rw [here_of_ne_nil line hStands.nonempty]
        congr 1
        exact congrArg (Segment.mk · segment.text)
          hStands.counted.symm
      change [segment] <+: segmentsAt line (segment.text ++ after)
      rcases (endsSegment_iff after).mp hAfter with
        rfl | ⟨separator, rest, hSeparator, rfl⟩
      · rw [List.append_nil,
          segmentsAt_unseparated line hStands.unseparated, hSegment]
      · rw [segmentsAt_separator line hStands.unseparated
          hSeparator, hSegment]
        exact List.prefix_append _ _
  | separator run separator rest hRun hSeparator ih =>
      rcases hStands.ended with ⟨after, _, rfl⟩
      rw [List.append_assoc, List.cons_append] at hStands ⊢
      rw [stands_separator_iff hRun hSeparator] at hStands
      rw [segmentsAt_separator line hRun hSeparator,
        segmentsAt_separator line hRun hSeparator,
        List.append_assoc, List.prefix_append_right_inj]
      exact ih hStands

/-
  The segments up to one of them are those of the text before
  it and that one.
-/
theorem prefix_segmentsAt_iff
    (line : Nat)
    (text : List Char)
    (front : List Segment)
    (segment : Segment) :
    front ++ [segment] <+: segmentsAt line text ↔
      ∃ before,
        Stands line text before segment
          ∧ front = segmentsAt line before := by
  constructor
  · exact stands_of_prefix
  · rintro ⟨before, hStands, rfl⟩
    exact prefix_of_stands hStands

------------------------------------------------------------
-- Totals
------------------------------------------------------------

/- The numbers of a segment; none if it has anything else. -/
def Segment.fields (segment : Segment) : List Int :=
  (Vlq.decodeAll? segment.text).getD []

/- Four or five numbers lead to a place in a source. -/
def Segment.HasSource (segment : Segment) : Prop :=
  segment.fields.length = 4 ∨ segment.fields.length = 5

instance
    (segment : Segment) :
    Decidable segment.HasSource := by
  unfold Segment.HasSource
  infer_instance

/- The sum of the numbers at one place of some segments. -/
def sumAt (index : Nat) (segments : List Segment) : Int :=
  (segments.map fun segment =>
    (segment.fields)[index]?.getD 0).sum

/-
  The totals on a line after some segments: the columns of
  that line are added up, and the places in the sources of all
  lines.
-/
def totalsAfter
    (line : Nat)
    (segments : List Segment) :
    Totals where
  column := sumAt 0 (segments.filter (·.line = line))
  source := sumAt 1 (segments.filter (·.HasSource))
  sourceLine := sumAt 2 (segments.filter (·.HasSource))
  sourceColumn := sumAt 3 (segments.filter (·.HasSource))

theorem totalsAfter_nil
    (line : Nat) :
    totalsAfter line [] = .zero := rfl

@[simp] theorem sumAt_concat
    (index : Nat)
    (front : List Segment)
    (segment : Segment) :
    sumAt index (front ++ [segment]) =
      sumAt index front + (segment.fields)[index]?.getD 0 := by
  simp [sumAt]

/- A single number moves the column only. -/
theorem totalsAfter_concat_column
    (front : List Segment)
    {segment : Segment}
    {column : Int}
    (hFields : segment.fields = [column]) :
    totalsAfter segment.line (front ++ [segment]) =
      { totalsAfter segment.line front with
        column :=
          (totalsAfter segment.line front).column + column } := by
  have hSource : ¬ segment.HasSource := by
    simp [Segment.HasSource, hFields]
  simp [totalsAfter, List.filter_append, hSource, hFields]

theorem totalsAfter_concat_source
    (front : List Segment)
    {segment : Segment}
    {column source sourceLine sourceColumn : Int}
    {more : List Int}
    (hFields :
      segment.fields =
        column :: source :: sourceLine :: sourceColumn :: more)
    (hMore : more.length ≤ 1) :
    totalsAfter segment.line (front ++ [segment]) =
      ⟨(totalsAfter segment.line front).column + column,
        (totalsAfter segment.line front).source + source,
        (totalsAfter segment.line front).sourceLine + sourceLine,
        (totalsAfter segment.line front).sourceColumn
          + sourceColumn⟩ := by
  have hSource : segment.HasSource := by
    simp only [Segment.HasSource, hFields, List.length_cons]
    omega
  simp [totalsAfter, List.filter_append, hSource, hFields]

/- On a line without segments so far the column is zero. -/
theorem totalsAfter_lineAfter
    {line : Nat}
    {front : List Segment}
    (hLines : ∀ segment ∈ front, segment.line ≤ line)
    (separator : Char) :
    totalsAfter (lineAfter line separator) front =
      if separator = ';' then (totalsAfter line front).newLine
      else totalsAfter line front := by
  by_cases hSeparator : separator = ';'
  · have hNone :
        front.filter (·.line = line + 1) = [] := by
      rw [List.filter_eq_nil_iff]
      intro segment hSegment
      have hLine := hLines segment hSegment
      simp only [decide_eq_true_eq]
      omega
    rw [lineAfter, if_pos hSeparator, if_pos hSeparator,
      totalsAfter, hNone]
    rfl
  · rw [lineAfter, if_neg hSeparator, if_neg hSeparator]

------------------------------------------------------------
-- Reading One Segment
------------------------------------------------------------

/-
  A segment after some others is made up of one number, or of
  four or five numbers that lead to totals in range.
-/
def Accepts
    (front : List Segment)
    (segment : Segment) :
    Prop :=
  (Vlq.decodeAll? segment.text).isSome
    ∧ (segment.fields.length = 1
      ∨ segment.HasSource
        ∧ (totalsAfter segment.line
          (front ++ [segment])).InRange)

/- What is wrong with a segment after some others. -/
inductive Rejects
    (front : List Segment)
    (segment : Segment) :
    Cause → Prop where
  | invalidVlq
      (hNumbers : Vlq.decodeAll? segment.text = none) :
      Rejects front segment .invalidVlq
  | fieldCount
      (hNumbers : (Vlq.decodeAll? segment.text).isSome)
      (hCount :
        ¬ (segment.fields.length = 1 ∨ segment.HasSource)) :
      Rejects front segment (.fieldCount segment.fields.length)
  | outOfRange
      (hNumbers : (Vlq.decodeAll? segment.text).isSome)
      (hSource : segment.HasSource)
      (hRange :
        ¬ (totalsAfter segment.line
          (front ++ [segment])).InRange) :
      Rejects front segment .outOfRange

variable {front : List Segment} {segment : Segment}

theorem Accepts.not_rejects
    (hAccepts : Accepts front segment)
    {cause : Cause} :
    ¬ Rejects front segment cause := by
  intro hRejects
  rcases hAccepts with ⟨hNumbers, hFields⟩
  cases hRejects with
  | invalidVlq hNone =>
      rw [hNone] at hNumbers
      cases hNumbers
  | fieldCount _ hCount =>
      exact hCount (hFields.imp_right And.left)
  | outOfRange _ hSource hRange =>
      rcases hFields with hOne | ⟨_, hInRange⟩
      · unfold Segment.HasSource at hSource
        omega
      · exact hRange hInRange

/- A segment is rejected for one cause only. -/
theorem Rejects.unique
    {cause other : Cause}
    (hCause : Rejects front segment cause)
    (hOther : Rejects front segment other) :
    cause = other := by
  cases hCause with
  | invalidVlq hNone =>
      cases hOther with
      | invalidVlq => rfl
      | fieldCount hNumbers => simp [hNone] at hNumbers
      | outOfRange hNumbers => simp [hNone] at hNumbers
  | fieldCount hNumbers hCount =>
      cases hOther with
      | invalidVlq hNone => simp [hNone] at hNumbers
      | fieldCount => rfl
      | outOfRange _ hSource => exact absurd (Or.inr hSource) hCount
  | outOfRange hNumbers hSource =>
      cases hOther with
      | invalidVlq hNone => simp [hNone] at hNumbers
      | fieldCount _ hCount => exact absurd (Or.inr hSource) hCount
      | outOfRange => rfl

/- The line and the totals that make up a mapping. -/
def place (mapping : Mapping) : Nat × Totals :=
  (mapping.generatedLine, mapping.totals)

/- What the last of some segments leads to, if it has a source. -/
def placeOfLast? (segments : List Segment) : Option (Nat × Totals) :=
  segments.getLast?.bind fun last =>
    if last.HasSource then
      some (last.line, totalsAfter last.line segments)
    else none

/-
  What some segments lead to: each segment with a source
  stands for the totals up to it.
-/
def places (segments : List Segment) : List (Nat × Totals) :=
  segments.inits.filterMap placeOfLast?

theorem places_concat
    (front : List Segment)
    (segment : Segment) :
    places (front ++ [segment]) =
      places front ++ (placeOfLast? (front ++ [segment])).toList := by
  unfold places
  rw [List.inits_append, List.filterMap_append]
  cases hPlace : placeOfLast? (front ++ [segment]) with
  | none => simp [hPlace]
  | some found => simp [hPlace]

theorem placeOfLast?_concat
    (front : List Segment)
    (segment : Segment) :
    placeOfLast? (front ++ [segment]) =
      if segment.HasSource then
        some
          (segment.line,
            totalsAfter segment.line (front ++ [segment]))
      else none := by
  simp [placeOfLast?]

/- There is a mapping at all totals in range, and no others. -/
theorem isSome_ofTotals?_iff
    (line : Nat)
    (totals : Totals) :
    (ofTotals? line totals).isSome ↔ totals.InRange := by
  constructor
  · intro hSome
    rcases Option.isSome_iff_exists.mp hSome with
      ⟨mapping, hMapping⟩
    exact (ofTotals?_eq_some hMapping).2.2
  · rintro ⟨hColumn, hSource, hSourceLine, hSourceColumn⟩
    simp [ofTotals?, inRange?, hColumn, hSource, hSourceLine,
      hSourceColumn]

theorem fields_of_decodeAll?
    {numbers : List Int}
    (hNumbers : Vlq.decodeAll? segment.text = some numbers) :
    segment.fields = numbers := by
  rw [Segment.fields, hNumbers, Option.getD_some]

theorem decodeAll?_of_isSome
    (hNumbers : (Vlq.decodeAll? segment.text).isSome) :
    Vlq.decodeAll? segment.text = some segment.fields := by
  rcases Option.isSome_iff_exists.mp hNumbers with
    ⟨numbers, hSome⟩
  rw [hSome, fields_of_decodeAll? hSome]

theorem Segment.HasSource.exists_fields
    (hSource : segment.HasSource) :
    ∃ column source sourceLine sourceColumn more,
      segment.fields =
          column :: source :: sourceLine :: sourceColumn :: more
        ∧ more.length ≤ 1 := by
  unfold Segment.HasSource at hSource
  rcases hFields : segment.fields with
    _ | ⟨column, _ | ⟨source, _ | ⟨sourceLine, _ |
      ⟨sourceColumn, more⟩⟩⟩⟩
  all_goals
    simp only [hFields, List.length_cons, List.length_nil] at hSource
  · omega
  · omega
  · omega
  · omega
  · exact
      ⟨column, source, sourceLine, sourceColumn, more, rfl,
        by omega⟩

/- A segment with a source is read if its totals are in range. -/
theorem decodeSegment_of_hasSource
    (front : List Segment)
    (hNumbers : (Vlq.decodeAll? segment.text).isSome)
    (hSource : segment.HasSource) :
    decodeSegment segment.line (totalsAfter segment.line front)
        segment.text =
      (ofTotals? segment.line
        (totalsAfter segment.line (front ++ [segment]))).elim
          (.error
            ⟨String.ofList segment.text, segment.line,
              .outOfRange⟩)
          (fun mapping =>
            .ok
              (totalsAfter segment.line (front ++ [segment]),
                some mapping)) := by
  rcases hSource.exists_fields with
    ⟨column, source, sourceLine, sourceColumn, more, hFields,
      hMore⟩
  have hDecode := decodeAll?_of_isSome hNumbers
  rw [hFields] at hDecode
  rw [totalsAfter_concat_source front hFields hMore]
  simp only [decodeSegment, hDecode,
    if_neg (by omega : ¬ 1 < more.length)]
  split
  · next hNone => rw [hNone, Option.elim_none]
  · next hSome => rw [hSome, Option.elim_some]

/- Other numbers of numbers are rejected, apart from a single one. -/
theorem decodeSegment_of_count
    (line : Nat)
    (totals : Totals)
    (hNumbers : (Vlq.decodeAll? segment.text).isSome)
    (hCount : ¬ (segment.fields.length = 1 ∨ segment.HasSource)) :
    decodeSegment line totals segment.text =
      .error
        ⟨String.ofList segment.text, line,
          .fieldCount segment.fields.length⟩ := by
  have hDecode := decodeAll?_of_isSome hNumbers
  unfold Segment.HasSource at hCount
  rcases hFields : segment.fields with
    _ | ⟨column, _ | ⟨source, _ | ⟨sourceLine, _ |
      ⟨sourceColumn, more⟩⟩⟩⟩
  all_goals
    rw [hFields] at hDecode hCount
    simp only [decodeSegment, hDecode]
  · exact absurd (Or.inl rfl) hCount
  · simp only [List.length_cons] at hCount
    rw [if_pos (by omega)]

/-
  One step of the reader: a segment that is accepted moves the
  totals on and adds what it leads to; any other segment is
  reported with its cause.
-/
theorem decodeSegment_cases
    (front : List Segment)
    (segment : Segment) :
    (Accepts front segment
        ∧ ∃ found : Option Mapping,
          decodeSegment segment.line
              (totalsAfter segment.line front) segment.text =
            .ok
              (totalsAfter segment.line (front ++ [segment]), found)
          ∧ places (front ++ [segment]) =
            places front ++ found.toList.map place)
      ∨ ∃ cause,
        Rejects front segment cause
          ∧ decodeSegment segment.line
              (totalsAfter segment.line front) segment.text =
            .error
              ⟨String.ofList segment.text, segment.line, cause⟩ := by
  by_cases hNumbers : (Vlq.decodeAll? segment.text).isSome
  · by_cases hSource : segment.HasSource
    · have hRead := decodeSegment_of_hasSource front hNumbers hSource
      have hRange :=
        isSome_ofTotals?_iff segment.line
          (totalsAfter segment.line (front ++ [segment]))
      cases hMapping :
          ofTotals? segment.line
            (totalsAfter segment.line (front ++ [segment])) with
      | none =>
          right
          rw [hMapping, Option.elim_none] at hRead
          refine ⟨.outOfRange, ?_, hRead⟩
          apply Rejects.outOfRange hNumbers hSource
          simpa [hMapping] using hRange
      | some mapping =>
          left
          rw [hMapping, Option.elim_some] at hRead
          rcases ofTotals?_eq_some hMapping with
            ⟨hLine, hTotals, hInRange⟩
          refine
            ⟨⟨hNumbers, Or.inr ⟨hSource, hInRange⟩⟩, some mapping,
              hRead, ?_⟩
          rw [places_concat, placeOfLast?_concat, if_pos hSource]
          simp [place, hLine, hTotals]
    · by_cases hOne : segment.fields.length = 1
      · left
        rcases List.length_eq_one_iff.mp hOne with
          ⟨column, hFields⟩
        have hDecode := decodeAll?_of_isSome hNumbers
        rw [hFields] at hDecode
        refine ⟨⟨hNumbers, Or.inl hOne⟩, none, ?_, ?_⟩
        · rw [totalsAfter_concat_column front hFields]
          simp only [decodeSegment, hDecode]
        · rw [places_concat, placeOfLast?_concat, if_neg hSource]
          rfl
      · right
        have hCount :
            ¬ (segment.fields.length = 1 ∨ segment.HasSource) :=
          not_or.mpr ⟨hOne, hSource⟩
        exact
          ⟨_, .fieldCount hNumbers hCount,
            decodeSegment_of_count _ _ hNumbers hCount⟩
  · right
    have hNone : Vlq.decodeAll? segment.text = none := by
      simpa using hNumbers
    refine ⟨.invalidVlq, .invalidVlq hNone, ?_⟩
    simp only [decodeSegment, hNone]

------------------------------------------------------------
-- Reading a Text
------------------------------------------------------------

/- Every segment is accepted after those before it. -/
def Readable (segments : List Segment) : Prop :=
  ∀ front segment,
    front ++ [segment] <+: segments → Accepts front segment

/- The first segment that is rejected, as it is reported. -/
def FirstFault
    (segments : List Segment)
    (fault : Fault) :
    Prop :=
  ∃ front segment,
    front ++ [segment] <+: segments
      ∧ Readable front
      ∧ Rejects front segment fault.cause
      ∧ fault.segment = String.ofList segment.text
      ∧ fault.line = segment.line

theorem readable_nil : Readable [] := by
  intro front segment hPrefix
  simp at hPrefix

theorem Readable.concat
    (hFront : Readable front)
    (hSegment : Accepts front segment) :
    Readable (front ++ [segment]) := by
  intro earlier other hPrefix
  rcases List.prefix_concat_iff.mp hPrefix with hSame | hEarlier
  · rcases List.append_inj' hSame rfl with ⟨rfl, hLast⟩
    cases hLast
    exact hSegment
  · exact hFront earlier other hEarlier

theorem FirstFault.not_readable
    {segments : List Segment}
    {fault : Fault}
    (hFault : FirstFault segments fault) :
    ¬ Readable segments := by
  rcases hFault with ⟨front, segment, hPrefix, _, hRejects, _⟩
  intro hReadable
  exact (hReadable front segment hPrefix).not_rejects hRejects

/- Of two rejected segments, only one has none before it. -/
theorem FirstFault.length_le
    {segments other : List Segment}
    {later : Segment}
    {cause : Cause}
    (hPrefix : front ++ [segment] <+: segments)
    (hOther : other ++ [later] <+: segments)
    (hReadable : Readable other)
    (hRejects : Rejects front segment cause) :
    other.length ≤ front.length := by
  by_contra hLess
  have hEarlier : front ++ [segment] <+: other := by
    apply List.prefix_of_prefix_length_le hPrefix
      ((List.prefix_append other [later]).trans hOther)
    simp only [List.length_append, List.length_singleton]
    omega
  exact
    (hReadable front segment hEarlier).not_rejects hRejects

theorem FirstFault.unique
    {segments : List Segment}
    {fault other : Fault}
    (hFault : FirstFault segments fault)
    (hOther : FirstFault segments other) :
    fault = other := by
  rcases fault with ⟨text, line, cause⟩
  rcases other with ⟨otherText, otherLine, otherCause⟩
  rcases hFault with
    ⟨front, segment, hPrefix, hFront, hCause, rfl, rfl⟩
  rcases hOther with
    ⟨otherFront, otherSegment, hOtherPrefix, hOtherFront,
      hOtherCause, rfl, rfl⟩
  have hLength : front.length = otherFront.length :=
    Nat.le_antisymm
      (FirstFault.length_le hOtherPrefix hPrefix hFront hOtherCause)
      (FirstFault.length_le hPrefix hOtherPrefix hOtherFront hCause)
  have hSame :
      front ++ [segment] = otherFront ++ [otherSegment] := by
    apply (List.prefix_of_prefix_length_le hPrefix hOtherPrefix
      (by simp [hLength])).eq_of_length
    simp [hLength]
  rcases List.append_inj' hSame rfl with ⟨rfl, hLast⟩
  cases hLast
  exact congrArg (Fault.mk _ _) (hCause.unique hOtherCause)

/-
  What reading some segments after others gives: what they
  lead to, or the first one that is rejected.
-/
def Explains
    (front more : List Segment) :
    Except Fault (List Mapping) → Prop
  | .ok mappings =>
      Readable (front ++ more)
        ∧ places (front ++ more) =
          places front ++ mappings.map place
  | .error fault => FirstFault (front ++ more) fault

theorem explains_nil
    (hFront : Readable front) :
    Explains front [] (.ok []) := by
  simpa [Explains] using hFront

theorem Explains.cons
    {more : List Segment}
    {found : Option Mapping}
    {outcome : Except Fault (List Mapping)}
    (hFound :
      places (front ++ [segment]) =
        places front ++ found.toList.map place)
    (hMore : Explains (front ++ [segment]) more outcome) :
    Explains front (segment :: more) (do
      let mappings ← outcome
      pure (found.toList ++ mappings)) := by
  cases outcome with
  | error fault =>
      change FirstFault _ fault at hMore
      change FirstFault _ fault
      rwa [List.append_assoc, List.singleton_append] at hMore
  | ok mappings =>
      rcases hMore with ⟨hReadable, hPlaces⟩
      rw [List.append_assoc, List.singleton_append]
        at hReadable hPlaces
      refine ⟨hReadable, ?_⟩
      rw [hPlaces, hFound, List.map_append, List.append_assoc]

/-
  A text without separators is read after the segments before
  it, and what follows after that.
-/
theorem explains_run
    {line : Nat}
    {run tail : List Char}
    {more : List Segment}
    (hRun : Unseparated run)
    (hEnds : EndsSegment tail)
    (hTail :
      ∀ front, Readable front →
        (∀ segment ∈ front, segment.line ≤ line) →
          Explains front more
            (decodeFrom line (totalsAfter line front) tail))
    (hFront : Readable front)
    (hLines : ∀ segment ∈ front, segment.line ≤ line) :
    Explains front (here line run ++ more)
      (decodeFrom line (totalsAfter line front) (run ++ tail)) := by
  by_cases hEmpty : run = []
  · rw [hEmpty]
    exact hTail front hFront hLines
  · rw [here_of_ne_nil line hEmpty, List.singleton_append,
      decodeFrom_segment line _ hEmpty hRun.1 hRun.2 hEnds]
    rcases decodeSegment_cases front ⟨line, run⟩ with
      ⟨hAccepts, found, hRead, hFound⟩ | ⟨cause, hRejects, hRead⟩
    · rw [hRead]
      apply Explains.cons hFound
      apply hTail _ (hFront.concat hAccepts)
      rw [List.forall_mem_append, List.forall_mem_singleton]
      exact ⟨hLines, Nat.le_refl line⟩
    · rw [hRead]
      refine ⟨front, ⟨line, run⟩, ?_, hFront, hRejects, rfl, rfl⟩
      rw [List.prefix_append_right_inj]
      exact List.prefix_append [_] more

theorem decodeFrom_separator
    (line : Nat)
    (totals : Totals)
    {separator : Char}
    (hSeparator : IsSeparator separator)
    (rest : List Char) :
    decodeFrom line totals (separator :: rest) =
      decodeFrom (lineAfter line separator)
        (if separator = ';' then totals.newLine else totals)
        rest := by
  rcases hSeparator with rfl | rfl
  · exact decodeFrom_comma line totals rest
  · exact decodeFrom_semicolon line totals rest

theorem le_lineAfter
    (line : Nat)
    (separator : Char) :
    line ≤ lineAfter line separator := by
  unfold lineAfter
  split <;> omega

/-
  The whole run of the reader, from one separator to the next.
  The totals that it carries are always those of the segments
  so far.
-/
theorem explains_decodeFrom
    (line : Nat)
    (text : List Char)
    (hFront : Readable front)
    (hLines : ∀ segment ∈ front, segment.line ≤ line) :
    Explains front (segmentsAt line text)
      (decodeFrom line (totalsAfter line front) text) := by
  induction text using separatedInduction
      generalizing line front with
  | run run hRun =>
      have hTail
          (front : List Segment)
          (hFront : Readable front)
          (_ : ∀ segment ∈ front, segment.line ≤ line) :
          Explains front []
            (decodeFrom line (totalsAfter line front) []) :=
        explains_nil hFront
      have hRead :=
        explains_run hRun (Or.inl rfl) hTail hFront hLines
      rwa [List.append_nil, List.append_nil,
        ← segmentsAt_unseparated line hRun] at hRead
  | separator run separator rest hRun hSeparator ih =>
      rw [segmentsAt_separator line hRun hSeparator]
      apply explains_run hRun
        (endsSegment_separator hSeparator rest) ?_ hFront hLines
      intro front hFront hLines
      rw [decodeFrom_separator line _ hSeparator,
        ← totalsAfter_lineAfter hLines separator]
      apply ih _ hFront
      intro segment hSegment
      exact (hLines segment hSegment).trans
        (le_lineAfter line separator)

theorem explains_decode
    (text : String) :
    Explains [] (segments text) (decode text) := by
  rw [decode_eq_decodeFrom, ← totalsAfter_nil 0]
  exact explains_decodeFrom 0 text.toList readable_nil
    (List.forall_mem_nil _)

theorem place_injective : Function.Injective place := by
  rintro ⟨line, column, source, sourceLine, sourceColumn⟩
    ⟨line', column', source', sourceLine', sourceColumn'⟩ hSame
  simp only [place, totals, Prod.mk.injEq, Totals.mk.injEq,
    Nat.cast_inj] at hSame
  simpa using hSame

/-
  A text is read if each of its segments is accepted after
  those before it, and gives what they lead to. Otherwise the
  first segment that is rejected is reported. The segments are
  what stands between two separators, each with the number of
  semicolons before it, and empty ones do not count. Their
  numbers are numerals one after the other; each numeral is cut
  off after its last byte, where another text begins.
-/
theorem decode_iff_segments
    (text : String) :
    (∀ mappings : List Mapping,
        decode text = .ok mappings ↔
          Readable (segments text)
            ∧ mappings.map place = places (segments text))
      ∧ (∀ fault : Fault,
        decode text = .error fault ↔
          FirstFault (segments text) fault)
      ∧ (∀ front segment,
        front ++ [segment] <+: segments text ↔
          ∃ before,
            Stands 0 text.toList before segment
              ∧ front = segmentsAt 0 before)
      ∧ (∀ (chars : List Char) (values : List Int),
        Vlq.decodeAll? chars = some values ↔
          ∃ numerals : List Vlq.Numeral,
            (∀ numeral ∈ numerals,
                numeral.length ≤ Vlq.maxDigits)
              ∧ chars = numerals.flatMap Vlq.Numeral.chars
              ∧ values = numerals.map Vlq.Numeral.value)
      ∧ ∀ part : String, part ≠ "" →
        (Vlq.decodeBytes? part = none →
            Vlq.decodeAll? part.toList = none)
          ∧ ∀ value count,
            Vlq.decodeBytes? part = some (value, count) →
              1 ≤ count
                ∧ count ≤ (Text.bytes part).length
                ∧ ∃ rest : String,
                  (Text.bytes part).drop count = Text.bytes rest
                    ∧ Vlq.decodeAll? part.toList =
                      (Vlq.decodeAll? rest.toList).map
                        (value :: ·) := by
  have hExplains := explains_decode text
  refine
    ⟨?_, ?_, prefix_segmentsAt_iff 0 text.toList,
      fun _ _ => Vlq.decodeAll?_eq_some_iff, ?_⟩
  · intro mappings
    cases hDecode : decode text with
    | ok found =>
        rw [hDecode] at hExplains
        rcases hExplains with ⟨hReadable, hPlaces⟩
        rw [List.nil_append] at hReadable hPlaces
        constructor
        · intro hSame
          cases hSame
          exact ⟨hReadable, hPlaces.symm⟩
        · rintro ⟨_, hSame⟩
          have hFound : found.map place = mappings.map place :=
            hPlaces.symm.trans hSame.symm
          rw [place_injective.list_map hFound]
    | error fault =>
        rw [hDecode] at hExplains
        constructor
        · intro hSame
          cases hSame
        · rintro ⟨hReadable, _⟩
          exact absurd hReadable hExplains.not_readable
  · intro fault
    cases hDecode : decode text with
    | ok found =>
        rw [hDecode] at hExplains
        constructor
        · intro hSame
          cases hSame
        · intro hFault
          exact absurd hExplains.1 hFault.not_readable
    | error first =>
        rw [hDecode] at hExplains
        constructor
        · intro hSame
          cases hSame
          exact hExplains
        · intro hFault
          rw [hFault.unique hExplains]
  · intro part hNonempty
    constructor
    · exact Vlq.decodeAll?_of_decodeBytes?_eq_none hNonempty
    · intro value count hDecode
      exact Vlq.decodeAll?_of_decodeBytes? hDecode

/-
  A column that is negative after a single number is no fault;
  on the next line it is, before a segment that has no numbers
  at all. A number of two digits is cut off before a character
  of two bytes.
-/
theorem decode_iff_segments_negative :
    decode "D,EAAA" = .ok [⟨0, 1, 0, 0, 0⟩]
      ∧ Readable (segments "D,EAAA")
      ∧ decode "D,EAAA;,DAAA,é" =
        .error ⟨"DAAA", 1, .outOfRange⟩
      ∧ FirstFault (segments "D,EAAA;,DAAA,é")
        ⟨"DAAA", 1, .outOfRange⟩
      ∧ "gBé" ≠ ""
      ∧ Vlq.decodeBytes? "gBé" = some (16, 2)
      ∧ ∃ rest : String,
        (Text.bytes "gBé").drop 2 = Text.bytes rest
          ∧ Vlq.decodeAll? "gBé".toList =
            (Vlq.decodeAll? rest.toList).map (16 :: ·) := by
  have hRead : decode "D,EAAA" = .ok [⟨0, 1, 0, 0, 0⟩] := by cbv
  have hUnread :
      decode "D,EAAA;,DAAA,é" =
        .error ⟨"DAAA", 1, .outOfRange⟩ := by
    cbv
  have hPart : Vlq.decodeBytes? "gBé" = some (16, 2) := by cbv
  rcases decode_iff_segments "D,EAAA" with ⟨hOk, _, _, _, hCut⟩
  rcases decode_iff_segments "D,EAAA;,DAAA,é" with ⟨_, hError, _⟩
  refine
    ⟨hRead, ((hOk _).mp hRead).1, hUnread, (hError _).mp hUnread,
      by decide, hPart, ?_⟩
  exact ((hCut "gBé" (by decide)).2 16 2 hPart).2.2

end Mapping

end TracedScript
