import TracedScript.Proofs.MappingSegments

/-
  How far the totals go that a reader of mappings adds up.

  The totals are looked at only after a segment that leads to
  a source. So each of them can leave its range by one number
  before a fault is found, and the column by one more number
  for each segment with a single number.

  Key definitions include:
    * `Mapping.Totals.passed`: the totals that a segment leads
      to, in range or not.
    * `Mapping.trail`: all totals that a reader comes by.
    * `Mapping.singles`: the segments with a single number.

  Main declarations:
    * `Mapping.decodeSegment_eq_ok_cases`: one step.
    * `Mapping.sourcesWithin_trailFrom`
    * `Mapping.columnWithin_trailFrom`
    * `Mapping.trail_fits_words`
-/

------------------------------------------------------------
-- Totals That a Reader Comes By
------------------------------------------------------------

namespace TracedScript

namespace Mapping

/- Adds one, four or five numbers; others are not added. -/
def Totals.add
    (totals : Totals) :
    List Int → Totals
  | [column] =>
      { totals with column := totals.column + column }
  | column :: source :: sourceLine :: sourceColumn :: more =>
      if 1 < more.length then totals
      else
        ⟨totals.column + column,
          totals.source + source,
          totals.sourceLine + sourceLine,
          totals.sourceColumn + sourceColumn⟩
  | _ => totals

/- The totals that a segment leads to, in range or not. -/
def Totals.passed
    (totals : Totals)
    (segment : Segment) :
    Totals :=
  totals.add segment.fields

/-
  All totals that a reader comes by on a line. At a fault it
  stops, after the numbers of the segment were added.
-/
def lineTrail
    (line : Nat) :
    Totals → List (List Char) → List Totals
  | totals, [] => [totals]
  | totals, text :: texts =>
      if text = [] then lineTrail line totals texts
      else
        totals
          :: match decodeSegment line totals text with
            | .error _ => [totals.passed ⟨line, text⟩]
            | .ok (totals, _) => lineTrail line totals texts

/- All totals that a reader comes by from a line on. -/
def trailFrom :
    (line : Nat) → Totals → List (List Char) → List Totals
  | _, _, [] => []
  | line, totals, text :: texts =>
      lineTrail line totals.newLine (List.splitOn ',' text)
        ++ match
            decodeSegments line totals.newLine
              (List.splitOn ',' text) with
          | .error _ => []
          | .ok (totals, _) => trailFrom (line + 1) totals texts

/- All totals that a reader of a text comes by. -/
def trail (text : String) : List Totals :=
  trailFrom 0 .zero (List.splitOn ';' text.toList)

/- The number of segments of a line with a single number. -/
def singles
    (line : Nat)
    (segments : List Segment) :
    Nat :=
  segments.countP fun segment =>
    segment.line = line ∧ segment.fields.length = 1

theorem singles_append
    (line : Nat)
    (front more : List Segment) :
    singles line (front ++ more) =
      singles line front + singles line more :=
  List.countP_append

------------------------------------------------------------
-- One Segment
------------------------------------------------------------

/-
  A segment that is read leads to the totals that it adds up
  to. It has a single number, which is added to the column, or
  its totals are those of a mapping.
-/
theorem decodeSegment_eq_ok_cases
    (segment : Segment)
    {totals next : Totals}
    {found : Option Mapping}
    (hRead :
      decodeSegment segment.line totals segment.text =
        .ok (next, found)) :
    next = totals.passed segment
      ∧ ((segment.fields.length = 1
          ∧ found = none
          ∧ next = { totals with column := next.column })
        ∨ ∃ mapping,
            found = some mapping
              ∧ mapping.totals = next
              ∧ next.InRange) := by
  unfold decodeSegment at hRead
  dsimp only at hRead
  split at hRead
  · cases hRead
  · next values hValues =>
      rw [Totals.passed, fields_of_decodeAll? hValues]
      split at hRead
      · cases hRead
        exact ⟨rfl, Or.inl ⟨rfl, rfl, rfl⟩⟩
      · split at hRead
        · cases hRead
        · next hMore =>
            split at hRead
            · cases hRead
            · next mapping hMapping =>
                cases hRead
                rcases ofTotals?_eq_some hMapping with
                  ⟨_, hTotals, hInRange⟩
                refine
                  ⟨?_, Or.inr ⟨mapping, rfl, hTotals, hInRange⟩⟩
                rw [Totals.add, if_neg hMore]
      · cases hRead

/- A segment out of range leads to totals that are so. -/
theorem not_inRange_passed
    (segment : Segment)
    {totals : Totals}
    {fault : Fault}
    (hRead :
      decodeSegment segment.line totals segment.text =
        .error fault)
    (hCause : fault.cause = .outOfRange) :
    ¬ (totals.passed segment).InRange := by
  unfold decodeSegment at hRead
  dsimp only at hRead
  split at hRead
  · cases hRead
    cases hCause
  · next values hValues =>
      rw [Totals.passed, fields_of_decodeAll? hValues]
      split at hRead
      · cases hRead
      · split at hRead
        · cases hRead
          cases hCause
        · next hMore =>
            split at hRead
            · next hNone =>
                rw [Totals.add, if_neg hMore,
                  ← isSome_ofTotals?_iff segment.line, hNone]
                exact Bool.false_ne_true
            · cases hRead
      · cases hRead
        cases hCause

/- The numbers that are read stay below `2 ^ 59`. -/
theorem natAbs_le_of_mem_fields
    {segment : Segment}
    {number : Int}
    (hNumber : number ∈ segment.fields) :
    number.natAbs ≤ Vlq.maxMagnitude := by
  unfold Segment.fields at hNumber
  cases hValues : Vlq.decodeAll? segment.text with
  | none => simp [hValues] at hNumber
  | some values =>
      rw [hValues, Option.getD_some] at hNumber
      rcases Vlq.decodeAll?_eq_some_iff.mp hValues with
        ⟨numerals, hLengths, _, rfl⟩
      rcases List.mem_map.mp hNumber with
        ⟨numeral, hNumeral, rfl⟩
      have hLess := numeral.number_lt (hLengths numeral hNumeral)
      rw [numeral.natAbs_value]
      unfold Vlq.maxDigits at hLess
      unfold Vlq.maxMagnitude
      omega

/- Two totals are apart by no more than one number each. -/
structure Totals.Near (left right : Totals) : Prop where
  column :
    (right.column - left.column).natAbs ≤ Vlq.maxMagnitude
  source :
    (right.source - left.source).natAbs ≤ Vlq.maxMagnitude
  sourceLine :
    (right.sourceLine - left.sourceLine).natAbs ≤
      Vlq.maxMagnitude
  sourceColumn :
    (right.sourceColumn - left.sourceColumn).natAbs ≤
      Vlq.maxMagnitude

theorem Totals.near_passed
    (totals : Totals)
    (segment : Segment) :
    totals.Near (totals.passed segment) := by
  have hSelf : totals.Near totals := by
    constructor <;> simp
  have hNumbers :
      ∀ number ∈ segment.fields,
        number.natAbs ≤ Vlq.maxMagnitude :=
    fun _ hNumber => natAbs_le_of_mem_fields hNumber
  unfold Totals.passed Totals.add
  split
  · next column hFields =>
      rw [hFields] at hNumbers
      refine { hSelf with column := ?_ }
      simpa using hNumbers
  · next column source sourceLine sourceColumn more hFields =>
      rw [hFields] at hNumbers
      split
      · exact hSelf
      · constructor <;> simp [hNumbers]
  · exact hSelf

------------------------------------------------------------
-- Runs
------------------------------------------------------------

/-
  What holds of all totals on a line: it follows from what
  holds before each segment, and holds of the totals that the
  segment leads to as well.
-/
theorem forall_mem_lineTrail
    {line : Nat}
    (holds : Totals → List (List Char) → Prop)
    {reached : Totals → Prop}
    (hHere : ∀ totals texts, holds totals texts → reached totals)
    (hPassed : ∀ totals text texts,
      holds totals (text :: texts) →
        reached (totals.passed ⟨line, text⟩))
    (hEmpty : ∀ totals texts,
      holds totals ([] :: texts) → holds totals texts)
    (hRead : ∀ totals text texts next found,
      text ≠ [] → holds totals (text :: texts) →
        decodeSegment line totals text = .ok (next, found) →
          holds next texts)
    {totals : Totals}
    {texts : List (List Char)}
    (hStart : holds totals texts) :
    ∀ entry ∈ lineTrail line totals texts, reached entry := by
  induction texts generalizing totals with
  | nil =>
      rw [lineTrail, List.forall_mem_singleton]
      exact hHere totals [] hStart
  | cons text texts ih =>
      rw [lineTrail]
      split
      · next hText =>
          rw [hText] at hStart
          exact ih (hEmpty totals texts hStart)
      · next hText =>
          rw [List.forall_mem_cons]
          refine ⟨hHere totals _ hStart, ?_⟩
          split
          · rw [List.forall_mem_singleton]
            exact hPassed totals text texts hStart
          · next hDecode =>
              exact ih (hRead _ _ _ _ _ hText hStart hDecode)

------------------------------------------------------------
-- Places in Sources
------------------------------------------------------------

/- The place in a source lies between two numbers. -/
structure Totals.SourcesWithin
    (low high : Int)
    (totals : Totals) :
    Prop where
  source : low ≤ totals.source ∧ totals.source ≤ high
  sourceLine :
    low ≤ totals.sourceLine ∧ totals.sourceLine ≤ high
  sourceColumn :
    low ≤ totals.sourceColumn ∧ totals.sourceColumn ≤ high

theorem Totals.SourcesWithin.mono
    {low high lower higher : Int}
    {totals : Totals}
    (hTotals : totals.SourcesWithin low high)
    (hLow : lower ≤ low)
    (hHigh : high ≤ higher) :
    totals.SourcesWithin lower higher := by
  rcases hTotals with ⟨hSource, hSourceLine, hSourceColumn⟩
  constructor <;> omega

theorem Totals.InRange.sourcesWithin
    {totals : Totals}
    (hTotals : totals.InRange) :
    totals.SourcesWithin 0 (2 ^ 32 - 1) := by
  rcases hTotals with ⟨_, hSource, hSourceLine, hSourceColumn⟩
  unfold bound at hSource hSourceLine hSourceColumn
  constructor <;> omega

theorem Totals.SourcesWithin.near
    {low high : Int}
    {before after : Totals}
    (hBefore : before.SourcesWithin low high)
    (hNear : before.Near after) :
    after.SourcesWithin (low - (2 ^ 59 - 1))
      (high + (2 ^ 59 - 1)) := by
  rcases hBefore with ⟨hSource, hSourceLine, hSourceColumn⟩
  rcases hNear with ⟨_, hNear, hNearLine, hNearColumn⟩
  unfold Vlq.maxMagnitude at hNear hNearLine hNearColumn
  constructor <;> omega

/- After a segment that is read, places in sources are in range. -/
theorem Totals.SourcesWithin.read
    {line : Nat}
    {totals next : Totals}
    {text : List Char}
    {found : Option Mapping}
    (hTotals : totals.SourcesWithin 0 (2 ^ 32 - 1))
    (hRead :
      decodeSegment line totals text = .ok (next, found)) :
    next.SourcesWithin 0 (2 ^ 32 - 1) := by
  rcases (decodeSegment_eq_ok_cases ⟨line, text⟩ hRead).2 with
    ⟨_, _, hNext⟩ | ⟨_, _, _, hInRange⟩
  · rw [hNext]
    exact ⟨hTotals.source, hTotals.sourceLine,
      hTotals.sourceColumn⟩
  · exact hInRange.sourcesWithin

theorem Totals.SourcesWithin.readLine
    {line : Nat}
    {totals next : Totals}
    {texts : List (List Char)}
    {mappings : List Mapping}
    (hTotals : totals.SourcesWithin 0 (2 ^ 32 - 1))
    (hRead :
      decodeSegments line totals texts = .ok (next, mappings)) :
    next.SourcesWithin 0 (2 ^ 32 - 1) := by
  induction texts generalizing totals mappings with
  | nil =>
      cases hRead
      exact hTotals
  | cons text texts ih =>
      by_cases hText : text = []
      · rw [hText, decodeSegments_nil_cons] at hRead
        exact ih hTotals hRead
      · rcases decodeSegments_cons_eq_ok hText hRead with
          ⟨middle, found, more, hFirst, hRest, _⟩
        exact ih (hTotals.read hFirst) hRest

/- Only the last number added can lead out of range. -/
theorem sourcesWithin_trailFrom
    (line : Nat)
    (texts : List (List Char))
    {totals : Totals}
    (hTotals : totals.SourcesWithin 0 (2 ^ 32 - 1)) :
    ∀ entry ∈ trailFrom line totals texts,
      entry.SourcesWithin (-(2 ^ 59 - 1))
        ((2 ^ 32 - 1) + (2 ^ 59 - 1)) := by
  induction texts generalizing line totals with
  | nil => exact List.forall_mem_nil _
  | cons text texts ih =>
      have hLine : totals.newLine.SourcesWithin 0 (2 ^ 32 - 1) :=
        ⟨hTotals.source, hTotals.sourceLine, hTotals.sourceColumn⟩
      rw [trailFrom, List.forall_mem_append]
      constructor
      · refine forall_mem_lineTrail
          (fun totals _ => totals.SourcesWithin 0 (2 ^ 32 - 1))
          ?_ ?_ ?_ ?_ hLine
        · intro totals _ hTotals
          exact hTotals.mono (by decide) (by decide)
        · intro totals text _ hTotals
          exact hTotals.near (totals.near_passed _)
        · intro totals _ hTotals
          exact hTotals
        · intro totals text _ next found _ hTotals hRead
          exact hTotals.read hRead
      · split
        · exact List.forall_mem_nil _
        · next hRead => exact ih _ (hLine.readLine hRead)

------------------------------------------------------------
-- Columns
------------------------------------------------------------

/- The column is in range, but for some numbers. -/
def Totals.ColumnWithin
    (count : Nat)
    (totals : Totals) :
    Prop :=
  -(count * (2 ^ 59 - 1)) ≤ totals.column
    ∧ totals.column ≤ (2 ^ 32 - 1) + count * (2 ^ 59 - 1)

theorem Totals.ColumnWithin.mono
    {count more : Nat}
    {totals : Totals}
    (hTotals : totals.ColumnWithin count)
    (hMore : count ≤ more) :
    totals.ColumnWithin more := by
  unfold Totals.ColumnWithin at *
  omega

theorem Totals.ColumnWithin.near
    {count : Nat}
    {before after : Totals}
    (hBefore : before.ColumnWithin count)
    (hNear : before.Near after) :
    after.ColumnWithin (count + 1) := by
  have hColumn := hNear.column
  unfold Vlq.maxMagnitude at hColumn
  unfold Totals.ColumnWithin at *
  omega

theorem Totals.InRange.columnWithin
    {totals : Totals}
    (hTotals : totals.InRange)
    (count : Nat) :
    totals.ColumnWithin count := by
  have hColumn := hTotals.column
  unfold bound at hColumn
  unfold Totals.ColumnWithin
  omega

/- The segments of one line. -/
def onLine
    (line : Nat)
    (texts : List (List Char)) :
    List Segment :=
  (texts.filter (· ≠ [])).map (Segment.mk line)

theorem onLine_nil_cons
    (line : Nat)
    (texts : List (List Char)) :
    onLine line ([] :: texts) = onLine line texts := by
  simp [onLine]

theorem singles_onLine_cons
    (line : Nat)
    {text : List Char}
    (hText : text ≠ [])
    (texts : List (List Char)) :
    singles line (onLine line (text :: texts)) =
      singles line (onLine line texts)
        + if (Segment.mk line text).fields.length = 1 then 1
          else 0 := by
  simp [onLine, singles, hText, List.countP_cons]

/-
  On a line, each segment with a single number leads the column
  on by one number, and the segment at which a fault is found
  by one more. A segment with a source leads back into range.
-/
theorem columnWithin_lineTrail
    (line : Nat)
    (texts : List (List Char))
    {totals : Totals}
    (hTotals : totals.ColumnWithin 0)
    {limit : Nat}
    (hSingles : singles line (onLine line texts) ≤ limit) :
    ∀ entry ∈ lineTrail line totals texts,
      entry.ColumnWithin (limit + 1) := by
  refine forall_mem_lineTrail
    (fun totals texts =>
      ∃ count,
        totals.ColumnWithin count
          ∧ count + singles line (onLine line texts) ≤ limit)
    ?_ ?_ ?_ ?_ ⟨0, hTotals, by omega⟩
  · rintro totals texts ⟨count, hColumn, hCount⟩
    exact hColumn.mono (by omega)
  · rintro totals text texts ⟨count, hColumn, hCount⟩
    exact (hColumn.near (totals.near_passed _)).mono (by omega)
  · rintro totals texts ⟨count, hColumn, hCount⟩
    rw [onLine_nil_cons] at hCount
    exact ⟨count, hColumn, hCount⟩
  · rintro totals text texts next found hText
      ⟨count, hColumn, hCount⟩ hRead
    rw [singles_onLine_cons line hText] at hCount
    rcases decodeSegment_eq_ok_cases ⟨line, text⟩ hRead with
      ⟨rfl, ⟨hSingle, _⟩ | ⟨_, _, _, hInRange⟩⟩
    · rw [if_pos hSingle] at hCount
      exact
        ⟨count + 1, hColumn.near (totals.near_passed _), by omega⟩
    · exact ⟨count, hInRange.columnWithin count, by omega⟩

theorem columnWithin_trailFrom
    (line : Nat)
    (totals : Totals)
    (texts : List (List Char))
    {limit : Nat}
    (hSingles :
      ∀ other, singles other (segmentsOf line texts) ≤ limit) :
    ∀ entry ∈ trailFrom line totals texts,
      entry.ColumnWithin (limit + 1) := by
  induction texts generalizing line totals with
  | nil => exact List.forall_mem_nil _
  | cons text texts ih =>
      have hBoth (other : Nat) :
          singles other (onLine line (List.splitOn ',' text))
              + singles other (segmentsOf (line + 1) texts) ≤
            limit := by
        have hOther := hSingles other
        rwa [segmentsOf, singles_append] at hOther
      have hStart : totals.newLine.ColumnWithin 0 := by
        constructor <;> simp [Totals.newLine]
      rw [trailFrom, List.forall_mem_append]
      constructor
      · apply columnWithin_lineTrail line _ hStart
        have hHere := hBoth line
        omega
      · split
        · exact List.forall_mem_nil _
        · apply ih
          intro other
          have hOther := hBoth other
          omega

------------------------------------------------------------
-- What Is Read Along the Trail
------------------------------------------------------------

theorem mem_lineTrail_self
    (line : Nat)
    (totals : Totals)
    (texts : List (List Char)) :
    totals ∈ lineTrail line totals texts := by
  induction texts with
  | nil => exact List.mem_cons_self
  | cons text texts ih =>
      rw [lineTrail]
      split
      · exact ih
      · exact List.mem_cons_self

/- The totals of a segment are on the trail, read or not. -/
theorem passed_mem_lineTrail
    (line : Nat)
    (totals : Totals)
    {text : List Char}
    (hText : text ≠ [])
    (texts : List (List Char)) :
    totals.passed ⟨line, text⟩ ∈
      lineTrail line totals (text :: texts) := by
  rw [lineTrail, if_neg hText]
  apply List.mem_cons_of_mem
  split
  · exact List.mem_singleton_self _
  · next hRead =>
      rw [← (decodeSegment_eq_ok_cases ⟨line, text⟩ hRead).1]
      exact mem_lineTrail_self line _ texts

theorem totals_mem_lineTrail
    {line : Nat}
    {totals next : Totals}
    {texts : List (List Char)}
    {mappings : List Mapping}
    (hRead :
      decodeSegments line totals texts = .ok (next, mappings)) :
    ∀ mapping ∈ mappings,
      mapping.totals ∈ lineTrail line totals texts := by
  induction texts generalizing totals mappings with
  | nil =>
      cases hRead
      exact List.forall_mem_nil _
  | cons text texts ih =>
      by_cases hText : text = []
      · rw [hText, decodeSegments_nil_cons] at hRead
        rw [lineTrail, if_pos hText]
        exact ih hRead
      · rcases decodeSegments_cons_eq_ok hText hRead with
          ⟨middle, found, more, hFirst, hRest, rfl⟩
        rw [lineTrail, if_neg hText, hFirst,
          List.forall_mem_append]
        constructor
        · intro mapping hMapping
          rw [Option.mem_toList] at hMapping
          cases hMapping
          rw [(decodeSegment_eq_ok hFirst).2.1]
          exact List.mem_cons_of_mem _
            (mem_lineTrail_self line middle texts)
        · intro mapping hMapping
          exact List.mem_cons_of_mem _ (ih hRest mapping hMapping)

/- Every mapping is made of totals that the reader came by. -/
theorem totals_mem_trailFrom
    {line : Nat}
    {totals : Totals}
    {texts : List (List Char)}
    {mappings : List Mapping}
    (hRead : decodeLines line totals texts = .ok mappings) :
    ∀ mapping ∈ mappings,
      mapping.totals ∈ trailFrom line totals texts := by
  induction texts generalizing line totals mappings with
  | nil =>
      cases hRead
      exact List.forall_mem_nil _
  | cons text texts ih =>
      rcases decodeLines_cons_eq_ok hRead with
        ⟨after, found, more, hFirst, hMore, rfl⟩
      rw [trailFrom, hFirst, List.forall_mem_append]
      constructor
      · intro mapping hMapping
        exact List.mem_append_left _
          (totals_mem_lineTrail hFirst mapping hMapping)
      · intro mapping hMapping
        exact List.mem_append_right _ (ih hMore mapping hMapping)

theorem exists_mem_lineTrail_of_fault
    {line : Nat}
    {totals : Totals}
    {texts : List (List Char)}
    {fault : Fault}
    (hRead : decodeSegments line totals texts = .error fault)
    (hCause : fault.cause = .outOfRange) :
    ∃ entry ∈ lineTrail line totals texts, ¬ entry.InRange := by
  induction texts generalizing totals with
  | nil => cases hRead
  | cons text texts ih =>
      rw [decodeSegments] at hRead
      rw [lineTrail]
      split at hRead
      · next hText =>
          rw [if_pos hText]
          exact ih hRead
      · next hText =>
          rw [if_neg hText]
          rcases bind_eq_error_iff.mp hRead with
            hFirst | ⟨⟨middle, found⟩, hFirst, hRest⟩
          · rw [hFirst]
            refine
              ⟨_, List.mem_cons_of_mem _ (List.mem_singleton_self _),
                ?_⟩
            exact not_inRange_passed ⟨line, text⟩ hFirst hCause
          · rw [hFirst]
            rcases bind_eq_error_iff.mp hRest with
              hLater | ⟨_, _, hPure⟩
            · rcases ih hLater with ⟨entry, hEntry, hRange⟩
              exact ⟨entry, List.mem_cons_of_mem _ hEntry, hRange⟩
            · cases hPure

/- A place out of range is one that the reader came by. -/
theorem exists_mem_trailFrom_of_fault
    {line : Nat}
    {totals : Totals}
    {texts : List (List Char)}
    {fault : Fault}
    (hRead : decodeLines line totals texts = .error fault)
    (hCause : fault.cause = .outOfRange) :
    ∃ entry ∈ trailFrom line totals texts, ¬ entry.InRange := by
  induction texts generalizing line totals with
  | nil => cases hRead
  | cons text texts ih =>
      rw [decodeLines] at hRead
      rw [trailFrom]
      rcases bind_eq_error_iff.mp hRead with
        hFirst | ⟨⟨after, found⟩, hFirst, hRest⟩
      · rcases exists_mem_lineTrail_of_fault hFirst hCause with
          ⟨entry, hEntry, hRange⟩
        exact ⟨entry, List.mem_append_left _ hEntry, hRange⟩
      · rw [hFirst]
        rcases bind_eq_error_iff.mp hRest with
          hLater | ⟨_, _, hPure⟩
        · rcases ih hLater with ⟨entry, hEntry, hRange⟩
          exact ⟨entry, List.mem_append_right _ hEntry, hRange⟩
        · cases hPure

------------------------------------------------------------
-- A Line That Goes as Far as It Can
------------------------------------------------------------

/- The greatest number as often as given, and then once more. -/
def climb : (count : Nat) → List Char
  | 0 => [2 ^ 59 - 1, 0, 0, 0].flatMap Vlq.encode
  | count + 1 =>
      [2 ^ 59 - 1].flatMap Vlq.encode ++ ',' :: climb count

/- The greatest column, and then the greatest numbers. -/
def farLine (count : Nat) : List Char :=
  [2 ^ 32 - 1, 0, 0, 0].flatMap Vlq.encode ++ ',' :: climb count

theorem unseparated_flatMap_encode
    (values : List Int) :
    Unseparated (values.flatMap Vlq.encode) :=
  ⟨Vlq.notMem_flatMap_encode (by decide) values,
    Vlq.notMem_flatMap_encode (by decide) values⟩

theorem flatMap_encode_ne_nil
    (value : Int)
    (values : List Int) :
    (value :: values).flatMap Vlq.encode ≠ [] := by
  simp [Vlq.encode_ne_nil]

theorem fields_flatMap_encode
    (line : Nat)
    {values : List Int}
    (hValues :
      ∀ value ∈ values, value.natAbs ≤ Vlq.maxMagnitude) :
    (Segment.mk line (values.flatMap Vlq.encode)).fields =
      values :=
  fields_of_decodeAll?
    (Vlq.decodeAll?_flatMap_encode values hValues)

theorem split_climb
    (count : Nat) :
    List.splitOn ',' (climb count) =
      List.replicate count ([2 ^ 59 - 1].flatMap Vlq.encode)
        ++ [[2 ^ 59 - 1, 0, 0, 0].flatMap Vlq.encode] := by
  induction count with
  | zero =>
      exact List.splitOn_eq_singleton (unseparated_flatMap_encode _).1
  | succ count ih =>
      rw [climb, List.splitOn_append_cons_self_of_not_mem
        (unseparated_flatMap_encode _).1, ih]
      rfl

/- Each number leads the column on. -/
theorem mem_lineTrail_climb
    (line count : Nat)
    (totals : Totals) :
    { totals with
      column := totals.column + (count + 1) * (2 ^ 59 - 1) } ∈
      lineTrail line totals (List.splitOn ',' (climb count)) := by
  rw [split_climb]
  induction count generalizing totals with
  | zero =>
      have hFields :
          (Segment.mk line
              ([2 ^ 59 - 1, 0, 0, 0].flatMap Vlq.encode)).fields =
            [2 ^ 59 - 1, 0, 0, 0] :=
        fields_flatMap_encode line (by decide)
      have hPassed :=
        passed_mem_lineTrail line totals
          (flatMap_encode_ne_nil (2 ^ 59 - 1) [0, 0, 0]) []
      rw [Totals.passed, hFields] at hPassed
      simpa [Totals.add] using hPassed
  | succ count ih =>
      have hDecode :=
        Vlq.decodeAll?_flatMap_encode [2 ^ 59 - 1] (by decide)
      have hRead :
          decodeSegment line totals
              ([2 ^ 59 - 1].flatMap Vlq.encode) =
            .ok
              ({ totals with
                  column := totals.column + (2 ^ 59 - 1) },
                none) := by
        simp only [decodeSegment, hDecode]
      have hNext :=
        ih { totals with
              column := totals.column + (2 ^ 59 - 1) }
      rw [List.replicate_succ, List.cons_append, lineTrail,
        if_neg (flatMap_encode_ne_nil _ _), hRead]
      apply List.mem_cons_of_mem
      convert hNext using 2
      push_cast
      ring

theorem singles_here
    (other line : Nat)
    {values : List Int}
    (hValues :
      ∀ value ∈ values, value.natAbs ≤ Vlq.maxMagnitude)
    (hNonempty : values ≠ []) :
    singles other (here line (values.flatMap Vlq.encode)) =
      if line = other ∧ values.length = 1 then 1 else 0 := by
  rcases List.exists_cons_of_ne_nil hNonempty with
    ⟨value, more, rfl⟩
  rw [here_of_ne_nil line (flatMap_encode_ne_nil value more),
    singles, List.countP_singleton,
    fields_flatMap_encode line hValues]
  simp only [decide_eq_true_eq]

theorem singles_farLine
    (other line count : Nat) :
    singles other (segmentsAt line (farLine count)) =
      if line = other then count else 0 := by
  have hClimb :
      singles other (segmentsAt line (climb count)) =
        if line = other then count else 0 := by
    induction count with
    | zero =>
        rw [climb, segmentsAt_unseparated line
          (unseparated_flatMap_encode _),
          singles_here other line (by decide) (by simp)]
        simp
    | succ count ih =>
        rw [climb, segmentsAt_separator line
          (unseparated_flatMap_encode _) (Or.inl rfl),
          singles_append,
          singles_here other line (by decide) (by simp)]
        change _ + singles other (segmentsAt line (climb count)) = _
        rw [ih]
        by_cases hOther : line = other
        · simp [hOther, Nat.add_comm]
        · simp [hOther]
  rw [farLine, segmentsAt_separator line
    (unseparated_flatMap_encode _) (Or.inl rfl), singles_append,
    singles_here other line (by decide) (by simp)]
  change _ + singles other (segmentsAt line (climb count)) = _
  rw [hClimb]
  simp

theorem notMem_farLine
    (count : Nat) :
    ';' ∉ farLine count := by
  have hClimb : ';' ∉ climb count := by
    induction count with
    | zero => exact (unseparated_flatMap_encode _).2
    | succ count ih =>
        rw [climb, List.mem_append, List.mem_cons, not_or, not_or]
        exact
          ⟨(unseparated_flatMap_encode _).2, by decide, ih⟩
  rw [farLine, List.mem_append, List.mem_cons, not_or, not_or]
  exact ⟨(unseparated_flatMap_encode _).2, by decide, hClimb⟩

/- The column of such a line goes as far as it can. -/
theorem mem_trail_farLine
    (count : Nat) :
    ⟨(2 ^ 32 - 1) + (count + 1) * (2 ^ 59 - 1), 0, 0, 0⟩ ∈
      trail (String.ofList (farLine count)) := by
  have hFirst :
      decodeSegment 0 Totals.zero.newLine
          ([2 ^ 32 - 1, 0, 0, 0].flatMap Vlq.encode) =
        .ok
          (⟨2 ^ 32 - 1, 0, 0, 0⟩,
            some ⟨0, 2 ^ 32 - 1, 0, 0, 0⟩) := by
    have hSegment :
        decodeSegment 0 .zero
            (segment .zero ⟨0, 2 ^ 32 - 1, 0, 0, 0⟩) = _ :=
      decodeSegment_segment Totals.zero_inRange (by decide)
    rwa [segment_eq_flatMap] at hSegment
  rw [trail, String.toList_ofList,
    List.splitOn_eq_singleton (notMem_farLine count), trailFrom]
  apply List.mem_append_left
  rw [farLine, List.splitOn_append_cons_self_of_not_mem
    (unseparated_flatMap_encode _).1, lineTrail,
    if_neg (flatMap_encode_ne_nil _ _), hFirst]
  exact List.mem_cons_of_mem _
    (mem_lineTrail_climb 0 count ⟨2 ^ 32 - 1, 0, 0, 0⟩)

------------------------------------------------------------
-- Words
------------------------------------------------------------

/-
  A reader of a text comes by the totals of every mapping that
  it reads, and by those out of range if it stops at such. All
  along, the numbers of the source, its lines and its columns
  are out of range by no more than one number, and fit into
  words of 64 bits. So do the columns if no line has more than
  14 segments with a single number; with 15 of them, a column
  can be too great for a word.
-/
theorem trail_fits_words
    (text : String) :
    (∀ mappings, decode text = .ok mappings →
        ∀ mapping ∈ mappings, mapping.totals ∈ trail text)
      ∧ (∀ fault, decode text = .error fault →
        fault.cause = .outOfRange →
          ∃ totals ∈ trail text, ¬ totals.InRange)
      ∧ (∀ totals ∈ trail text,
        totals.SourcesWithin (-(2 ^ 59 - 1))
            ((2 ^ 32 - 1) + (2 ^ 59 - 1))
          ∧ totals.SourcesWithin Int64.minValue.toInt
            Int64.maxValue.toInt)
      ∧ ((∀ line, singles line (segments text) ≤ 14) →
        ∀ totals ∈ trail text,
          Int64.minValue.toInt ≤ totals.column
            ∧ totals.column ≤ Int64.maxValue.toInt)
      ∧ ∃ far : String,
        singles 0 (segments far) = 15
          ∧ (∀ line, singles line (segments far) ≤ 15)
          ∧ ∃ totals ∈ trail far,
            Int64.maxValue.toInt < totals.column := by
  refine
    ⟨fun _ => totals_mem_trailFrom,
      fun _ => exists_mem_trailFrom_of_fault, ?_, ?_, ?_⟩
  · intro totals hTotals
    have hWithin :=
      sourcesWithin_trailFrom 0 (List.splitOn ';' text.toList)
        Totals.zero_inRange.sourcesWithin totals hTotals
    exact ⟨hWithin, hWithin.mono (by decide) (by decide)⟩
  · intro hSingles totals hTotals
    have hMin : Int64.minValue.toInt = -2 ^ 63 := by decide
    have hMax : Int64.maxValue.toInt = 2 ^ 63 - 1 := by decide
    have hWithin :=
      columnWithin_trailFrom 0 .zero (List.splitOn ';' text.toList)
        hSingles totals hTotals
    unfold Totals.ColumnWithin at hWithin
    omega
  · have hSingles (line : Nat) :
        singles line (segments (String.ofList (farLine 15))) =
          if 0 = line then 15 else 0 := by
      rw [segments, String.toList_ofList, singles_farLine]
    refine ⟨String.ofList (farLine 15), ?_, ?_, ?_⟩
    · rw [hSingles, if_pos rfl]
    · intro line
      rw [hSingles]
      split <;> omega
    · exact ⟨_, mem_trail_farLine 15, by decide⟩

/-
  The greatest column of a line with 14 single numbers; a
  column that is negative for a while; one that stays so.
-/
theorem trail_fits_words_far :
    (∀ line,
        singles line (segments (String.ofList (farLine 14))) ≤ 14)
      ∧ (⟨2 ^ 32 - 1 + 15 * (2 ^ 59 - 1), 0, 0, 0⟩ : Totals) ∈
        trail (String.ofList (farLine 14))
      ∧ 2 ^ 32 - 1 + 15 * (2 ^ 59 - 1) ≤ Int64.maxValue.toInt
      ∧ decode "D,EAAA" = .ok [⟨0, 1, 0, 0, 0⟩]
      ∧ (⟨1, 0, 0, 0⟩ : Totals) ∈ trail "D,EAAA"
      ∧ decode "D,AAAA" = .error ⟨"AAAA", 0, .outOfRange⟩
      ∧ ∃ totals ∈ trail "D,AAAA", ¬ totals.InRange := by
  have hSingles (line : Nat) :
      singles line (segments (String.ofList (farLine 14))) ≤
        14 := by
    rw [segments, String.toList_ofList, singles_farLine]
    split <;> omega
  have hFar := mem_trail_farLine 14
  have hRead : decode "D,EAAA" = .ok [⟨0, 1, 0, 0, 0⟩] := by cbv
  have hUnread :
      decode "D,AAAA" = .error ⟨"AAAA", 0, .outOfRange⟩ := by
    cbv
  refine
    ⟨hSingles, hFar, ?_, hRead, ?_, hUnread, ?_⟩
  · exact
      ((trail_fits_words _).2.2.2.1 hSingles _ hFar).2
  · exact
      (trail_fits_words "D,EAAA").1 _ hRead _
        (List.mem_singleton_self _)
  · exact (trail_fits_words "D,AAAA").2.1 _ hUnread rfl

end Mapping

end TracedScript
