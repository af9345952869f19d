import TracedScript.Proofs.MappingText
import TracedScript.Proofs.VlqNumerals

/-
  Numbers of variable length, written by a loop on words.

  On words of 64 bits with a sign, the digits of a number are
  found by a loop of shifts. A negative word stays negative
  under such shifts, so that the loop ends just for the words
  that are not negative. The text of mappings is made up of
  differences that are far from where the loop goes wrong.

  Key definitions include:
    * `Vlq.Loop.start`, `Vlq.Loop.rest`, `Vlq.Loop.index`
    * `Vlq.Loop.Ends`: the loop ends, with these digits.
    * `Mapping.steps`: the numbers that mappings are written by.

  Main declarations:
    * `Vlq.length_digits`
    * `Vlq.Loop.ends_iff`
    * `Vlq.Loop.toInt_start`
    * `Mapping.encodeFrom_eq_flatMap`
    * `Mapping.moderate_of_mem_stepsFrom`
    * `Mapping.encode_stays_short`
-/

------------------------------------------------------------
-- The Number of Digits
------------------------------------------------------------

namespace TracedScript

namespace Vlq

/- A number has a digit for each five bits, and at least one. -/
theorem length_digits
    (number : Nat) :
    (digits number).length = max 1 (number.size ⌈/⌉ 5) := by
  have hPositive : 0 < (digits number).length :=
    List.length_pos_iff.mpr (digits_ne_nil number)
  have hBounds :
      ∀ limit,
        (digits number).length ≤ limit + 1 ↔
          max 1 (number.size ⌈/⌉ 5) ≤ limit + 1 := by
    intro limit
    rw [length_digits_le_iff, max_le_iff,
      ceilDiv_le_iff_le_mul (by decide), Nat.size_le, pow_mul]
    simp
  have hLower := (hBounds ((digits number).length - 1)).mp (by omega)
  have hUpper :=
    (hBounds (max 1 (number.size ⌈/⌉ 5) - 1)).mpr (by omega)
  omega

/- The places of the digits of a number in the alphabet. -/
def indices (number : Nat) : List Nat :=
  if number < 32 then [number]
  else (32 + number % 32) :: indices (number / 32)
termination_by number
decreasing_by omega

theorem indices_of_lt
    {number : Nat}
    (hSmall : number < 32) :
    indices number = [number] := by
  rw [indices, if_pos hSmall]

theorem indices_of_le
    {number : Nat}
    (hLarge : 32 ≤ number) :
    indices number = (32 + number % 32) :: indices (number / 32) := by
  rw [indices, if_neg (by omega)]

theorem digits_eq_map_indices
    (number : Nat) :
    digits number = (indices number).map Base64.digit := by
  induction number using indices.induct with
  | case1 number hSmall =>
      rw [digits_of_lt hSmall, indices_of_lt hSmall]
      rfl
  | case2 number hLarge ih =>
      rw [digits_of_le (by omega), indices_of_le (by omega), ih,
        List.map_cons]

theorem length_indices
    (number : Nat) :
    (indices number).length = max 1 (number.size ⌈/⌉ 5) := by
  rw [← length_digits, digits_eq_map_indices, List.length_map]

/-
  All digits but the last have the sixth bit, and the last one
  has it not.
-/
theorem indices_continue
    (number : Nat) :
    ∃ front last,
      indices number = front ++ [last]
        ∧ (∀ index ∈ front, 32 ≤ index ∧ index < 64)
        ∧ last < 32 := by
  induction number using indices.induct with
  | case1 number hSmall =>
      exact
        ⟨[], number, indices_of_lt hSmall,
          List.forall_mem_nil _, hSmall⟩
  | case2 number hLarge ih =>
      rcases ih with ⟨front, last, hIndices, hFront, hLast⟩
      refine ⟨(32 + number % 32) :: front, last, ?_, ?_, hLast⟩
      · rw [indices_of_le (by omega), hIndices,
          List.cons_append]
      · rw [List.forall_mem_cons]
        exact ⟨by omega, hFront⟩

------------------------------------------------------------
-- The Loop on Words
------------------------------------------------------------

namespace Loop

/- The word that the loop starts with: the sign is its lowest bit. -/
def start (value : Int64) : Int64 :=
  if value < 0 then ((-value) <<< 1) ||| 1 else value <<< 1

/- What one turn leaves of a word. -/
def rest (word : Int64) : Int64 :=
  word >>> 5

/- The place in the alphabet of the digit of one turn. -/
def index (word : Int64) : Nat :=
  let digit := word &&& 31
  let marked := if 0 < rest word then digit ||| 32 else digit
  marked.toUInt64.toNat

/- The loop that starts with a word ends, with these places. -/
inductive Ends : Int64 → List Nat → Prop where
  | last {word : Int64} :
      rest word = 0 → Ends word [index word]
  | turn {word : Int64} {places : List Nat} :
      rest word ≠ 0 → Ends (rest word) places →
        Ends word (index word :: places)

/- A turn divides, and rounds down. -/
theorem toInt_rest
    (word : Int64) :
    (rest word).toInt = word.toInt / 32 := by
  have hFive : (5 : Int64).toBitVec.smod 64 = 5#64 := by decide
  rw [rest, ← Int64.toInt_toBitVec, Int64.toBitVec_shiftRight,
    hFive, BitVec.sshiftRight', BitVec.toInt_sshiftRight,
    Int64.toInt_toBitVec, Int.shiftRight_eq_div_pow]
  rfl

/- The bits of a word that is not negative. -/
theorem toNat_toBitVec
    {word : Int64}
    {number : Nat}
    (hWord : word.toInt = number) :
    word.toBitVec.toNat = number := by
  have hCond := BitVec.toInt_eq_toNat_cond word.toBitVec
  have hLess := word.toBitVec.isLt
  rw [Int64.toInt_toBitVec, hWord] at hCond
  split at hCond <;> omega

theorem index_of_toInt
    {word : Int64}
    {number : Nat}
    (hWord : word.toInt = number) :
    index word =
      if number < 32 then number else 32 + number % 32 := by
  have hDigit : (word &&& 31).toBitVec.toNat = number % 32 := by
    rw [Int64.toBitVec_and, BitVec.toNat_and,
      toNat_toBitVec hWord]
    exact Nat.and_two_pow_sub_one_eq_mod number 5
  have hMarked :
      ((word &&& 31) ||| 32).toBitVec.toNat = 32 + number % 32 := by
    rw [Int64.toBitVec_or, BitVec.toNat_or, hDigit, Nat.lor_comm]
    have hLess : number % 32 < 2 ^ 5 :=
      Nat.mod_lt number (by decide)
    exact (Nat.two_pow_add_eq_or_of_lt hLess 1).symm
  have hMore : 0 < rest word ↔ ¬ number < 32 := by
    rw [Int64.lt_iff_toInt_lt, toInt_rest, hWord]
    change (0 : Int) < _ ↔ _
    omega
  unfold index
  simp only [hMore]
  by_cases hSmall : number < 32
  · rw [if_pos hSmall, if_neg (not_not.mpr hSmall)]
    change (word &&& 31).toBitVec.toNat = number
    rw [hDigit, Nat.mod_eq_of_lt hSmall]
  · rw [if_neg hSmall, if_pos hSmall]
    exact hMarked

theorem toInt_rest_of_toInt
    {word : Int64}
    {number : Nat}
    (hWord : word.toInt = number) :
    (rest word).toInt = (number / 32 : Nat) := by
  rw [toInt_rest, hWord]
  rfl

theorem rest_eq_zero_iff
    {word : Int64}
    {number : Nat}
    (hWord : word.toInt = number) :
    rest word = 0 ↔ number < 32 := by
  rw [← Int64.toInt_inj, toInt_rest_of_toInt hWord]
  change _ = (0 : Int) ↔ _
  omega

/- The loop ends for a word that is not negative. -/
theorem ends_of_toInt
    {word : Int64}
    {number : Nat}
    (hWord : word.toInt = number) :
    Ends word (indices number) := by
  induction number using indices.induct generalizing word with
  | case1 number hSmall =>
      have hIndex := index_of_toInt hWord
      rw [if_pos hSmall] at hIndex
      rw [indices_of_lt hSmall, ← hIndex]
      exact .last ((rest_eq_zero_iff hWord).mpr hSmall)
  | case2 number hLarge ih =>
      have hIndex := index_of_toInt hWord
      rw [if_neg hLarge] at hIndex
      rw [indices_of_le (by omega), ← hIndex]
      exact
        .turn ((rest_eq_zero_iff hWord).not.mpr hLarge)
          (ih (toInt_rest_of_toInt hWord))

/- Turns leave a negative word negative, and so never nothing. -/
theorem Ends.toInt_nonneg
    {word : Int64}
    {places : List Nat}
    (hEnds : Ends word places) :
    0 ≤ word.toInt := by
  induction hEnds with
  | last hRest =>
      have hZero := congrArg Int64.toInt hRest
      rw [toInt_rest] at hZero
      change _ = (0 : Int) at hZero
      omega
  | turn _ _ ih =>
      rw [toInt_rest] at ih
      omega

/- The loop does the same each time. -/
theorem Ends.unique
    {word : Int64}
    {left right : List Nat}
    (hLeft : Ends word left)
    (hRight : Ends word right) :
    left = right := by
  induction hLeft generalizing right with
  | last hRest =>
      cases hRight with
      | last => rfl
      | turn hNot _ => exact absurd hRest hNot
  | turn hNot _ ih =>
      cases hRight with
      | last hRest => exact absurd hRest hNot
      | turn _ hMore => rw [ih hMore]

/- For which words the loop ends, and with what. -/
theorem ends_iff
    (word : Int64)
    (places : List Nat) :
    Ends word places ↔
      0 ≤ word.toInt ∧ places = indices word.toInt.toNat := by
  constructor
  · intro hEnds
    have hNonneg := hEnds.toInt_nonneg
    exact
      ⟨hNonneg,
        hEnds.unique
          (ends_of_toInt (Int.toNat_of_nonneg hNonneg).symm)⟩
  · rintro ⟨hNonneg, rfl⟩
    exact ends_of_toInt (Int.toNat_of_nonneg hNonneg).symm

------------------------------------------------------------
-- The First Word
------------------------------------------------------------

/- A shift to the left doubles the bits, as far as they fit. -/
theorem toNat_shiftLeft
    {word : Int64}
    {number : Nat}
    (hWord : word.toInt = number) :
    (word <<< 1).toBitVec.toNat = 2 * number := by
  have hOne : (1 : Int64).toBitVec.smod 64 = 1#64 := by decide
  have hLess := Int64.toInt_lt word
  rw [Int64.toBitVec_shiftLeft, hOne, BitVec.shiftLeft_eq',
    BitVec.toNat_shiftLeft, toNat_toBitVec hWord]
  change number <<< 1 % 2 ^ 64 = 2 * number
  rw [Nat.shiftLeft_eq, Nat.mod_eq_of_lt (by omega)]
  omega

theorem toNat_start
    {value : Int64}
    (hValue : value.toInt.natAbs < 2 ^ 63) :
    (start value).toBitVec.toNat = zigzag value.toInt := by
  have hSign : value < 0 ↔ value.toInt < 0 := by
    rw [Int64.lt_iff_toInt_lt]
    rfl
  unfold start zigzag
  simp only [hSign]
  split
  · next hNegative =>
      have hOpposite :
          (-value).toInt = (value.toInt.natAbs : Nat) := by
        rw [Int64.toInt_neg, Int.bmod_eq_of_le (by omega) (by omega)]
        omega
      rw [Int64.toBitVec_or, BitVec.toNat_or,
        toNat_shiftLeft hOpposite]
      exact
        (Nat.two_pow_add_eq_or_of_lt (by decide : 1 < 2 ^ 1)
          value.toInt.natAbs).symm
  · next hNot =>
      exact toNat_shiftLeft (by omega)

/- The first word is negative when the bits do not fit. -/
theorem toInt_start
    {value : Int64}
    (hValue : value.toInt.natAbs < 2 ^ 63) :
    (start value).toInt =
      if value.toInt.natAbs < 2 ^ 62 then (zigzag value.toInt : Int)
      else zigzag value.toInt - 2 ^ 64 := by
  have hCond := BitVec.toInt_eq_toNat_cond (start value).toBitVec
  have hHalf : zigzag value.toInt / 2 = value.toInt.natAbs := by
    unfold zigzag
    split <;> omega
  rw [Int64.toInt_toBitVec, toNat_start hValue] at hCond
  rw [hCond]
  split <;> split <;> omega

/- For which values the loop ends, and with what. -/
theorem ends_start_iff
    {value : Int64}
    (hValue : value.toInt.natAbs < 2 ^ 63)
    (places : List Nat) :
    Ends (start value) places ↔
      value.toInt.natAbs < 2 ^ 62
        ∧ places = indices (zigzag value.toInt) := by
  have hLe := zigzag_le value.toInt
  rw [ends_iff, toInt_start hValue]
  by_cases hSmall : value.toInt.natAbs < 2 ^ 62
  · rw [if_pos hSmall, Int.toNat_natCast, and_iff_right hSmall]
    exact and_iff_right (Int.natCast_nonneg _)
  · rw [if_neg hSmall]
    constructor
    · rintro ⟨hNonneg, _⟩
      omega
    · rintro ⟨hNot, _⟩
      exact absurd hNot hSmall

/-
  The loop writes a value: it ends, after a turn for each five
  bits, all digits but the last say that another one follows,
  and the digits are those of the value.
-/
structure Written
    (value : Int64)
    (places : List Nat) : Prop where
  ends :
    ∀ others, Ends (start value) others ↔ others = places
  turns :
    places.length =
      max 1
        (Nat.size
          (2 * value.toInt.natAbs
            + if value.toInt < 0 then 1 else 0) ⌈/⌉ 5)
  marks :
    ∃ front last,
      places = front ++ [last]
        ∧ (∀ place ∈ front, 32 ≤ place ∧ place < 64)
        ∧ last < 32
  digits : places.map Base64.digit = encode value.toInt

theorem written_indices
    {value : Int64}
    (hValue : value.toInt.natAbs < 2 ^ 62) :
    Written value (indices (zigzag value.toInt)) where
  ends := by
    intro others
    rw [ends_start_iff (by omega)]
    exact and_iff_right hValue
  turns := by
    rw [length_indices, zigzag]
    split <;> rfl
  marks := indices_continue (zigzag value.toInt)
  digits := (digits_eq_map_indices (zigzag value.toInt)).symm

/- The number of turns for a value that is not too great. -/
theorem length_indices_zigzag_le
    {value : Int}
    {limit : Nat}
    (hValue : 2 * value.natAbs + 1 < 32 ^ (limit + 1)) :
    (indices (zigzag value)).length ≤ limit + 1 := by
  rw [← List.length_map Base64.digit, ← digits_eq_map_indices,
    length_digits_le_iff]
  exact lt_of_le_of_lt (zigzag_le value) hValue

end Loop

end Vlq

------------------------------------------------------------
-- The Numbers of Mappings
------------------------------------------------------------

namespace Mapping

/- What is written for a mapping: separators, then numbers. -/
structure Step where
  separators : List Char
  numbers : List Int
deriving DecidableEq, Repr

def Step.text (step : Step) : List Char :=
  step.separators ++ step.numbers.flatMap Vlq.encode

/- What is written for a mapping that comes next. -/
def stepAt
    (mapping : Mapping)
    (line : Nat)
    (fresh : Bool)
    (before : Totals) :
    Step :=
  let gap := mapping.generatedLine - line
  { separators :=
      List.replicate gap ';'
        ++ (if gap = 0 ∧ fresh = false then [','] else [])
    numbers :=
      mapping.differences
        (if gap = 0 then before else before.newLine) }

/-
  What is written for sorted mappings, after what was written
  for those up to a given line.
-/
def stepsFrom
    (line : Nat)
    (fresh : Bool)
    (before : Totals) :
    List Mapping → List Step
  | [] => []
  | mapping :: mappings =>
      mapping.stepAt line fresh before
        :: stepsFrom (line + (mapping.generatedLine - line)) false
          mapping.totals mappings

/- What is written for some mappings. -/
def steps (mappings : List Mapping) : List Step :=
  stepsFrom 0 true .zero (sort mappings)

theorem encodeFrom_eq_flatMap
    (line : Nat)
    (fresh : Bool)
    (before : Totals)
    (mappings : List Mapping) :
    encodeFrom line fresh before mappings =
      (stepsFrom line fresh before mappings).flatMap
        Step.text := by
  induction mappings generalizing line fresh before with
  | nil => rfl
  | cons mapping mappings ih =>
      rw [encodeFrom, stepsFrom, List.flatMap_cons, ih]
      simp only [Step.text, stepAt, segment_eq_flatMap]

/-
  Separators are no digits. Each of the four numbers is below
  2 ^ 32 in size, and the first is not negative.
-/
structure Step.Moderate (step : Step) : Prop where
  separators : ∀ c ∈ step.separators, c = ';' ∨ c = ','
  length : step.numbers.length = 4
  forward : ∀ number ∈ step.numbers.head?, 0 ≤ number
  small : ∀ number ∈ step.numbers, number.natAbs < 2 ^ 32

/- A mapping does not go back from a place on a line. -/
def Ahead
    (line : Nat)
    (before : Totals)
    (mapping : Mapping) : Prop :=
  line ≤ mapping.generatedLine
    ∧ (mapping.generatedLine = line →
      before.column ≤ mapping.generatedColumn)

theorem Le.ahead
    {left right : Mapping}
    (hLe : Le left right) :
    Ahead left.generatedLine left.totals right := by
  unfold Le at hLe
  unfold Ahead
  simp only [Mapping.totals]
  omega

/- The difference of two numbers in range is small. -/
theorem natAbs_sub_lt
    {left right : Int}
    (hLeft : 0 ≤ left ∧ left < bound)
    (hRight : 0 ≤ right ∧ right < bound) :
    (left - right).natAbs < 2 ^ 32 := by
  unfold bound at hLeft hRight
  omega

/- One mapping is written by moderate numbers. -/
theorem moderate_stepAt
    {line : Nat}
    {before : Totals}
    {mapping : Mapping}
    (fresh : Bool)
    (hBefore : before.InRange)
    (hMapping : mapping.InRange)
    (hAhead : Ahead line before mapping) :
    (mapping.stepAt line fresh before).Moderate := by
  have hTotals := hMapping.totals
  simp only [stepAt]
  generalize hStart :
    (if mapping.generatedLine - line = 0 then before
      else before.newLine) = start
  have hStartRange : start.InRange := by
    rw [← hStart]
    split
    · exact hBefore
    · exact hBefore.newLine
  have hColumn : start.column ≤ mapping.generatedColumn := by
    rw [← hStart]
    rcases hAhead with ⟨hLine, hSame⟩
    split
    · exact hSame (by omega)
    · exact Int.natCast_nonneg _
  constructor
  · intro c hMember
    rcases List.mem_append.mp hMember with hGap | hComma
    · exact Or.inl (List.eq_of_mem_replicate hGap)
    · split at hComma
      · exact Or.inr (List.mem_singleton.mp hComma)
      · cases hComma
  · rfl
  · intro number hFirst
    cases hFirst
    exact Int.sub_nonneg_of_le hColumn
  · simp only [differences, List.forall_mem_cons]
    exact
      ⟨natAbs_sub_lt hTotals.column hStartRange.column,
        natAbs_sub_lt hTotals.source hStartRange.source,
        natAbs_sub_lt hTotals.sourceLine hStartRange.sourceLine,
        natAbs_sub_lt hTotals.sourceColumn
          hStartRange.sourceColumn,
        List.forall_mem_nil _⟩

/-
  All mappings are. By induction on the mappings: each one is
  written from the totals of the one before it, and the order
  of mappings says that it is ahead of these.
-/
theorem moderate_of_mem_stepsFrom
    (line : Nat)
    (fresh : Bool)
    (before : Totals)
    (mappings : List Mapping)
    (hBefore : before.InRange)
    (hRange : ∀ mapping ∈ mappings, mapping.InRange)
    (hAhead : ∀ mapping ∈ mappings, Ahead line before mapping)
    (hOrdered : mappings.Pairwise Le) :
    ∀ step ∈ stepsFrom line fresh before mappings,
      step.Moderate := by
  induction mappings generalizing line fresh before with
  | nil => exact List.forall_mem_nil _
  | cons mapping mappings ih =>
      rw [List.pairwise_cons] at hOrdered
      rw [List.forall_mem_cons] at hRange hAhead
      have hLine :
          line + (mapping.generatedLine - line) =
            mapping.generatedLine :=
        Nat.add_sub_of_le hAhead.1.1
      rw [stepsFrom, hLine, List.forall_mem_cons]
      constructor
      · exact moderate_stepAt fresh hBefore hRange.1 hAhead.1
      · apply ih
        · exact hRange.1.totals
        · exact hRange.2
        · intro other hOther
          exact (hOrdered.1 other hOther).ahead
        · exact hOrdered.2

theorem moderate_of_mem_steps
    {mappings : List Mapping}
    (hRange : ∀ mapping ∈ mappings, mapping.InRange) :
    ∀ step ∈ steps mappings, step.Moderate := by
  have hSorted := stablySorted_sort mappings
  apply moderate_of_mem_stepsFrom
  · exact Totals.zero_inRange
  · intro mapping hMapping
    exact hRange mapping (hSorted.perm.mem_iff.mp hMapping)
  · intro mapping _
    exact ⟨Nat.zero_le _, fun _ => Int.natCast_nonneg _⟩
  · exact hSorted.ordered

/-
  The loop ends on all that it is given. For values below
  `2 ^ 62` it ends in at most 13 turns, and for greater ones
  never. The text of mappings consists of numbers below
  `2 ^ 32`, which are words and take at most 7 turns, and the
  columns of a line never go back.
-/
theorem encode_stays_short :
    (∀ value : Int64, value.toInt.natAbs < 2 ^ 62 →
        ∃ places,
          Vlq.Loop.Written value places ∧ places.length ≤ 13)
      ∧ (∀ value : Int64, 2 ^ 62 ≤ value.toInt.natAbs →
          value.toInt.natAbs < 2 ^ 63 →
            ∀ places,
              ¬ Vlq.Loop.Ends (Vlq.Loop.start value) places)
      ∧ ∀ mappings, (∀ mapping ∈ mappings, InRange mapping) →
          encode mappings =
              String.ofList ((steps mappings).flatMap Step.text)
            ∧ ∀ step ∈ steps mappings,
                step.Moderate
                  ∧ ∀ number ∈ step.numbers,
                      (Int64.ofInt number).toInt = number
                        ∧ ∃ places,
                            Vlq.Loop.Written (Int64.ofInt number)
                                places
                              ∧ places.length ≤ 7 := by
  refine ⟨?_, ?_, ?_⟩
  · intro value hValue
    exact
      ⟨_, Vlq.Loop.written_indices hValue,
        Vlq.Loop.length_indices_zigzag_le (by omega)⟩
  · intro value hLarge hWord places hEnds
    rw [Vlq.Loop.ends_start_iff hWord] at hEnds
    omega
  · intro mappings hRange
    constructor
    · rw [encode, encodeFrom_eq_flatMap]
      rfl
    · intro step hStep
      have hModerate := moderate_of_mem_steps hRange step hStep
      refine ⟨hModerate, ?_⟩
      intro number hNumber
      have hSmall := hModerate.small number hNumber
      have hWord : (Int64.ofInt number).toInt = number :=
        Int64.toInt_ofInt_of_le (by omega) (by omega)
      refine ⟨hWord, _, Vlq.Loop.written_indices ?_, ?_⟩
      · rw [hWord]
        omega
      · rw [hWord]
        exact Vlq.Loop.length_indices_zigzag_le (by omega)

/- Mappings with the greatest numbers, not in their order. -/
def wideMappings : List Mapping :=
  [⟨1, 0, 0, 0, 7⟩, ⟨0, 4294967295, 4294967295, 0, 0⟩]

/-
  The last value for which the loop ends and the first for
  which it does not, and mappings with the greatest numbers.
-/
theorem encode_stays_short_extremes :
    (∃ places,
        Vlq.Loop.Written (-4611686018427387903) places
          ∧ places.length ≤ 13)
      ∧ (∀ places,
          ¬ Vlq.Loop.Ends
            (Vlq.Loop.start 4611686018427387904) places)
      ∧ (∀ mapping ∈ wideMappings, mapping.InRange)
      ∧ steps wideMappings =
          [⟨[], [4294967295, 4294967295, 0, 0]⟩,
            ⟨[';'], [0, -4294967295, 0, 7]⟩]
      ∧ ∃ places,
          Vlq.Loop.Written (Int64.ofInt (-4294967295)) places
            ∧ places.length ≤ 7 := by
  have hRange : ∀ mapping ∈ wideMappings, mapping.InRange := by
    decide
  have hSteps :
      steps wideMappings =
        [⟨[], [4294967295, 4294967295, 0, 0]⟩,
          ⟨[';'], [0, -4294967295, 0, 7]⟩] := by
    cbv
  rcases encode_stays_short with ⟨hEnds, hNever, hMappings⟩
  rcases hMappings wideMappings hRange with ⟨_, hAll⟩
  have hLast :
      (⟨[';'], [0, -4294967295, 0, 7]⟩ : Step) ∈
        steps wideMappings := by
    rw [hSteps]
    exact List.mem_of_getLast? rfl
  refine
    ⟨hEnds _ (by decide), hNever _ (by decide) (by decide),
      hRange, hSteps, ?_⟩
  exact ((hAll _ hLast).2 (-4294967295) (by decide)).2

end Mapping

end TracedScript
