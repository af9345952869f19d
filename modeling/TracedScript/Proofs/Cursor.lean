import Mathlib
import TracedScript.Cursor

/-
  Places in a text, character by character.

  A place after a text is found from the bytes of the text.
  Here it is shown to be the place that is reached by one
  step for each character, so that later proofs speak of
  characters only.

  The line and column of a cursor are words, which begin again
  from zero. Order and size are facts about numbers, so they are
  stated for places whose line and column are numbers. A cursor
  is a place up to what a word cannot hold, and the two are the
  same in a text that is short enough.

  Key definitions include:
    * `Place`: a line and a column that have no limit.
    * `Place.advance`: the place after a text.
    * `Place.Lt`: the strict order of places.
    * `Place.read?`: what stands at a place of a text.
    * `Cursor.ofPlace`, `Cursor.toPlace`
    * `Text.Short`: no place of a text is too large for a word.

  Main declarations:
    * `Place.advance_eq_foldl`
    * `Place.le_advance`
    * `Place.size_advance_le`
    * `Place.read?_advance`
    * `Cursor.advance_ofPlace`
    * `Cursor.advance_append`
    * `Cursor.toPlace_advance_start`
-/

------------------------------------------------------------
-- Bytes of Characters
------------------------------------------------------------

namespace TracedScript

namespace Text

/- The bytes of a text are those of its characters. -/
theorem bytes_eq_flatMap
    (text : String) :
    bytes text = text.toList.flatMap String.utf8EncodeChar := by
  unfold bytes
  rw [String.toUTF8_eq_toByteArray, ← String.utf8Encode_toList,
    List.utf8Encode, List.toList_data_toByteArray]

theorem bytes_append
    (left right : String) :
    bytes (left ++ right) = bytes left ++ bytes right := by
  simp only [bytes_eq_flatMap, String.toList_append,
    List.flatMap_append]

theorem units_cons
    (byte : UInt8)
    (bytes : List UInt8) :
    units (byte :: bytes) = byteUnits byte + units bytes := rfl

theorem byteUnits_of_isAscii
    {byte : UInt8}
    (hAscii : isAscii byte) :
    byteUnits byte = 1 := by
  have hLess : byte < 0x80 := of_decide_eq_true hAscii
  have hLow : ¬ 0x80 ≤ byte := UInt8.not_le.mpr hLess
  have hLong : ¬ 0xf0 ≤ byte := fun hLe =>
    hLow (UInt8.le_trans (by decide) hLe)
  rw [byteUnits, if_neg (fun hBoth => hLow hBoth.1),
    if_neg hLong]

/- The short way for ASCII gives the same number of units. -/
theorem width_eq_units
    (bytes : List UInt8) :
    width bytes = units bytes := by
  unfold width
  split
  · next hAscii =>
      rw [List.all_eq_true] at hAscii
      induction bytes with
      | nil => rfl
      | cons byte bytes ih =>
          rw [List.forall_mem_cons] at hAscii
          rw [List.length_cons, units_cons,
            byteUnits_of_isAscii hAscii.1, ih hAscii.2,
            Nat.add_comm]
  · rfl

/- A character has no more units than bytes. -/
theorem charUnits_le_utf8Size
    (c : Char) :
    charUnits c ≤ c.utf8Size := by
  have hPositive := c.utf8Size_pos
  unfold charUnits
  split
  · exact hPositive
  · next hLarge =>
      have hFour : c.utf8Size = 4 := by
        rw [Char.utf8Size_eq_four_iff, UInt32.lt_iff_toNat_lt]
        change 0xffff < c.toNat
        omega
      omega

end Text

------------------------------------------------------------
-- Steps over Bytes
------------------------------------------------------------

/- A place whose line and column have no limit. -/
structure Place where
  line : Nat
  column : Nat
deriving DecidableEq, Repr

namespace Place

open Cursor (lineFeed lastLine?)

/- The place where a text begins. -/
def start : Place := ⟨1, 0⟩

/- The place after a character that stands at a place. -/
def step
    (place : Place)
    (c : Char) :
    Place :=
  if c = '\n' then ⟨place.line + 1, 0⟩
  else ⟨place.line, place.column + Text.charUnits c⟩

/- The place after a byte that stands at a place. -/
def stepByte
    (place : Place)
    (byte : UInt8) :
    Place :=
  if byte = lineFeed then ⟨place.line + 1, 0⟩
  else ⟨place.line, place.column + Text.byteUnits byte⟩

/- Without a last line there is no line feed. -/
theorem count_lineFeed_of_lastLine?_eq_none
    {bytes : List UInt8}
    (hNone : lastLine? bytes = none) :
    bytes.count lineFeed = 0 := by
  induction bytes with
  | nil => rfl
  | cons byte bytes ih =>
      rw [lastLine?] at hNone
      cases hRest : lastLine? bytes with
      | some line =>
          rw [hRest] at hNone
          cases hNone
      | none =>
          rw [hRest] at hNone
          have hByte : byte ≠ lineFeed := by
            intro hEq
            simp [hEq] at hNone
          rw [List.count_cons_of_ne hByte, ih hRest]

/- The place after some bytes, by their last line. -/
def afterBytes
    (place : Place)
    (bytes : List UInt8) :
    Place :=
  match lastLine? bytes with
  | some line =>
      ⟨place.line + bytes.count lineFeed, Text.units line⟩
  | none => ⟨place.line, place.column + Text.units bytes⟩

/- The place after a text that begins at a place. -/
def advance
    (place : Place)
    (text : String) :
    Place :=
  place.afterBytes (Text.bytes text)

theorem afterBytes_cons
    (place : Place)
    (byte : UInt8)
    (bytes : List UInt8) :
    place.afterBytes (byte :: bytes) =
      (place.stepByte byte).afterBytes bytes := by
  unfold afterBytes
  rw [lastLine?]
  cases hRest : lastLine? bytes with
  | some line =>
      by_cases hByte : byte = lineFeed
      · simp [stepByte, hByte]
        omega
      · simp [stepByte, hByte]
  | none =>
      have hCount := count_lineFeed_of_lastLine?_eq_none hRest
      by_cases hByte : byte = lineFeed
      · simp [stepByte, hByte, hCount]
      · simp [stepByte, hByte, Text.units_cons]
        omega

theorem afterBytes_eq_foldl
    (place : Place)
    (bytes : List UInt8) :
    place.afterBytes bytes = bytes.foldl stepByte place := by
  induction bytes generalizing place with
  | nil => rfl
  | cons byte bytes ih =>
      rw [afterBytes_cons, ih, List.foldl_cons]

------------------------------------------------------------
-- Steps over Characters
------------------------------------------------------------

/- The step over a byte that is given as a number. -/
theorem stepByte_ofNat
    (place : Place)
    {number : Nat}
    (hNumber : number < 256) :
    place.stepByte (UInt8.ofNat number) =
      if number = 10 then ⟨place.line + 1, 0⟩
      else if 0x80 ≤ number ∧ number < 0xc0 then place
      else if 0xf0 ≤ number then
        ⟨place.line, place.column + 2⟩
      else ⟨place.line, place.column + 1⟩ := by
  have hValue : (UInt8.ofNat number).toNat = number :=
    UInt8.toNat_ofNat_of_lt' hNumber
  have hFeed :
      UInt8.ofNat number = lineFeed ↔ number = 10 := by
    rw [← UInt8.toNat_inj, hValue]
    rfl
  unfold stepByte Text.byteUnits
  simp only [hFeed, UInt8.le_iff_toNat_le,
    UInt8.lt_iff_toNat_lt, hValue]
  split
  · rfl
  · change
      (⟨place.line,
        place.column +
          if 0x80 ≤ number ∧ number < 0xc0 then 0
          else if 0xf0 ≤ number then 2 else 1⟩ : Place) = _
    split
    · rfl
    · split <;> rfl

/- A byte within a character does not move the place. -/
theorem stepByte_continuation
    (place : Place)
    (number : Nat) :
    place.stepByte (UInt8.ofNat (number % 0x40 + 0x80)) =
      place := by
  rw [stepByte_ofNat place (by omega), if_neg (by omega),
    if_pos (by omega)]

/- The first of two or three bytes stands for one unit. -/
theorem stepByte_lead
    (place : Place)
    {number : Nat}
    (hLow : 0xc0 ≤ number)
    (hHigh : number < 0xf0) :
    place.stepByte (UInt8.ofNat number) =
      ⟨place.line, place.column + 1⟩ := by
  rw [stepByte_ofNat place (by omega), if_neg (by omega),
    if_neg (by omega), if_neg (by omega)]

/- The first of four bytes stands for two units. -/
theorem stepByte_longLead
    (place : Place)
    {number : Nat}
    (hLow : 0xf0 ≤ number)
    (hHigh : number < 256) :
    place.stepByte (UInt8.ofNat number) =
      ⟨place.line, place.column + 2⟩ := by
  rw [stepByte_ofNat place hHigh, if_neg (by omega),
    if_neg (by omega), if_pos hLow]

/- The steps over the bytes of a character make one step. -/
theorem foldl_stepByte_utf8EncodeChar
    (place : Place)
    (c : Char) :
    (String.utf8EncodeChar c).foldl stepByte place =
      place.step c := by
  have hFeed : c = '\n' ↔ c.val.toNat = 10 := by
    rw [← Char.toNat_inj]
    rfl
  have hUnits :
      Text.charUnits c =
        if c.val.toNat < 0x10000 then 1 else 2 := rfl
  unfold String.utf8EncodeChar step
  simp only [hFeed, hUnits]
  generalize c.val.toNat = point
  by_cases hOne : point ≤ 0x7f
  · rw [if_pos hOne, List.foldl_cons, List.foldl_nil,
      stepByte_ofNat place (by omega),
      if_neg (by omega : ¬ (0x80 ≤ point ∧ point < 0xc0)),
      if_neg (by omega : ¬ 0xf0 ≤ point),
      if_pos (by omega : point < 0x10000)]
  · rw [if_neg hOne, if_neg (by omega : ¬ point = 10)]
    by_cases hTwo : point ≤ 0x7ff
    · rw [if_pos hTwo, if_pos (by omega : point < 0x10000)]
      simp only [List.foldl_cons, List.foldl_nil,
        stepByte_continuation]
      exact stepByte_lead place (by omega) (by omega)
    · rw [if_neg hTwo]
      by_cases hThree : point ≤ 0xffff
      · rw [if_pos hThree,
          if_pos (by omega : point < 0x10000)]
        simp only [List.foldl_cons, List.foldl_nil,
          stepByte_continuation]
        exact stepByte_lead place (by omega) (by omega)
      · rw [if_neg hThree,
          if_neg (by omega : ¬ point < 0x10000)]
        simp only [List.foldl_cons, List.foldl_nil,
          stepByte_continuation]
        exact stepByte_longLead place (by omega) (by omega)

/-
  The place after a text is reached by one step for each of
  its characters.
-/
theorem advance_eq_foldl
    (place : Place)
    (text : String) :
    place.advance text = text.toList.foldl step place := by
  rw [advance, afterBytes_eq_foldl, Text.bytes_eq_flatMap,
    List.foldl_flatMap]
  simp only [foldl_stepByte_utf8EncodeChar]

/- Two texts are passed one after the other. -/
theorem advance_append
    (place : Place)
    (left right : String) :
    place.advance (left ++ right) =
      (place.advance left).advance right := by
  simp only [advance_eq_foldl, String.toList_append,
    List.foldl_append]

@[simp] theorem advance_empty
    (place : Place) :
    place.advance "" = place := by
  simp [advance_eq_foldl]

------------------------------------------------------------
-- Order of Places
------------------------------------------------------------

/- One place is not after the other. -/
def Le (left right : Place) : Prop :=
  left.line < right.line
    ∨ (left.line = right.line ∧ left.column ≤ right.column)

/- One place is before the other. -/
def Lt (left right : Place) : Prop :=
  left.line < right.line
    ∨ (left.line = right.line ∧ left.column < right.column)

theorem Le.refl
    (place : Place) :
    Le place place :=
  Or.inr ⟨rfl, Nat.le_refl _⟩

theorem Le.trans
    {first second third : Place}
    (hLeft : Le first second)
    (hRight : Le second third) :
    Le first third := by
  unfold Le at *
  omega

theorem Le.line_le
    {left right : Place}
    (hLe : Le left right) :
    left.line ≤ right.line := by
  unfold Le at hLe
  omega

theorem Lt.le
    {left right : Place}
    (hLt : Lt left right) :
    Le left right := by
  unfold Lt at hLt
  unfold Le
  omega

theorem Lt.trans_le
    {first second third : Place}
    (hLeft : Lt first second)
    (hRight : Le second third) :
    Lt first third := by
  unfold Lt Le at *
  omega

theorem Lt.ne
    {left right : Place}
    (hLt : Lt left right) :
    left ≠ right := by
  rintro rfl
  unfold Lt at hLt
  omega

/- Every character takes up room. -/
theorem lt_step
    (place : Place)
    (c : Char) :
    Lt place (place.step c) := by
  unfold Lt step Text.charUnits
  split
  · simp
  · split <;> simp

theorem le_foldl_step
    (place : Place)
    (chars : List Char) :
    Le place (chars.foldl step place) := by
  induction chars generalizing place with
  | nil => exact Le.refl place
  | cons c chars ih =>
      exact (lt_step place c).le.trans (ih (place.step c))

theorem le_advance
    (place : Place)
    (text : String) :
    Le place (place.advance text) := by
  rw [advance_eq_foldl]
  exact le_foldl_step place text.toList

theorem line_le_advance
    (place : Place)
    (text : String) :
    place.line ≤ (place.advance text).line :=
  (le_advance place text).line_le

theorem lt_advance
    (place : Place)
    {text : String}
    (hText : text ≠ "") :
    Lt place (place.advance text) := by
  rw [advance_eq_foldl]
  cases hChars : text.toList with
  | nil => exact absurd (String.toList_eq_nil_iff.mp hChars) hText
  | cons c chars =>
      exact (lt_step place c).trans_le
        (le_foldl_step (place.step c) chars)

------------------------------------------------------------
-- Size of Places
------------------------------------------------------------

/- A step adds no more to a place than it has bytes. -/
theorem size_step_le
    (place : Place)
    (c : Char) :
    (place.step c).line + (place.step c).column ≤
      place.line + place.column + c.utf8Size := by
  have hPositive := c.utf8Size_pos
  have hUnits := Text.charUnits_le_utf8Size c
  unfold step
  split
  · simp only
    omega
  · simp only
    omega

/- The lines and columns of a place do not outgrow the text. -/
theorem size_advance_le
    (place : Place)
    (text : String) :
    (place.advance text).line + (place.advance text).column ≤
      place.line + place.column
        + (Text.bytes text).length := by
  rw [advance_eq_foldl, Text.bytes_eq_flatMap]
  generalize text.toList = chars
  induction chars generalizing place with
  | nil => simp
  | cons c chars ih =>
      have hStep := size_step_le place c
      have hRest := ih (place.step c)
      rw [List.foldl_cons, List.flatMap_cons,
        List.length_append, String.length_utf8EncodeChar]
      omega

------------------------------------------------------------
-- Reading at a Place
------------------------------------------------------------

/- What stands at a place of a text that begins here. -/
def readFrom?
    (place : Place) :
    (here : Place) → List Char → Option (List Char)
  | here, [] => if here = place then some [] else none
  | here, c :: rest =>
      if here = place then some (c :: rest)
      else readFrom? place (here.step c) rest

/- The end of a text that begins at a place of it. -/
def read?
    (place : Place)
    (text : String) :
    Option String :=
  (readFrom? place .start text.toList).map String.ofList

theorem readFrom?_here
    (here : Place)
    (text : List Char) :
    readFrom? here here text = some text := by
  cases text <;> simp [readFrom?]

theorem readFrom?_foldl
    (here : Place)
    (front text : List Char) :
    readFrom? (front.foldl step here) here (front ++ text) =
      some text := by
  induction front generalizing here with
  | nil => exact readFrom?_here here text
  | cons c front ih =>
      have hBefore : Lt here ((c :: front).foldl step here) :=
        (lt_step here c).trans_le
          (le_foldl_step (here.step c) front)
      rw [List.cons_append, readFrom?, if_neg hBefore.ne]
      exact ih (here.step c)

/- The text after a front part stands at the end of that part. -/
theorem read?_advance
    (front text : String) :
    read? (start.advance front) (front ++ text) =
      some text := by
  rw [read?, String.toList_append, advance_eq_foldl,
    readFrom?_foldl, Option.map_some, String.ofList_toList]

end Place

------------------------------------------------------------
-- Words
------------------------------------------------------------

namespace Place

/- The line and the column are words. -/
structure Fits (place : Place) : Prop where
  line : place.line < 2 ^ 32
  column : place.column < 2 ^ 32

end Place

/- No place of a text is too large for a word. -/
def Text.Short (text : String) : Prop :=
  (Text.bytes text).length < 2 ^ 32 - 1

namespace Cursor

/- What is left of a place in words. -/
def ofPlace (place : Place) : Cursor where
  line := UInt32.ofNat place.line
  column := UInt32.ofNat place.column

/- The place with the numbers of a cursor. -/
def toPlace (cursor : Cursor) : Place where
  line := cursor.line.toNat
  column := cursor.column.toNat

@[simp] theorem ofPlace_toPlace
    (cursor : Cursor) :
    ofPlace cursor.toPlace = cursor := by
  simp [ofPlace, toPlace]

theorem toPlace_ofPlace
    {place : Place}
    (hFits : place.Fits) :
    (ofPlace place).toPlace = place := by
  rw [toPlace, ofPlace,
    UInt32.toNat_ofNat_of_lt' hFits.line,
    UInt32.toNat_ofNat_of_lt' hFits.column]

/- Words follow the numbers, however long the text is. -/
theorem advance_ofPlace
    (place : Place)
    (text : String) :
    (ofPlace place).advance text =
      ofPlace (place.advance text) := by
  cases hLine : lastLine? (Text.bytes text) with
  | some line =>
      simp only [advance, Place.advance, Place.afterBytes, hLine,
        Text.width_eq_units, ofPlace, UInt32.ofNat_add]
  | none =>
      simp only [advance, Place.advance, Place.afterBytes, hLine,
        Text.width_eq_units, ofPlace, UInt32.ofNat_add]

theorem advance_start
    (text : String) :
    start.advance text = ofPlace (Place.start.advance text) :=
  advance_ofPlace .start text

theorem advance_eq_ofPlace
    (cursor : Cursor)
    (text : String) :
    cursor.advance text =
      ofPlace (cursor.toPlace.advance text) := by
  rw [← advance_ofPlace, ofPlace_toPlace]

/- Two texts are passed one after the other. -/
theorem advance_append
    (cursor : Cursor)
    (left right : String) :
    cursor.advance (left ++ right) =
      (cursor.advance left).advance right := by
  rw [advance_eq_ofPlace, Place.advance_append,
    ← advance_ofPlace, ← advance_eq_ofPlace]

@[simp] theorem advance_empty
    (cursor : Cursor) :
    cursor.advance "" = cursor := by
  rw [advance_eq_ofPlace, Place.advance_empty, ofPlace_toPlace]

/- Cursors are in the order of their numbers. -/
theorem le_iff_toPlace_le
    (left right : Cursor) :
    Le left right ↔ Place.Le left.toPlace right.toPlace := by
  unfold Le Place.Le toPlace
  rw [UInt32.lt_iff_toNat_lt, UInt32.le_iff_toNat_le,
    UInt32.toNat_inj]

/- Every place in a short text is one of words. -/
theorem fits_advance_start
    {front text : String}
    (hShort : Text.Short (front ++ text)) :
    (Place.start.advance front).Fits := by
  have hSize := Place.size_advance_le .start front
  have hLength :
      (Text.bytes front).length ≤
        (Text.bytes (front ++ text)).length := by
    simp [Text.bytes_eq_flatMap]
  unfold Text.Short at hShort
  change _ ≤ 1 + 0 + _ at hSize
  constructor <;> omega

/- In a short text the words have the numbers of the place. -/
theorem toPlace_advance_start
    {front text : String}
    (hShort : Text.Short (front ++ text)) :
    (start.advance front).toPlace = Place.start.advance front := by
  rw [advance_start, toPlace_ofPlace (fits_advance_start hShort)]

end Cursor

end TracedScript
