import TracedScript.Proofs.Preorder

/-
  Places in a text, by its characters.

  The place after a text is found from its bytes: the line by
  the bytes that are line feeds, the column by the bytes after
  the last of them. No byte within a character is a line feed,
  so that both can be said of the characters.

  Main declarations:
    * `Cursor.count_lineFeed_bytes`
    * `Text.width_bytes`
    * `Cursor.exists_lastLine`
    * `Cursor.advance_by_characters`
-/

------------------------------------------------------------
-- Line Feeds
------------------------------------------------------------

namespace TracedScript

namespace Cursor

theorem line_afterBytes
    (place : Place)
    (bytes : List UInt8) :
    (place.afterBytes bytes).line =
      place.line + bytes.count lineFeed := by
  unfold Place.afterBytes
  cases hLine : lastLine? bytes with
  | some line => rfl
  | none =>
      rw [Place.count_lineFeed_of_lastLine?_eq_none hLine]
      rfl

/- No byte of a character but the line feed is a line feed. -/
theorem count_lineFeed_utf8EncodeChar
    (c : Char) :
    (String.utf8EncodeChar c).count lineFeed =
      [c].count '\n' := by
  have hLine := line_afterBytes ⟨0, 0⟩ (String.utf8EncodeChar c)
  rw [Place.afterBytes_eq_foldl,
    Place.foldl_stepByte_utf8EncodeChar, Place.step] at hLine
  by_cases hFeed : c = '\n'
  · rw [if_pos hFeed] at hLine
    simp only [hFeed, List.count_singleton_self] at hLine ⊢
    omega
  · rw [if_neg hFeed] at hLine
    simp only [List.count_singleton, beq_iff_eq, hFeed,
      if_false] at hLine ⊢
    omega

theorem count_lineFeed_bytes
    (text : String) :
    (Text.bytes text).count lineFeed =
      text.toList.count '\n' := by
  rw [Text.bytes_eq_flatMap]
  induction text.toList with
  | nil => rfl
  | cons c chars ih =>
      rw [List.flatMap_cons, List.count_append, ih,
        count_lineFeed_utf8EncodeChar, ← List.count_append,
        List.singleton_append]

theorem lineFeed_mem_bytes_iff
    (text : String) :
    lineFeed ∈ Text.bytes text ↔ '\n' ∈ text.toList := by
  rw [← List.count_pos_iff, count_lineFeed_bytes,
    List.count_pos_iff]

theorem lastLine?_eq_none_iff
    (bytes : List UInt8) :
    lastLine? bytes = none ↔ lineFeed ∉ bytes := by
  constructor
  · intro hNone
    exact List.count_eq_zero.mp
      (Place.count_lineFeed_of_lastLine?_eq_none hNone)
  · intro hNot
    induction bytes with
    | nil => rfl
    | cons byte bytes ih =>
        rw [List.mem_cons, not_or] at hNot
        rw [lastLine?, ih hNot.2]
        exact if_neg (Ne.symm hNot.1)

theorem exists_last_of_mem
    {α : Type}
    {a : α}
    {items : List α}
    (hMember : a ∈ items) :
    ∃ front rest, items = front ++ a :: rest ∧ a ∉ rest := by
  rcases List.eq_append_cons_of_mem
    (List.mem_reverse.mpr hMember) with
    ⟨rest, front, hSplit, hRest⟩
  refine ⟨front.reverse, rest.reverse, ?_, ?_⟩
  · rw [← List.reverse_reverse items, hSplit]
    simp
  · rwa [List.mem_reverse]

theorem lastLine?_append_feed
    (front : List UInt8)
    {line : List UInt8}
    (hLine : lineFeed ∉ line) :
    lastLine? (front ++ lineFeed :: line) = some line := by
  induction front with
  | nil =>
      rw [List.nil_append, lastLine?,
        (lastLine?_eq_none_iff line).mpr hLine]
      exact if_pos rfl
  | cons byte front ih => rw [List.cons_append, lastLine?, ih]

end Cursor

------------------------------------------------------------
-- Columns
------------------------------------------------------------

namespace Text

theorem units_append
    (left right : List UInt8) :
    units (left ++ right) = units left + units right := by
  induction left with
  | nil => exact (Nat.zero_add (units right)).symm
  | cons byte left ih =>
      rw [List.cons_append, units_cons, units_cons, ih,
        Nat.add_assoc]

/- The bytes of a character have as many units as it has. -/
theorem units_utf8EncodeChar
    (c : Char) :
    units (String.utf8EncodeChar c) = charUnits c := by
  by_cases hFeed : c = '\n'
  · rw [hFeed]
    rfl
  · have hNone :
        Cursor.lastLine? (String.utf8EncodeChar c) = none := by
      rw [Cursor.lastLine?_eq_none_iff, ← List.count_eq_zero,
        Cursor.count_lineFeed_utf8EncodeChar,
        List.count_eq_zero, List.mem_singleton]
      exact Ne.symm hFeed
    have hPlace :=
      Place.afterBytes_eq_foldl ⟨0, 0⟩ (String.utf8EncodeChar c)
    rw [Place.foldl_stepByte_utf8EncodeChar, Place.afterBytes,
      hNone, Place.step, if_neg hFeed] at hPlace
    simpa using hPlace

/- The width of a text is its length in UTF-16. -/
theorem width_bytes
    (text : String) :
    width (bytes text) = (text.toList.map charUnits).sum := by
  rw [width_eq_units, bytes_eq_flatMap]
  induction text.toList with
  | nil => rfl
  | cons c chars ih =>
      rw [List.flatMap_cons, units_append, ih,
        units_utf8EncodeChar, List.map_cons, List.sum_cons]

theorem length_bytes
    (text : String) :
    (bytes text).length = text.utf8ByteSize := by
  rw [bytes, String.toUTF8_eq_toByteArray]
  exact text.size_toByteArray

end Text

------------------------------------------------------------
-- The Last Line
------------------------------------------------------------

namespace Cursor

theorem lastLine_append_feed
    (front : List Char)
    {tail : List Char}
    (hTail : '\n' ∉ tail) :
    Place.lastLine (front ++ '\n' :: tail) = tail := by
  have hOther : ∀ c ∈ tail.reverse, decide (c ≠ '\n') = true := by
    intro c hMember
    rw [decide_eq_true_iff]
    rintro rfl
    exact hTail (List.mem_reverse.mp hMember)
  rw [Place.lastLine, List.reverse_append, List.reverse_cons,
    List.append_assoc, List.takeWhile_append_of_pos hOther]
  simp

/- A text with a line feed, cut after the last one. -/
theorem exists_tail_of_feed
    {text : String}
    (hFeed : '\n' ∈ text.toList) :
    ∃ front tail : String,
      text = front ++ "\n" ++ tail ∧ '\n' ∉ tail.toList := by
  rcases exists_last_of_mem hFeed with
    ⟨front, tail, hChars, hTail⟩
  refine ⟨String.ofList front, String.ofList tail, ?_, ?_⟩
  · apply String.toList_injective
    simpa using hChars
  · rwa [String.toList_ofList]

theorem lastLine?_bytes_append
    (front : String)
    {tail : String}
    (hTail : '\n' ∉ tail.toList) :
    lastLine? (Text.bytes (front ++ "\n" ++ tail)) =
      some (Text.bytes tail) := by
  have hFeed : Text.bytes "\n" = [lineFeed] := rfl
  rw [Text.bytes_append, Text.bytes_append, hFeed,
    List.append_assoc, List.singleton_append]
  apply lastLine?_append_feed
  rwa [lineFeed_mem_bytes_iff]

/-
  The bytes after the last line feed are those of a text, and
  a character begins where they begin.
-/
theorem exists_lastLine
    {text : String}
    {line : List UInt8}
    (hLine : lastLine? (Text.bytes text) = some line) :
    ∃ front tail : String,
      text = front ++ "\n" ++ tail
        ∧ '\n' ∉ tail.toList
        ∧ Text.bytes tail = line
        ∧ String.Pos.Raw.IsValid text
          ⟨(Text.bytes text).length - line.length⟩ := by
  have hFeed : '\n' ∈ text.toList := by
    rw [← lineFeed_mem_bytes_iff]
    by_contra hNot
    rw [(lastLine?_eq_none_iff _).mpr hNot] at hLine
    cases hLine
  rcases exists_tail_of_feed hFeed with
    ⟨front, tail, rfl, hTail⟩
  rw [lastLine?_bytes_append front hTail] at hLine
  cases hLine
  refine ⟨front, tail, rfl, hTail, rfl, ?_⟩
  rw [String.Pos.Raw.isValid_iff_exists_append]
  refine ⟨front ++ "\n", tail, rfl, ?_⟩
  rw [Text.bytes_append, List.length_append, Nat.add_sub_cancel,
    Text.length_bytes]
  rfl

end Cursor

namespace Place

open Cursor (exists_tail_of_feed lastLine?_bytes_append
  count_lineFeed_bytes lastLine?_eq_none_iff
  lineFeed_mem_bytes_iff lastLine_append_feed)

/- The place after a text, in terms of its characters. -/
theorem advance_eq_ite
    (place : Place)
    (text : String) :
    place.advance text =
      if '\n' ∈ text.toList then
        ⟨place.line + text.toList.count '\n',
          ((lastLine text.toList).map Text.charUnits).sum⟩
      else
        ⟨place.line,
          place.column
            + (text.toList.map Text.charUnits).sum⟩ := by
  split
  · next hFeed =>
      rcases exists_tail_of_feed hFeed with
        ⟨front, tail, rfl, hTail⟩
      have hChars :
          (front ++ "\n" ++ tail).toList =
            front.toList ++ '\n' :: tail.toList := by
        simp
      simp only [advance, afterBytes,
        lastLine?_bytes_append front hTail,
        count_lineFeed_bytes, ← Text.width_eq_units,
        Text.width_bytes]
      rw [hChars, lastLine_append_feed front.toList hTail]
  · next hNot =>
      have hNone :
          Cursor.lastLine? (Text.bytes text) = none := by
        rwa [lastLine?_eq_none_iff, lineFeed_mem_bytes_iff]
      simp only [advance, afterBytes, hNone,
        ← Text.width_eq_units, Text.width_bytes]

end Place

namespace Cursor

theorem advance_eq_ite
    (cursor : Cursor)
    (text : String) :
    cursor.advance text =
      if '\n' ∈ text.toList then
        ⟨cursor.line + UInt32.ofNat (text.toList.count '\n'),
          UInt32.ofNat
            ((Place.lastLine text.toList).map
              Text.charUnits).sum⟩
      else
        ⟨cursor.line,
          cursor.column
            + UInt32.ofNat
              (text.toList.map Text.charUnits).sum⟩ := by
  rw [advance_eq_ofPlace, Place.advance_eq_ite]
  split
  · simp [ofPlace, toPlace, UInt32.ofNat_add]
  · simp [ofPlace, toPlace, UInt32.ofNat_add]

/-
  The place after a text, found from its bytes, is the place
  that its characters lead to, up to what a word cannot hold.
  Two texts are passed one after the other, the cut after the
  last line feed is between two characters, the short way for
  ASCII gives the length in UTF-16, and no text leads back, as
  long as the place that it leads to is one of words.
-/
theorem advance_by_characters
    (cursor : Cursor)
    (text more : String) :
    cursor.advance (text ++ more) =
        (cursor.advance text).advance more
      ∧ cursor.advance text =
          ofPlace
            (if '\n' ∈ text.toList then
              ⟨cursor.line.toNat + text.toList.count '\n',
                ((Place.lastLine text.toList).map
                  Text.charUnits).sum⟩
            else
              ⟨cursor.line.toNat,
                cursor.column.toNat
                  + (text.toList.map Text.charUnits).sum⟩)
      ∧ (∀ line, lastLine? (Text.bytes text) = some line →
          ∃ front tail : String,
            text = front ++ "\n" ++ tail
              ∧ '\n' ∉ tail.toList
              ∧ Text.bytes tail = line
              ∧ String.Pos.Raw.IsValid text
                ⟨(Text.bytes text).length - line.length⟩)
      ∧ Text.width (Text.bytes text) =
          (text.toList.map Text.charUnits).sum
      ∧ ((cursor.toPlace.advance text).Fits →
          (cursor.advance text).toPlace =
              cursor.toPlace.advance text
            ∧ Le cursor (cursor.advance text)) := by
  refine ⟨?_, ?_, ?_, ?_, ?_⟩
  · exact advance_append cursor text more
  · rw [advance_eq_ofPlace, Place.advance_eq_ite]
    rfl
  · intro line hLine
    exact exists_lastLine hLine
  · exact Text.width_bytes text
  · intro hFits
    have hPlace :
        (cursor.advance text).toPlace =
          cursor.toPlace.advance text := by
      rw [advance_eq_ofPlace, toPlace_ofPlace hFits]
    refine ⟨hPlace, ?_⟩
    rw [le_iff_toPlace_le, hPlace]
    exact Place.le_advance cursor.toPlace text

/-
  A text whose last line begins with a character of four bytes,
  after one of two bytes, and that is followed by more of the
  line.
-/
theorem advance_by_characters_broken :
    lastLine? (Text.bytes "é\n😀b") =
        some [0xf0, 0x9f, 0x98, 0x80, 0x62]
      ∧ String.Pos.Raw.IsValid "é\n😀b" ⟨3⟩
      ∧ advance ⟨7, 5⟩ "é\n😀b" = ⟨8, 3⟩
      ∧ advance ⟨7, 5⟩ ("é\n😀b" ++ "c") = ⟨8, 4⟩
      ∧ Le ⟨7, 5⟩ (advance ⟨7, 5⟩ "é\n😀b") := by
  have hLine :
      lastLine? (Text.bytes "é\n😀b") =
        some [0xf0, 0x9f, 0x98, 0x80, 0x62] := by
    cbv
  have hSize : (Text.bytes "é\n😀b").length = 8 := by cbv
  rcases advance_by_characters ⟨7, 5⟩ "é\n😀b" "c" with
    ⟨hMore, hPlace, hCut, _, hFits⟩
  rcases hCut _ hLine with ⟨_, _, _, _, _, hValid⟩
  have hFirst : advance ⟨7, 5⟩ "é\n😀b" = ⟨8, 3⟩ := by
    rw [hPlace]
    decide
  refine ⟨hLine, ?_, hFirst, ?_, ?_⟩
  · simpa [hSize] using hValid
  · rw [hMore, hFirst]
    decide
  · apply (hFits _).2
    rw [Place.advance_eq_ite]
    exact ⟨by decide, by decide⟩

end Cursor

end TracedScript
