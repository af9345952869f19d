import TracedScript.Proofs.Cursor
import TracedScript.Trace

/-
  Rendering in terms of the tags and texts of a fragment.

  Key definitions include:
    * `Fragment.Mark`: a tag with the text before and after it.
    * `Fragment.marksFrom`: the marks of some pieces.
    * `Fragment.spotsFrom`: the records with numbers for words.

  Main declarations:
    * `Fragment.pieces_pushAll`
    * `Fragment.records_eq_map_marks`: a record stands at the
      end of the text before its tag.
    * `Fragment.toPlace_record`
    * `Fragment.read?_record`: the text after a tag is read at
      the place of its record.
    * `Fragment.map_ofRecord_records`
    * `Fragment.pairwise_records`
-/

------------------------------------------------------------
-- Pieces
------------------------------------------------------------

namespace TracedScript

namespace Fragment

@[simp] theorem pieces_plain
    (text : String) :
    (plain text).pieces = [.text text] := rfl

@[simp] theorem pieces_tagged
    (tag : Tag)
    (text : String) :
    (tagged tag text).pieces = [.mark tag, .text text] := rfl

@[simp] theorem pieces_concat
    (children : List Fragment) :
    (concat children).pieces = piecesOf children := by
  simp [concat, pieces]

@[simp] theorem piecesOf_nil : piecesOf [] = [] := rfl

@[simp] theorem piecesOf_cons
    (child : Fragment)
    (children : List Fragment) :
    piecesOf (child :: children) =
      child.pieces ++ piecesOf children := by
  rw [piecesOf]

@[simp] theorem piecesOf_append
    (left right : List Fragment) :
    piecesOf (left ++ right) =
      piecesOf left ++ piecesOf right := by
  induction left with
  | nil => rfl
  | cons child left ih => simp [ih]

/- A fragment added at the end keeps its pieces at the end. -/
theorem pieces_push
    (fragment child : Fragment) :
    (fragment.push child).pieces =
      fragment.pieces ++ child.pieces := by
  cases fragment with
  | leaf tag text => simp [push, pieces]
  | composite tag children => simp [push, pieces]

theorem pieces_pushAll
    (fragment : Fragment)
    (children : List Fragment) :
    (fragment.pushAll children).pieces =
      fragment.pieces ++ piecesOf children := by
  unfold pushAll
  induction children generalizing fragment with
  | nil => simp
  | cons child children ih =>
      rw [List.foldl_cons, ih, pieces_push, piecesOf_cons,
        List.append_assoc]

------------------------------------------------------------
-- Code
------------------------------------------------------------

@[simp] theorem codeOf_append
    (left right : List Piece) :
    codeOf (left ++ right) = codeOf left ++ codeOf right := by
  induction left with
  | nil => simp [codeOf]
  | cons piece left ih =>
      cases piece with
      | mark tag => simpa [codeOf] using ih
      | text text => simp [codeOf, ih, String.append_assoc]

------------------------------------------------------------
-- Marks
------------------------------------------------------------

/- A tag with the text before it and the text after it. -/
structure Mark where
  tag : Tag
  before : String
  after : String

/- The tags of some pieces that stand after a text. -/
def marksFrom
    (before : String) :
    List Piece → List Mark
  | [] => []
  | .mark tag :: pieces =>
      ⟨tag, before, codeOf pieces⟩ :: marksFrom before pieces
  | .text text :: pieces => marksFrom (before ++ text) pieces

/- The record of a mark in a text that begins at a place. -/
def Mark.recordFrom
    (origin : Cursor)
    (mark : Mark) :
    Record where
  place := origin.advance mark.before
  tag := mark.tag

/- The record of a mark. -/
def Mark.record : Mark → Record :=
  Mark.recordFrom .start

/- A mark followed by more text. -/
def Mark.extend
    (mark : Mark)
    (text : String) :
    Mark :=
  { mark with after := mark.after ++ text }

theorem marksFrom_append
    (before : String)
    (left right : List Piece) :
    marksFrom before (left ++ right) =
      (marksFrom before left).map (·.extend (codeOf right))
        ++ marksFrom (before ++ codeOf left) right := by
  induction left generalizing before with
  | nil => simp [marksFrom, codeOf]
  | cons piece left ih =>
      cases piece with
      | mark tag =>
          simp [marksFrom, codeOf, ih, Mark.extend]
      | text text =>
          simp [marksFrom, codeOf, ih, String.append_assoc]

/- Each record is that of a mark, in the order of the marks. -/
theorem recordsFrom_eq_map_marksFrom
    (origin : Cursor)
    (before : String)
    (pieces : List Piece) :
    recordsFrom (origin.advance before) pieces =
      (marksFrom before pieces).map (Mark.recordFrom origin) := by
  induction pieces generalizing before with
  | nil => rfl
  | cons piece pieces ih =>
      cases piece with
      | mark tag =>
          rw [recordsFrom, marksFrom, List.map_cons, ih]
          rfl
      | text text =>
          rw [recordsFrom, marksFrom, ← Cursor.advance_append,
            ih]

/- A mark cuts the whole text in two. -/
theorem before_append_after
    {before : String}
    {pieces : List Piece}
    {mark : Mark}
    (hMark : mark ∈ marksFrom before pieces) :
    mark.before ++ mark.after = before ++ codeOf pieces := by
  induction pieces generalizing before with
  | nil => cases hMark
  | cons piece pieces ih =>
      cases piece with
      | mark tag =>
          rcases List.mem_cons.mp hMark with hFirst | hRest
          · rw [hFirst]
            rfl
          · rw [ih hRest]
            rfl
      | text text =>
          rw [ih hMark, codeOf, String.append_assoc]

/- The marks of a fragment that begins a text. -/
def marks (fragment : Fragment) : List Mark :=
  marksFrom "" fragment.pieces

theorem records_eq_map_marks
    (fragment : Fragment) :
    fragment.records = fragment.marks.map Mark.record := by
  have hStart :=
    recordsFrom_eq_map_marksFrom .start "" fragment.pieces
  rwa [Cursor.advance_empty] at hStart

/- What holds of the marks in their order holds of the records. -/
theorem forall₂_records
    {α : Type}
    {fragment : Fragment}
    {items : List α}
    {OfMark : Mark → α → Prop}
    {OfRecord : Record → α → Prop}
    (hMarks : List.Forall₂ OfMark fragment.marks items)
    (hRecord :
      ∀ mark ∈ fragment.marks, ∀ item,
        OfMark mark item → OfRecord mark.record item) :
    List.Forall₂ OfRecord fragment.records items := by
  have hMembers :
      List.Forall₂
        (fun mark item =>
          mark ∈ fragment.marks ∧ OfMark mark item)
        fragment.marks items :=
    (List.forall₂_and_left _ _).mpr
      ⟨fun _ hMark => hMark, hMarks⟩
  rw [records_eq_map_marks, List.forall₂_map_left_iff]
  refine hMembers.imp ?_
  rintro mark item ⟨hMark, hItem⟩
  exact hRecord mark hMark item hItem

theorem code_eq_before_append_after
    {fragment : Fragment}
    {mark : Mark}
    (hMark : mark ∈ fragment.marks) :
    fragment.code = mark.before ++ mark.after := by
  rw [before_append_after hMark, String.empty_append]
  rfl

/- A record in a short text has the numbers of its place. -/
theorem toPlace_record
    {fragment : Fragment}
    (hShort : Text.Short fragment.code)
    {mark : Mark}
    (hMark : mark ∈ fragment.marks) :
    mark.record.place.toPlace =
      Place.start.advance mark.before := by
  rw [code_eq_before_append_after hMark] at hShort
  exact Cursor.toPlace_advance_start hShort

/- The text after a tag is read at the place of its record. -/
theorem read?_record
    {fragment : Fragment}
    (hShort : Text.Short fragment.code)
    {mark : Mark}
    (hMark : mark ∈ fragment.marks) :
    mark.record.place.toPlace.read? fragment.code =
      some mark.after := by
  rw [toPlace_record hShort hMark,
    code_eq_before_append_after hMark]
  exact Place.read?_advance mark.before mark.after

------------------------------------------------------------
-- Places of Records
------------------------------------------------------------

/- A place in numbers and the tag of the text that begins there. -/
structure Spot where
  place : Place
  tag : Tag

/- A record with its place in numbers. -/
def Spot.ofRecord (record : Record) : Spot where
  place := record.place.toPlace
  tag := record.tag

/- The spots of some pieces, the first of which begins at a place. -/
def spotsFrom
    (place : Place) :
    List Piece → List Spot
  | [] => []
  | .mark tag :: pieces => ⟨place, tag⟩ :: spotsFrom place pieces
  | .text text :: pieces => spotsFrom (place.advance text) pieces

theorem spotsFrom_eq_map_marksFrom
    (origin : Place)
    (before : String)
    (pieces : List Piece) :
    spotsFrom (origin.advance before) pieces =
      (marksFrom before pieces).map fun mark =>
        ⟨origin.advance mark.before, mark.tag⟩ := by
  induction pieces generalizing before with
  | nil => rfl
  | cons piece pieces ih =>
      cases piece with
      | mark tag => rw [spotsFrom, marksFrom, List.map_cons, ih]
      | text text =>
          rw [spotsFrom, marksFrom, ← Place.advance_append, ih]

theorem spotsFrom_append
    (place : Place)
    (left right : List Piece) :
    spotsFrom place (left ++ right) =
      spotsFrom place left
        ++ spotsFrom (place.advance (codeOf left)) right := by
  induction left generalizing place with
  | nil => simp [spotsFrom, codeOf]
  | cons piece left ih =>
      cases piece with
      | mark tag => simp [spotsFrom, codeOf, ih]
      | text text =>
          simp [spotsFrom, codeOf, ih, Place.advance_append]

/- The records of a short text stand at the spots. -/
theorem map_ofRecord_records
    {fragment : Fragment}
    (hShort : Text.Short fragment.code) :
    fragment.records.map Spot.ofRecord =
      spotsFrom .start fragment.pieces := by
  have hSpots :=
    spotsFrom_eq_map_marksFrom .start "" fragment.pieces
  rw [Place.advance_empty, ← marks] at hSpots
  rw [hSpots, records_eq_map_marks, List.map_map]
  apply List.map_congr_left
  intro mark hMark
  change (⟨mark.record.place.toPlace, mark.tag⟩ : Spot) = _
  rw [toPlace_record hShort hMark]

/- What holds of two spots in their order holds of the records. -/
theorem pairwise_records_of_spots
    {fragment : Fragment}
    (hShort : Text.Short fragment.code)
    {OfPlaces : Place → Place → Prop}
    (hSpots :
      (spotsFrom .start fragment.pieces).Pairwise
        fun left right => OfPlaces left.place right.place) :
    fragment.records.Pairwise fun left right =>
      OfPlaces left.place.toPlace right.place.toPlace := by
  rwa [← map_ofRecord_records hShort, List.pairwise_map] at hSpots

/- No spot is before the place where the pieces begin. -/
theorem le_place_of_mem_spotsFrom
    {place : Place}
    {pieces : List Piece}
    {spot : Spot}
    (hSpot : spot ∈ spotsFrom place pieces) :
    Place.Le place spot.place := by
  induction pieces generalizing place with
  | nil => cases hSpot
  | cons piece pieces ih =>
      cases piece with
      | mark tag =>
          rcases List.mem_cons.mp hSpot with hFirst | hRest
          · rw [hFirst]
            exact Place.Le.refl place
          · exact ih hRest
      | text text =>
          exact (Place.le_advance place text).trans (ih hSpot)

/- Spots come in the order of their places. -/
theorem pairwise_spotsFrom
    (place : Place)
    (pieces : List Piece) :
    (spotsFrom place pieces).Pairwise fun left right =>
      Place.Le left.place right.place := by
  induction pieces generalizing place with
  | nil => exact List.Pairwise.nil
  | cons piece pieces ih =>
      cases piece with
      | mark tag =>
          apply List.Pairwise.cons
          · intro spot hSpot
            exact le_place_of_mem_spotsFrom hSpot
          · exact ih place
      | text text => exact ih (place.advance text)

theorem pairwise_records
    {fragment : Fragment}
    (hShort : Text.Short fragment.code) :
    fragment.records.Pairwise fun left right =>
      Cursor.Le left.place right.place := by
  simp only [Cursor.le_iff_toPlace_le]
  exact
    pairwise_records_of_spots hShort
      (pairwise_spotsFrom .start fragment.pieces)

theorem one_le_line_of_mem_records
    {fragment : Fragment}
    (hShort : Text.Short fragment.code)
    {record : Record}
    (hRecord : record ∈ fragment.records) :
    1 ≤ record.place.line.toNat := by
  have hSpot :
      Spot.ofRecord record ∈ fragment.records.map Spot.ofRecord :=
    List.mem_map_of_mem hRecord
  rw [map_ofRecord_records hShort] at hSpot
  exact (le_place_of_mem_spotsFrom hSpot).line_le

end Fragment

end TracedScript
