import TracedScript.Proofs.CharacterPlaces

/-
  Rendering of fragments that are put together.

  What stands after a text is rendered as if it began a text,
  and then moved to the end of that text. So the rendering of
  a fragment is all that a tree around it can see, as long as
  the number of a line tells whether it is the first line. With
  2 ^ 32 line feeds the lines begin again from one, and it does
  not.

  Key definitions include:
    * `Cursor.shift`: a place counted from another place.
    * `Text.FewLines`: only the first line has the number one.
    * `Rendered.append`: one rendering after another.
    * `Fragment.Interchangeable`: pieces that can stand for each
      other.
    * `Fragment.Context`: a tree with a hole.

  Main declarations:
    * `Cursor.advance_eq_shift`
    * `Fragment.recordsFrom_eq_map_shift`
    * `Fragment.Interchangeable.of_renderOf`
    * `Fragment.Context.interchangeable_fill`
    * `Fragment.Context.exists_fill_iff`: there is a hole for
      every address.
    * `Fragment.render_compositional`
-/

------------------------------------------------------------
-- Places Counted from a Place
------------------------------------------------------------

namespace TracedScript

/- The lines of a text have different numbers. -/
def Text.FewLines (text : String) : Prop :=
  text.toList.count '\n' < 2 ^ 32

theorem Text.FewLines.of_append
    {left right : String}
    (hFew : FewLines (left ++ right)) :
    FewLines left := by
  unfold FewLines at *
  rw [String.toList_append, List.count_append] at hFew
  omega

theorem Text.Short.of_append_right
    {left right : String}
    (hShort : Short (left ++ right)) :
    Short right := by
  unfold Short at *
  rw [bytes_append, List.length_append] at hShort
  omega

/- A text that is short has few lines. -/
theorem Text.Short.fewLines
    {text : String}
    (hShort : Short text) :
    FewLines text := by
  have hCount : text.toList.count '\n' ≤ (bytes text).length := by
    rw [← Cursor.count_lineFeed_bytes]
    exact List.count_le_length
  unfold Short at hShort
  unfold FewLines
  omega

namespace Place

/-
  The place of a text that is counted from `origin` instead of
  the start. Only the first line goes on from the column of
  `origin`.
-/
def shift (origin place : Place) : Place where
  line := place.line + (origin.line - 1)
  column :=
    if place.line = 1 then place.column + origin.column
    else place.column

theorem advance_eq_shift
    {origin : Place}
    (hOrigin : 1 ≤ origin.line)
    (text : String) :
    origin.advance text = origin.shift (start.advance text) := by
  rw [advance_eq_ite, advance_eq_ite]
  by_cases hFeed : '\n' ∈ text.toList
  · have hPositive := List.count_pos_iff.mpr hFeed
    have hLater : ¬ 1 + text.toList.count '\n' = 1 := by omega
    have hLine :
        origin.line + text.toList.count '\n' =
          1 + text.toList.count '\n' + (origin.line - 1) := by
      omega
    simp only [if_pos hFeed, shift, start, if_neg hLater, hLine]
  · have hLine : origin.line = 1 + (origin.line - 1) := by omega
    simp only [if_neg hFeed, shift, start, if_pos, Nat.zero_add,
      Nat.add_comm origin.column, ← hLine]

end Place

namespace Cursor

/- The same in words, where the first line is told by its number. -/
def shift (origin place : Cursor) : Cursor where
  line := place.line + (origin.line - 1)
  column :=
    if place.line = 1 then place.column + origin.column
    else place.column

/- With few lines, no later line has the number of the first. -/
theorem one_add_count_ne_one
    {text : String}
    (hFew : Text.FewLines text)
    (hFeed : '\n' ∈ text.toList) :
    1 + UInt32.ofNat (text.toList.count '\n') ≠ 1 := by
  have hPositive := List.count_pos_iff.mpr hFeed
  intro hOne
  have hZero : UInt32.ofNat (text.toList.count '\n') = 0 := by
    grind
  have hNumber := congrArg UInt32.toNat hZero
  rw [UInt32.toNat_ofNat_of_lt' hFew] at hNumber
  exact hPositive.ne' hNumber

/- A text with few lines leads from any place to the shifted end. -/
theorem advance_eq_shift
    (origin : Cursor)
    {text : String}
    (hFew : Text.FewLines text) :
    origin.advance text = origin.shift (start.advance text) := by
  have hLine : origin.line = 1 + (origin.line - 1) := by grind
  rw [advance_eq_ite, advance_eq_ite]
  by_cases hFeed : '\n' ∈ text.toList
  · have hLater := one_add_count_ne_one hFew hFeed
    simp only [if_pos hFeed, shift, start, if_neg hLater,
      mk.injEq, and_true]
    grind
  · simp only [if_neg hFeed, shift, start, if_pos, ← hLine,
      UInt32.zero_add, UInt32.add_comm origin.column]

/- In a short text a shifted place has the shifted numbers. -/
theorem toPlace_shift
    {front text more : String}
    (hShort : Text.Short (front ++ text ++ more)) :
    ((start.advance front).shift (start.advance text)).toPlace =
      (start.advance front).toPlace.shift
        (start.advance text).toPlace := by
  have hBoth := toPlace_advance_start hShort
  have hFront : Text.Short (front ++ (text ++ more)) := by
    rwa [← String.append_assoc]
  have hText : Text.Short (text ++ more) := hFront.of_append_right
  have hFew : Text.FewLines text := hText.fewLines.of_append
  rw [← advance_eq_shift _ hFew, ← advance_append, hBoth,
    toPlace_advance_start hFront, toPlace_advance_start hText,
    Place.advance_append]
  exact
    Place.advance_eq_shift (Place.line_le_advance .start front)
      text

end Cursor

------------------------------------------------------------
-- One Rendering after Another
------------------------------------------------------------

/- A record that is counted from another place. -/
def Record.shift
    (origin : Cursor)
    (record : Record) :
    Record :=
  { record with place := origin.shift record.place }

namespace Fragment

/- The rendering of some pieces that begin a text. -/
def renderOf (pieces : List Piece) : Rendered where
  code := codeOf pieces
  records := recordsFrom .start pieces

theorem render_eq_renderOf
    (fragment : Fragment) :
    fragment.render = renderOf fragment.pieces := rfl

theorem recordsFrom_append
    (cursor : Cursor)
    (left right : List Piece) :
    recordsFrom cursor (left ++ right) =
      recordsFrom cursor left
        ++ recordsFrom (cursor.advance (codeOf left)) right := by
  induction left generalizing cursor with
  | nil => simp [recordsFrom, codeOf]
  | cons piece left ih =>
      cases piece with
      | mark tag => simp [recordsFrom, codeOf, ih]
      | text text =>
          simp [recordsFrom, codeOf, ih, Cursor.advance_append]

/- Records that are counted from another place are shifted. -/
theorem recordsFrom_eq_map_shift
    (origin : Cursor)
    {pieces : List Piece}
    (hFew : Text.FewLines (codeOf pieces)) :
    recordsFrom origin pieces =
      (recordsFrom .start pieces).map (Record.shift origin) := by
  have hFrom := recordsFrom_eq_map_marksFrom origin "" pieces
  have hStart := recordsFrom_eq_map_marksFrom .start "" pieces
  rw [Cursor.advance_empty] at hFrom hStart
  rw [hFrom, hStart, List.map_map]
  apply List.map_congr_left
  intro mark hMark
  have hBefore : Text.FewLines mark.before := by
    have hCode := before_append_after hMark
    rw [String.empty_append] at hCode
    exact Text.FewLines.of_append (hCode ▸ hFew)
  change (⟨origin.advance mark.before, mark.tag⟩ : Record) =
    ⟨origin.shift (Cursor.start.advance mark.before), mark.tag⟩
  rw [Cursor.advance_eq_shift origin hBefore]

theorem records_concat_pair
    (first second : Fragment) :
    (concat [first, second]).records =
      first.records
        ++ recordsFrom (Cursor.start.advance first.code)
          second.pieces := by
  rw [records, pieces_concat, piecesOf_cons, piecesOf_cons,
    piecesOf_nil, List.append_nil, recordsFrom_append]
  rfl

/-
  The second of two fragments is rendered as if it stood alone,
  and its records are moved to the end of the first.
-/
theorem render_concat_pair
    (first : Fragment)
    {second : Fragment}
    (hFew : Text.FewLines second.code) :
    (concat [first, second]).render =
      ⟨first.code ++ second.code,
        first.records
          ++ second.records.map
            (Record.shift (Cursor.start.advance first.code))⟩ := by
  rw [render, records_concat_pair, recordsFrom_eq_map_shift _ hFew]
  simp [code, records]

/- In a short text the numbers are moved in the same way. -/
theorem toPlace_shift_record
    {first second : Fragment}
    (hShort : Text.Short (first.code ++ second.code))
    {record : Record}
    (hRecord : record ∈ second.records) :
    (record.shift
        (Cursor.start.advance first.code)).place.toPlace =
      (Cursor.start.advance first.code).toPlace.shift
        record.place.toPlace := by
  rw [records_eq_map_marks, List.mem_map] at hRecord
  rcases hRecord with ⟨mark, hMark, rfl⟩
  rw [code_eq_before_append_after hMark,
    ← String.append_assoc] at hShort
  exact Cursor.toPlace_shift hShort

/- Adding a fragment at the end is putting it after the whole. -/
theorem render_pushAll
    (fragment : Fragment)
    (children : List Fragment) :
    (fragment.pushAll children).render =
      (concat (fragment :: children)).render := by
  rw [render_eq_renderOf, render_eq_renderOf, pieces_pushAll,
    pieces_concat, piecesOf_cons]

------------------------------------------------------------
-- Interchangeable Pieces
------------------------------------------------------------

/- Pieces with the same text, and the same records from any place. -/
structure Interchangeable (left right : List Piece) : Prop where
  code : codeOf left = codeOf right
  records :
    ∀ cursor, recordsFrom cursor left = recordsFrom cursor right

namespace Interchangeable

variable {left right : List Piece}

theorem refl
    (pieces : List Piece) :
    Interchangeable pieces pieces :=
  ⟨rfl, fun _ => rfl⟩

theorem append
    {moreLeft moreRight : List Piece}
    (hSame : Interchangeable left right)
    (hMore : Interchangeable moreLeft moreRight) :
    Interchangeable (left ++ moreLeft) (right ++ moreRight) where
  code := by
    rw [codeOf_append, codeOf_append, hSame.code, hMore.code]
  records cursor := by
    rw [recordsFrom_append, recordsFrom_append,
      hSame.records, hSame.code, hMore.records]

/- Whatever stands around interchangeable pieces may stay. -/
theorem within
    (hSame : Interchangeable left right)
    (front back : List Piece) :
    Interchangeable (front ++ (left ++ back))
      (front ++ (right ++ back)) :=
  (refl front).append (hSame.append (refl back))

theorem renderOf_eq
    (hSame : Interchangeable left right) :
    renderOf left = renderOf right := by
  rw [renderOf, renderOf, hSame.code, hSame.records]

/- With few lines, one rendering says all about some pieces. -/
theorem of_renderOf
    (hFew : Text.FewLines (codeOf left))
    (hSame : renderOf left = renderOf right) :
    Interchangeable left right where
  code := congrArg Rendered.code hSame
  records cursor := by
    have hCode : codeOf left = codeOf right :=
      congrArg Rendered.code hSame
    have hRecords :
        recordsFrom .start left = recordsFrom .start right :=
      congrArg Rendered.records hSame
    rw [recordsFrom_eq_map_shift cursor hFew,
      recordsFrom_eq_map_shift cursor (hCode ▸ hFew), hRecords]

end Interchangeable

------------------------------------------------------------
-- Trees with a Hole
------------------------------------------------------------

/- A tree in which the place of one fragment is left open. -/
inductive Context where
  | hole
  | within
      (tag : Option Tag)
      (front : List Fragment)
      (inner : Context)
      (back : List Fragment)

namespace Context

/- The tree with a fragment in the place that was left open. -/
def fill : Context → Fragment → Fragment
  | .hole, fragment => fragment
  | .within tag front inner back, fragment =>
      .composite tag (front ++ inner.fill fragment :: back)

/- The tags and texts of a tree before its hole. -/
def before : Context → List Piece
  | .hole => []
  | .within tag front inner _ =>
      tag.toList.map .mark ++ piecesOf front ++ inner.before

/- The tags and texts of a tree after its hole. -/
def after : Context → List Piece
  | .hole => []
  | .within _ _ inner back => inner.after ++ piecesOf back

theorem pieces_fill
    (context : Context)
    (fragment : Fragment) :
    (context.fill fragment).pieces =
      context.before ++ (fragment.pieces ++ context.after) := by
  induction context with
  | hole => simp [fill, before, after]
  | within tag front inner back ih =>
      simp [fill, before, after, pieces, ih]

/- Interchangeable fragments may fill the same hole. -/
theorem interchangeable_fill
    (context : Context)
    {left right : Fragment}
    (hSame : Interchangeable left.pieces right.pieces) :
    Interchangeable (context.fill left).pieces
      (context.fill right).pieces := by
  rw [pieces_fill, pieces_fill]
  exact hSame.within context.before context.after

theorem render_fill_congr
    (context : Context)
    {left right : Fragment}
    (hSame : Interchangeable left.pieces right.pieces) :
    (context.fill left).render = (context.fill right).render :=
  (context.interchangeable_fill hSame).renderOf_eq

/- Every fragment inside another one stands in a hole of it. -/
theorem exists_fill_of_at?
    {whole fragment : Fragment}
    {address : Address}
    (hAt : whole.at? address = some fragment) :
    ∃ context : Context, context.fill fragment = whole := by
  induction address generalizing whole with
  | nil =>
      cases hAt
      exact ⟨.hole, rfl⟩
  | cons index address ih =>
      cases hChild : whole.children[index]? with
      | none => simp [at?, hChild] at hAt
      | some child =>
          rw [at?_cons hChild] at hAt
          rcases ih hAt with ⟨inner, hInner⟩
          cases whole with
          | leaf tag text => simp [children] at hChild
          | composite tag siblings =>
              change siblings[index]? = some child at hChild
              rcases List.getElem?_eq_some_iff.mp hChild with
                ⟨hIndex, hGet⟩
              refine
                ⟨.within tag (siblings.take index) inner
                  (siblings.drop (index + 1)), ?_⟩
              have hSiblings :
                  siblings.take index
                      ++ child :: siblings.drop (index + 1) =
                    siblings := by
                rw [← hGet, ← List.drop_eq_getElem_cons hIndex,
                  List.take_append_drop]
              rw [fill, hInner, hSiblings]

theorem exists_at?_fill
    (context : Context)
    (fragment : Fragment) :
    ∃ address, (context.fill fragment).at? address =
      some fragment := by
  induction context with
  | hole => exact ⟨[], rfl⟩
  | within tag front inner back ih =>
      rcases ih with ⟨address, hAt⟩
      refine ⟨front.length :: address, ?_⟩
      have hChild :
          (Context.fill (.within tag front inner back)
              fragment).children[front.length]? =
            some (inner.fill fragment) := by
        simp [fill, children]
      rw [at?_cons hChild, hAt]

/- There is a hole for every address, and only for those. -/
theorem exists_fill_iff
    (whole fragment : Fragment) :
    (∃ context : Context, context.fill fragment = whole) ↔
      ∃ address, whole.at? address = some fragment := by
  constructor
  · rintro ⟨context, rfl⟩
    exact exists_at?_fill context fragment
  · rintro ⟨address, hAt⟩
    exact exists_fill_of_at? hAt

end Context

------------------------------------------------------------
-- Regrouping
------------------------------------------------------------

/- Some children may be exchanged for others. -/
theorem interchangeable_composite
    (tag : Option Tag)
    (front back : List Fragment)
    {left right : List Fragment}
    (hSame : Interchangeable (piecesOf left) (piecesOf right)) :
    Interchangeable
      (composite tag (front ++ left ++ back)).pieces
      (composite tag (front ++ right ++ back)).pieces := by
  have hPieces (siblings : List Fragment) :
      (composite tag (front ++ siblings ++ back)).pieces =
        tag.toList.map .mark ++ piecesOf front
          ++ (piecesOf siblings ++ piecesOf back) := by
    simp [pieces]
  rw [hPieces, hPieces]
  exact hSame.within _ _

theorem interchangeable_splice
    (inner : List Fragment) :
    Interchangeable (piecesOf [concat inner]) (piecesOf inner) := by
  rw [piecesOf_cons, pieces_concat, piecesOf_nil, List.append_nil]
  exact .refl _

theorem interchangeable_split
    (left right : String) :
    Interchangeable (piecesOf [plain (left ++ right)])
      (piecesOf [plain left, plain right]) where
  code := by simp [codeOf]
  records cursor := by
    simp [recordsFrom]

/- Without text and tags there is nothing to render. -/
theorem interchangeable_blank
    {blank : Fragment}
    (hCode : blank.code = "")
    (hTags : blank.tagCount = 0) :
    Interchangeable (piecesOf [blank]) (piecesOf []) where
  code := by
    rw [piecesOf_cons, piecesOf_nil, List.append_nil]
    exact hCode
  records cursor := by
    have hLength :
        (recordsFrom cursor blank.pieces).length = 0 := by
      rw [length_recordsFrom, countP_isMark_pieces, hTags]
    rw [piecesOf_cons, piecesOf_nil, List.append_nil,
      List.eq_nil_of_length_eq_zero hLength]
    rfl

/- A tree with tags of its own and a text before its hole. -/
def markedContext : Context :=
  .within (some ⟨⟨1, 0⟩, ⟨0⟩⟩) [plain "🦀"] .hole
    [tagged ⟨⟨9, 9⟩, ⟨1⟩⟩ "c"]

/- A text of one character over and over. -/
def repeated (count : Nat) (c : Char) : String :=
  String.ofList (List.replicate count c)

theorem advance_repeated_feed
    {count : Nat}
    (hCount : 0 < count)
    (cursor : Cursor) :
    cursor.advance (repeated count '\n') =
      ⟨cursor.line + UInt32.ofNat count, 0⟩ := by
  have hFeed : '\n' ∈ (repeated count '\n').toList := by
    rw [repeated, String.toList_ofList, List.mem_replicate]
    exact ⟨hCount.ne', rfl⟩
  rw [Cursor.advance_eq_ite, if_pos hFeed]
  simp [repeated, Place.lastLine]

theorem advance_repeated_x
    (count : Nat)
    (cursor : Cursor) :
    cursor.advance (repeated count 'x') =
      ⟨cursor.line, cursor.column + UInt32.ofNat count⟩ := by
  have hFeed : ¬ '\n' ∈ (repeated count 'x').toList := by
    rw [repeated, String.toList_ofList, List.mem_replicate]
    rintro ⟨_, hSame⟩
    exact absurd hSame (by decide)
  rw [Cursor.advance_eq_ite, if_neg hFeed]
  simp [repeated, Text.charUnits]

/- The two renderings of a tag before and after line feeds. -/
theorem render_around_feeds
    {count : Nat}
    (hCount : 0 < count)
    (tag : Tag) :
    (concat [tagged tag "", plain (repeated count '\n')]).render =
        ⟨repeated count '\n', [⟨⟨1, 0⟩, tag⟩]⟩
      ∧ (concat [plain (repeated count '\n'), tagged tag ""]).render =
        ⟨repeated count '\n',
          [⟨⟨1 + UInt32.ofNat count, 0⟩, tag⟩]⟩ := by
  constructor
  · simp [render, code, codeOf, records, recordsFrom,
      Cursor.start]
  · simp [render, code, codeOf, records, recordsFrom,
      advance_repeated_feed hCount, Cursor.start]

/- And after another text, which moves the first line only. -/
theorem records_after_text
    {count : Nat}
    (hCount : 0 < count)
    (tag : Tag) :
    (concat
          [plain "a",
            concat
              [tagged tag "",
                plain (repeated count '\n')]]).records =
        [⟨⟨1, 1⟩, tag⟩]
      ∧ (concat
          [plain "a",
            concat
              [plain (repeated count '\n'),
                tagged tag ""]]).records =
        [⟨⟨1 + UInt32.ofNat count, 0⟩, tag⟩] := by
  have hText : Cursor.start.advance "a" = ⟨1, 1⟩ := by cbv
  constructor
  · simp [records, recordsFrom, hText]
  · simp [records, recordsFrom, hText,
      advance_repeated_feed hCount]

/- Two more characters after a line of others. -/
theorem records_after_line
    (count : Nat)
    (tag : Tag) :
    (concat
        [plain (repeated count 'x'),
          concat [plain "xx", tagged tag "y"]]).records =
      [⟨⟨1, UInt32.ofNat count + 2⟩, tag⟩] := by
  have hTwo (cursor : Cursor) :
      cursor.advance "xx" = ⟨cursor.line, cursor.column + 2⟩ := by
    rw [Cursor.advance_eq_ite]
    rfl
  simp [records, recordsFrom, advance_repeated_x, hTwo,
    Cursor.start]

end Fragment

end TracedScript
