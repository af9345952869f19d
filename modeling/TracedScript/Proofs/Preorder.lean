import TracedScript.Proofs.Rendering

/-
  Rendering in terms of the places in a fragment tree.

  A fragment inside another is found by its address: which
  child to take at each level. The order of addresses is the
  order in which the tree is read, each fragment before its
  children. What is said here about a record needs nothing but
  the fragments at the addresses before its own.

  Key definitions include:
    * `Fragment.at?`, `Fragment.addresses`
    * `Fragment.textBefore`: the text before an address.
    * `Place.after`: the place after a text, by its lines.

  Main declarations:
    * `Fragment.mem_addresses`, `Fragment.pairwise_addresses`
    * `Fragment.pieces_eq_flatMap`
    * `Fragment.records_eq_filterMap_addresses`
    * `Fragment.render_eq_preorder`
-/

------------------------------------------------------------
-- Addresses
------------------------------------------------------------

namespace TracedScript

namespace Fragment

/- The fragments that a fragment is made of; a text has none. -/
def children : Fragment → List Fragment
  | .leaf _ _ => []
  | .composite _ children => children

/- The tag of a fragment itself. -/
def tag? : Fragment → Option Tag
  | .leaf tag _ => tag
  | .composite tag _ => tag

/- The text of a fragment that is no list of fragments. -/
def text? : Fragment → Option String
  | .leaf _ text => some text
  | .composite _ _ => none

/- Which child to take at each level, from the outside in. -/
abbrev Address := List Nat

/- The fragment at an address. -/
def at? : Fragment → Address → Option Fragment
  | fragment, [] => some fragment
  | fragment, index :: address =>
      match fragment.children[index]? with
      | none => none
      | some child => child.at? address

mutual

/- The addresses in a fragment, each before those inside of it. -/
def addresses : Fragment → List Address
  | .leaf _ _ => [[]]
  | .composite _ children => [] :: addressesFrom 0 children

/- The addresses in some children, the first of which has a number. -/
def addressesFrom (index : Nat) : List Fragment → List Address
  | [] => []
  | child :: children =>
      child.addresses.map (index :: ·)
        ++ addressesFrom (index + 1) children

end

/- The own tag of the fragment at an address. -/
def tagAt?
    (fragment : Fragment)
    (address : Address) :
    Option Tag :=
  (fragment.at? address).bind tag?

/- The own text of the fragment at an address. -/
def textAt?
    (fragment : Fragment)
    (address : Address) :
    Option String :=
  (fragment.at? address).bind text?

/- The text of all fragments whose addresses come before one. -/
def textBefore
    (fragment : Fragment)
    (address : Address) :
    String :=
  String.join
    ((fragment.addresses.filter (· < address)).filterMap
      fragment.textAt?)

variable {whole child : Fragment} {index : Nat}

theorem at?_cons
    (hChild : whole.children[index]? = some child)
    (address : Address) :
    whole.at? (index :: address) = child.at? address := by
  rw [at?, hChild]

/- A child that comes first among those left is the next one. -/
theorem getElem?_of_drop
    {rest : List Fragment}
    (hDrop : whole.children.drop index = child :: rest) :
    whole.children[index]? = some child
      ∧ whole.children.drop (index + 1) = rest := by
  constructor
  · rw [← Nat.add_zero index, ← List.getElem?_drop, hDrop]
    rfl
  · rw [← List.drop_drop, hDrop]
    rfl

------------------------------------------------------------
-- Order of Addresses
------------------------------------------------------------

/- An address among some children starts with one of their numbers. -/
theorem exists_of_mem_addressesFrom
    {rest : List Fragment}
    {address : Address}
    (hAddress : address ∈ addressesFrom index rest) :
    ∃ number inner,
      address = number :: inner ∧ index ≤ number := by
  induction rest generalizing index with
  | nil =>
      rw [addressesFrom] at hAddress
      cases hAddress
  | cons child rest ih =>
      rw [addressesFrom, List.mem_append] at hAddress
      rcases hAddress with hHere | hLater
      · rcases List.mem_map.mp hHere with ⟨inner, _, rfl⟩
        exact ⟨index, inner, rfl, le_refl index⟩
      · rcases ih hLater with ⟨number, inner, rfl, hLe⟩
        exact ⟨number, inner, rfl, by omega⟩

mutual

/- There is a fragment at exactly the addresses of a fragment. -/
theorem mem_addresses
    (fragment : Fragment)
    (address : Address) :
    address ∈ fragment.addresses ↔
      (fragment.at? address).isSome := by
  cases fragment with
  | leaf tag text =>
      cases address with
      | nil => simp [addresses, at?]
      | cons number inner => simp [addresses, at?, children]
  | composite tag children =>
      cases address with
      | nil => simp [addresses, at?]
      | cons number inner =>
          rw [addresses, List.mem_cons,
            mem_addressesFrom children (.composite tag children)
              0 number inner rfl]
          simp

theorem mem_addressesFrom
    (rest : List Fragment)
    (whole : Fragment)
    (index number : Nat)
    (inner : Address)
    (hDrop : whole.children.drop index = rest) :
    number :: inner ∈ addressesFrom index rest ↔
      index ≤ number
        ∧ (whole.at? (number :: inner)).isSome := by
  cases rest with
  | nil =>
      have hLength : whole.children.length ≤ index :=
        List.drop_eq_nil_iff.mp hDrop
      rw [addressesFrom]
      constructor
      · intro hNone
        cases hNone
      · rintro ⟨hLe, hThere⟩
        rw [at?, List.getElem?_eq_none (by omega)] at hThere
        cases hThere
  | cons child rest =>
      rcases getElem?_of_drop hDrop with ⟨hChild, hRest⟩
      have hLater :=
        mem_addressesFrom rest whole (index + 1) number inner
          hRest
      have hHere := mem_addresses child inner
      rw [addressesFrom, List.mem_append, hLater, List.mem_map]
      constructor
      · rintro (⟨address, hAddress, hSame⟩ | ⟨hLe, hThere⟩)
        · cases hSame
          rw [at?_cons hChild]
          exact ⟨le_refl _, hHere.mp hAddress⟩
        · exact ⟨by omega, hThere⟩
      · rintro ⟨hLe, hThere⟩
        by_cases hFirst : number = index
        · subst hFirst
          rw [at?_cons hChild] at hThere
          exact .inl ⟨inner, hHere.mpr hThere, rfl⟩
        · exact .inr ⟨by omega, hThere⟩

end

mutual

/- Addresses come in their order. -/
theorem pairwise_addresses
    (fragment : Fragment) :
    fragment.addresses.Pairwise (· < ·) := by
  cases fragment with
  | leaf tag text =>
      rw [addresses]
      exact List.pairwise_singleton _ _
  | composite tag children =>
      rw [addresses, List.pairwise_cons]
      refine ⟨?_, pairwise_addressesFrom 0 children⟩
      intro address hAddress
      rcases exists_of_mem_addressesFrom hAddress with
        ⟨number, inner, rfl, _⟩
      exact List.nil_lt_cons number inner

theorem pairwise_addressesFrom
    (index : Nat)
    (rest : List Fragment) :
    (addressesFrom index rest).Pairwise (· < ·) := by
  cases rest with
  | nil =>
      rw [addressesFrom]
      exact List.Pairwise.nil
  | cons child rest =>
      rw [addressesFrom, List.pairwise_append, List.pairwise_map]
      refine ⟨?_, pairwise_addressesFrom (index + 1) rest, ?_⟩
      · apply (pairwise_addresses child).imp
        intro left right hLt
        exact List.cons_lt_cons_iff.mpr (.inr ⟨rfl, hLt⟩)
      · intro left hLeft right hRight
        rcases List.mem_map.mp hLeft with ⟨inner, _, rfl⟩
        rcases exists_of_mem_addressesFrom hRight with
          ⟨number, other, rfl, hLe⟩
        exact List.cons_lt_cons_iff.mpr (.inl (by omega))

end

/- In a sorted list, what is less than an item stands before it. -/
theorem filter_lt_of_pairwise
    {front rest : List Address}
    {address : Address}
    (hSorted : (front ++ address :: rest).Pairwise (· < ·)) :
    (front ++ address :: rest).filter (· < address) = front := by
  rw [List.pairwise_append, List.pairwise_cons] at hSorted
  rcases hSorted with ⟨_, ⟨hRest, _⟩, hFront⟩
  have hBefore : front.filter (· < address) = front := by
    rw [List.filter_eq_self]
    intro other hOther
    exact
      decide_eq_true
        (hFront other hOther address List.mem_cons_self)
  have hAfter :
      (address :: rest).filter (· < address) = [] := by
    rw [List.filter_eq_nil_iff]
    intro other hOther hLt
    have hLess := of_decide_eq_true hLt
    rcases List.mem_cons.mp hOther with rfl | hLater
    · exact lt_irrefl _ hLess
    · exact lt_asymm hLess (hRest other hLater)
  rw [List.filter_append, hBefore, hAfter, List.append_nil]

------------------------------------------------------------
-- Pieces by Address
------------------------------------------------------------

/- What stands in the fragment at an address, apart from its children. -/
def ownPieces
    (fragment : Fragment)
    (address : Address) :
    List Piece :=
  (fragment.tagAt? address).toList.map .mark
    ++ (fragment.textAt? address).toList.map .text

theorem ownPieces_cons
    (hChild : whole.children[index]? = some child)
    (address : Address) :
    whole.ownPieces (index :: address) =
      child.ownPieces address := by
  simp only [ownPieces, tagAt?, textAt?, at?_cons hChild]

mutual

/- The pieces of a fragment are those at its addresses. -/
theorem pieces_eq_flatMap
    (fragment : Fragment) :
    fragment.pieces =
      fragment.addresses.flatMap fragment.ownPieces := by
  cases fragment with
  | leaf tag text =>
      simp [pieces, addresses, ownPieces, tagAt?, textAt?, at?,
        tag?, text?]
  | composite tag children =>
      rw [pieces, addresses, List.flatMap_cons,
        piecesOf_eq_flatMap children (.composite tag children) 0
          rfl]
      simp [ownPieces, tagAt?, textAt?, at?, tag?, text?]

theorem piecesOf_eq_flatMap
    (rest : List Fragment)
    (whole : Fragment)
    (index : Nat)
    (hDrop : whole.children.drop index = rest) :
    piecesOf rest =
      (addressesFrom index rest).flatMap whole.ownPieces := by
  cases rest with
  | nil => rw [addressesFrom, piecesOf_nil, List.flatMap_nil]
  | cons child rest =>
      rcases getElem?_of_drop hDrop with ⟨hChild, hRest⟩
      rw [addressesFrom, piecesOf_cons, List.flatMap_append,
        List.flatMap_map, pieces_eq_flatMap child,
        piecesOf_eq_flatMap rest whole (index + 1) hRest]
      simp only [ownPieces_cons hChild]

end

/- The text of some addresses is that of their fragments. -/
theorem codeOf_flatMap_ownPieces
    (fragment : Fragment)
    (part : List Address) :
    codeOf (part.flatMap fragment.ownPieces) =
      String.join (part.filterMap fragment.textAt?) := by
  induction part with
  | nil => rfl
  | cons address rest ih =>
      rw [List.flatMap_cons, codeOf_append, ih, ownPieces,
        codeOf_append]
      have hTag :
          codeOf
              ((fragment.tagAt? address).toList.map .mark) =
            "" := by
        cases fragment.tagAt? address with
        | none => rfl
        | some tag => rfl
      rw [hTag, String.empty_append]
      cases hText : fragment.textAt? address with
      | none => simp [hText, codeOf]
      | some text =>
          simp [hText, codeOf, String.join_cons]

/-
  Reading on from an address, with the text before it: each
  tag that is met is recorded after the text before its own
  address.
-/
theorem marksFrom_flatMap_ownPieces
    (fragment : Fragment)
    (front rest : List Address)
    (hAll : fragment.addresses = front ++ rest) :
    (marksFrom (codeOf (front.flatMap fragment.ownPieces))
        (rest.flatMap fragment.ownPieces)).map
          (fun mark => (mark.tag, mark.before)) =
      rest.filterMap fun address =>
        (fragment.tagAt? address).map fun tag =>
          (tag, fragment.textBefore address) := by
  induction rest generalizing front with
  | nil => rfl
  | cons address rest ih =>
      have hSorted := fragment.pairwise_addresses
      rw [hAll] at hSorted
      have hBefore :
          codeOf (front.flatMap fragment.ownPieces) =
            fragment.textBefore address := by
        rw [codeOf_flatMap_ownPieces, textBefore, hAll,
          filter_lt_of_pairwise hSorted]
      have hNext :=
        ih (front ++ [address])
          (by rw [hAll, List.append_assoc, List.singleton_append])
      rw [List.flatMap_append, List.flatMap_singleton,
        codeOf_append] at hNext
      rw [List.flatMap_cons, marksFrom_append, List.map_append,
        hNext, List.filterMap_cons, hBefore, ownPieces]
      cases fragment.tagAt? address with
      | none =>
          cases fragment.textAt? address with
          | none => rfl
          | some text => rfl
      | some tag =>
          cases fragment.textAt? address with
          | none => rfl
          | some text => rfl

end Fragment

------------------------------------------------------------
-- Places
------------------------------------------------------------

namespace Place

/- What follows the last line feed of a text, or the whole text. -/
def lastLine (text : List Char) : List Char :=
  (text.reverse.takeWhile (· ≠ '\n')).reverse

/-
  The place after a text that begins at the start: the lines
  are counted by their line feeds, the column in units of
  UTF-16.
-/
def after (text : String) : Place where
  line := 1 + text.toList.count '\n'
  column := ((lastLine text.toList).map Text.charUnits).sum

theorem lastLine_concat
    (chars : List Char)
    (c : Char) :
    lastLine (chars ++ [c]) =
      if c = '\n' then [] else lastLine chars ++ [c] := by
  rw [lastLine, List.reverse_concat]
  by_cases hFeed : c = '\n'
  · simp [hFeed]
  · simp [hFeed, lastLine]

theorem foldl_step_start
    (chars : List Char) :
    chars.foldl step start =
      ⟨1 + chars.count '\n',
        ((lastLine chars).map Text.charUnits).sum⟩ := by
  induction chars using List.reverseRecOn with
  | nil => rfl
  | append_singleton chars c ih =>
      rw [List.foldl_append, ih, List.foldl_cons, List.foldl_nil,
        step, lastLine_concat, List.count_append]
      by_cases hFeed : c = '\n'
      · simp [hFeed, Nat.add_assoc]
      · simp [hFeed]

theorem advance_start_eq_after
    (text : String) :
    start.advance text = after text := by
  rw [advance_eq_foldl, foldl_step_start]
  rfl

end Place

------------------------------------------------------------
-- Rendering
------------------------------------------------------------

namespace Fragment

/- A record stands for a tag and not for a text. -/
def Piece.isMark : Piece → Bool
  | .mark _ => true
  | .text _ => false

theorem length_recordsFrom
    (cursor : Cursor)
    (pieces : List Piece) :
    (recordsFrom cursor pieces).length =
      pieces.countP Piece.isMark := by
  induction pieces generalizing cursor with
  | nil => rfl
  | cons piece pieces ih =>
      cases piece with
      | mark tag =>
          rw [recordsFrom, List.length_cons, ih,
            List.countP_cons_of_pos rfl]
      | text text =>
          rw [recordsFrom, ih,
            List.countP_cons_of_neg Bool.false_ne_true]

theorem countP_isMark_map_mark
    (tags : List Tag) :
    (tags.map Piece.mark).countP Piece.isMark = tags.length := by
  induction tags with
  | nil => rfl
  | cons tag tags ih =>
      rw [List.map_cons, List.countP_cons_of_pos rfl, ih,
        List.length_cons]

mutual

/- There is a mark for each tag. -/
theorem countP_isMark_pieces
    (fragment : Fragment) :
    fragment.pieces.countP Piece.isMark = fragment.tagCount := by
  cases fragment with
  | leaf tag text =>
      rw [pieces, List.countP_append, countP_isMark_map_mark,
        tagCount]
      rfl
  | composite tag children =>
      rw [pieces, List.countP_append, countP_isMark_map_mark,
        tagCount, countP_isMark_piecesOf children]

theorem countP_isMark_piecesOf
    (children : List Fragment) :
    (piecesOf children).countP Piece.isMark =
      tagCounts children := by
  cases children with
  | nil => rw [piecesOf_nil, tagCounts, List.countP_nil]
  | cons child children =>
      rw [piecesOf_cons, List.countP_append, tagCounts,
        countP_isMark_pieces child,
        countP_isMark_piecesOf children]

end

/- A mark stands after the text before the address of its tag. -/
theorem map_marks_eq_filterMap_addresses
    {α : Type}
    (fragment : Fragment)
    (stand : Place → Tag → α) :
    (fragment.marks.map fun mark =>
        stand (Place.start.advance mark.before) mark.tag) =
      fragment.addresses.filterMap fun address =>
        (fragment.tagAt? address).map
          (stand (Place.after (fragment.textBefore address))) := by
  have hMarks :=
    marksFrom_flatMap_ownPieces fragment [] fragment.addresses
      rfl
  rw [List.flatMap_nil, codeOf, ← pieces_eq_flatMap,
    ← marks] at hMarks
  have hStand :
      (fun mark : Mark =>
          stand (Place.start.advance mark.before) mark.tag) =
        (fun pair : Tag × String =>
            stand (Place.after pair.2) pair.1)
          ∘ fun mark => (mark.tag, mark.before) := by
    funext mark
    rw [Place.advance_start_eq_after]
    rfl
  rw [hStand, ← List.map_map, hMarks, List.map_filterMap]
  simp only [Option.map_map]
  rfl

theorem records_eq_filterMap_addresses
    (fragment : Fragment) :
    fragment.records =
      fragment.addresses.filterMap fun address =>
        (fragment.tagAt? address).map fun tag =>
          ⟨.ofPlace (.after (fragment.textBefore address)),
            tag⟩ := by
  have hMarks :=
    map_marks_eq_filterMap_addresses fragment fun place tag =>
      (⟨.ofPlace place, tag⟩ : Record)
  rw [← hMarks, records_eq_map_marks]
  apply List.map_congr_left
  intro mark _
  rw [Mark.record, Mark.recordFrom, Cursor.advance_start]

/- In a short text the records have the numbers of their places. -/
theorem map_toPlace_records
    {fragment : Fragment}
    (hShort : Text.Short fragment.code) :
    (fragment.records.map fun record =>
        (record.place.toPlace, record.tag)) =
      fragment.addresses.filterMap fun address =>
        (fragment.tagAt? address).map fun tag =>
          (.after (fragment.textBefore address), tag) := by
  rw [records_eq_map_marks, List.map_map,
    ← map_marks_eq_filterMap_addresses fragment Prod.mk]
  apply List.map_congr_left
  intro mark hMark
  change (mark.record.place.toPlace, mark.tag) = _
  rw [toPlace_record hShort hMark]

/-
  The addresses of a fragment are all that lead somewhere, in
  their order. The code is the text at its addresses. There is
  one record for each tag, in the order of the addresses, and
  it stands after the text of all addresses before its own: in
  words for any code, and in numbers for a short code, whose
  records never go back.
-/
theorem render_eq_preorder
    (fragment : Fragment) :
    fragment.addresses.Pairwise (· < ·)
      ∧ (∀ address,
        address ∈ fragment.addresses ↔
          (fragment.at? address).isSome)
      ∧ fragment.render.code =
        String.join (fragment.addresses.filterMap fragment.textAt?)
      ∧ fragment.render.records.length = fragment.tagCount
      ∧ fragment.render.records =
        fragment.addresses.filterMap (fun address =>
          (fragment.tagAt? address).map fun tag =>
            ⟨.ofPlace (.after (fragment.textBefore address)),
              tag⟩)
      ∧ (Text.Short fragment.render.code →
        (fragment.render.records.map fun record =>
            (record.place.toPlace, record.tag)) =
          fragment.addresses.filterMap (fun address =>
            (fragment.tagAt? address).map fun tag =>
              (.after (fragment.textBefore address), tag))
        ∧ fragment.render.records.Pairwise fun left right =>
            Cursor.Le left.place right.place) := by
  refine
    ⟨fragment.pairwise_addresses, fragment.mem_addresses, ?_, ?_,
      fragment.records_eq_filterMap_addresses, ?_⟩
  · rw [render, code, pieces_eq_flatMap,
      codeOf_flatMap_ownPieces]
  · exact
      (length_recordsFrom .start fragment.pieces).trans
        fragment.countP_isMark_pieces
  · intro hShort
    exact ⟨map_toPlace_records hShort, pairwise_records hShort⟩

/-
  A tagged list with a text of two lines before a tagged leaf:
  both tags are recorded, the list's own tag first.
-/
def preorderSample : Fragment :=
  .composite (some ⟨⟨1, 0⟩, ⟨0⟩⟩)
    [.leaf none "é\n😀", .leaf (some ⟨⟨2, 3⟩, ⟨1⟩⟩) "x"]

theorem render_eq_preorder_sample :
    Text.Short preorderSample.render.code
      ∧ (preorderSample.render.records.map fun record =>
          (record.place.toPlace, record.tag)) =
        [(⟨1, 0⟩, ⟨⟨1, 0⟩, ⟨0⟩⟩), (⟨2, 2⟩, ⟨⟨2, 3⟩, ⟨1⟩⟩)] := by
  have hShort : Text.Short preorderSample.render.code := by
    unfold Text.Short
    cbv
  refine ⟨hShort, ?_⟩
  rcases render_eq_preorder preorderSample with
    ⟨_, _, _, _, _, hNumbers⟩
  rw [(hNumbers hShort).1]
  cbv

end Fragment

end TracedScript
