import TracedScript.Proofs.Cursor

/-
  Texts in which brackets are properly nested.

  A text leads from the brackets that are open before it to
  those that are open after it. A nested text leaves them as
  they are, and this is what makes it nested.

  Key definitions include:
    * `Text.Nested`: properly nested texts.
    * `Text.openAfter`: the brackets that a text leaves open.
    * `Text.Leads`: from open brackets to open brackets.
    * `Text.braceDepth`: how many braces a text leaves open.

  Main declarations:
    * `Text.openAfter_append`
    * `Text.Nested.openAfter_eq`
    * `Text.nested_iff_openAfter`
    * `Text.Leads.braceDepth_eq`
-/

------------------------------------------------------------
-- Brackets
------------------------------------------------------------

namespace TracedScript

namespace Text

/- The kinds of brackets. -/
inductive Bracket where
  | round
  | curly
  | square
deriving DecidableEq, Repr

/- The kind of bracket that a character opens. -/
def opens? : Char → Option Bracket
  | '(' => some .round
  | '\x7b' => some .curly
  | '[' => some .square
  | _ => none

/- The kind of bracket that a character closes. -/
def closes? : Char → Option Bracket
  | ')' => some .round
  | '\x7d' => some .curly
  | ']' => some .square
  | _ => none

/-
  Texts in which every bracket has its partner, and what is
  between the two is of that kind. Other characters may be
  anywhere.
-/
inductive Nested : List Char → Prop where
  | nil : Nested []
  | other {c : Char} {rest : List Char} :
      opens? c = none → closes? c = none → Nested rest →
        Nested (c :: rest)
  | pair {first last : Char} {inner rest : List Char}
      {kind : Bracket} :
      opens? first = some kind → closes? last = some kind →
        Nested inner → Nested rest →
          Nested (first :: (inner ++ last :: rest))

theorem Nested.append
    {left right : List Char}
    (hLeft : Nested left)
    (hRight : Nested right) :
    Nested (left ++ right) := by
  induction hLeft with
  | nil => exact hRight
  | other hOpens hCloses _ ih => exact .other hOpens hCloses ih
  | pair hOpens hCloses hInner _ _ ih =>
      rw [List.cons_append, List.append_assoc, List.cons_append]
      exact .pair hOpens hCloses hInner ih

------------------------------------------------------------
-- Open Brackets
------------------------------------------------------------

/- The open brackets after a character, the innermost first. -/
def openAfterChar
    (opened : List Bracket)
    (c : Char) :
    Option (List Bracket) :=
  match opens? c, closes? c, opened with
  | some kind, _, opened => some (kind :: opened)
  | none, none, opened => some opened
  | none, some _, [] => none
  | none, some kind, last :: opened =>
      if last = kind then some opened else none

/- The open brackets after a text, unless one is closed wrongly. -/
def openAfter
    (opened : List Bracket) :
    List Char → Option (List Bracket)
  | [] => some opened
  | c :: rest =>
      (openAfterChar opened c).bind fun opened =>
        openAfter opened rest

theorem openAfter_append
    (opened : List Bracket)
    (left right : List Char) :
    openAfter opened (left ++ right) =
      (openAfter opened left).bind fun opened =>
        openAfter opened right := by
  induction left generalizing opened with
  | nil => rfl
  | cons c left ih =>
      rw [List.cons_append, openAfter, openAfter, Option.bind_assoc]
      congr 1
      funext opened
      exact ih opened

theorem openAfterChar_opens
    {c : Char}
    {kind : Bracket}
    (hOpens : opens? c = some kind)
    (opened : List Bracket) :
    openAfterChar opened c = some (kind :: opened) := by
  simp [openAfterChar, hOpens]

/- No character both opens and closes a bracket. -/
theorem opens?_of_closes?
    {c : Char}
    {kind : Bracket}
    (hCloses : closes? c = some kind) :
    opens? c = none := by
  unfold closes? at hCloses
  split at hCloses
  · rfl
  · rfl
  · rfl
  · cases hCloses

theorem openAfterChar_closes
    {c : Char}
    {kind : Bracket}
    (hCloses : closes? c = some kind)
    (opened : List Bracket) :
    openAfterChar (kind :: opened) c = some opened := by
  simp [openAfterChar, opens?_of_closes? hCloses, hCloses]

theorem openAfterChar_other
    {c : Char}
    (hOpens : opens? c = none)
    (hCloses : closes? c = none)
    (opened : List Bracket) :
    openAfterChar opened c = some opened := by
  simp [openAfterChar, hOpens, hCloses]

/- A nested text leaves the open brackets as they are. -/
theorem Nested.openAfter_eq
    {text : List Char}
    (hText : Nested text)
    (opened : List Bracket) :
    openAfter opened text = some opened := by
  induction hText generalizing opened with
  | nil => rfl
  | other hOpens hCloses _ ih =>
      rw [openAfter, openAfterChar_other hOpens hCloses,
        Option.bind_some, ih]
  | pair hOpens hCloses _ _ hInner hRest =>
      rw [openAfter, openAfterChar_opens hOpens, Option.bind_some,
        openAfter_append, hInner, Option.bind_some, openAfter,
        openAfterChar_closes hCloses, Option.bind_some, hRest]

/-
  A text that closes some open brackets, one by one: what is
  before a closing bracket, and what is after the last, is
  nested.
-/
inductive Closing : List Bracket → List Char → Prop where
  | rest {text : List Char} : Nested text → Closing [] text
  | close {kind : Bracket} {opened : List Bracket}
      {inner : List Char} {last : Char} {text : List Char} :
      Nested inner → closes? last = some kind →
        Closing opened text →
          Closing (kind :: opened) (inner ++ last :: text)

theorem Nested.append_closing
    {left text : List Char}
    {opened : List Bracket}
    (hLeft : Nested left)
    (hText : Closing opened text) :
    Closing opened (left ++ text) := by
  cases hText with
  | rest hText => exact .rest (hLeft.append hText)
  | close hInner hCloses hText =>
      rw [← List.append_assoc]
      exact .close (hLeft.append hInner) hCloses hText

/-
  By induction on the text. An opening bracket adds one to
  what the rest has to close, and the rest says where.
-/
theorem closing_of_openAfter
    {opened : List Bracket}
    {text : List Char}
    (hOpen : openAfter opened text = some []) :
    Closing opened text := by
  induction text generalizing opened with
  | nil =>
      cases hOpen
      exact .rest .nil
  | cons c text ih =>
      rw [openAfter] at hOpen
      cases hOpens : opens? c with
      | some kind =>
          rw [openAfterChar_opens hOpens, Option.bind_some] at hOpen
          cases ih hOpen with
          | close hInner hCloses hRest =>
              have hPair :=
                Nested.pair hOpens hCloses hInner .nil
              simpa using hPair.append_closing hRest
      | none =>
          cases hCloses : closes? c with
          | none =>
              rw [openAfterChar_other hOpens hCloses,
                Option.bind_some] at hOpen
              have hOther := Nested.other hOpens hCloses .nil
              exact hOther.append_closing (ih hOpen)
          | some kind =>
              rcases Option.bind_eq_some_iff.mp hOpen with
                ⟨after, hAfter, hRest⟩
              simp only [openAfterChar, hOpens, hCloses] at hAfter
              cases opened with
              | nil => cases hAfter
              | cons last opened =>
                  rw [Option.ite_none_right_eq_some] at hAfter
                  rcases hAfter with ⟨rfl, hAfter⟩
                  cases hAfter
                  exact .close .nil hCloses (ih hRest)

/- A text is nested when it leaves nothing open. -/
theorem nested_iff_openAfter
    (text : List Char) :
    Nested text ↔ openAfter [] text = some [] := by
  constructor
  · intro hText
    exact hText.openAfter_eq []
  · intro hOpen
    cases closing_of_openAfter hOpen with
    | rest hText => exact hText

instance (text : List Char) : Decidable (Nested text) :=
  decidable_of_iff _ (nested_iff_openAfter text).symm

/- From the open brackets before a text to those after it. -/
def Leads
    (text : String)
    (before after : List Bracket) : Prop :=
  openAfter before text.toList = some after

theorem Leads.append
    {left right : String}
    {before middle after : List Bracket}
    (hLeft : Leads left before middle)
    (hRight : Leads right middle after) :
    Leads (left ++ right) before after := by
  unfold Leads at *
  rw [String.toList_append, openAfter_append, hLeft,
    Option.bind_some, hRight]

theorem Nested.leads
    {text : String}
    (hText : Nested text.toList)
    (opened : List Bracket) :
    Leads text opened opened :=
  hText.openAfter_eq opened

/- How many more braces a text opens than it closes. -/
def braceDepth (text : String) : Int :=
  text.toList.count '\x7b' - text.toList.count '\x7d'

/- Braces are the brackets of the curly kind. -/
theorem opens?_eq_curly_iff
    (c : Char) :
    opens? c = some .curly ↔ c = '\x7b' := by
  unfold opens?
  split <;> simp_all

theorem closes?_eq_curly_iff
    (c : Char) :
    closes? c = some .curly ↔ c = '\x7d' := by
  unfold closes?
  split <;> simp_all

/- What one character does to the braces that are open. -/
theorem count_openAfterChar
    {before after : List Bracket}
    {c : Char}
    (hAfter : openAfterChar before c = some after) :
    after.count .curly + [c].count '\x7d' =
      before.count .curly + [c].count '\x7b' := by
  have hOpens := opens?_eq_curly_iff c
  have hCloses := closes?_eq_curly_iff c
  unfold openAfterChar at hAfter
  split at hAfter
  · grind [opens?_of_closes?]
  · grind
  · cases hAfter
  · grind

theorem count_openAfter
    {before after : List Bracket}
    {text : List Char}
    (hAfter : openAfter before text = some after) :
    after.count .curly + text.count '\x7d' =
      before.count .curly + text.count '\x7b' := by
  induction text generalizing before with
  | nil =>
      cases hAfter
      rfl
  | cons c text ih =>
      rcases Option.bind_eq_some_iff.mp hAfter with
        ⟨middle, hMiddle, hRest⟩
      have hFirst := count_openAfterChar hMiddle
      have hMore := ih hRest
      rw [← List.singleton_append, List.count_append,
        List.count_append]
      omega

theorem Leads.braceDepth_eq
    {text : String}
    {opened : List Bracket}
    (hText : Leads text [] opened) :
    braceDepth text = opened.count .curly := by
  have hCount := count_openAfter hText
  rw [List.count_nil] at hCount
  unfold braceDepth
  omega

end Text

end TracedScript
