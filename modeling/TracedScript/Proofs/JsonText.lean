import Mathlib
import TracedScript.Json.Reader
import TracedScript.Json.Value

/-
  Reading the text of a JSON value gives the draft of that
  value.

  The reader takes a text token by token and keeps a stack of
  open containers, the writer follows the value. They meet in
  `Json.State.readOn`, which reads a text from any state on.

  Key definitions include:
    * `Json.State.readOn`
    * `Json.Value.Small`: all numbers are below the limit.
    * `Json.ValueInduction`: induction on values.

  Main declarations:
    * `Json.tokens_literal`, `Json.tokens_number`
    * `Json.valueInduction_readBack`
    * `Json.scan_write`
    * `Json.read_write`
-/

------------------------------------------------------------
-- Induction on Values
------------------------------------------------------------

namespace TracedScript

namespace Json

/- The steps of an induction on values and their parts. -/
structure ValueInduction
    (P : Value → Prop)
    (Items : List Value → Prop)
    (Members : List (String × Value) → Prop) : Prop where
  null : P .null
  bool : ∀ value, P (.bool value)
  number : ∀ value, P (.number value)
  string : ∀ value, P (.string value)
  array : ∀ items, Items items → P (.array items)
  object : ∀ members, Members members → P (.object members)
  noItems : Items []
  item : ∀ value items,
    P value → Items items → Items (value :: items)
  noMembers : Members []
  member : ∀ key value members,
    P value → Members members →
      Members ((key, value) :: members)

namespace ValueInduction

variable {P : Value → Prop}
variable {Items : List Value → Prop}
variable {Members : List (String × Value) → Prop}

mutual

/- The induction holds for every value. -/
theorem value
    (steps : ValueInduction P Items Members) :
    (value : Value) → P value
  | .null => steps.null
  | .bool value => steps.bool value
  | .number value => steps.number value
  | .string value => steps.string value
  | .array items => steps.array items (itemList steps items)
  | .object members =>
      steps.object members (memberList steps members)

/- The induction holds for the items of every array. -/
theorem itemList
    (steps : ValueInduction P Items Members) :
    (items : List Value) → Items items
  | [] => steps.noItems
  | first :: items =>
      steps.item first items (value steps first)
        (itemList steps items)

/- The induction holds for the members of every object. -/
theorem memberList
    (steps : ValueInduction P Items Members) :
    (members : List (String × Value)) → Members members
  | [] => steps.noMembers
  | (key, first) :: members =>
      steps.member key first members (value steps first)
        (memberList steps members)

end

end ValueInduction

------------------------------------------------------------
-- String Literals
------------------------------------------------------------

/- The code of a control character is read from its escape. -/
theorem hexUnit?_control
    {code : Nat}
    (hCode : code < 32) :
    hexUnit? '0' '0' (Nat.digitChar (code / 16))
        (Nat.digitChar (code % 16)) =
      some code := by
  have hAll :
      ∀ number < 32,
        hexUnit? '0' '0' (Nat.digitChar (number / 16))
            (Nat.digitChar (number % 16)) =
          some number := by
    decide
  exact hAll code hCode

/- A character that needs no escape is read as it is. -/
theorem scanString_cons
    {c : Char}
    (rest : List Char)
    (hQuote : c ≠ '"')
    (hEscape : c ≠ '\\')
    (hControl : ¬ c.toNat < 0x20) :
    scanString (c :: rest) =
      (scanString rest).map fun result =>
        (c.toNat :: result.1, result.2) := by
  rw [scanString.eq_def]
  split
  · next hNil => cases hNil
  · next hCons => exact absurd (List.cons.inj hCons).1 hQuote
  · next hCons => exact absurd (List.cons.inj hCons).1 hEscape
  · next hCons => exact absurd (List.cons.inj hCons).1 hEscape
  · next hCons =>
      cases hCons
      rw [if_neg (by simp [hEscape, hControl])]
      cases scanString rest <;> rfl

/- Each character is read from what is written for it. -/
theorem scanString_escapeChar
    (c : Char)
    (rest : List Char) :
    scanString (escapeChar c ++ rest) =
      (scanString rest).map fun result =>
        (c.toNat :: result.1, result.2) := by
  have hBind (number : Nat) :
      ((scanString rest).bind fun result =>
          some (number :: result.1, result.2)) =
        (scanString rest).map fun result =>
          (number :: result.1, result.2) := by
    cases scanString rest <;> rfl
  unfold escapeChar
  -- the characters with a short escape
  iterate 7
    split
    · next hChar =>
        subst hChar
        exact hBind _
  split
  · next hControl =>
      simp only [List.cons_append, List.nil_append, scanString,
        hexUnit?_control hControl]
      exact hBind _
  · next hQuote hEscape _ _ _ _ _ hControl =>
      exact scanString_cons rest hQuote hEscape hControl

theorem scanString_flatMap_escapeChar
    (text rest : List Char) :
    scanString (text.flatMap escapeChar ++ '"' :: rest) =
      some (text.map Char.toNat, rest) := by
  induction text with
  | nil => rfl
  | cons c text ih =>
      rw [List.flatMap_cons, List.append_assoc,
        scanString_escapeChar, ih]
      rfl

/- No character is half of a surrogate pair. -/
theorem isSurrogate_toNat
    (c : Char) :
    isHighSurrogate c.toNat = false
      ∧ isLowSurrogate c.toNat = false := by
  have hValid := c.valid
  have hValue : c.val.toNat = c.toNat := rfl
  simp only [UInt32.isValidChar, Nat.isValidChar, hValue]
    at hValid
  simp only [isHighSurrogate, isLowSurrogate,
    Bool.and_eq_false_iff, decide_eq_false_iff_not]
  omega

theorem joinSurrogates_map_toNat
    (text : List Char) :
    joinSurrogates (text.map Char.toNat) = some text := by
  induction text with
  | nil => rfl
  | cons c text ih =>
      have hChar := isSurrogate_toNat c
      cases text with
      | nil =>
          simp [joinSurrogates, hChar, Char.ofNat_toNat]
      | cons d text =>
          rw [List.map_cons] at ih
          simp [joinSurrogates, hChar, Char.ofNat_toNat, ih]

------------------------------------------------------------
-- Tokens
------------------------------------------------------------

/- The first token of a text that does not begin with a blank. -/
theorem tokens_cons
    {c : Char}
    {rest after : List Char}
    {token : Token}
    (hSpace : isSpace c = false)
    (hToken : tokenFrom c rest = (token, after)) :
    tokens (c :: rest) = token :: tokens after := by
  have hNext : next (c :: rest) = some (token, after) := by
    simp [next, hSpace, hToken]
  rw [tokens]
  split
  · next hNone =>
      rw [hNext] at hNone
      cases hNone
  · next hSome =>
      rw [hNext] at hSome
      cases hSome
      rfl

/- A string literal is one token, whatever follows it. -/
theorem tokens_literal
    (text : String)
    (rest : List Char) :
    tokens (literal text ++ rest) =
      .string (some text) :: tokens rest := by
  have hScan :
      stringToken?
          (text.toList.flatMap escapeChar ++ '"' :: rest) =
        some (.string (some text), rest) := by
    rw [stringToken?, scanString_flatMap_escapeChar]
    simp [joinSurrogates_map_toNat]
  have hLiteral :
      literal text ++ rest =
        '"' :: (text.toList.flatMap escapeChar
          ++ '"' :: rest) := by
    simp [literal]
  rw [hLiteral]
  apply tokens_cons rfl
  change orUnreadable (stringToken? _) = _
  rw [hScan]
  rfl

------------------------------------------------------------
-- Numbers
------------------------------------------------------------

/- A text that can follow a value inside a written text. -/
def EndsValue (text : List Char) : Prop :=
  ∀ c rest, text = c :: rest → c = ',' ∨ c = ']' ∨ c = '\x7d'

theorem endsValue_nil : EndsValue [] := by
  intro c rest hCons
  cases hCons

theorem endsValue_cons
    {c : Char}
    (hChar : c = ',' ∨ c = ']' ∨ c = '\x7d')
    (rest : List Char) :
    EndsValue (c :: rest) := by
  intro d tail hCons
  cases hCons
  exact hChar

/- A character that ends a value has no meaning in a number. -/
theorem EndsValue.notNumeral
    {c : Char}
    {rest : List Char}
    (hEnds : EndsValue (c :: rest)) :
    c.isDigit = false ∧ c ≠ '.' ∧ c ≠ 'e' ∧ c ≠ 'E' := by
  rcases hEnds c rest rfl with rfl | rfl | rfl <;> decide

theorem digitRun_append
    {digits rest : List Char}
    (hDigits : ∀ c ∈ digits, c.isDigit)
    (hEnds : EndsValue rest) :
    digitRun (digits ++ rest) =
      (digits.map fun c => c.toNat - '0'.toNat, rest) := by
  induction digits with
  | nil =>
      cases rest with
      | nil => rfl
      | cons c rest => simp [digitRun, hEnds.notNumeral.1]
  | cons c digits ih =>
      rw [List.forall_mem_cons] at hDigits
      rw [List.cons_append, digitRun, if_pos hDigits.1,
        ih hDigits.2]
      rfl

/- Only zero is written with a leading zero. -/
theorem head?_toDigits
    {number : Nat}
    (hPositive : 0 < number) :
    (Nat.toDigits 10 number).head? ≠ some '0' := by
  induction number using Nat.strongRecOn with
  | ind number ih =>
      by_cases hSmall : number < 10
      · rw [Nat.toDigits_of_lt_base hSmall]
        simp
        omega
      · have hRest := ih (number / 10) (by omega) (by omega)
        rw [Nat.toDigits_of_base_le (by omega) (by omega),
          List.head?_append_of_ne_nil _ Nat.toDigits_ne_nil]
        exact hRest

/- The values of the digits of a number. -/
def decimals (number : Nat) : List Nat :=
  (Nat.toDigits 10 number).map fun c => c.toNat - '0'.toNat

theorem ofDigits_decimals
    (number : Nat) :
    ofDigits (decimals number) = number := by
  have hDigits : Nat.ofDigitChars 10 (Nat.toDigits 10 number) 0 =
      number :=
    Nat.ofDigitChars_ten_toDigits
  rw [ofDigits, decimals, List.foldl_map]
  exact hDigits

theorem isDigit_of_mem_toDigits
    {number : Nat}
    {c : Char}
    (hMember : c ∈ Nat.toDigits 10 number) :
    c.isDigit :=
  Nat.isDigit_of_mem_toDigits (by decide) (by decide) hMember

theorem digitRun_toDigits
    (number : Nat)
    {rest : List Char}
    (hEnds : EndsValue rest) :
    digitRun (Nat.toDigits 10 number ++ rest) =
      (decimals number, rest) :=
  digitRun_append (fun _ => isDigit_of_mem_toDigits) hEnds

/- A digit with the value zero is the digit zero. -/
theorem eq_zero_of_isDigit
    {c : Char}
    (hDigit : c.isDigit)
    (hZero : c.toNat - '0'.toNat = 0) :
    c = '0' := by
  simp only [Char.isDigit, Bool.and_eq_true, decide_eq_true_eq]
    at hDigit
  have hLow : 48 ≤ c.toNat := hDigit.1
  have hCode : c.toNat = '0'.toNat := by
    change c.toNat - 48 = 0 at hZero
    change c.toNat = 48
    omega
  rw [← Char.ofNat_toNat c, hCode]
  rfl

theorem scanWhole_toDigits
    (number : Nat)
    {rest : List Char}
    (hEnds : EndsValue rest) :
    Numeral.scanWhole (Nat.toDigits 10 number ++ rest) =
      some (decimals number, rest) := by
  rw [Numeral.scanWhole, digitRun_toDigits number hEnds]
  split
  · next hNil =>
      exact absurd (List.map_eq_nil_iff.mp hNil)
        Nat.toDigits_ne_nil
  · next second more hZero =>
      exfalso
      rcases List.map_eq_cons_iff.mp hZero with
        ⟨c, tail, hDigits, hFirst, hMore⟩
      have hChar : c = '0' := by
        apply eq_zero_of_isDigit _ hFirst
        apply isDigit_of_mem_toDigits
        rw [hDigits]
        exact List.mem_cons_self
      rcases Nat.eq_zero_or_pos number with rfl | hPositive
      · rw [Nat.toDigits_zero] at hDigits
        cases hDigits
        cases hMore
      · apply head?_toDigits hPositive
        rw [hDigits, hChar]
        rfl
  · rfl

/- What follows a number is no part of it. -/
theorem EndsValue.scanFraction
    {rest : List Char}
    (hEnds : EndsValue rest) :
    Numeral.scanFraction rest = some (none, rest) := by
  cases rest with
  | nil => rfl
  | cons c rest =>
      unfold Numeral.scanFraction
      split
      · next hPoint =>
          exact absurd (List.cons.inj hPoint).1
            hEnds.notNumeral.2.1
      · rfl

theorem EndsValue.scanExponent
    {rest : List Char}
    (hEnds : EndsValue rest) :
    Numeral.scanExponent rest = some (none, rest) := by
  cases rest with
  | nil => rfl
  | cons c rest =>
      have hMark := hEnds.notNumeral.2.2
      simp [Numeral.scanExponent, hMark]

/- A number begins with a digit. -/
theorem exists_toDigits_eq_cons
    (number : Nat) :
    ∃ c digits,
      Nat.toDigits 10 number = c :: digits ∧ c.isDigit := by
  rcases
      List.exists_cons_of_ne_nil
        (Nat.toDigits_ne_nil : Nat.toDigits 10 number ≠ []) with
    ⟨c, digits, hDigits⟩
  refine ⟨c, digits, hDigits, ?_⟩
  apply isDigit_of_mem_toDigits
  rw [hDigits]
  exact List.mem_cons_self

theorem scan_toDigits
    (number : Nat)
    {rest : List Char}
    (hEnds : EndsValue rest) :
    Numeral.scan (Nat.toDigits 10 number ++ rest) =
      some (⟨false, decimals number, none, none⟩, rest) := by
  have hWhole := scanWhole_toDigits number hEnds
  rcases exists_toDigits_eq_cons number with
    ⟨c, digits, hDigits, hDigit⟩
  rw [hDigits, List.cons_append] at hWhole ⊢
  have hMinus : c ≠ '-' := by
    intro hSame
    rw [hSame] at hDigit
    cases hDigit
  simp [Numeral.scan, hMinus, hWhole, hEnds.scanFraction,
    hEnds.scanExponent]

/- The digits of a number are one token. -/
theorem tokens_number
    {number : Nat}
    {rest : List Char}
    (hNumber : number < Scaled.limit)
    (hEnds : EndsValue rest) :
    tokens (Nat.toDigits 10 number ++ rest) =
      .number (some (.natural number)) :: tokens rest := by
  have hToken :
      numberToken? (Nat.toDigits 10 number ++ rest) =
        some (.number (some (.natural number)), rest) := by
    rw [numberToken?, scan_toDigits number hEnds]
    simp [Numeral.number?, ofDigits_decimals, hNumber]
  rcases exists_toDigits_eq_cons number with
    ⟨c, digits, hDigits, hDigit⟩
  rw [hDigits, List.cons_append] at hToken ⊢
  have hOther (other : Char) (hNot : other.isDigit = false) :
      c ≠ other := by
    intro hSame
    rw [hSame, hNot] at hDigit
    cases hDigit
  apply tokens_cons
  · simp [isSpace, hOther]
  · simp [tokenFrom, punctuation?, keyword?, hOther, hDigit,
      hToken, orUnreadable]

------------------------------------------------------------
-- Reading On
------------------------------------------------------------

/- The state after a text that is read from some state on. -/
def State.readOn
    (state : State)
    (text : List Char) :
    State :=
  (tokens text).foldl State.step state

namespace State

variable (state : State) (rest : List Char)

theorem readOn_literal
    (text : String) :
    readOn state (literal text ++ rest) =
      readOn (state.step (.string (some text))) rest := by
  rw [readOn, tokens_literal]
  rfl

theorem readOn_number
    {number : Nat}
    (hNumber : number < Scaled.limit)
    (hEnds : EndsValue rest) :
    readOn state (Nat.toDigits 10 number ++ rest) =
      readOn (state.step (.number (some (.natural number))))
        rest := by
  rw [readOn, tokens_number hNumber hEnds]
  rfl

theorem readOn_punctuation
    {c : Char}
    {token : Token}
    (hToken : punctuation? c = some token)
    (hSpace : isSpace c = false) :
    readOn state (c :: rest) =
      readOn (state.step token) rest := by
  have hFrom : tokenFrom c rest = (token, rest) := by
    simp [tokenFrom, hToken]
  rw [readOn, tokens_cons hSpace hFrom]
  rfl

theorem readOn_keyword
    {c : Char}
    {letters : List Char}
    {token : Token}
    (hToken : keyword? c = some (letters, token))
    (hOther : punctuation? c = none)
    (hSpace : isSpace c = false) :
    readOn state (c :: (letters ++ rest)) =
      readOn (state.step token) rest := by
  have hWord (word : List Char) :
      afterWord word (word ++ rest) = some rest := by
    induction word with
    | nil => rfl
    | cons letter word ih => simp [afterWord, ih]
  have hFrom :
      tokenFrom c (letters ++ rest) = (token, rest) := by
    simp [tokenFrom, hToken, hOther, hWord, orUnreadable]
  rw [readOn, tokens_cons hSpace hFrom]
  rfl

end State

------------------------------------------------------------
-- Written Values
------------------------------------------------------------

mutual

/- All numbers of a value are below the limit. -/
def Value.Small : Value → Prop
  | .null => True
  | .bool _ => True
  | .number value => value < Scaled.limit
  | .string _ => True
  | .array items => SmallItems items
  | .object members => SmallMembers members

/- All numbers of some items are below the limit. -/
def SmallItems : List Value → Prop
  | [] => True
  | item :: items => item.Small ∧ SmallItems items

/- All numbers of some members are below the limit. -/
def SmallMembers : List (String × Value) → Prop
  | [] => True
  | (_, value) :: members => value.Small ∧ SmallMembers members

end

theorem smallItems_iff
    {items : List Value} :
    SmallItems items ↔ ∀ item ∈ items, item.Small := by
  induction items with
  | nil => simp [SmallItems]
  | cons item items ih =>
      rw [SmallItems, ih, List.forall_mem_cons]

theorem small_texts
    (values : List String) :
    (texts values).Small := by
  rw [texts, Value.Small, smallItems_iff, List.forall_mem_map]
  intro text _
  simp [Value.Small]

/- The text of the items that stand after another one. -/
def moreItemChars (items : List Value) : List Char :=
  items.flatMap fun item => ',' :: item.chars

/- The text of a member. -/
def memberText (member : String × Value) : List Char :=
  literal member.1 ++ ':' :: member.2.chars

/- The text of the members that stand after another one. -/
def moreMemberChars
    (members : List (String × Value)) :
    List Char :=
  members.flatMap fun member => ',' :: memberText member

theorem itemChars_cons
    (item : Value)
    (items : List Value) :
    Value.itemChars (item :: items) =
      item.chars ++ moreItemChars items := by
  induction items generalizing item with
  | nil => simp [Value.itemChars, moreItemChars]
  | cons next items ih =>
      rw [Value.itemChars, ih]
      · rfl
      · simp

theorem memberChars_cons
    (member : String × Value)
    (members : List (String × Value)) :
    Value.memberChars (member :: members) =
      memberText member ++ moreMemberChars members := by
  induction members generalizing member with
  | nil =>
      simp [Value.memberChars, memberText, moreMemberChars]
  | cons next members ih =>
      rw [Value.memberChars, ih]
      · simp [memberText, moreMemberChars]
      · simp

theorem endsValue_moreItemChars
    (items : List Value)
    (rest : List Char) :
    EndsValue (moreItemChars items ++ ']' :: rest) := by
  cases items with
  | nil => exact endsValue_cons (by simp) rest
  | cons item items => exact endsValue_cons (by simp) _

theorem endsValue_moreMemberChars
    (members : List (String × Value))
    (rest : List Char) :
    EndsValue (moreMemberChars members ++ '\x7d' :: rest) := by
  cases members with
  | nil => exact endsValue_cons (by simp) rest
  | cons member members => exact endsValue_cons (by simp) _

/-
  In this state any token but a closing bracket begins a value
  on the given stack.
-/
def State.Begins
    (state : State)
    (stack : List Frame) : Prop :=
  ∀ token, token ≠ .closeArray →
    state.step token = State.begin stack token

theorem State.begins_awaitValue
    (stack : List Frame) :
    (State.awaitValue stack).Begins stack := by
  intro token _
  rfl

theorem State.begins_awaitItem
    (stack : List Frame) :
    (State.awaitItem stack).Begins (.array [] :: stack) := by
  intro token hToken
  cases token <;> first | rfl | exact absurd rfl hToken

/- The text of a value is read as the draft of the value. -/
def Value.ReadBack (value : Value) : Prop :=
  value.Small →
    ∀ (state : State) (stack : List Frame) (rest : List Char),
      state.Begins stack → EndsValue rest →
        state.readOn (value.chars ++ rest) =
          (State.after value.draft stack).readOn rest

/- So are the items of an array, after another one or as its first. -/
def ItemsReadBack (items : List Value) : Prop :=
  SmallItems items →
    ∀ (stack : List Frame) (rest : List Char),
      (∀ value done,
        (State.after value (.array done :: stack)).readOn
            (moreItemChars items ++ ']' :: rest) =
          (State.after
            (.array
              ((value :: done).reverse ++ Value.itemDrafts items)
              true) stack).readOn rest)
      ∧ (State.awaitItem stack).readOn
          (Value.itemChars items ++ ']' :: rest) =
        (State.after (.array (Value.itemDrafts items) true)
          stack).readOn rest

/- And the members of an object. -/
def MembersReadBack (members : List (String × Value)) : Prop :=
  SmallMembers members →
    ∀ (stack : List Frame) (rest : List Char),
      (∀ key value done,
        (State.after value (.object done key :: stack)).readOn
            (moreMemberChars members ++ '\x7d' :: rest) =
          (State.after
            (.object
              (((key, value) :: done).reverse
                ++ Value.memberDrafts members)
              true) stack).readOn rest)
      ∧ (State.awaitMember stack).readOn
          (Value.memberChars members ++ '\x7d' :: rest) =
        (State.after (.object (Value.memberDrafts members) true)
          stack).readOn rest

/-
  A member that stands where a key is awaited: its value is
  read into the object that is open.
-/
theorem Value.ReadBack.member
    {value : Value}
    (hValue : value.ReadBack)
    (hSmall : value.Small)
    {state : State}
    {key : String}
    {done : List Member}
    {stack : List Frame}
    {rest : List Char}
    (hKey :
      state.step (.string (some key)) =
        .awaitColon done (some key) stack)
    (hEnds : EndsValue rest) :
    state.readOn (memberText (key, value) ++ rest) =
      (State.after value.draft
        (.object done (some key) :: stack)).readOn rest := by
  have hColon :
      (State.awaitColon done (some key) stack).step .colon =
        .awaitValue (.object done (some key) :: stack) :=
    rfl
  rw [memberText, List.append_assoc, State.readOn_literal, hKey,
    List.cons_append, State.readOn_punctuation _ _ rfl rfl,
    hColon]
  exact hValue hSmall _ _ _ (State.begins_awaitValue _) hEnds

/-
  Every value is read back, from any state in which a value
  can begin. A value with parts is read back by the parts: the
  first one begins right after the opening bracket, any other
  one after a comma.
-/
theorem valueInduction_readBack :
    ValueInduction Value.ReadBack ItemsReadBack
      MembersReadBack where
  null := by
    intro _ state stack rest hBegins _
    have hText :
        state.readOn ('n' :: (['u', 'l', 'l'] ++ rest)) =
          (state.step .null).readOn rest :=
      State.readOn_keyword state rest rfl rfl rfl
    rw [Value.chars, Value.draft]
    refine hText.trans ?_
    rw [hBegins _ (by simp)]
    rfl
  bool value := by
    intro _ state stack rest hBegins _
    have hTrue :
        state.readOn ('t' :: (['r', 'u', 'e'] ++ rest)) =
          (state.step (.bool true)).readOn rest :=
      State.readOn_keyword state rest rfl rfl rfl
    have hFalse :
        state.readOn ('f' :: (['a', 'l', 's', 'e'] ++ rest)) =
          (state.step (.bool false)).readOn rest :=
      State.readOn_keyword state rest rfl rfl rfl
    cases value with
    | true =>
        rw [Value.chars, Value.draft]
        refine hTrue.trans ?_
        rw [hBegins _ (by simp)]
        rfl
    | false =>
        rw [Value.chars, Value.draft]
        refine hFalse.trans ?_
        rw [hBegins _ (by simp)]
        rfl
  number value := by
    intro hSmall state stack rest hBegins hEnds
    rw [Value.Small] at hSmall
    rw [Value.chars, State.readOn_number state rest hSmall hEnds,
      hBegins _ (by simp), Value.draft]
    rfl
  string value := by
    intro _ state stack rest hBegins _
    rw [Value.chars, State.readOn_literal,
      hBegins _ (by simp), Value.draft]
    rfl
  array items hItems := by
    intro hSmall state stack rest hBegins _
    rw [Value.Small] at hSmall
    have hRest := (hItems hSmall stack rest).2
    rw [Value.chars, Value.draft]
    simp only [List.cons_append, List.append_assoc]
    rw [State.readOn_punctuation state _ rfl rfl,
      hBegins _ (by simp)]
    exact hRest
  object members hMembers := by
    intro hSmall state stack rest hBegins _
    rw [Value.Small] at hSmall
    have hRest := (hMembers hSmall stack rest).2
    rw [Value.chars, Value.draft]
    simp only [List.cons_append, List.append_assoc]
    rw [State.readOn_punctuation state _ rfl rfl,
      hBegins _ (by simp)]
    exact hRest
  noItems := by
    intro _ stack rest
    constructor
    · intro value done
      change State.readOn _ (']' :: rest) = _
      rw [State.readOn_punctuation _ _ rfl rfl, Value.itemDrafts,
        List.append_nil]
      rfl
    · rw [Value.itemChars, List.nil_append,
        State.readOn_punctuation _ _ rfl rfl, Value.itemDrafts]
      rfl
  item value items hValue hItems := by
    intro hSmall stack rest
    rw [SmallItems] at hSmall
    have hEnds := endsValue_moreItemChars items rest
    have hRest := (hItems hSmall.2 stack rest).1
    rw [Value.itemDrafts]
    constructor
    · intro before done
      have hText :
          moreItemChars (value :: items) ++ ']' :: rest =
            ',' :: (value.chars
              ++ (moreItemChars items ++ ']' :: rest)) := by
        simp [moreItemChars]
      have hComma :
          (State.after before (.array done :: stack)).step
              .comma =
            .awaitValue (.array (before :: done) :: stack) :=
        rfl
      rw [hText, State.readOn_punctuation _ _ rfl rfl, hComma,
        hValue hSmall.1 _ _ _ (State.begins_awaitValue _) hEnds,
        hRest]
      simp
    · rw [itemChars_cons, List.append_assoc,
        hValue hSmall.1 _ _ _ (State.begins_awaitItem _) hEnds,
        hRest]
      rfl
  noMembers := by
    intro _ stack rest
    constructor
    · intro key value done
      change State.readOn _ ('\x7d' :: rest) = _
      rw [State.readOn_punctuation _ _ rfl rfl,
        Value.memberDrafts, List.append_nil]
      rfl
    · rw [Value.memberChars, List.nil_append,
        State.readOn_punctuation _ _ rfl rfl,
        Value.memberDrafts]
      rfl
  member key value members hValue hMembers := by
    intro hSmall stack rest
    rw [SmallMembers] at hSmall
    have hEnds := endsValue_moreMemberChars members rest
    have hRest := (hMembers hSmall.2 stack rest).1
    rw [Value.memberDrafts]
    constructor
    · intro before first done
      have hText :
          moreMemberChars ((key, value) :: members)
              ++ '\x7d' :: rest =
            ',' :: (memberText (key, value)
              ++ (moreMemberChars members ++ '\x7d' :: rest)) := by
        simp [moreMemberChars]
      have hComma :
          (State.after first
              (.object done before :: stack)).step .comma =
            .awaitKey ((before, first) :: done) stack :=
        rfl
      rw [hText, State.readOn_punctuation _ _ rfl rfl, hComma,
        hValue.member hSmall.1 rfl hEnds, hRest]
      simp
    · rw [memberChars_cons, List.append_assoc,
        hValue.member hSmall.1 rfl hEnds, hRest]
      rfl

/- The text of a value is read as its draft, and nothing else. -/
theorem scan_write
    {value : Value}
    (hSmall : value.Small) :
    scan value.write = .after value.draft [] := by
  have hRead :=
    valueInduction_readBack.value value hSmall (.awaitValue [])
      [] [] (State.begins_awaitValue []) endsValue_nil
  have hEnd (state : State) : state.readOn [] = state := by
    rw [State.readOn, tokens]
    rfl
  rw [List.append_nil, hEnd] at hRead
  rw [scan, Value.write, String.toList_ofList]
  exact hRead

/- So a reader has to deal with that draft only. -/
theorem read_write
    {α : Type}
    (reader : Reader α)
    {value : Value}
    (hSmall : value.Small) :
    read reader value.write =
      reader (.direct nestingLimit) value.draft := by
  rw [read, scan_write hSmall]
  change
    (reader (.direct nestingLimit) value.draft >>= fun result =>
      pure result) = _
  rw [bind_pure]

end Json

end TracedScript
