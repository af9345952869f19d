import TracedScript.Json.Number

/-
  The tokens of a JSON text.

  A text is always cut into tokens: where no token can be
  read, the list ends with `Token.unreadable`.

  Key definitions include:
    * `Json.Token`
    * `Json.scanString`: the rest of a string literal.
    * `Json.joinSurrogates`: the characters of a literal.
    * `Json.next`: the first token of a text.
    * `Json.tokens`: all tokens of a text.

  The text left by `next` is shorter than the text it was
  given, by `next_shortens`.
-/

------------------------------------------------------------
-- Tokens
------------------------------------------------------------

namespace TracedScript

namespace Json

/-
  A token. A number beyond the largest double and a string
  with a surrogate that stands alone are tokens without a
  value.
-/
inductive Token where
  | openArray
  | closeArray
  | openObject
  | closeObject
  | comma
  | colon
  | null
  | bool (value : Bool)
  | number (value : Option Number)
  | string (value : Option String)
  | unreadable
deriving DecidableEq, Repr

/- The characters that may stand between tokens. -/
def isSpace (c : Char) : Bool :=
  c = ' ' || c = '\t' || c = '\n' || c = '\r'

------------------------------------------------------------
-- String Literals
------------------------------------------------------------

/- The value of a hexadecimal digit. -/
def hexDigit? (c : Char) : Option Nat :=
  if '0' ≤ c ∧ c ≤ '9' then some (c.toNat - '0'.toNat)
  else if 'a' ≤ c ∧ c ≤ 'f' then
    some (c.toNat - 'a'.toNat + 10)
  else if 'A' ≤ c ∧ c ≤ 'F' then
    some (c.toNat - 'A'.toNat + 10)
  else none

/- The value of four hexadecimal digits. -/
def hexUnit? (a b c d : Char) : Option Nat := do
  let a ← hexDigit? a
  let b ← hexDigit? b
  let c ← hexDigit? c
  let d ← hexDigit? d
  pure (4096 * a + 256 * b + 16 * c + d)

/- The character that a short escape stands for. -/
def shortEscape? (c : Char) : Option Char :=
  if c = '"' ∨ c = '\\' ∨ c = '/' then some c
  else if c = 'b' then some '\x08'
  else if c = 't' then some '\t'
  else if c = 'n' then some '\n'
  else if c = 'f' then some '\x0c'
  else if c = 'r' then some '\r'
  else none

/-
  The code points of a literal whose opening quote is behind,
  and the text after its closing quote. A long escape gives
  one unit of UTF-16.
-/
def scanString : List Char → Option (List Nat × List Char)
  | [] => none
  | '"' :: rest => some ([], rest)
  | '\\' :: 'u' :: a :: b :: c :: d :: rest => do
      let unit ← hexUnit? a b c d
      let (points, rest) ← scanString rest
      pure (unit :: points, rest)
  | '\\' :: c :: rest => do
      let char ← shortEscape? c
      let (points, rest) ← scanString rest
      pure (char.toNat :: points, rest)
  | c :: rest =>
      if c = '\\' ∨ c.toNat < 0x20 then none
      else do
        let (points, rest) ← scanString rest
        pure (c.toNat :: points, rest)

/- Whether a unit is the first half of a surrogate pair. -/
def isHighSurrogate (unit : Nat) : Bool :=
  0xd800 ≤ unit && unit ≤ 0xdbff

/- Whether a unit is the second half of a surrogate pair. -/
def isLowSurrogate (unit : Nat) : Bool :=
  0xdc00 ≤ unit && unit ≤ 0xdfff

/-
  The characters of a literal, or nothing when half of a
  surrogate pair stands alone.
-/
def joinSurrogates : List Nat → Option (List Char)
  | [] => some []
  | [point] =>
      if isHighSurrogate point || isLowSurrogate point then none
      else some [Char.ofNat point]
  | point :: second :: rest =>
      if isHighSurrogate point then
        if isLowSurrogate second then
          (Char.ofNat
              (0x10000 + 0x400 * (point - 0xd800)
                + (second - 0xdc00)) :: ·)
            <$> joinSurrogates rest
        else none
      else if isLowSurrogate point then none
      else
        (Char.ofNat point :: ·)
          <$> joinSurrogates (second :: rest)

------------------------------------------------------------
-- Scanning
------------------------------------------------------------

/- The text after a word, if it starts with that word. -/
def afterWord : List Char → List Char → Option (List Char)
  | [], text => some text
  | _ :: _, [] => none
  | letter :: letters, c :: rest =>
      if letter = c then afterWord letters rest else none

/- A token and the text after it; nothing can follow a fault. -/
def orUnreadable :
    Option (Token × List Char) → Token × List Char
  | some result => result
  | none => (.unreadable, [])

/- The token that is a single character. -/
def punctuation? (c : Char) : Option Token :=
  if c = '[' then some .openArray
  else if c = ']' then some .closeArray
  else if c = '\x7b' then some .openObject
  else if c = '\x7d' then some .closeObject
  else if c = ',' then some .comma
  else if c = ':' then some .colon
  else none

/- The word that starts with a character: its other letters and token. -/
def keyword? (c : Char) : Option (List Char × Token) :=
  if c = 'n' then some (['u', 'l', 'l'], .null)
  else if c = 't' then some (['r', 'u', 'e'], .bool true)
  else if c = 'f' then some (['a', 'l', 's', 'e'], .bool false)
  else none

/- The token of a string literal whose opening quote is behind. -/
def stringToken?
    (text : List Char) :
    Option (Token × List Char) :=
  (scanString text).map fun result =>
    (.string ((joinSurrogates result.1).map String.ofList),
      result.2)

/- The token of a number. -/
def numberToken?
    (text : List Char) :
    Option (Token × List Char) :=
  (Numeral.scan text).map fun result =>
    (.number result.1.number?, result.2)

/- The token that starts with a given character. -/
def tokenFrom
    (c : Char)
    (rest : List Char) :
    Token × List Char :=
  match punctuation? c, keyword? c with
  | some token, _ => (token, rest)
  | none, some (letters, token) =>
      orUnreadable ((afterWord letters rest).map (token, ·))
  | none, none =>
      if c = '"' then orUnreadable (stringToken? rest)
      else if c = '-' ∨ c.isDigit then
        orUnreadable (numberToken? (c :: rest))
      else (.unreadable, [])

/- The first token of a text, and the text after it. -/
def next (text : List Char) : Option (Token × List Char) :=
  match text.dropWhile isSpace with
  | [] => none
  | c :: rest => some (tokenFrom c rest)

------------------------------------------------------------
-- The Text Left by Scanning
------------------------------------------------------------

/- A literal takes at least its closing quote. -/
theorem scanString_shortens
    {text rest : List Char}
    {points : List Nat}
    (h : scanString text = some (points, rest)) :
    rest.length < text.length := by
  fun_induction scanString text generalizing points rest with
  | case1 => cases h
  | case2 tail =>
      cases h
      simp
  | case3 a b c d tail ih =>
      simp only [Option.bind_eq_bind, Option.pure_def,
        Option.bind_eq_some_iff, Prod.exists] at h
      obtain ⟨unit, _, more, after, hTail, hResult⟩ := h
      cases hResult
      have := ih hTail
      simp only [List.length_cons]
      omega
  | case4 c tail _ ih =>
      simp only [Option.bind_eq_bind, Option.pure_def,
        Option.bind_eq_some_iff, Prod.exists] at h
      obtain ⟨char, _, more, after, hTail, hResult⟩ := h
      cases hResult
      have := ih hTail
      simp only [List.length_cons]
      omega
  | case5 => cases h
  | case6 c tail _ _ _ _ ih =>
      simp only [Option.bind_eq_bind, Option.pure_def,
        Option.bind_eq_some_iff, Prod.exists] at h
      obtain ⟨more, after, hTail, hResult⟩ := h
      cases hResult
      have := ih hTail
      simp only [List.length_cons]
      omega

theorem afterWord_le
    {word text rest : List Char}
    (h : afterWord word text = some rest) :
    rest.length ≤ text.length := by
  fun_induction afterWord word text with
  | case1 text =>
      cases h
      exact Nat.le_refl _
  | case2 => cases h
  | case3 letters c tail ih =>
      have := ih h
      simp only [List.length_cons]
      omega
  | case4 => cases h

/- A scan that never lengthens the text never does so here. -/
theorem orUnreadable_le
    {bound : Nat}
    {result : Option (Token × List Char)}
    (h :
      ∀ token rest,
        result = some (token, rest) → rest.length ≤ bound) :
    (orUnreadable result).2.length ≤ bound := by
  cases result with
  | none => exact Nat.zero_le _
  | some pair => exact h pair.1 pair.2 rfl

/- What follows a token is no longer than what followed its start. -/
theorem tokenFrom_le
    (c : Char)
    (rest : List Char) :
    (tokenFrom c rest).2.length ≤ rest.length := by
  unfold tokenFrom
  split
  · exact Nat.le_refl _
  · apply orUnreadable_le
    intro token after hSome
    obtain ⟨tail, hWord, hPair⟩ :=
      Option.map_eq_some_iff.1 hSome
    cases hPair
    exact afterWord_le hWord
  · split
    · apply orUnreadable_le
      intro token after hSome
      obtain ⟨result, hScan, hPair⟩ :=
        Option.map_eq_some_iff.1 hSome
      cases hPair
      exact Nat.le_of_lt (scanString_shortens hScan)
    · split
      · apply orUnreadable_le
        intro token after hSome
        obtain ⟨result, hScan, hPair⟩ :=
          Option.map_eq_some_iff.1 hSome
        cases hPair
        exact Nat.le_of_lt_succ (Numeral.scan_shortens hScan)
      · exact Nat.zero_le _

/- Leaving out leading characters does not lengthen a text. -/
theorem length_dropWhile_le
    (p : Char → Bool)
    (text : List Char) :
    (text.dropWhile p).length ≤ text.length :=
  (List.dropWhile_sublist p).length_le

/- A token takes at least one character. -/
theorem next_shortens
    {text rest : List Char}
    {token : Token}
    (h : next text = some (token, rest)) :
    rest.length < text.length := by
  have hDrop := length_dropWhile_le isSpace text
  unfold next at h
  split at h
  · cases h
  · rename_i c tail hText
    rw [hText] at hDrop
    have hToken := tokenFrom_le c tail
    rw [Option.some.inj h] at hToken
    simp only [List.length_cons] at hDrop
    simp only at hToken
    omega

/- The tokens of a text. -/
def tokens (text : List Char) : List Token :=
  match _hNext : next text with
  | none => []
  | some (token, rest) => token :: tokens rest
termination_by text.length
decreasing_by exact next_shortens _hNext

end Json

end TracedScript
