import TracedScript.Node.Compile
import TracedScript.Proofs.NestedTexts

/-
  Folded operations are read in one way only.

  Operations on words are folded into a text with a pair of
  brackets for each of them. A formula is what such a text may
  be read as if nothing is known about the operators: brackets
  may be anywhere, and an operator may apply to formulas on
  both sides. Folded operations are still just one formula.

  Key definitions include:
    * `WordClass`: which characters make up operands.
    * `Expression`: operations with brackets around each.
    * `Formula`: operations with brackets at will.
    * `Text.outside`: what is inside no bracket of a text.

  Main declarations:
    * `Text.Nested.not_append_close`
    * `Expression.formula_unique`
    * `Expression.operatorCount_group`
    * `foldOperations_eq_text`
    * `foldOperations_read_one_way`
-/

------------------------------------------------------------
-- Nested Texts
------------------------------------------------------------

namespace TracedScript

namespace Text

/- A character that is no bracket. -/
def NoBracket (c : Char) : Prop :=
  opens? c = none ∧ closes? c = none

instance (c : Char) : Decidable (NoBracket c) := by
  unfold NoBracket
  infer_instance

theorem nested_of_noBracket
    {text : List Char}
    (hText : ∀ c ∈ text, NoBracket c) :
    Nested text := by
  induction text with
  | nil => exact .nil
  | cons c text ih =>
      rw [List.forall_mem_cons] at hText
      exact .other hText.1.1 hText.1.2 (ih hText.2)

theorem Nested.round
    {inner : List Char}
    (hInner : Nested inner) :
    Nested ('(' :: (inner ++ [')'])) :=
  .pair rfl rfl hInner .nil

/- After a nested text there is no bracket to be closed. -/
theorem Nested.not_append_close
    {inner rest : List Char}
    {last : Char}
    {kind : Bracket}
    (hInner : Nested inner)
    (hCloses : closes? last = some kind) :
    ¬ Nested (inner ++ last :: rest) := by
  intro hNested
  have hOpen := hNested.openAfter_eq []
  rw [openAfter_append, hInner.openAfter_eq, Option.bind_some,
    openAfter] at hOpen
  simp [openAfterChar, opens?_of_closes? hCloses, hCloses] at hOpen

/- The bracket that closes a nested text is found in one way. -/
theorem Nested.eq_of_append_close
    {left right more others : List Char}
    (hLeft : Nested left)
    (hRight : Nested right)
    (hText : left ++ ')' :: more = right ++ ')' :: others) :
    left = right := by
  rcases List.append_eq_append_iff.mp hText with
    ⟨between, hLonger, hRest⟩ | ⟨between, hLonger, hRest⟩
  · cases between with
    | nil => rw [hLonger, List.append_nil]
    | cons c between =>
        cases hRest
        rw [hLonger] at hRight
        exact absurd hRight (hLeft.not_append_close rfl)
  · cases between with
    | nil => rw [hLonger, List.append_nil]
    | cons c between =>
        cases hRest
        rw [hLonger] at hLeft
        exact absurd hLeft (hRight.not_append_close rfl)

/-
  A text within one pair of brackets does not begin with a
  shorter nested text: what closes the first bracket is not
  the end of what is inside.
-/
theorem Nested.eq_nil_of_round
    {inner front more : List Char}
    (hInner : Nested inner)
    (hFront : Nested front)
    (hNonempty : front ≠ [])
    (hText : '(' :: (inner ++ [')']) = front ++ more) :
    more = [] := by
  rcases List.exists_cons_of_ne_nil hNonempty with
    ⟨c, rest, rfl⟩
  rw [List.cons_append, List.cons.injEq] at hText
  rcases hText with ⟨rfl, hRest⟩
  have hOpen := hFront.openAfter_eq []
  rw [openAfter, openAfterChar_opens rfl, Option.bind_some] at hOpen
  by_contra hMore
  rcases List.eq_nil_or_concat more with hNil | ⟨more, last, rfl⟩
  · exact hMore hNil
  · rw [List.concat_eq_append, ← List.append_assoc,
      List.append_singleton_inj] at hRest
    rcases hRest with ⟨rfl, _⟩
    cases closing_of_openAfter hOpen with
    | close hFirst hCloses _ =>
        rw [List.append_assoc, List.cons_append] at hInner
        exact hFirst.not_append_close hCloses hInner

/- What follows an open bracket does not end its text. -/
theorem Nested.not_append_open
    {front inner : List Char}
    (hInner : Nested inner) :
    ¬ Nested (front ++ '(' :: inner) := by
  intro hNested
  have hOpen := hNested.openAfter_eq []
  rw [openAfter_append] at hOpen
  rcases Option.bind_eq_some_iff.mp hOpen with
    ⟨opened, _, hRest⟩
  rw [openAfter, openAfterChar_opens rfl, Option.bind_some,
    hInner.openAfter_eq] at hRest
  cases hRest

------------------------------------------------------------
-- Outside of Brackets
------------------------------------------------------------

/-
  The characters of a text that are in no bracket, if it
  begins within as many brackets as the depth says.
-/
def outside (depth : Nat) : List Char → List Char
  | [] => []
  | c :: rest =>
      match opens? c, closes? c with
      | some _, _ => outside (depth + 1) rest
      | none, some _ => outside (depth - 1) rest
      | none, none =>
          if depth = 0 then c :: outside depth rest
          else outside depth rest

theorem outside_opens
    {c : Char}
    {kind : Bracket}
    (hOpens : opens? c = some kind)
    (depth : Nat)
    (rest : List Char) :
    outside depth (c :: rest) = outside (depth + 1) rest := by
  rw [outside, hOpens]

theorem outside_closes
    {c : Char}
    {kind : Bracket}
    (hCloses : closes? c = some kind)
    (depth : Nat)
    (rest : List Char) :
    outside depth (c :: rest) = outside (depth - 1) rest := by
  rw [outside, opens?_of_closes? hCloses, hCloses]

theorem outside_other
    {c : Char}
    (hOpens : opens? c = none)
    (hCloses : closes? c = none)
    (depth : Nat)
    (rest : List Char) :
    outside depth (c :: rest) =
      if depth = 0 then c :: outside depth rest
      else outside depth rest := by
  rw [outside, hOpens, hCloses]

/- A nested text adds what is outside of its brackets. -/
theorem Nested.outside_append
    {left : List Char}
    (hLeft : Nested left)
    (depth : Nat)
    (right : List Char) :
    outside depth (left ++ right) =
      (if depth = 0 then outside 0 left else [])
        ++ outside depth right := by
  induction hLeft generalizing depth right with
  | nil => simp [outside]
  | other hOpens hCloses _ ih =>
      rw [List.cons_append, outside_other hOpens hCloses,
        outside_other hOpens hCloses, ih]
      split
      · next hZero => simp
      · rfl
  | pair hOpens hCloses _ _ ihInner ihRest =>
      rw [List.cons_append, List.append_assoc, List.cons_append,
        outside_opens hOpens, outside_opens hOpens, ihInner,
        ihInner, outside_closes hCloses, outside_closes hCloses,
        Nat.add_sub_cancel, Nat.add_sub_cancel, ihRest,
        if_neg (Nat.succ_ne_zero depth),
        if_neg (Nat.succ_ne_zero 0)]
      rfl

theorem outside_of_noBracket
    {text : List Char}
    (hText : ∀ c ∈ text, NoBracket c) :
    outside 0 text = text := by
  induction text with
  | nil => rfl
  | cons c text ih =>
      rw [List.forall_mem_cons] at hText
      rw [outside_other hText.1.1 hText.1.2, if_pos rfl,
        ih hText.2]

theorem Nested.outside_round
    {inner : List Char}
    (hInner : Nested inner) :
    outside 0 ('(' :: (inner ++ [')'])) = [] := by
  rw [outside_opens rfl, hInner.outside_append,
    outside_closes rfl]
  rfl

end Text

open Text (Nested NoBracket outside)

------------------------------------------------------------
-- Operands and Operators
------------------------------------------------------------

/-
  The characters that words are made of: letters of whatever
  scripts, digits, and so on. No bracket is one of them.
-/
structure WordClass where
  holds : Char → Bool
  noBracket : ∀ c, holds c = true → NoBracket c

namespace WordClass

/- Letters, digits and the underscore. -/
def plain : WordClass where
  holds c := c.isAlphanum || c == '_'
  noBracket := by
    intro c hWord
    constructor
    · cases hOpens : Text.opens? c with
      | none => rfl
      | some kind =>
          unfold Text.opens? at hOpens
          split at hOpens
          · exact absurd hWord (by decide)
          · exact absurd hWord (by decide)
          · exact absurd hWord (by decide)
          · cases hOpens
    · cases hCloses : Text.closes? c with
      | none => rfl
      | some kind =>
          unfold Text.closes? at hCloses
          split at hCloses
          · exact absurd hWord (by decide)
          · exact absurd hWord (by decide)
          · exact absurd hWord (by decide)
          · cases hCloses

/- A word. -/
@[ext] structure Operand (words : WordClass) where
  chars : List Char
  nonempty : chars ≠ []
  holds : ∀ c ∈ chars, words.holds c = true

/- A character that is in no word and is no bracket. -/
@[ext] structure Operator (words : WordClass) where
  char : Char
  notHolds : words.holds char = false
  noBracket : NoBracket char

/- An operator with the operand after it. -/
@[ext] structure Operation (words : WordClass) where
  operator : words.Operator
  operand : words.Operand

variable {words : WordClass}

def Operand.text (operand : words.Operand) : String :=
  String.ofList operand.chars

def Operation.chars (operation : words.Operation) : List Char :=
  operation.operator.char :: operation.operand.chars

def Operation.text (operation : words.Operation) : String :=
  String.ofList operation.chars

theorem Operand.noBracket
    (operand : words.Operand) :
    ∀ c ∈ operand.chars, NoBracket c := by
  intro c hMember
  exact words.noBracket c (operand.holds c hMember)

theorem Operation.noBracket
    (operation : words.Operation) :
    ∀ c ∈ operation.chars, NoBracket c := by
  unfold Operation.chars
  rw [List.forall_mem_cons]
  exact
    ⟨operation.operator.noBracket, operation.operand.noBracket⟩

theorem Operand.open_notMem
    (operand : words.Operand) :
    '(' ∉ operand.chars := by
  intro hMember
  exact absurd (operand.noBracket '(' hMember) (by decide)

/- An operator is not found in a word. -/
theorem Operator.notMem
    (operator : words.Operator)
    (operand : words.Operand) :
    operator.char ∉ operand.chars := by
  intro hMember
  have hHolds := operand.holds _ hMember
  rw [operator.notHolds] at hHolds
  cases hHolds

end WordClass

------------------------------------------------------------
-- Expressions and Formulas
------------------------------------------------------------

/- Operations with brackets around each of them. -/
inductive Expression (words : WordClass) where
  | word (operand : words.Operand)
  | group
      (left : Expression words)
      (operation : words.Operation)

/- Operations with brackets at will, on either side. -/
inductive Formula (words : WordClass) where
  | word (operand : words.Operand)
  | bracketed (inner : Formula words)
  | binary
      (left : Formula words)
      (operator : words.Operator)
      (right : Formula words)

variable {words : WordClass}

def Formula.text : Formula words → List Char
  | .word operand => operand.chars
  | .bracketed inner => '(' :: (inner.text ++ [')'])
  | .binary left operator right =>
      left.text ++ operator.char :: right.text

namespace Expression

def text : Expression words → List Char
  | .word operand => operand.chars
  | .group left operation =>
      '(' :: (left.text ++ operation.chars ++ [')'])

/- An expression as a formula. -/
def formula : Expression words → Formula words
  | .word operand => .word operand
  | .group left operation =>
      .bracketed
        (.binary left.formula operation.operator
          (.word operation.operand))

theorem text_formula
    (tree : Expression words) :
    tree.formula.text = tree.text := by
  induction tree with
  | word operand => rfl
  | group left operation ih =>
      simp only [formula, Formula.text, ih]
      rfl

end Expression

theorem Formula.nested_text
    (formula : Formula words) :
    Nested formula.text := by
  induction formula with
  | word operand =>
      exact Text.nested_of_noBracket operand.noBracket
  | bracketed inner ih => exact ih.round
  | binary left operator right ihLeft ihRight =>
      exact
        ihLeft.append
          (.other operator.noBracket.1 operator.noBracket.2
            ihRight)

theorem Formula.text_ne_nil
    (formula : Formula words) :
    formula.text ≠ [] := by
  cases formula with
  | word operand => exact operand.nonempty
  | bracketed inner => simp [Formula.text]
  | binary left operator right => simp [Formula.text]

/- A formula that reads as a word is that word. -/
theorem Formula.eq_word
    {formula : Formula words}
    {operand : words.Operand}
    (hText : formula.text = operand.chars) :
    formula = .word operand := by
  cases formula with
  | word other =>
      rw [WordClass.Operand.ext hText]
  | bracketed inner =>
      have hMember : '(' ∈ operand.chars := by
        rw [← hText]
        exact List.mem_cons_self
      exact absurd hMember operand.open_notMem
  | binary left operator right =>
      have hMember : operator.char ∈ operand.chars := by
        rw [← hText]
        exact List.mem_append_cons_self
      exact absurd hMember (operator.notMem operand)

namespace Expression

theorem nested_text
    (tree : Expression words) :
    Nested tree.text := by
  rw [← text_formula]
  exact tree.formula.nested_text

theorem text_ne_nil
    (tree : Expression words) :
    tree.text ≠ [] := by
  rw [← text_formula]
  exact tree.formula.text_ne_nil

theorem nested_operation
    (left : Expression words)
    (operation : words.Operation) :
    Nested (left.text ++ operation.chars) :=
  left.nested_text.append
    (Text.nested_of_noBracket operation.noBracket)

/- No expression begins with a formula and an operator after it. -/
theorem text_ne_append_operator
    (tree : Expression words)
    (formula : Formula words)
    (operator : words.Operator)
    (rest : List Char) :
    tree.text ≠ formula.text ++ operator.char :: rest := by
  intro hText
  cases tree with
  | word operand =>
      apply operator.notMem operand
      rw [show operand.chars = _ from hText]
      exact List.mem_append_cons_self
  | group left operation =>
      have hNil :=
        (nested_operation left operation).eq_nil_of_round
          formula.nested_text formula.text_ne_nil hText
      cases hNil

/-
  An expression and an operation after it are read in one way,
  if the expression is.
-/
theorem eq_binary_of_text
    {formula : Formula words}
    {left : Expression words}
    {operation : words.Operation}
    (hLeft :
      ∀ other : Formula words,
        other.text = left.text → other = left.formula)
    (hText : formula.text = left.text ++ operation.chars) :
    formula =
      .binary left.formula operation.operator
        (.word operation.operand) := by
  cases formula with
  | word operand =>
      have hMember : operation.operator.char ∈ operand.chars := by
        rw [show operand.chars = _ from hText]
        exact List.mem_append_cons_self
      exact absurd hMember (operation.operator.notMem operand)
  | bracketed inner =>
      have hNil :=
        inner.nested_text.eq_nil_of_round
          left.nested_text left.text_ne_nil hText
      cases hNil
  | binary first operator second =>
      change
        first.text ++ operator.char :: second.text =
          left.text ++ operation.chars at hText
      -- the two operators are at the same place
      have hSame : first.text = left.text := by
        rcases List.append_eq_append_iff.mp hText with
          ⟨between, hLonger, hRest⟩ | ⟨between, hLonger, hRest⟩
        · cases between with
          | nil => rw [hLonger, List.append_nil]
          | cons c between =>
              rw [← (List.cons.inj hRest).1] at hLonger
              exact absurd hLonger
                (left.text_ne_append_operator first operator
                  between)
        · cases between with
          | nil => rw [hLonger, List.append_nil]
          | cons c between =>
              have hOperand := (List.cons.inj hRest).2
              apply absurd _ (operator.notMem operation.operand)
              rw [hOperand]
              exact List.mem_append_cons_self
      rw [hSame, List.append_cancel_left_eq] at hText
      rcases List.cons.inj hText with ⟨hOperator, hSecond⟩
      rw [hLeft first hSame, Formula.eq_word hSecond,
        WordClass.Operator.ext hOperator]

/- A text of an expression is that of no other formula. -/
theorem formula_unique
    (tree : Expression words)
    (formula : Formula words)
    (hText : formula.text = tree.text) :
    formula = tree.formula := by
  induction tree generalizing formula with
  | word operand => exact Formula.eq_word hText
  | group left operation ih =>
      cases formula with
      | word operand =>
          have hMember : '(' ∈ operand.chars := by
            rw [show operand.chars = _ from hText]
            exact List.mem_cons_self
          exact absurd hMember operand.open_notMem
      | bracketed inner =>
          have hInner :
              inner.text = left.text ++ operation.chars := by
            have hTail := (List.cons.inj hText).2
            exact List.append_cancel_right hTail
          rw [eq_binary_of_text ih hInner]
          rfl
      | binary first operator second =>
          have hNil :=
            (nested_operation left operation).eq_nil_of_round
              first.nested_text first.text_ne_nil hText.symm
          cases hNil

/- Different expressions are different formulas. -/
theorem formula_injective
    {left right : Expression words}
    (hFormula : left.formula = right.formula) :
    left = right := by
  induction left generalizing right with
  | word operand =>
      cases right with
      | word other =>
          cases hFormula
          rfl
      | group => cases hFormula
  | group left operation ih =>
      cases right with
      | word => cases hFormula
      | group right other =>
          simp only [formula, Formula.bracketed.injEq,
            Formula.binary.injEq, Formula.word.injEq] at hFormula
          rcases hFormula with ⟨hLeft, hOperator, hOperand⟩
          rw [ih hLeft,
            WordClass.Operation.ext hOperator hOperand]

theorem text_injective
    {left right : Expression words}
    (hText : left.text = right.text) :
    left = right := by
  apply formula_injective
  apply formula_unique
  rw [text_formula, hText]

------------------------------------------------------------
-- Groups
------------------------------------------------------------

/- How many operators a text has outside of its brackets. -/
def operatorCount
    (words : WordClass)
    (text : List Char) :
    Nat :=
  (outside 0 text).countP (fun c => !words.holds c)

theorem operatorCount_word
    (operand : words.Operand) :
    operatorCount words operand.chars = 0 := by
  rw [operatorCount, Text.outside_of_noBracket operand.noBracket,
    List.countP_eq_zero]
  intro c hMember
  simp [operand.holds c hMember]

theorem operatorCount_text
    (tree : Expression words) :
    operatorCount words tree.text = 0 := by
  cases tree with
  | word operand => exact operatorCount_word operand
  | group left operation =>
      rw [operatorCount, text,
        (nested_operation left operation).outside_round]
      rfl

theorem operatorCount_operation
    (left : Expression words)
    (operation : words.Operation) :
    operatorCount words (left.text ++ operation.chars) = 1 := by
  have hLeft := left.operatorCount_text
  have hOperand := operatorCount_word operation.operand
  unfold operatorCount at *
  rw [left.nested_text.outside_append, if_pos rfl,
    List.countP_append, hLeft, WordClass.Operation.chars,
    Text.outside_other operation.operator.noBracket.1
      operation.operator.noBracket.2, if_pos rfl,
    List.countP_cons_of_pos (by simp [operation.operator.notHolds]),
    hOperand]

/-
  A group that is followed by an operation is part of what
  comes before the operation.
-/
theorem exists_group_before
    {left : Expression words}
    {operation : words.Operation}
    {before inner after : List Char}
    (hText :
      left.text ++ operation.chars =
        before ++ '(' :: (inner ++ ')' :: after)) :
    ∃ more, left.text = before ++ '(' :: (inner ++ ')' :: more) := by
  have hGroup :
      left.text ++ operation.chars =
        (before ++ '(' :: inner ++ [')']) ++ after := by
    simpa using hText
  rcases List.append_eq_append_iff.mp hGroup with
    ⟨between, hLonger, hRest⟩ | ⟨more, hLonger, _⟩
  · rcases List.eq_nil_or_concat between with
      rfl | ⟨front, last, rfl⟩
    · exact ⟨[], by simpa using hLonger.symm⟩
    · rw [List.concat_eq_append, ← List.append_assoc,
        List.append_singleton_inj] at hLonger
      have hClose : NoBracket ')' := by
        apply operation.noBracket
        rw [hRest, hLonger.2]
        simp
      exact absurd hClose (by decide)
  · exact ⟨more, by simpa using hLonger⟩

/- Each group of an expression has one operator of its own. -/
theorem operatorCount_group
    {tree : Expression words}
    {before inner after : List Char}
    (hText : tree.text = before ++ '(' :: (inner ++ ')' :: after))
    (hInner : Nested inner) :
    operatorCount words inner = 1 := by
  induction tree generalizing before after with
  | word operand =>
      have hMember : '(' ∈ operand.chars := by
        rw [show operand.chars = _ from hText]
        exact List.mem_append_cons_self
      exact absurd hMember operand.open_notMem
  | group left operation ih =>
      have hNested := nested_operation left operation
      cases before with
      | nil =>
          have hTail := (List.cons.inj hText).2
          rw [← hNested.eq_of_append_close hInner hTail]
          exact operatorCount_operation left operation
      | cons c before =>
          have hTail := (List.cons.inj hText).2
          rcases List.eq_nil_or_concat after with
            rfl | ⟨after, last, rfl⟩
          · -- the last bracket closes the first one, not this
            have hConcat :
                left.text ++ operation.chars ++ [')'] =
                  before ++ '(' :: inner ++ [')'] := by
              simpa using hTail
            rw [List.append_cancel_right hConcat] at hNested
            exact absurd hNested hInner.not_append_open
          · have hBody :
                left.text ++ operation.chars =
                  before ++ '(' :: (inner ++ ')' :: after) := by
              have hConcat :
                  left.text ++ operation.chars ++ [')'] =
                    before ++ '(' :: (inner ++ ')' :: after)
                      ++ [last] := by
                simpa using hTail
              exact (List.append_singleton_inj.mp hConcat).1
            rcases exists_group_before hBody with ⟨more, hMore⟩
            exact ih hMore

end Expression

------------------------------------------------------------
-- Folding
------------------------------------------------------------

theorem foldOperations_cons
    (initial operation : String)
    (operations : List String) :
    foldOperations initial (operation :: operations) =
      foldOperations ("(" ++ initial ++ operation ++ ")")
        operations :=
  List.foldl_cons ..

theorem foldOperations_append
    (initial : String)
    (first second : List String) :
    foldOperations initial (first ++ second) =
      foldOperations (foldOperations initial first) second :=
  List.foldl_append

/- Brackets open at the start and close after each operation. -/
theorem toList_foldOperations
    (initial : String)
    (operations : List String) :
    (foldOperations initial operations).toList =
      List.replicate operations.length '(' ++ initial.toList
        ++ operations.flatMap
          (fun operation => operation.toList ++ [')']) := by
  induction operations generalizing initial with
  | nil => simp [foldOperations]
  | cons operation operations ih =>
      have hReplicate :
          List.replicate operations.length '(' ++ ['('] =
            List.replicate (operations.length + 1) '(' :=
        List.replicate_succ'.symm
      rw [foldOperations_cons, ih, List.length_cons,
        ← hReplicate]
      simp

/- Each operation makes an expression a group. -/
theorem foldOperations_eq_text
    (tree : Expression words)
    (operations : List words.Operation) :
    foldOperations (String.ofList tree.text)
        (operations.map WordClass.Operation.text) =
      String.ofList (operations.foldl .group tree).text := by
  induction operations generalizing tree with
  | nil => rfl
  | cons operation operations ih =>
      have hGroup :
          "(" ++ String.ofList tree.text ++ operation.text ++ ")" =
            String.ofList (Expression.group tree operation).text := by
        apply String.toList_injective
        simp [Expression.text, WordClass.Operation.text]
      rw [List.map_cons, foldOperations_cons, hGroup, ih,
        List.foldl_cons]

/-
  A text is read as one expression only, and also as one
  formula only. Each of its groups has one operator outside of
  the groups within.
-/
structure ReadsOnlyAs
    (text : String)
    (tree : Expression words) : Prop where
  expression :
    ∀ other : Expression words,
      other.text = text.toList ↔ other = tree
  formula :
    ∀ other : Formula words,
      other.text = text.toList ↔ other = tree.formula
  groups :
    ∀ before inner after,
      text.toList = before ++ '(' :: (inner ++ ')' :: after) →
        Nested inner →
          Expression.operatorCount words inner = 1

theorem Expression.readsOnlyAs
    (tree : Expression words) :
    ReadsOnlyAs (String.ofList tree.text) tree where
  expression := by
    intro other
    rw [String.toList_ofList]
    constructor
    · exact text_injective
    · rintro rfl
      rfl
  formula := by
    intro other
    rw [String.toList_ofList]
    constructor
    · exact tree.formula_unique other
    · rintro rfl
      exact tree.text_formula
  groups := by
    intro before inner after hText hInner
    rw [String.toList_ofList] at hText
    exact operatorCount_group hText hInner

/-
  Folded operations are read as the operations applied from
  left to right, whatever is known about operators. For any
  texts, operations can be folded in two parts, and what comes
  out is known character by character.
-/
theorem foldOperations_read_one_way :
    (∀ (words : WordClass) (initial : words.Operand)
        (operations : List words.Operation),
        ReadsOnlyAs
          (foldOperations initial.text
            (operations.map WordClass.Operation.text))
          (operations.foldl .group (.word initial)))
      ∧ (∀ (initial : String) (first second : List String),
          foldOperations initial (first ++ second) =
            foldOperations (foldOperations initial first) second)
      ∧ ∀ (initial : String) (operations : List String),
          (foldOperations initial operations).toList =
            List.replicate operations.length '('
              ++ initial.toList
              ++ operations.flatMap
                (fun operation => operation.toList ++ [')']) := by
  refine ⟨?_, foldOperations_append, toList_foldOperations⟩
  intro words initial operations
  have hText := foldOperations_eq_text (.word initial) operations
  rw [show String.ofList (Expression.text (.word initial)) =
    initial.text from rfl] at hText
  rw [hText]
  exact Expression.readsOnlyAs _

/- An operand of plain letters. -/
def plainOperand
    (chars : List Char)
    (hNonempty : chars ≠ [])
    (hHolds : chars.all WordClass.plain.holds = true) :
    WordClass.plain.Operand :=
  ⟨chars, hNonempty, List.all_eq_true.mp hHolds⟩

/- Operations that would be read otherwise without brackets. -/
def mixedOperations : List WordClass.plain.Operation :=
  [⟨⟨'+', by decide, by decide⟩,
      plainOperand ['x', '_'] (by decide) (by decide)⟩,
    ⟨⟨'*', by decide, by decide⟩,
      plainOperand ['3'] (by decide) (by decide)⟩]

theorem foldOperations_read_one_way_mixed :
    foldOperations "1"
        (mixedOperations.map WordClass.Operation.text) =
        "((1+x_)*3)"
      ∧ ReadsOnlyAs "((1+x_)*3)"
          (mixedOperations.foldl .group
            (.word (plainOperand ['1'] (by decide) (by decide))))
      ∧ Nested "1+x_".toList
      ∧ Expression.operatorCount .plain "1+x_".toList = 1 := by
  have hText :
      foldOperations "1"
          (mixedOperations.map WordClass.Operation.text) =
        "((1+x_)*3)" := by
    cbv
  have hReads :=
    foldOperations_read_one_way.1 .plain
      (plainOperand ['1'] (by decide) (by decide))
      mixedOperations
  change
    ReadsOnlyAs
      (foldOperations "1"
        (mixedOperations.map WordClass.Operation.text)) _
    at hReads
  rw [hText] at hReads
  have hNested : Nested "1+x_".toList := by decide
  refine ⟨hText, hReads, hNested, ?_⟩
  exact
    hReads.groups ['('] "1+x_".toList "*3)".toList (by decide)
      hNested

end TracedScript
