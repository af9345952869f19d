import TracedScript.Arguments
import TracedScript.Proofs.Results

/-
  What the words of a command line stand for.

  A command line is made up of items: options with a value,
  switches, and files. Each item is one word or two, and the
  words can be chosen in several ways. Words are kept back
  while they are read, and still, reading them is the same as
  applying the items one after the other.

  Key definitions include:
    * `Arguments.Item`, and `Item.key?`: which option it is.
    * `Arguments.Spells`: the words for an item.
    * `Arguments.apply`: what an item does.
    * `Arguments.Progress.Reads`: words do what an item does.

  Main declarations:
    * `Arguments.Progress.reads_item`
    * `Arguments.Progress.reads_items`
    * `Arguments.parse_of_spelled`
-/

------------------------------------------------------------
-- Items and Words
------------------------------------------------------------

namespace TracedScript

namespace Arguments

/- The names of an option that takes a value. -/
def Setting.names : Setting → List String
  | .project => ["project"]
  | .outDir => ["outDir", "out-dir"]
  | .sourceRoot => ["sourceRoot", "source-root"]
  | .pretty => ["pretty"]

/- The names of an option that takes none. -/
def Switch.names : Switch → List String
  | .sourceMap => ["sourceMap", "source-map"]
  | .inlineSourceMap => ["inlineSourceMap", "inline-source-map"]
  | .inlineSources => ["inlineSources", "inline-sources"]
  | .noEmit => ["noEmit", "no-emit"]

/- The names of an option; what stops the reading is none. -/
def Meaning.names : Meaning → List String
  | .setting kind => kind.names
  | .switch kind => kind.names
  | .stop _ => []

/- What one or two words of a command line ask for. -/
inductive Item where
  | setting (kind : Setting) (value : String)
  | switch (kind : Switch)
  | file (name : String)
deriving DecidableEq, Repr

/- A word that is not taken for an option. -/
def IsPlain (word : String) : Prop :=
  word = "-" ∨ word.toList.head? ≠ some '-'

instance (word : String) : Decidable (IsPlain word) := by
  unfold IsPlain
  infer_instance

/- The words for an item. -/
inductive Spells : Item → List String → Prop where
  | attached {setting : Setting} {name : String}
      (value : String) :
      name ∈ setting.names →
        Spells (.setting setting value)
          ["--" ++ name ++ "=" ++ value]
  | separate {setting : Setting} {name value : String} :
      name ∈ setting.names → IsPlain value →
        Spells (.setting setting value) ["--" ++ name, value]
  | short {value : String} :
      IsPlain value →
        Spells (.setting .project value) ["-p", value]
  | switch {switch : Switch} {name : String} :
      name ∈ switch.names →
        Spells (.switch switch) ["--" ++ name]
  | file {name : String} : Spells (.file name) [name]

/- The words for some items, one after the other. -/
def Spelled
    (items : List Item)
    (words : List String) : Prop :=
  ∃ pieces, List.Forall₂ Spells items pieces
    ∧ words = pieces.flatten

namespace Item

/- The option that an item gives. -/
def key? : Item → Option Meaning
  | .setting kind _ => some (.setting kind)
  | .switch kind => some (.switch kind)
  | .file _ => none

/- The file that an item gives. -/
def file? : Item → Option String
  | .file name => some name
  | _ => none

def isOption (item : Item) : Bool :=
  item.key?.isSome

end Item

/- The values that an option takes. -/
def Setting.Accepts : Setting → String → Prop
  | .project, value => value ≠ ""
  | .outDir, value => value ≠ ""
  | .sourceRoot, _ => True
  | .pretty, value => value = "true" ∨ value = "false"

/- An item that can be read by itself. -/
def Item.Valid : Item → Prop
  | .setting kind value => kind.Accepts value
  | .switch _ => True
  | .file name => name ≠ "" ∧ IsPlain name

/- What an item does. -/
def apply
    (arguments : Arguments) :
    Item → Except UsageError Arguments
  | .setting setting value => arguments.set setting value
  | .switch switch => arguments.turnOn switch
  | .file name =>
      if name = "" then .error .invalidValue
      else
        .ok { arguments with files := arguments.files ++ [name] }

------------------------------------------------------------
-- Reading One Item
------------------------------------------------------------

namespace Progress

/- The arguments after what was kept back is checked. -/
def result (progress : Progress) : Except UsageError Arguments :=
  Progress.arguments <$> progress.settle

/- The next word is an option or a file, and no value. -/
structure Ready (progress : Progress) : Prop where
  options : progress.filesOnly = false
  complete : ∀ setting, progress.pending ≠ .setting setting none

/- Nothing is kept back after a check. -/
theorem settle_eq_ok
    {progress settled : Progress}
    (hSettle : progress.settle = .ok settled) :
    settled.pending = .nothing
      ∧ settled.filesOnly = progress.filesOnly := by
  unfold settle at hSettle
  split at hSettle
  · next hPending =>
      cases hSettle
      exact ⟨hPending, rfl⟩
  · cases hSettle
  · rcases bind_eq_ok_iff.mp hSettle with ⟨arguments, _, hPure⟩
    cases hPure
    exact ⟨rfl, rfl⟩
  · split at hSettle
    · cases hSettle
    · cases hSettle
      exact ⟨rfl, rfl⟩

theorem settle_of_nothing
    {progress : Progress}
    (hPending : progress.pending = .nothing) :
    progress.settle = .ok progress := by
  rw [settle, hPending]

theorem result_of_nothing
    {progress : Progress}
    (hPending : progress.pending = .nothing) :
    progress.result = .ok progress.arguments := by
  rw [result, settle_of_nothing hPending]
  rfl

/-
  Some words do what an item does: reading them, and checking
  what is kept back, is to check before and apply the item.
-/
structure Reads
    (progress : Progress)
    (words : List String)
    (item : Item) : Prop where
  ready :
    ∀ next, words.foldlM step progress = .ok next → next.Ready
  result :
    (words.foldlM step progress >>= Progress.result) =
      (progress.result >>= fun arguments => arguments.apply item)

/- A word that is checked and applied at once. -/
theorem reads_at_once
    {progress : Progress}
    {word : String}
    {item : Item}
    (hReady : progress.Ready)
    (hStep :
      progress.step word = (do
        let settled ← progress.settle
        let arguments ← settled.arguments.apply item
        pure { settled with arguments })) :
    progress.Reads [word] item := by
  have hFold :
      [word].foldlM step progress = progress.step word := by
    rw [List.foldlM_cons]
    exact bind_pure _
  constructor
  · intro next hNext
    rw [hFold, hStep] at hNext
    rcases bind_eq_ok_iff.mp hNext with ⟨settled, hSettle, hRest⟩
    rcases bind_eq_ok_iff.mp hRest with ⟨arguments, _, hPure⟩
    cases hPure
    rcases settle_eq_ok hSettle with ⟨hPending, hOptions⟩
    constructor
    · exact hOptions.trans hReady.options
    · intro setting hSetting
      rw [hPending] at hSetting
      cases hSetting
  · rw [hFold, hStep, Progress.result]
    cases hSettle : progress.settle with
    | error error => rfl
    | ok settled =>
        rcases settle_eq_ok hSettle with ⟨hPending, _⟩
        change
          ((settled.arguments.apply item >>= fun arguments =>
              pure { settled with arguments }) >>=
            Progress.result) = settled.arguments.apply item
        cases settled.arguments.apply item with
        | error error => rfl
        | ok arguments => exact result_of_nothing hPending

/- A plain word is no option. -/
theorem step_plain
    {progress : Progress}
    {word : String}
    (hOptions : progress.filesOnly = false)
    (hPlain : IsPlain word) :
    progress.step word = progress.plainWord word := by
  have hDashes : word ≠ "--" := by
    rintro rfl
    revert hPlain
    decide
  rw [step, hOptions, if_neg Bool.false_ne_true, if_neg hDashes]
  split
  · next rest hChars =>
      rcases hPlain with rfl | hHead
      · cases hChars
      · rw [hChars] at hHead
        exact absurd rfl hHead
  · next name rest _ hChars =>
      rcases hPlain with rfl | hHead
      · cases hChars
      · rw [hChars] at hHead
        exact absurd rfl hHead
  · rfl

/- A word that is followed by its value. -/
theorem reads_with_value
    {progress : Progress}
    {word value : String}
    {kind : Setting}
    (hReady : progress.Ready)
    (hValue : IsPlain value)
    (hStep :
      progress.step word =
        progress.option (.setting kind) none) :
    progress.Reads [word, value] (.setting kind value) := by
  have hFold :
      [word, value].foldlM step progress = (do
        let settled ← progress.settle
        pure
          { settled with
            pending := .setting kind (some value) }) := by
    rw [List.foldlM_cons, hStep, option]
    cases hSettle : progress.settle with
    | error error => rfl
    | ok settled =>
        have hOptions : settled.filesOnly = false :=
          (settle_eq_ok hSettle).2.trans hReady.options
        have hPlain :
            step { settled with pending := .setting kind none }
                value =
              .ok
                { settled with
                  pending := .setting kind (some value) } :=
          step_plain hOptions hValue
        change [value].foldlM step _ = _
        rw [List.foldlM_cons, hPlain]
        rfl
  constructor
  · intro next hNext
    rw [hFold] at hNext
    rcases bind_eq_ok_iff.mp hNext with ⟨settled, hSettle, hPure⟩
    cases hPure
    constructor
    · exact (settle_eq_ok hSettle).2.trans hReady.options
    · intro setting hSetting
      cases hSetting
  · rw [hFold, Progress.result]
    cases progress.settle with
    | error error => rfl
    | ok settled =>
        change
          Progress.arguments <$>
              (settled.arguments.set kind value >>= fun arguments =>
                pure
                  { settled with arguments, pending := .nothing }) =
            settled.arguments.set kind value
        cases settled.arguments.set kind value with
        | error error => rfl
        | ok arguments => rfl

/- Checking files that are kept back adds them all. -/
theorem result_of_files
    {progress : Progress}
    {names : List String}
    (hPending : progress.pending = .files names) :
    progress.result =
      if "" ∈ names then .error .invalidValue
      else
        .ok
          { progress.arguments with
            files := progress.arguments.files ++ names } := by
  rw [result, settle, hPending]
  simp only [List.contains_iff_mem]
  split <;> rfl

theorem apply_file_after
    (arguments : Arguments)
    (names : List String)
    (name : String) :
    ((if "" ∈ names then .error .invalidValue
        else
          .ok
            { arguments with
              files := arguments.files ++ names }) >>=
      fun arguments => apply arguments (.file name)) =
      if "" ∈ names ++ [name] then .error .invalidValue
      else
        .ok
          { arguments with
            files := arguments.files ++ (names ++ [name]) } := by
  by_cases hNames : "" ∈ names
  · rw [if_pos hNames,
      if_pos (List.mem_append_left [name] hNames)]
    rfl
  · rw [if_neg hNames]
    change (if name = "" then _ else _) = _
    by_cases hName : name = ""
    · rw [if_pos hName,
        if_pos (by simp [hName])]
    · rw [if_neg hName, if_neg (by simp [hNames, Ne.symm hName]),
        List.append_assoc]

/- A file is kept back with those before it, or alone. -/
theorem addFile_cases
    (progress : Progress)
    (name : String) :
    (∃ names,
        progress.pending = .files names
          ∧ progress.addFile name =
            .ok
              { progress with
                pending := .files (names ++ [name]) })
      ∨ progress.addFile name = (do
          let settled ← progress.settle
          pure { settled with pending := .files [name] }) := by
  unfold addFile
  split
  · next names hPending => exact Or.inl ⟨names, hPending, rfl⟩
  · exact Or.inr rfl

theorem reads_file
    {progress : Progress}
    {name : String}
    (hReady : progress.Ready)
    (hName : IsPlain name) :
    progress.Reads [name] (.file name) := by
  have hFold :
      [name].foldlM step progress = progress.addFile name := by
    rw [List.foldlM_cons, step_plain hReady.options hName,
      plainWord]
    split
    · next setting hPending =>
        exact absurd hPending (hReady.complete setting)
    · exact bind_pure _
  rcases addFile_cases progress name with
    ⟨names, hPending, hAdd⟩ | hAdd
  · constructor
    · intro next hNext
      rw [hFold, hAdd] at hNext
      cases hNext
      exact ⟨hReady.options, fun _ hSetting => by cases hSetting⟩
    · rw [hFold, hAdd, result_of_files hPending,
        apply_file_after]
      exact result_of_files rfl
  · constructor
    · intro next hNext
      rw [hFold, hAdd] at hNext
      rcases bind_eq_ok_iff.mp hNext with
        ⟨settled, hSettle, hPure⟩
      cases hPure
      exact
        ⟨(settle_eq_ok hSettle).2.trans hReady.options,
          fun _ hSetting => by cases hSetting⟩
    · rw [hFold, hAdd, Progress.result]
      cases progress.settle with
      | error error => rfl
      | ok settled =>
          have hApply := apply_file_after settled.arguments [] name
          rw [if_neg List.not_mem_nil, List.append_nil,
            List.nil_append] at hApply
          exact (result_of_files rfl).trans hApply.symm

theorem nameAndValue_of_notMem
    {chars : List Char}
    (hSign : '=' ∉ chars) :
    nameAndValue chars = (chars, none) := by
  induction chars with
  | nil => rfl
  | cons c chars ih =>
      rw [List.mem_cons, not_or] at hSign
      rw [nameAndValue, if_neg (Ne.symm hSign.1), ih hSign.2]

theorem nameAndValue_append
    {chars : List Char}
    (hSign : '=' ∉ chars)
    (value : List Char) :
    nameAndValue (chars ++ '=' :: value) = (chars, some value) := by
  induction chars with
  | nil => rw [List.nil_append, nameAndValue, if_pos rfl]
  | cons c chars ih =>
      rw [List.mem_cons, not_or] at hSign
      rw [List.cons_append, nameAndValue,
        if_neg (Ne.symm hSign.1), ih hSign.2]

theorem step_dashes
    {progress : Progress}
    {word : String}
    {rest : List Char}
    (hOptions : progress.filesOnly = false)
    (hRest : rest ≠ [])
    (hWord : word.toList = '-' :: '-' :: rest) :
    progress.step word = progress.longOption rest := by
  have hDashes : word ≠ "--" := by
    rintro rfl
    exact hRest (List.cons.inj (List.cons.inj hWord).2).2.symm
  rw [step, hOptions, if_neg Bool.false_ne_true, if_neg hDashes,
    hWord]
  rfl

/- The long name of an option, which has no value in its word. -/
structure LongName
    (name : String)
    (meaning : Meaning) : Prop where
  nonempty : name ≠ ""
  noSign : '=' ∉ name.toList
  lookup : longNames.lookup name = some meaning

theorem longName_of_mem
    {meaning : Meaning}
    {name : String}
    (hName : name ∈ meaning.names) :
    LongName name meaning := by
  have hAll :
      ∀ name ∈ meaning.names,
        name ≠ "" ∧ '=' ∉ name.toList
          ∧ longNames.lookup name = some meaning := by
    cases meaning with
    | setting kind => cases kind <;> decide
    | switch kind => cases kind <;> decide
    | stop error => exact List.forall_mem_nil _
  rcases hAll name hName with ⟨hNonempty, hSign, hLookup⟩
  exact ⟨hNonempty, hSign, hLookup⟩

theorem step_long
    {progress : Progress}
    {name : String}
    {meaning : Meaning}
    (hOptions : progress.filesOnly = false)
    (hName : LongName name meaning) :
    progress.step ("--" ++ name) =
      progress.option meaning none := by
  have hChars : name.toList ≠ [] := by
    simpa using hName.nonempty
  rw [step_dashes hOptions hChars (by simp), longOption,
    nameAndValue_of_notMem hName.noSign]
  simp only [String.ofList_toList, hName.lookup, Option.map_none]

theorem step_long_value
    {progress : Progress}
    {name : String}
    {meaning : Meaning}
    (hOptions : progress.filesOnly = false)
    (hName : LongName name meaning)
    (value : String) :
    progress.step ("--" ++ name ++ "=" ++ value) =
      progress.option meaning (some value) := by
  have hWord :
      ("--" ++ name ++ "=" ++ value).toList =
        '-' :: '-' :: (name.toList ++ '=' :: value.toList) := by
    simp
  rw [step_dashes hOptions (by simp) hWord, longOption,
    nameAndValue_append hName.noSign]
  simp only [String.ofList_toList, hName.lookup, Option.map_some]

theorem step_short
    {progress : Progress}
    (hOptions : progress.filesOnly = false) :
    progress.step "-p" =
      progress.option (.setting .project) none := by
  rw [step, hOptions, if_neg Bool.false_ne_true,
    if_neg (by decide)]
  rfl

/- All ways to give an item do what the item does. -/
theorem reads_item
    {progress : Progress}
    {item : Item}
    {words : List String}
    (hReady : progress.Ready)
    (hValid : item.Valid)
    (hSpells : Spells item words) :
    progress.Reads words item := by
  cases hSpells with
  | @attached kind name value hName =>
      have hLong : LongName name (.setting kind) :=
        longName_of_mem hName
      apply reads_at_once hReady
      rw [step_long_value hReady.options hLong]
      rfl
  | separate hName hValue =>
      apply reads_with_value hReady hValue
      exact step_long hReady.options (longName_of_mem hName)
  | short hValue =>
      apply reads_with_value hReady hValue
      exact step_short hReady.options
  | @switch kind name hName =>
      have hLong : LongName name (.switch kind) :=
        longName_of_mem hName
      apply reads_at_once hReady
      rw [step_long hReady.options hLong]
      rfl
  | file => exact reads_file hReady hValid.2

/- All ways to give some items do what the items do in turn. -/
theorem reads_items
    {progress : Progress}
    {items : List Item}
    {pieces : List (List String)}
    (hReady : progress.Ready)
    (hValid : ∀ item ∈ items, item.Valid)
    (hSpells : List.Forall₂ Spells items pieces) :
    (pieces.flatten.foldlM step progress >>= Progress.result) =
      (progress.result >>= fun arguments =>
        items.foldlM apply arguments) := by
  induction hSpells generalizing progress with
  | nil => exact (bind_pure progress.result).symm
  | @cons item piece items pieces hItem _ ih =>
      rw [List.forall_mem_cons] at hValid
      rcases reads_item hReady hValid.1 hItem with
        ⟨hNext, hResult⟩
      rw [List.flatten_cons, List.foldlM_append]
      simp only [List.foldlM_cons]
      rw [← bind_assoc, ← hResult]
      cases hPiece : piece.foldlM step progress with
      | error error => rfl
      | ok next => exact ih (hNext next hPiece) hValid.2

end Progress

/- Reading words is applying the items that they stand for. -/
theorem parse_of_spelled
    {items : List Item}
    {words : List String}
    (hValid : ∀ item ∈ items, item.Valid)
    (hSpelled : Spelled items words) :
    parse words = items.foldlM apply {} := by
  rcases hSpelled with ⟨pieces, hSpells, rfl⟩
  have hReady : Progress.Ready {} :=
    ⟨rfl, fun _ hSetting => by cases hSetting⟩
  exact Progress.reads_items hReady hValid hSpells

end Arguments

end TracedScript
