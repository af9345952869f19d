import TracedScript.Proofs.ArgumentItems

/-
  Command lines that ask for the same.

  Applying an item adds its option to those that are given, or
  its file after the others, and fails if the option is given
  already. So the order of options does not matter, and that
  of files does.

  Key definitions include:
    * `Arguments.options`: the options that are given.
    * `Arguments.Gains`: what items add to arguments.
    * `Arguments.Proper`: arguments that can be written down.
    * `Arguments.Arranges`: items that ask for arguments.

  Main declarations:
    * `Arguments.eq_of_options`
    * `Arguments.apply_cases`
    * `Arguments.foldlM_apply_cases`
    * `Arguments.Arranges.foldlM_apply`
    * `Arguments.parse_any_spelling`
-/

------------------------------------------------------------
-- Options That Are Given
------------------------------------------------------------

namespace TracedScript

namespace Arguments

/- The word for a truth value. -/
def booleanWord (value : Bool) : String :=
  if value then "true" else "false"

/- The value of an option, as it is written. -/
def value? (arguments : Arguments) : Setting → Option String
  | .project => arguments.project
  | .outDir => arguments.outDir
  | .sourceRoot => arguments.sourceRoot
  | .pretty => arguments.pretty.map booleanWord

/- Whether a switch is on. -/
def isOn (arguments : Arguments) : Switch → Bool
  | .sourceMap => arguments.sourceMap
  | .inlineSourceMap => arguments.inlineSourceMap
  | .inlineSources => arguments.inlineSources
  | .noEmit => arguments.noEmit

/- All options. -/
def keys : List Meaning :=
  [.setting .project, .setting .outDir, .switch .sourceMap,
    .switch .inlineSourceMap, .switch .inlineSources,
    .setting .sourceRoot, .switch .noEmit, .setting .pretty]

/- What gives an option, if it is given. -/
def item? (arguments : Arguments) : Meaning → Option Item
  | .setting kind =>
      (arguments.value? kind).map (Item.setting kind)
  | .switch kind =>
      if arguments.isOn kind then some (.switch kind) else none
  | .stop _ => none

/- The options that are given, each once. -/
def options (arguments : Arguments) : List Item :=
  keys.filterMap arguments.item?

theorem key?_of_item?
    {arguments : Arguments}
    {key : Meaning}
    {item : Item}
    (hItem : arguments.item? key = some item) :
    item.key? = some key := by
  cases key with
  | setting kind =>
      rcases Option.map_eq_some_iff.mp hItem with ⟨_, _, rfl⟩
      rfl
  | switch kind =>
      rcases Option.ite_none_right_eq_some.mp hItem with ⟨_, hEq⟩
      cases hEq
      rfl
  | stop error => cases hItem

theorem mem_options_iff
    {arguments : Arguments}
    {item : Item} :
    item ∈ arguments.options ↔
      ∃ key, arguments.item? key = some item := by
  rw [options, List.mem_filterMap]
  constructor
  · rintro ⟨key, _, hItem⟩
    exact ⟨key, hItem⟩
  · rintro ⟨key, hItem⟩
    refine ⟨key, ?_, hItem⟩
    cases key with
    | setting kind => cases kind <;> decide
    | switch kind => cases kind <;> decide
    | stop error => cases hItem

theorem setting_mem_options_iff
    {arguments : Arguments}
    {kind : Setting}
    {value : String} :
    .setting kind value ∈ arguments.options ↔
      arguments.value? kind = some value := by
  rw [mem_options_iff]
  constructor
  · rintro ⟨key, hItem⟩
    cases key?_of_item? hItem
    simpa [item?] using hItem
  · intro hValue
    exact ⟨.setting kind, by simp [item?, hValue]⟩

theorem switch_mem_options_iff
    {arguments : Arguments}
    {kind : Switch} :
    .switch kind ∈ arguments.options ↔
      arguments.isOn kind = true := by
  rw [mem_options_iff]
  constructor
  · rintro ⟨key, hItem⟩
    cases key?_of_item? hItem
    simpa [item?] using hItem
  · intro hOn
    exact ⟨.switch kind, by simp [item?, hOn]⟩

theorem file_notMem_options
    (arguments : Arguments)
    (name : String) :
    .file name ∉ arguments.options := by
  rw [mem_options_iff]
  rintro ⟨key, hItem⟩
  cases key?_of_item? hItem

/- Which options are given. -/
def given (arguments : Arguments) : List Meaning :=
  arguments.options.filterMap Item.key?

/- No option is given twice. -/
theorem nodup_given
    (arguments : Arguments) :
    arguments.given.Nodup := by
  rw [given, options, List.filterMap_filterMap]
  apply List.Nodup.filterMap
  · intro left right key hLeft hRight
    rcases Option.bind_eq_some_iff.mp hLeft with
      ⟨first, hFirst, hKey⟩
    rcases Option.bind_eq_some_iff.mp hRight with
      ⟨second, hSecond, hOther⟩
    rw [key?_of_item? hFirst] at hKey
    rw [key?_of_item? hSecond] at hOther
    exact Option.some.inj (hKey.trans hOther.symm)
  · decide

theorem nodup_options
    (arguments : Arguments) :
    arguments.options.Nodup := by
  apply List.Nodup.filterMap
  · intro left right item hLeft hRight
    have hKeys :=
      (key?_of_item? hLeft).symm.trans (key?_of_item? hRight)
    exact Option.some.inj hKeys
  · decide

/- Arguments are told by their options and files. -/
theorem eq_of_options
    {left right : Arguments}
    (hOptions : ∀ item, item ∈ left.options ↔ item ∈ right.options)
    (hFiles : left.files = right.files) :
    left = right := by
  have hValues : ∀ kind, left.value? kind = right.value? kind := by
    intro kind
    apply Option.ext
    intro value
    rw [← setting_mem_options_iff, hOptions,
      setting_mem_options_iff]
  have hSwitches : ∀ kind, left.isOn kind = right.isOn kind := by
    intro kind
    rw [Bool.eq_iff_iff, ← switch_mem_options_iff, hOptions,
      switch_mem_options_iff]
  have hPretty : left.pretty = right.pretty := by
    apply Option.map_injective _ (hValues .pretty)
    decide
  rcases left with ⟨_, _, _, _, _, _, _, _, _⟩
  rcases right with ⟨_, _, _, _, _, _, _, _, _⟩
  rw [Arguments.mk.injEq]
  exact
    ⟨hValues .project, hValues .outDir, hSwitches .sourceMap,
      hSwitches .inlineSourceMap, hSwitches .inlineSources,
      hValues .sourceRoot, hSwitches .noEmit, hPretty, hFiles⟩

------------------------------------------------------------
-- Applying One Item
------------------------------------------------------------

theorem set_of_given
    {arguments : Arguments}
    {kind : Setting}
    {old : String}
    (hOld : arguments.value? kind = some old)
    (value : String) :
    arguments.set kind value = .error .repeated := by
  cases kind with
  | project =>
      rw [set, show arguments.project = some old from hOld]
      rfl
  | outDir =>
      rw [set, show arguments.outDir = some old from hOld]
      rfl
  | sourceRoot =>
      rw [set, show arguments.sourceRoot = some old from hOld]
      rfl
  | pretty =>
      rcases Option.map_eq_some_iff.mp hOld with ⟨_, hPretty, _⟩
      rw [set, hPretty]
      rfl

/- Only the value of one option changes. -/
structure Gives
    (arguments : Arguments)
    (kind : Setting)
    (value : String)
    (changed : Arguments) : Prop where
  values :
    ∀ other,
      changed.value? other =
        if other = kind then some value
        else arguments.value? other
  switches : ∀ other, changed.isOn other = arguments.isOn other
  files : changed.files = arguments.files

theorem set_of_new
    {arguments : Arguments}
    {kind : Setting}
    {value : String}
    (hNew : arguments.value? kind = none)
    (hValue : kind.Accepts value) :
    ∃ changed,
      arguments.set kind value = .ok changed
        ∧ arguments.Gives kind value changed := by
  cases kind with
  | project =>
      refine ⟨{ arguments with project := some value }, ?_, ?_⟩
      · rw [set, show arguments.project = none from hNew,
          pathValue?, if_neg hValue]
        rfl
      · refine ⟨fun other => ?_, fun other => ?_, rfl⟩
        · cases other <;> rfl
        · cases other <;> rfl
  | outDir =>
      refine ⟨{ arguments with outDir := some value }, ?_, ?_⟩
      · rw [set, show arguments.outDir = none from hNew,
          pathValue?, if_neg hValue]
        rfl
      · refine ⟨fun other => ?_, fun other => ?_, rfl⟩
        · cases other <;> rfl
        · cases other <;> rfl
  | sourceRoot =>
      refine ⟨{ arguments with sourceRoot := some value }, ?_, ?_⟩
      · rw [set, show arguments.sourceRoot = none from hNew]
        rfl
      · refine ⟨fun other => ?_, fun other => ?_, rfl⟩
        · cases other <;> rfl
        · cases other <;> rfl
  | pretty =>
      have hNone : arguments.pretty = none :=
        Option.map_eq_none_iff.mp hNew
      have hBoolean :
          ∃ flag, booleanValue? value = some flag
            ∧ booleanWord flag = value := by
        rcases hValue with rfl | rfl
        · exact ⟨true, rfl, rfl⟩
        · exact ⟨false, rfl, rfl⟩
      rcases hBoolean with ⟨flag, hFlag, rfl⟩
      refine ⟨{ arguments with pretty := some flag }, ?_, ?_⟩
      · rw [set, hNone, hFlag]
        rfl
      · refine ⟨fun other => ?_, fun other => ?_, rfl⟩
        · cases other <;> rfl
        · cases other <;> rfl

theorem turnOn_of_given
    {arguments : Arguments}
    {kind : Switch}
    (hOn : arguments.isOn kind = true) :
    arguments.turnOn kind = .error .repeated := by
  cases kind <;> exact if_pos hOn

/- Only one switch changes. -/
structure TurnsOn
    (arguments : Arguments)
    (kind : Switch)
    (changed : Arguments) : Prop where
  values : ∀ other, changed.value? other = arguments.value? other
  switches :
    ∀ other,
      changed.isOn other = (other = kind || arguments.isOn other)
  files : changed.files = arguments.files

theorem turnOn_of_new
    {arguments : Arguments}
    {kind : Switch}
    (hOff : arguments.isOn kind = false) :
    ∃ changed,
      arguments.turnOn kind = .ok changed
        ∧ arguments.TurnsOn kind changed := by
  have hNot : ¬ arguments.isOn kind = true := by
    rw [hOff]
    exact Bool.false_ne_true
  cases kind with
  | sourceMap =>
      refine ⟨_, if_neg hNot, fun other => ?_, fun other => ?_, rfl⟩
      · cases other <;> rfl
      · cases other <;> rfl
  | inlineSourceMap =>
      refine ⟨_, if_neg hNot, fun other => ?_, fun other => ?_, rfl⟩
      · cases other <;> rfl
      · cases other <;> rfl
  | inlineSources =>
      refine ⟨_, if_neg hNot, fun other => ?_, fun other => ?_, rfl⟩
      · cases other <;> rfl
      · cases other <;> rfl
  | noEmit =>
      refine ⟨_, if_neg hNot, fun other => ?_, fun other => ?_, rfl⟩
      · cases other <;> rfl
      · cases other <;> rfl

/-
  Arguments that have gained some items: their options are
  given, in any order, and their files come last.
-/
structure Gains
    (arguments : Arguments)
    (items : List Item)
    (changed : Arguments) : Prop where
  options :
    changed.options.Perm
      (arguments.options ++ items.filter Item.isOption)
  files :
    changed.files =
      arguments.files ++ items.filterMap Item.file?

/- An option that is new comes to the others. -/
theorem gains_option
    {arguments changed : Arguments}
    {item : Item}
    (hOption : item.isOption = true)
    (hNew : item ∉ arguments.options)
    (hOptions :
      ∀ other,
        other ∈ changed.options ↔
          other = item ∨ other ∈ arguments.options)
    (hFiles : changed.files = arguments.files) :
    arguments.Gains [item] changed := by
  constructor
  · have hNodup : (item :: arguments.options).Nodup :=
      List.nodup_cons.mpr ⟨hNew, arguments.nodup_options⟩
    have hPerm :
        changed.options.Perm (item :: arguments.options) := by
      rw [List.perm_ext_iff_of_nodup changed.nodup_options hNodup]
      intro other
      rw [hOptions, List.mem_cons]
    rw [List.filter_singleton, hOption]
    exact hPerm.trans (List.perm_append_singleton _ _).symm
  · have hNone : item.file? = none := by
      cases item with
      | setting kind value => rfl
      | switch kind => rfl
      | file name => cases hOption
    rw [hFiles, List.filterMap_cons_none hNone,
      List.filterMap_nil, List.append_nil]

theorem mem_given_iff
    {arguments : Arguments}
    {key : Meaning} :
    key ∈ arguments.given ↔
      ∃ item, arguments.item? key = some item := by
  rw [given, List.mem_filterMap]
  constructor
  · rintro ⟨item, hItem, hKey⟩
    rcases mem_options_iff.mp hItem with ⟨other, hOther⟩
    rw [key?_of_item? hOther] at hKey
    cases hKey
    exact ⟨item, hOther⟩
  · rintro ⟨item, hItem⟩
    exact
      ⟨item, mem_options_iff.mpr ⟨key, hItem⟩,
        key?_of_item? hItem⟩

theorem gains_of_gives
    {arguments changed : Arguments}
    {kind : Setting}
    {value : String}
    (hNew : arguments.value? kind = none)
    (hGives : arguments.Gives kind value changed) :
    arguments.Gains [.setting kind value] changed := by
  apply gains_option rfl _ _ hGives.files
  · simp [setting_mem_options_iff, hNew]
  · intro other
    cases other with
    | setting otherKind otherValue =>
        rw [setting_mem_options_iff, setting_mem_options_iff,
          hGives.values, Item.setting.injEq]
        split
        · next hKind =>
            rw [hKind, hNew]
            simp [eq_comm]
        · next hKind => simp [hKind]
    | switch otherKind =>
        rw [switch_mem_options_iff, switch_mem_options_iff,
          hGives.switches]
        simp
    | file name => simp [file_notMem_options]

theorem gains_of_turnsOn
    {arguments changed : Arguments}
    {kind : Switch}
    (hOff : arguments.isOn kind = false)
    (hTurnsOn : arguments.TurnsOn kind changed) :
    arguments.Gains [.switch kind] changed := by
  apply gains_option rfl _ _ hTurnsOn.files
  · simp [switch_mem_options_iff, hOff]
  · intro other
    cases other with
    | setting otherKind otherValue =>
        rw [setting_mem_options_iff, setting_mem_options_iff,
          hTurnsOn.values]
        simp
    | switch otherKind =>
        rw [switch_mem_options_iff, switch_mem_options_iff,
          hTurnsOn.switches, Item.switch.injEq]
        simp
    | file name => simp [file_notMem_options]

theorem gains_file
    (arguments : Arguments)
    (name : String) :
    arguments.Gains [.file name]
      { arguments with files := arguments.files ++ [name] } where
  options := List.Perm.of_eq (List.append_nil _).symm
  files := rfl

/-
  An item whose option is given already cannot be applied, and
  any other item can.
-/
theorem apply_cases
    (arguments : Arguments)
    {item : Item}
    (hValid : item.Valid) :
    (∃ key,
        item.key? = some key ∧ key ∈ arguments.given
          ∧ arguments.apply item = .error .repeated)
      ∨ ∃ changed,
          arguments.apply item = .ok changed
            ∧ arguments.Gains [item] changed := by
  cases item with
  | setting kind value =>
      cases hOld : arguments.value? kind with
      | some old =>
          refine Or.inl ⟨.setting kind, rfl, ?_, ?_⟩
          · exact
              mem_given_iff.mpr
                ⟨.setting kind old, by simp [item?, hOld]⟩
          · exact set_of_given hOld value
      | none =>
          rcases set_of_new hOld hValid with
            ⟨changed, hSet, hGives⟩
          exact Or.inr ⟨changed, hSet, gains_of_gives hOld hGives⟩
  | switch kind =>
      cases hOld : arguments.isOn kind with
      | true =>
          refine Or.inl ⟨.switch kind, rfl, ?_, ?_⟩
          · exact
              mem_given_iff.mpr
                ⟨.switch kind, by simp [item?, hOld]⟩
          · exact turnOn_of_given hOld
      | false =>
          rcases turnOn_of_new hOld with ⟨changed, hTurn, hTurnsOn⟩
          exact
            Or.inr ⟨changed, hTurn, gains_of_turnsOn hOld hTurnsOn⟩
  | file name =>
      exact
        Or.inr
          ⟨_, if_neg hValid.1, gains_file arguments name⟩

------------------------------------------------------------
-- Applying All Items
------------------------------------------------------------

theorem filterMap_key?_filter
    (items : List Item) :
    (items.filter Item.isOption).filterMap Item.key? =
      items.filterMap Item.key? := by
  rw [List.filterMap_filter]
  congr 1
  funext item
  cases item <;> rfl

theorem Gains.cons
    {first second third : Arguments}
    {item : Item}
    {items : List Item}
    (hItem : first.Gains [item] second)
    (hItems : second.Gains items third) :
    first.Gains (item :: items) third := by
  constructor
  · rw [← List.singleton_append, List.filter_append,
      ← List.append_assoc]
    exact hItems.options.trans (hItem.options.append_right _)
  · rw [← List.singleton_append, List.filterMap_append,
      ← List.append_assoc, hItems.files, hItem.files]

/- The options of what is gained are those of the items. -/
theorem Gains.given_perm
    {arguments changed : Arguments}
    {items : List Item}
    (hGains : arguments.Gains items changed) :
    changed.given.Perm
      (arguments.given ++ items.filterMap Item.key?) := by
  have hPerm := hGains.options.filterMap Item.key?
  rwa [List.filterMap_append, filterMap_key?_filter] at hPerm

/-
  Items can be applied one after the other if no option comes
  twice among them and what is given before. If one does, it
  is what stops them.
-/
theorem foldlM_apply_cases
    (arguments : Arguments)
    {items : List Item}
    (hValid : ∀ item ∈ items, item.Valid) :
    (∃ changed,
        items.foldlM apply arguments = .ok changed
          ∧ arguments.Gains items changed)
      ∨ (items.foldlM apply arguments = .error .repeated
        ∧ ¬ (arguments.given
          ++ items.filterMap Item.key?).Nodup) := by
  induction items generalizing arguments with
  | nil =>
      refine Or.inl ⟨arguments, rfl, ?_, ?_⟩
      · exact List.Perm.of_eq (List.append_nil _).symm
      · exact (List.append_nil _).symm
  | cons item items ih =>
      rw [List.forall_mem_cons] at hValid
      rw [List.foldlM_cons]
      rcases apply_cases arguments hValid.1 with
        ⟨key, hKey, hGiven, hApply⟩ | ⟨changed, hApply, hGains⟩
      · refine Or.inr ⟨by rw [hApply]; rfl, ?_⟩
        rw [List.filterMap_cons_some hKey]
        intro hNodup
        have hDisjoint := (List.nodup_append.mp hNodup).2.2
        exact hDisjoint key hGiven key List.mem_cons_self rfl
      · rw [hApply]
        rcases ih changed hValid.2 with
          ⟨final, hFold, hMore⟩ | ⟨hFold, hTwice⟩
        · exact Or.inl ⟨final, hFold, hGains.cons hMore⟩
        · refine Or.inr ⟨hFold, ?_⟩
          intro hNodup
          apply hTwice
          have hPerm :=
            hGains.given_perm.append_right
              (items.filterMap Item.key?)
          rw [List.append_assoc, ← List.filterMap_append] at hPerm
          exact hPerm.nodup_iff.mpr hNodup

theorem foldlM_apply_of_nodup
    (arguments : Arguments)
    {items : List Item}
    (hValid : ∀ item ∈ items, item.Valid)
    (hNodup :
      (arguments.given ++ items.filterMap Item.key?).Nodup) :
    ∃ changed,
      items.foldlM apply arguments = .ok changed
        ∧ arguments.Gains items changed := by
  rcases foldlM_apply_cases arguments hValid with
    hApplied | ⟨_, hTwice⟩
  · exact hApplied
  · exact absurd hNodup hTwice

theorem foldlM_apply_of_not_nodup
    (arguments : Arguments)
    {items : List Item}
    (hValid : ∀ item ∈ items, item.Valid)
    (hTwice :
      ¬ (arguments.given ++ items.filterMap Item.key?).Nodup) :
    items.foldlM apply arguments = .error .repeated := by
  rcases foldlM_apply_cases arguments hValid with
    ⟨changed, _, hGains⟩ | ⟨hFold, _⟩
  · have hNodup := hGains.given_perm.nodup_iff.mp changed.nodup_given
    exact absurd hNodup hTwice
  · exact hFold

------------------------------------------------------------
-- Spellings of Arguments
------------------------------------------------------------

/- Arguments that can be written down. -/
structure Proper (arguments : Arguments) : Prop where
  project : arguments.project ≠ some ""
  outDir : arguments.outDir ≠ some ""
  files : ∀ name ∈ arguments.files, name ≠ "" ∧ IsPlain name

/-
  Items that ask for arguments: they give each of the options
  once, in any order, and the files in their order.
-/
structure Arranges
    (arguments : Arguments)
    (items : List Item) : Prop where
  options : (items.filter Item.isOption).Perm arguments.options
  files : items.filterMap Item.file? = arguments.files

theorem Proper.valid_of_mem_options
    {arguments : Arguments}
    (hProper : arguments.Proper)
    {item : Item}
    (hItem : item ∈ arguments.options) :
    item.Valid := by
  cases item with
  | setting kind value =>
      rw [setting_mem_options_iff] at hItem
      cases kind with
      | project =>
          rintro rfl
          exact hProper.project hItem
      | outDir =>
          rintro rfl
          exact hProper.outDir hItem
      | sourceRoot => trivial
      | pretty =>
          rcases Option.map_eq_some_iff.mp hItem with
            ⟨flag, _, rfl⟩
          cases flag with
          | true => exact Or.inl rfl
          | false => exact Or.inr rfl
  | switch kind => trivial
  | file name =>
      exact absurd hItem (arguments.file_notMem_options name)

theorem Arranges.valid
    {arguments : Arguments}
    {items : List Item}
    (hArranges : arguments.Arranges items)
    (hProper : arguments.Proper) :
    ∀ item ∈ items, item.Valid := by
  intro item hItem
  cases hOption : item.isOption with
  | true =>
      apply hProper.valid_of_mem_options
      rw [← hArranges.options.mem_iff]
      exact List.mem_filter.mpr ⟨hItem, hOption⟩
  | false =>
      cases item with
      | setting kind value => cases hOption
      | switch kind => cases hOption
      | file name =>
          apply hProper.files
          rw [← hArranges.files]
          exact List.mem_filterMap.mpr ⟨.file name, hItem, rfl⟩

theorem Arranges.key_perm
    {arguments : Arguments}
    {items : List Item}
    (hArranges : arguments.Arranges items) :
    (items.filterMap Item.key?).Perm arguments.given := by
  rw [← filterMap_key?_filter]
  exact hArranges.options.filterMap Item.key?

/- Items that ask for arguments lead to them. -/
theorem Arranges.foldlM_apply
    {arguments : Arguments}
    {items : List Item}
    (hArranges : arguments.Arranges items)
    (hProper : arguments.Proper) :
    items.foldlM apply {} = .ok arguments := by
  have hNodup :
      (given {} ++ items.filterMap Item.key?).Nodup :=
    hArranges.key_perm.nodup_iff.mpr arguments.nodup_given
  rcases foldlM_apply_of_nodup {} (hArranges.valid hProper)
    hNodup with ⟨changed, hFold, hGains⟩
  rw [hFold]
  congr 1
  apply eq_of_options
  · intro item
    exact (hGains.options.trans hArranges.options).mem_iff
  · exact hGains.files.trans hArranges.files

theorem exists_spells
    (item : Item) :
    ∃ words, Spells item words := by
  cases item with
  | setting kind value =>
      have hName : ∃ name, name ∈ kind.names := by
        cases kind <;> exact ⟨_, List.mem_cons_self⟩
      rcases hName with ⟨name, hName⟩
      exact ⟨_, .attached value hName⟩
  | switch kind =>
      have hName : ∃ name, name ∈ kind.names := by
        cases kind <;> exact ⟨_, List.mem_cons_self⟩
      rcases hName with ⟨name, hName⟩
      exact ⟨_, .switch hName⟩
  | file name => exact ⟨_, .file⟩

theorem Spelled.cons
    {item : Item}
    {items : List Item}
    {words more : List String}
    (hItem : Spells item words)
    (hItems : Spelled items more) :
    Spelled (item :: items) (words ++ more) := by
  rcases hItems with ⟨pieces, hPieces, rfl⟩
  exact ⟨words :: pieces, .cons hItem hPieces, rfl⟩

theorem Spelled.append
    {left right : List Item}
    {words more : List String}
    (hLeft : Spelled left words)
    (hRight : Spelled right more) :
    Spelled (left ++ right) (words ++ more) := by
  rcases hLeft with ⟨first, hFirst, rfl⟩
  rcases hRight with ⟨second, hSecond, rfl⟩
  exact
    ⟨first ++ second, List.rel_append hFirst hSecond,
      List.flatten_append.symm⟩

theorem exists_spelled
    (items : List Item) :
    ∃ words, Spelled items words := by
  induction items with
  | nil => exact ⟨[], [], .nil, rfl⟩
  | cons item items ih =>
      rcases exists_spells item with ⟨words, hWords⟩
      rcases ih with ⟨more, hMore⟩
      exact ⟨words ++ more, hMore.cons hWords⟩

/- The options, and then the files. -/
theorem arranges_options_files
    (arguments : Arguments) :
    arguments.Arranges
      (arguments.options ++ arguments.files.map Item.file) := by
  have hKeys :
      ∀ item ∈ arguments.options,
        item.isOption = true ∧ item.file? = none := by
    intro item hItem
    cases item with
    | setting kind value => exact ⟨rfl, rfl⟩
    | switch kind => exact ⟨rfl, rfl⟩
    | file name =>
        exact absurd hItem (arguments.file_notMem_options name)
  constructor
  · have hOptions :
        arguments.options.filter Item.isOption =
          arguments.options :=
      List.filter_eq_self.mpr fun item hItem => (hKeys item hItem).1
    have hFiles :
        (arguments.files.map Item.file).filter Item.isOption = [] := by
      rw [List.filter_eq_nil_iff]
      intro item hItem
      rcases List.mem_map.mp hItem with ⟨name, _, rfl⟩
      exact Bool.false_ne_true
    rw [List.filter_append, hOptions, hFiles, List.append_nil]
  · have hOptions :
        arguments.options.filterMap Item.file? = [] :=
      List.filterMap_eq_nil_iff.mpr fun item hItem =>
        (hKeys item hItem).2
    have hFiles :
        (arguments.files.map Item.file).filterMap Item.file? =
          arguments.files := by
      rw [List.filterMap_map]
      exact List.filterMap_some
    rw [List.filterMap_append, hOptions, hFiles, List.nil_append]

/- An option that is given comes once more, somewhere. -/
theorem Arranges.not_nodup_insert
    {arguments : Arguments}
    {left right : List Item}
    {item other : Item}
    (hArranges : arguments.Arranges (left ++ right))
    (hOther : other ∈ arguments.options)
    (hKey : item.key? = other.key?) :
    ¬ ((left ++ item :: right).filterMap Item.key?).Nodup := by
  rcases mem_options_iff.mp hOther with ⟨key, hItem⟩
  rw [key?_of_item? hItem] at hKey
  have hGiven : key ∈ (left ++ right).filterMap Item.key? := by
    rw [hArranges.key_perm.mem_iff, mem_given_iff]
    exact ⟨other, hItem⟩
  rw [List.filterMap_append, List.filterMap_cons_some hKey,
    List.nodup_middle, ← List.filterMap_append, List.nodup_cons]
  rintro ⟨hNot, _⟩
  exact hNot hGiven

/-
  All arguments that can be written down are read from some
  words, and from all words that ask for them, in whatever way
  the words are chosen and arranged. An option that comes once
  more, between any two items, makes the words unreadable.
-/
theorem parse_any_spelling
    (arguments : Arguments)
    (hProper : arguments.Proper) :
    (∃ items words,
        arguments.Arranges items ∧ Spelled items words)
      ∧ (∀ items words,
          arguments.Arranges items → Spelled items words →
            parse words = .ok arguments)
      ∧ ∀ left right before after item words,
          arguments.Arranges (left ++ right) →
            Spelled left before → Spelled right after →
              (∃ other ∈ arguments.options,
                item.key? = other.key?) →
                item.Valid → Spells item words →
                  parse (before ++ words ++ after) =
                    .error .repeated := by
  refine ⟨?_, ?_, ?_⟩
  · rcases exists_spelled
      (arguments.options ++ arguments.files.map Item.file) with
      ⟨words, hWords⟩
    exact ⟨_, words, arguments.arranges_options_files, hWords⟩
  · intro items words hArranges hSpelled
    rw [parse_of_spelled (hArranges.valid hProper) hSpelled]
    exact hArranges.foldlM_apply hProper
  · intro left right before after item words hArranges hLeft
      hRight hOther hItem hWords
    rcases hOther with ⟨other, hOther, hKey⟩
    have hSpelled :
        Spelled (left ++ item :: right)
          (before ++ words ++ after) := by
      rw [List.append_assoc]
      exact hLeft.append (hRight.cons hWords)
    have hValid : ∀ each ∈ left ++ item :: right, each.Valid := by
      intro each hEach
      have hAll := hArranges.valid hProper each
      rw [List.mem_append] at hAll
      rw [List.mem_append, List.mem_cons] at hEach
      rcases hEach with hBefore | rfl | hAfter
      · exact hAll (Or.inl hBefore)
      · exact hItem
      · exact hAll (Or.inr hAfter)
    rw [parse_of_spelled hValid hSpelled]
    exact
      foldlM_apply_of_not_nodup {} hValid
        (hArranges.not_nodup_insert hOther hKey)

/-
  Arguments with an empty value, with a value that starts with
  a dash, and with dashes for a value and a file.
-/
def dashedArguments : Arguments :=
  { project := some "-"
    outDir := some "-o=1"
    sourceMap := true
    sourceRoot := some ""
    pretty := some false
    files := ["a", "-"] }

def dashedItems : List Item :=
  [.setting .outDir "-o=1", .switch .sourceMap, .file "-",
    .setting .pretty "false", .setting .sourceRoot "",
    .setting .project "-"]

theorem parse_any_spelling_dashed :
    dashedArguments.Proper
      ∧ dashedArguments.Arranges (.file "a" :: dashedItems)
      ∧ parse
            ["a", "--out-dir=-o=1", "--source-map", "-",
              "--pretty", "false", "--sourceRoot=", "-p", "-"] =
          .ok dashedArguments
      ∧ parse
            ["a", "--sourceMap", "--out-dir=-o=1", "--source-map",
              "-", "--pretty", "false", "--sourceRoot=", "-p",
              "-"] =
          .error .repeated := by
  have hProper : dashedArguments.Proper := by
    constructor <;> decide
  have hArranges :
      dashedArguments.Arranges ([.file "a"] ++ dashedItems) := by
    constructor <;> decide
  have hFirst : Spelled [.file "a"] ["a"] :=
    ⟨[["a"]], .cons .file .nil, rfl⟩
  have hRest :
      Spelled dashedItems
        ["--out-dir=-o=1", "--source-map", "-", "--pretty",
          "false", "--sourceRoot=", "-p", "-"] := by
    have hOutDir : "out-dir" ∈ Setting.outDir.names := by decide
    have hSourceMap : "source-map" ∈ Switch.sourceMap.names := by
      decide
    have hPretty : "pretty" ∈ Setting.pretty.names := by decide
    have hRoot : "sourceRoot" ∈ Setting.sourceRoot.names := by
      decide
    refine
      ⟨_,
        .cons (.attached "-o=1" hOutDir)
          (.cons (.switch hSourceMap)
            (.cons .file
              (.cons (.separate hPretty (by decide))
                (.cons (.attached "" hRoot)
                  (.cons (.short (by decide)) .nil))))), ?_⟩
    decide
  have hSwitch : "sourceMap" ∈ Switch.sourceMap.names := by decide
  rcases parse_any_spelling dashedArguments hProper with
    ⟨_, hParse, hTwice⟩
  refine ⟨hProper, hArranges, ?_, ?_⟩
  · exact hParse _ _ hArranges (hFirst.append hRest)
  · exact
      hTwice [.file "a"] dashedItems _ _ (.switch .sourceMap) _
        hArranges hFirst hRest
        ⟨.switch .sourceMap, by decide, rfl⟩ trivial
        (.switch hSwitch)

end Arguments

end TracedScript
