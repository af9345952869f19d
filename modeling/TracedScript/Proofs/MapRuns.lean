import TracedScript.Proofs.Dictionary
import TracedScript.SourceMap.Builder

/-
  What a source map builder holds after a run of calls.

  A builder keeps the names of its sources, their texts and a
  dictionary of their numbers apart. No type ties the three to
  each other: that they follow the calls is what every call
  keeps up.

  Key definitions include:
    * `MapOperation`: one call on a builder.
    * `MapOperation.lastRoot`, `MapOperation.names`,
      `MapOperation.lastContent`, `MapOperation.mappings`: what
      some calls gave, told from the calls alone.
    * `MapBuilder.run`: a new builder after some calls.
    * `MapBuilder.Follows`: the containers of a builder, field by
      field, have what some calls gave.
    * `MapBuilder.content?`: the text that is found for a name.
    * `MapBuilder.Holds`: a builder with what some calls gave.

  Main declarations:
    * `MapBuilder.Follows.apply`: what one more call does.
    * `MapBuilder.follows_run`
    * `MapBuilder.run_holds_calls`
-/

------------------------------------------------------------
-- Calls
------------------------------------------------------------

namespace TracedScript

/- A call on a source map builder. -/
inductive MapOperation where
  | setRoot (root : String)
  | addSource (name : String)
  | addContent (name content : String)
  | addMapping (mapping : Mapping)
deriving DecidableEq, Repr

namespace MapOperation

/- The root that a call sets. -/
def root? : MapOperation → Option String
  | .setRoot root => some root
  | _ => none

/- The name of the source that a call is about. -/
def name? : MapOperation → Option String
  | .addSource name => some name
  | .addContent name _ => some name
  | _ => none

/- The text that a call gives for a source. -/
def contentOf? (name : String) : MapOperation → Option String
  | .addContent other content =>
      if other = name then some content else none
  | _ => none

/- The mapping that a call adds. -/
def mapping? : MapOperation → Option Mapping
  | .addMapping mapping => some mapping
  | _ => none

/- The root that was set last. -/
def lastRoot (operations : List MapOperation) : Option String :=
  (operations.filterMap root?).getLast?

/- The different names, in the order in which they first came. -/
def names (operations : List MapOperation) : List String :=
  (operations.filterMap name?).eraseDups

/- The text that was given last for a source. -/
def lastContent
    (operations : List MapOperation)
    (name : String) :
    Option String :=
  (operations.filterMap (contentOf? name)).getLast?

/- The mappings, in the order in which they were added. -/
def mappings (operations : List MapOperation) : List Mapping :=
  operations.filterMap mapping?

variable {operations : List MapOperation} {operation : MapOperation}

theorem lastRoot_concat :
    lastRoot (operations ++ [operation]) =
      operation.root?.or (lastRoot operations) := by
  rw [lastRoot, List.filterMap_append, List.getLast?_append,
    lastRoot]
  cases hRoot : operation.root? with
  | none => simp [hRoot]
  | some root => simp [hRoot]

theorem lastContent_concat
    (name : String) :
    lastContent (operations ++ [operation]) name =
      (operation.contentOf? name).or
        (lastContent operations name) := by
  rw [lastContent, List.filterMap_append, List.getLast?_append,
    lastContent]
  cases hContent : operation.contentOf? name with
  | none => simp [hContent]
  | some content => simp [hContent]

theorem mappings_concat :
    mappings (operations ++ [operation]) =
      mappings operations ++ operation.mapping?.toList := by
  rw [mappings, List.filterMap_append, mappings]
  cases hMapping : operation.mapping? with
  | none => simp [hMapping]
  | some mapping => simp [hMapping]

theorem names_concat_of_none
    (hName : operation.name? = none) :
    names (operations ++ [operation]) = names operations := by
  simp [names, List.filterMap_append, hName]

/- A name that comes again changes nothing; a new one comes last. -/
theorem names_concat
    {name : String}
    (hName : operation.name? = some name) :
    names (operations ++ [operation]) =
      if name ∈ names operations then names operations
      else names operations ++ [name] := by
  have hSingle : [operation].filterMap name? = [name] := by
    simp [hName]
  rw [names, List.filterMap_append, hSingle, eraseDups_concat]
  simp only [names, List.mem_eraseDups]

theorem mem_names_concat
    {name : String}
    (hName : operation.name? = some name) :
    name ∈ names (operations ++ [operation]) := by
  simp [names, hName]

theorem nodup_names
    (operations : List MapOperation) :
    (names operations).Nodup :=
  nodup_eraseDups _

/- No text was given for a source that no call was about. -/
theorem lastContent_eq_none
    {name : String}
    (hName : name ∉ names operations) :
    lastContent operations name = none := by
  rw [lastContent, List.getLast?_eq_none_iff,
    List.filterMap_eq_nil_iff]
  intro operation hOperation
  rw [names, List.mem_eraseDups, List.mem_filterMap] at hName
  cases operation with
  | addContent other content =>
      have hOther : other ≠ name := by
        rintro rfl
        exact hName ⟨_, hOperation, rfl⟩
      rw [contentOf?, if_neg hOther]
  | _ => rfl

end MapOperation

------------------------------------------------------------
-- Builders
------------------------------------------------------------

namespace MapBuilder

open MapOperation

/- A builder after one more call. -/
def apply (builder : MapBuilder) : MapOperation → MapBuilder
  | .setRoot root => builder.setRoot root
  | .addSource name => (builder.addSource name).2
  | .addContent name content => (builder.addContent name content).2
  | .addMapping mapping => builder.addMapping mapping

/- A new builder after some calls. -/
def run
    (file : String)
    (operations : List MapOperation) :
    MapBuilder :=
  operations.foldl apply { file := file }

/-
  The containers of a builder have what some calls gave: the
  names without repetition, the last text of each name at its
  place, and the place of each name in the dictionary.
-/
structure Follows
    (builder : MapBuilder)
    (file : String)
    (operations : List MapOperation) : Prop where
  file : builder.file = file
  root : builder.sourceRoot = lastRoot operations
  sources : builder.sources = names operations
  contents :
    builder.sourcesContent =
      (names operations).map (lastContent operations)
  indices :
    Dictionary.Indexes id (names operations) builder.sourceIndices
  mappings : builder.mappings = MapOperation.mappings operations

variable {builder : MapBuilder} {file : String}
  {operations : List MapOperation}

theorem addSource_of_mem
    (hBuilder : builder.Follows file operations)
    {name : String}
    (hName : name ∈ names operations) :
    builder.addSource name =
      ((names operations).idxOf name, builder) := by
  rw [addSource, hBuilder.indices.lookup_of_mem hName]
  rfl

theorem addSource_of_notMem
    (hBuilder : builder.Follows file operations)
    {name : String}
    (hName : name ∉ names operations) :
    builder.addSource name =
      ((names operations).length,
        { builder with
          sources := builder.sources ++ [name]
          sourcesContent := builder.sourcesContent ++ [none]
          sourceIndices :=
            (name, (names operations).length)
              :: builder.sourceIndices }) := by
  rw [addSource,
    (hBuilder.indices.lookup_eq_none_iff name).mpr hName,
    hBuilder.sources]

/- A call that is about no source leaves what is known of them. -/
theorem lastContent_concat_of_none
    {operation : MapOperation}
    (hContent : ∀ name, operation.contentOf? name = none) :
    lastContent (operations ++ [operation]) =
      lastContent operations := by
  funext name
  rw [lastContent_concat, hContent, Option.none_or]

namespace Follows

theorem addSource
    (hBuilder : builder.Follows file operations)
    (name : String) :
    (builder.addSource name).2.Follows file
      (operations ++ [.addSource name]) := by
  have hNames :
      names (operations ++ [.addSource name]) =
        if name ∈ names operations then names operations
        else names operations ++ [name] :=
    names_concat rfl
  have hContents :
      lastContent (operations ++ [.addSource name]) =
        lastContent operations :=
    lastContent_concat_of_none fun _ => rfl
  by_cases hName : name ∈ names operations
  · rw [if_pos hName] at hNames
    rw [addSource_of_mem hBuilder hName]
    constructor
    case file => exact hBuilder.file
    case root =>
      rw [lastRoot_concat]
      exact hBuilder.root
    case sources => rw [hNames, hBuilder.sources]
    case contents => rw [hNames, hContents, hBuilder.contents]
    case indices =>
      rw [hNames]
      exact hBuilder.indices
    case mappings =>
      rw [mappings_concat, hBuilder.mappings]
      exact (List.append_nil _).symm
  · rw [if_neg hName] at hNames
    rw [addSource_of_notMem hBuilder hName]
    constructor
    case file => exact hBuilder.file
    case root =>
      rw [lastRoot_concat]
      exact hBuilder.root
    case sources =>
      rw [hNames]
      exact congrArg (· ++ [name]) hBuilder.sources
    case contents =>
      rw [hNames, hContents, List.map_append,
        List.map_singleton, lastContent_eq_none hName]
      exact congrArg (· ++ [none]) hBuilder.contents
    case indices =>
      rw [hNames]
      exact hBuilder.indices.concat hName
    case mappings =>
      rw [mappings_concat]
      exact hBuilder.mappings.trans (List.append_nil _).symm

end Follows

/- The number of a source is its place among all names so far. -/
theorem fst_addSource
    (hBuilder : builder.Follows file operations)
    (name : String) :
    (builder.addSource name).1 =
      (names (operations ++ [.addSource name])).idxOf name := by
  rw [names_concat rfl]
  by_cases hName : name ∈ names operations
  · rw [addSource_of_mem hBuilder hName, if_pos hName]
  · rw [addSource_of_notMem hBuilder hName, if_neg hName,
      List.idxOf_append_of_notMem hName, List.idxOf_cons_self,
      Nat.add_zero]

namespace Follows

/-
  A text is put where the dictionary says, and this is the place
  of the name and of no other.
-/
theorem addContent
    (hBuilder : builder.Follows file operations)
    (name content : String) :
    (builder.addContent name content).2.Follows file
      (operations ++ [.addContent name content]) := by
  have hNamed := hBuilder.addSource name
  have hNames :
      names (operations ++ [.addContent name content]) =
        names (operations ++ [.addSource name]) := by
    rw [names_concat rfl, names_concat rfl]
  have hContents :
      lastContent (operations ++ [.addContent name content]) =
        Function.update (lastContent operations) name
          (some content) := by
    funext other
    rw [lastContent_concat, contentOf?]
    by_cases hOther : name = other
    · rw [if_pos hOther, hOther, Function.update_self,
        Option.some_or]
    · rw [if_neg hOther, Option.none_or,
        Function.update_of_ne (Ne.symm hOther)]
  constructor
  case file => exact hNamed.file
  case root =>
    rw [lastRoot_concat]
    exact hNamed.root.trans lastRoot_concat
  case sources =>
    rw [hNames]
    exact hNamed.sources
  case contents =>
    have hNodup := nodup_names (operations ++ [.addSource name])
    have hMember :
        name ∈ names (operations ++ [.addSource name]) :=
      mem_names_concat rfl
    have hSet :=
      hNodup.map_update (lastContent operations) name
        (some content)
    rw [if_pos hMember] at hSet
    rw [MapBuilder.addContent, hNames, hContents, hSet]
    change
      (builder.addSource name).2.sourcesContent.set _ _ = _
    rw [hNamed.contents, fst_addSource hBuilder,
      lastContent_concat_of_none fun _ => rfl]
  case indices =>
    rw [hNames]
    exact hNamed.indices
  case mappings =>
    rw [mappings_concat]
    exact hNamed.mappings.trans mappings_concat

/- A call about no source sets a root or adds a mapping. -/
theorem apply_of_unnamed
    (hBuilder : builder.Follows file operations)
    {operation : MapOperation}
    (hName : operation.name? = none) :
    (builder.apply operation).Follows file
      (operations ++ [operation]) := by
  have hApply :
      builder.apply operation =
        { builder with
          sourceRoot := operation.root?.or builder.sourceRoot
          mappings :=
            builder.mappings ++ operation.mapping?.toList } := by
    cases operation with
    | setRoot root =>
        simp [MapBuilder.apply, setRoot, root?, mapping?]
    | addMapping mapping =>
        simp [MapBuilder.apply, addMapping, root?, mapping?]
    | _ => cases hName
  have hNames :
      names (operations ++ [operation]) = names operations :=
    names_concat_of_none hName
  have hContents :
      lastContent (operations ++ [operation]) =
        lastContent operations := by
    apply lastContent_concat_of_none
    intro name
    cases operation with
    | addContent other content => cases hName
    | _ => rfl
  rw [hApply]
  constructor
  case file => exact hBuilder.file
  case root => rw [lastRoot_concat, hBuilder.root]
  case sources => exact hBuilder.sources.trans hNames.symm
  case contents =>
    rw [hNames, hContents]
    exact hBuilder.contents
  case indices =>
    rw [hNames]
    exact hBuilder.indices
  case mappings => rw [mappings_concat, hBuilder.mappings]

/- What one more call does. -/
theorem apply
    (hBuilder : builder.Follows file operations)
    (operation : MapOperation) :
    (builder.apply operation).Follows file
      (operations ++ [operation]) := by
  cases operation with
  | addSource name => exact hBuilder.addSource name
  | addContent name content =>
      exact hBuilder.addContent name content
  | setRoot root => exact hBuilder.apply_of_unnamed rfl
  | addMapping mapping => exact hBuilder.apply_of_unnamed rfl

end Follows

/- A run of calls gives what the calls describe. -/
theorem follows_run
    (file : String)
    (operations : List MapOperation) :
    (run file operations).Follows file operations := by
  induction operations using List.reverseRecOn with
  | nil =>
      exact ⟨rfl, rfl, rfl, rfl, Dictionary.Indexes.nil id, rfl⟩
  | append_singleton operations operation ih =>
      rw [run, List.foldl_concat, ← run]
      exact ih.apply operation

------------------------------------------------------------
-- Numbers of Sources
------------------------------------------------------------

/- The number that a call gives back, if it is about a source. -/
def answer (builder : MapBuilder) : MapOperation → Option Nat
  | .addSource name => some (builder.addSource name).1
  | .addContent name content =>
      some (builder.addContent name content).1
  | _ => none

/- With or without a text, a call gives the place of its source. -/
theorem answer_run
    {call : MapOperation}
    {name : String}
    (hName : call.name? = some name) :
    (run file operations).answer call =
      some ((names (operations ++ [call])).idxOf name) := by
  have hNumber :=
    fst_addSource (follows_run file operations) name
  have hNames :
      names (operations ++ [call]) =
        names (operations ++ [.addSource name]) := by
    rw [names_concat hName, names_concat rfl]
  rw [hNames, ← hNumber]
  cases call with
  | addSource other =>
      cases hName
      rfl
  | addContent other content =>
      cases hName
      rfl
  | _ => cases hName

/- The text that stands where the dictionary has a name. -/
def content?
    (builder : MapBuilder)
    (name : String) :
    Option String :=
  (builder.sourceIndices.lookup name).bind fun index =>
    (builder.sourcesContent[index]?).join

theorem Follows.content?_eq
    (hBuilder : builder.Follows file operations)
    (name : String) :
    builder.content? name = lastContent operations name := by
  rw [content?, hBuilder.indices.lookup, hBuilder.contents]
  by_cases hName : name ∈ names operations
  · rw [idxOf?_of_mem hName, Option.map_some, Option.bind_some,
      id_eq, List.getElem?_map, List.getElem?_idxOf hName]
    rfl
  · rw [List.idxOf?_eq_none_iff.mpr hName,
      lastContent_eq_none hName]
    rfl

/-
  A builder that holds what some calls gave: each source once
  with its last text, and all mappings. Naming a source, new or
  not, gives a place where a text can be written, and changes
  the text of no name.
-/
structure Holds
    (builder : MapBuilder)
    (operations : List MapOperation) : Prop where
  sources : builder.sources = names operations
  distinct : builder.sources.Nodup
  lengths :
    builder.sourcesContent.length = builder.sources.length
  numbers :
    ∀ name,
      builder.sourceIndices.lookup name =
        builder.sources.idxOf? name
  contents :
    builder.sourcesContent =
      builder.sources.map (lastContent operations)
  within :
    ∀ name,
      (builder.addSource name).1 <
        (builder.addSource name).2.sourcesContent.length
  kept :
    ∀ name other,
      (builder.addSource name).2.content? other =
        builder.content? other
  mappings :
    builder.mappings = MapOperation.mappings operations

theorem Follows.holds
    (hBuilder : builder.Follows file operations) :
    builder.Holds operations := by
  constructor
  case sources => exact hBuilder.sources
  case distinct =>
    rw [hBuilder.sources]
    exact nodup_names operations
  case lengths =>
    rw [hBuilder.contents, hBuilder.sources, List.length_map]
  case numbers =>
    intro name
    rw [hBuilder.indices.lookup, hBuilder.sources,
      Option.map_id, id_eq]
  case contents => rw [hBuilder.contents, hBuilder.sources]
  case within =>
    intro name
    rw [fst_addSource hBuilder,
      (hBuilder.addSource name).contents, List.length_map]
    exact List.idxOf_lt_length_of_mem (mem_names_concat rfl)
  case kept =>
    intro name other
    rw [(hBuilder.addSource name).content?_eq,
      hBuilder.content?_eq, lastContent_concat_of_none]
    intro _
    rfl
  case mappings => exact hBuilder.mappings

/-
  After any calls the builder holds what they gave. Every call
  about a source gave back the place that the source has among
  all sources in the end, and the text of the mappings depends
  on the mappings alone, however the calls were mixed.
-/
theorem run_holds_calls
    (file : String)
    (operations : List MapOperation) :
    (run file operations).Holds operations
      ∧ (∀ before call after name,
          operations = before ++ call :: after →
          call.name? = some name →
            ∃ index,
              (run file before).answer call = some index
                ∧ index =
                  (run file operations).sources.idxOf name
                ∧ (run file operations).sources[index]? =
                  some name
                ∧ ((names operations).length < 2 ^ 32 →
                  index < 2 ^ 32))
      ∧ ∀ other others,
          MapOperation.mappings others =
              MapOperation.mappings operations →
            (run other others).encodedMappings =
              (run file operations).encodedMappings := by
  have hHolds := (follows_run file operations).holds
  refine ⟨hHolds, ?_, ?_⟩
  · intro before call after name hCalls hName
    have hMember :
        name ∈ (before ++ [call]).filterMap name? := by
      simp [hName]
    have hPlace :
        (names operations).idxOf name =
          (names (before ++ [call])).idxOf name := by
      rw [hCalls, List.append_cons, names,
        List.filterMap_append]
      exact idxOf_eraseDups_append hMember _
    have hThere : name ∈ names operations := by
      rw [names, List.mem_eraseDups, hCalls]
      simp [hName]
    refine ⟨_, answer_run hName, ?_, ?_, ?_⟩
    · rw [hHolds.sources, hPlace]
    · rw [hHolds.sources, ← hPlace]
      exact List.getElem?_idxOf hThere
    · intro hCount
      rw [← hPlace]
      exact (List.idxOf_lt_length_of_mem hThere).trans hCount
  · intro other others hMappings
    rw [encodedMappings, encodedMappings,
      (follows_run other others).mappings, hHolds.mappings,
      hMappings]

/-
  A source that is named with a text, then without one and then
  with another text, around a source without text.
-/
def mixedCalls : List MapOperation :=
  [.addContent "a.qs" "old", .addMapping ⟨3, 0, 1, 0, 0⟩,
    .addSource "b.qs", .addSource "a.qs", .setRoot "src",
    .addContent "a.qs" "new", .addMapping ⟨0, 2, 0, 1, 0⟩]

theorem run_holds_calls_mixed :
    (run "out.js" mixedCalls).sources = ["a.qs", "b.qs"]
      ∧ (run "out.js" mixedCalls).sourcesContent =
        [some "new", none]
      ∧ (run "out.js" (mixedCalls.take 3)).answer
          (.addSource "a.qs") =
        some 0
      ∧ (run "out.js" (mixedCalls.take 5)).answer
          (.addContent "a.qs" "new") =
        some 0
      ∧ (run "out.js" mixedCalls).encodedMappings =
        (run ""
          [.addMapping ⟨3, 0, 1, 0, 0⟩,
            .addMapping ⟨0, 2, 0, 1, 0⟩]).encodedMappings := by
  have hRun := run_holds_calls "out.js" mixedCalls
  have hSources :
      (run "out.js" mixedCalls).sources = ["a.qs", "b.qs"] := by
    rw [hRun.1.sources]
    decide
  refine ⟨hSources, ?_, ?_, ?_, ?_⟩
  · rw [hRun.1.contents, hSources]
    decide
  · rcases hRun.2.1 (mixedCalls.take 3) (.addSource "a.qs")
        (mixedCalls.drop 4) "a.qs" rfl rfl with
      ⟨index, hAnswer, hIndex, _⟩
    rw [hAnswer, hIndex, hSources]
    decide
  · rcases hRun.2.1 (mixedCalls.take 5)
        (.addContent "a.qs" "new") (mixedCalls.drop 6) "a.qs"
        rfl rfl with
      ⟨index, hAnswer, hIndex, _⟩
    rw [hAnswer, hIndex, hSources]
    decide
  · exact (hRun.2.2 "" _ rfl).symm

end MapBuilder

end TracedScript
