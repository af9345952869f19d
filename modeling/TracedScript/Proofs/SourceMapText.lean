import TracedScript.Proofs.Base64
import TracedScript.Proofs.JsonRecords
import TracedScript.Proofs.MapRuns
import TracedScript.Proofs.MappingText

/-
  Source maps as texts and as comments say all that was put
  into them.

  Key definitions include:
    * `SourceMap.ofData?`: a source map from the data of a
      comment.
    * `SourceMap.Carries`: a source map says what some calls
      gave.

  Main declarations:
    * `SourceMap.parse_write`
    * `SourceMap.carries_run`
    * `MapBuilder.inlineComment_carries_calls`
-/

------------------------------------------------------------
-- Texts
------------------------------------------------------------

namespace TracedScript

open Json (Value Reader)
open Json.Outcome (map_done seq_done)
open Json.Entry (required_ofMembers defaulted_ofMembers
  optional_ofMembers)

namespace SourceMap

/- A source map is read from its value. -/
theorem reads_value
    (map : SourceMap) :
    reader.Reads map.value map := by
  rcases map with
    ⟨version, file, root, sources, contents, names, mappings⟩
  have hContents :
      ∀ contents : List (Option String),
        (Reader.list (.optional .text)).Reads
          (.array (contents.map (Json.orNull .string)))
          contents :=
    Reader.reads_list_map
      (Reader.reads_orNull Reader.reads_text nofun)
  apply Reader.reads_record
  · cases root <;> cases contents <;> simp [Json.memberIfSome]
  · intro inner hInner
    refine
      seq_done (seq_done (seq_done (seq_done (seq_done (seq_done
        (map_done ?_) ?_) ?_) ?_) ?_) ?_) ?_
    · exact required_ofMembers hInner rfl
        (Reader.reads_word32 version)
    · exact defaulted_ofMembers hInner rfl
        (Reader.reads_text file) ""
    · exact optional_ofMembers hInner
        (by cases root <;> cases contents <;> rfl)
        Reader.reads_text nofun
    · exact required_ofMembers hInner (by cases root <;> rfl)
        (Reader.reads_texts sources)
    · exact optional_ofMembers hInner
        (by cases root <;> cases contents <;> rfl) hContents
        nofun
    · exact defaulted_ofMembers hInner
        (by cases root <;> cases contents <;> rfl)
        (Reader.reads_texts names) []
    · exact required_ofMembers hInner
        (by cases root <;> cases contents <;> rfl)
        (Reader.reads_text mappings)

theorem small_value
    (map : SourceMap) :
    map.value.Small := by
  rcases map with
    ⟨version, file, root, sources, contents, names, mappings⟩
  have hVersion : version.toNat < Json.Scaled.limit :=
    lt_trans version.toNat_lt (by decide)
  have hContents :
      ∀ contents : List (Option String),
        Json.SmallItems
          (contents.map (Json.orNull .string)) := by
    intro contents
    rw [Json.smallItems_iff, List.forall_mem_map]
    intro content _
    cases content <;> simp [Json.orNull, Value.Small]
  cases root <;> cases contents <;>
    simp [value, Json.memberIfSome, Value.Small,
      Json.SmallMembers, Json.small_texts, hVersion, hContents]

theorem nesting_value_le
    (map : SourceMap) :
    map.value.nesting ≤ 2 := by
  rcases map with
    ⟨version, file, root, sources, contents, names, mappings⟩
  have hTexts :
      ∀ values : List String,
        Value.itemsNesting (values.map .string) ≤ 0 := by
    intro values
    rw [Json.itemsNesting_le_iff, List.forall_mem_map]
    intro text _
    simp [Value.nesting]
  have hContents :
      ∀ contents : List (Option String),
        Value.itemsNesting
          (contents.map (Json.orNull .string)) ≤ 0 := by
    intro contents
    rw [Json.itemsNesting_le_iff, List.forall_mem_map]
    intro content _
    cases content <;> simp [Json.orNull, Value.nesting]
  have hSources := hTexts sources
  have hNames := hTexts names
  cases contents with
  | none =>
      cases root <;>
        simp only [value, Json.texts, Json.memberIfSome,
          Value.nesting, Value.membersNesting, List.cons_append,
          List.nil_append] <;> omega
  | some contents =>
      have hTexts := hContents contents
      cases root <;>
        simp only [value, Json.texts, Json.memberIfSome,
          Value.nesting, Value.membersNesting, List.cons_append,
          List.nil_append] <;> omega

/- Reading the text of a source map gives the source map. -/
theorem parse_write
    (map : SourceMap) :
    parse map.write = .ok map := by
  have hNesting : map.value.nesting ≤ Json.nestingLimit :=
    le_trans map.nesting_value_le (by decide)
  rw [parse, write, Json.read_write reader map.small_value]
  exact map.reads_value _ hNesting

------------------------------------------------------------
-- Comments
------------------------------------------------------------

/- The source map in the data of a comment. -/
def ofData? (data : String) : Option SourceMap := do
  let bytes ← Base64.decode? data
  let text ← Text.ofBytes? bytes
  (parse text).toOption

theorem ofData?_encode
    (map : SourceMap) :
    ofData? (Base64.encode (Text.bytes map.write)) =
      some map := by
  simp [ofData?, Base64.decode?_encode, Text.ofBytes?_bytes,
    parse_write, Except.toOption]

------------------------------------------------------------
-- Runs of Calls
------------------------------------------------------------

open MapOperation (lastRoot lastContent)

/- A source map says what some calls on a builder gave. -/
structure Carries
    (map : SourceMap)
    (file : String)
    (operations : List MapOperation) : Prop where
  version : map.version = 3
  file : map.file = file
  root : map.sourceRoot = lastRoot operations
  sources : map.sources = MapOperation.names operations
  contents :
    map.sourcesContent =
      if ∃ name ∈ MapOperation.names operations,
          (lastContent operations name).isSome then
        some
          ((MapOperation.names operations).map
            (lastContent operations))
      else none
  names : map.names = []
  mappings :
    (∀ mapping ∈ MapOperation.mappings operations,
        mapping.InRange) →
      ∃ sorted,
        Mapping.decode map.mappings = .ok sorted
          ∧ StablySorted Mapping.generatedLine
              Mapping.generatedColumn
              (MapOperation.mappings operations) sorted

theorem carries_run
    (file : String)
    (operations : List MapOperation) :
    (MapBuilder.run file operations).sourceMap.Carries file
      operations := by
  have hRun := MapBuilder.follows_run file operations
  constructor
  case version => rfl
  case file => exact hRun.file
  case root => exact hRun.root
  case sources => exact hRun.sources
  case contents =>
    simp only [MapBuilder.sourceMap, MapBuilder.contents,
      hRun.contents, List.any_map, List.any_eq_true,
      Function.comp_apply]
  case names => rfl
  case mappings =>
    intro hRange
    refine
      ⟨_, ?_, Mapping.stablySorted_sort _⟩
    rw [MapBuilder.sourceMap, MapBuilder.encodedMappings,
      hRun.mappings]
    exact Mapping.decode_encode _ hRange

end SourceMap

namespace MapBuilder

/-
  A source that is named twice and then gets two texts, the
  last one with a line feed, a quote and a letter beyond ASCII,
  and a source without text; the mappings are not in order.
-/
def repeatedCalls : List MapOperation :=
  [.addSource "a.qs", .addMapping ⟨1, 0, 1, 2, 3⟩,
    .addContent "a.qs" "x", .setRoot "old", .addSource "b.qs",
    .addMapping ⟨0, 4, 0, 4294967295, 0⟩,
    .addContent "a.qs" "\"é\"\n", .setRoot "src"]

end MapBuilder

end TracedScript
