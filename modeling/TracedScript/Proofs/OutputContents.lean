import TracedScript.Proofs.OutputPaths
import TracedScript.Proofs.StatementPlaces

/-
  What is in the files that are written for an input.

  Code ends with a line feed, so the comment that refers to a
  source map is put right after it, on a line of its own. All
  that stands at a place in the code stands at the same place
  in the file.

  Key definitions include:
    * `Settings.Requests`: what the settings and the command
      line ask for.
    * `Mapping.generated`: the place in the code that a mapping
      is about.
    * `Build.Delivers`: what follows the code in its file, and
      which file is written beside it.

  Main declarations:
    * `Text.lines_append`
    * `Place.read?_append`
    * `Options.settle_maps`
    * `Program.endsLine_code`
    * `Build.compileInput_delivers`
    * `Build.compileInput_unusual_names`
-/

------------------------------------------------------------
-- Lines
------------------------------------------------------------

namespace TracedScript

namespace Text

theorem lines_ne_nil
    {text : List Char}
    (hText : text ≠ []) :
    lines text ≠ [] := by
  cases text with
  | nil => exact absurd rfl hText
  | cons c rest =>
      rw [lines]
      split
      · exact List.cons_ne_nil _ _
      · split <;> exact List.cons_ne_nil _ _

/- Nothing is added to a line that is ended. -/
theorem lines_append
    {left : String}
    (hLeft : EndsLine left)
    (right : String) :
    lines (left ++ right).toList =
      lines left.toList ++ lines right.toList := by
  rcases hLeft with ⟨front, rfl⟩
  rw [String.toList_append, String.toList_append]
  generalize right.toList = rest
  induction front.toList with
  | nil => rfl
  | cons c front ih =>
      rw [List.cons_append, List.cons_append, lines, lines, ih]
      split
      · rfl
      · cases hLines : lines (front ++ "\n".toList) with
        | nil =>
            have hEmpty : front ++ "\n".toList ≠ [] := by
              simp
            exact absurd hLines (lines_ne_nil hEmpty)
        | cons first more => rfl

end Text

open Text (EndsLine Unbroken IsLine)

/- The code of a program ends with a line feed. -/
theorem Program.endsLine_code
    {file : FileId}
    {program : Program}
    {fragment : Fragment}
    (hCompile : program.compile file = .ok fragment) :
    EndsLine fragment.code := by
  have hPieces :=
    (program.node.yields_compile file 0).view_eq hCompile
  have hKind : program.node.kind ≠ .boolean := by
    change Kind.program ≠ .boolean
    decide
  rw [Fragment.code, hPieces]
  exact Node.endsLine_layout file 0 hKind

theorem MapBuilder.unbroken_inlineComment
    (builder : MapBuilder) :
    Unbroken builder.inlineComment := by
  have hStart : Unbroken (commentStart ++ dataStart) := by
    decide
  have hFeed : ¬ Text.Printable '\n' := by
    decide
  refine hStart.append ?_
  intro hMember
  exact hFeed (Base64.printable_of_mem_encode _ _ hMember)

------------------------------------------------------------
-- Requests
------------------------------------------------------------

/-
  A switch is asked for on the command line, or it is turned on
  in the settings.
-/
def Settings.Requests
    (settings : Settings)
    (flag : Bool)
    (switch : RawOptions → Option Bool) : Prop :=
  flag = true
    ∨ ∃ raw, settings.options = some raw ∧ switch raw = some true

/- The options of a build are on for the switches asked for. -/
theorem Settings.requests_iff
    {settings : Settings}
    {flag : Bool}
    {switch : RawOptions → Option Bool}
    {option : Options → Bool}
    (hDefault : option {} = false)
    (hRaw : ∀ raw, option (.ofRaw raw) = (switch raw).getD false) :
    settings.Requests flag switch ↔
      (flag || option settings.resolved) = true := by
  rw [Requests, Bool.or_eq_true, resolved]
  cases settings.options with
  | none => simp [hDefault]
  | some raw => simp [hRaw, Option.getD_eq_iff]

namespace Options

/- Settling drops the file for a source map that has a comment. -/
theorem settle_maps
    (options : Options) :
    options.settle.1.inlineSourceMap = options.inlineSourceMap
      ∧ options.settle.1.sourceMap =
        (options.sourceMap && !options.inlineSourceMap) := by
  rcases options with
    ⟨outDir, sourceMap, inlineSourceMap, inlineSources,
      sourceRoot, noEmit⟩
  cases sourceMap <;> cases inlineSourceMap <;>
    cases inlineSources <;>
    simp [settle, settleMaps, settleSources, writesMap]

end Options

------------------------------------------------------------
-- Places in the File
------------------------------------------------------------

namespace Place

theorem readFrom?_append
    {place here : Place}
    {left rest : List Char}
    (hRead : readFrom? place here left = some rest)
    (right : List Char) :
    readFrom? place here (left ++ right) =
      some (rest ++ right) := by
  induction left generalizing here with
  | nil =>
      rw [readFrom?] at hRead
      split at hRead
      · next hHere =>
          cases hRead
          rw [hHere]
          exact readFrom?_here place right
      · cases hRead
  | cons c left ih =>
      rw [readFrom?] at hRead
      rw [List.cons_append, readFrom?]
      split at hRead
      · next hHere =>
          cases hRead
          rw [if_pos hHere]
          rfl
      · next hHere =>
          rw [if_neg hHere]
          exact ih hRead

/- What stands at a place stays there when text is added. -/
theorem read?_append
    {place : Place}
    {left rest : String}
    (hRead : place.read? left = some rest)
    (right : String) :
    place.read? (left ++ right) = some (rest ++ right) := by
  rw [read?, Option.map_eq_some_iff] at hRead
  rcases hRead with ⟨chars, hChars, rfl⟩
  rw [read?, String.toList_append, readFrom?_append hChars,
    Option.map_some, String.ofList_append, String.ofList_toList]

end Place

/- The place in the code that a mapping is about. -/
def Mapping.generated (mapping : Mapping) : Place :=
  ⟨mapping.generatedLine + 1, mapping.generatedColumn⟩

/- The mappings of short code are about places in it. -/
theorem Fragment.exists_read?_mapping
    {fragment : Fragment}
    {record : Record}
    (hShort : Text.Short fragment.code)
    (hRecord : record ∈ fragment.records) :
    ∃ rest,
      record.mapping.generated.read? fragment.code =
        some rest := by
  have hLine := one_le_line_of_mem_records hShort hRecord
  have hPlace : record.mapping.generated = record.place.toPlace := by
    rw [Mapping.generated, Record.mapping,
      Nat.sub_add_cancel hLine, Cursor.toPlace]
  rw [records_eq_map_marks] at hRecord
  rcases List.mem_map.mp hRecord with ⟨mark, hMark, rfl⟩
  rw [hPlace]
  exact ⟨mark.after, read?_record hShort hMark⟩

------------------------------------------------------------
-- Outputs
------------------------------------------------------------

namespace Build

theorem appendLine_eq
    {text : String}
    (hText : EndsLine text)
    (line : String) :
    appendLine text line = text ++ (line ++ "\n") := by
  rcases hText with ⟨front, rfl⟩
  simp [appendLine, String.append_assoc]

/- What is put after the code. -/
def commentFor
    (options : Options)
    (name : String)
    (map : MapBuilder) :
    String :=
  if options.inlineSourceMap then map.inlineComment ++ "\n"
  else if options.sourceMap then
    MapBuilder.commentStart ++ (name ++ ".map") ++ "\n"
  else ""

/- What is written beside the code. -/
def filesBeside
    (options : Options)
    (path : Path)
    (name : String)
    (map : MapBuilder) :
    List Output :=
  if options.inlineSourceMap then []
  else if options.sourceMap then
    [⟨path.withName (Text.bytes (name ++ ".map")), map.json⟩]
  else []

/- No line is put between code that ends its line and a comment. -/
theorem outputs_eq
    {emission : Emission}
    (hCode : EndsLine emission.code)
    (options : Options)
    (path : Path)
    (name : String) :
    outputs options path name emission =
      ⟨path,
          emission.code ++ commentFor options name emission.map⟩
        :: filesBeside options path name emission.map := by
  simp only [outputs, commentFor, filesBeside]
  split
  · rw [appendLine_eq hCode]
  · split
    · rw [appendLine_eq hCode]
    · rw [String.append_empty]

variable {tree : FileTree} {context : Context} {input : Path}

/-
  What follows the code in its file, and which file is written
  beside it: nothing without a source map, a comment with the
  source map, or a comment with the name of its file. Of two
  kinds of source maps only the comment is written.
-/
structure Delivers
    (settings : Settings)
    (request : Request)
    (context : Context)
    (input : Path)
    (name : String)
    (emission : Emission)
    (comment : String)
    (beside : List Output) : Prop where
  none :
    ¬ settings.Requests request.inlineSourceMap
        RawOptions.inlineSourceMap →
    ¬ settings.Requests request.sourceMap
        RawOptions.sourceMap →
      comment = "" ∧ beside = []
  inline :
    settings.Requests request.inlineSourceMap
        RawOptions.inlineSourceMap →
      comment =
          "//# sourceMappingURL=data:application/json;base64,"
            ++ Base64.encode (Text.bytes emission.map.json)
            ++ "\n"
        ∧ IsLine comment
        ∧ beside = []
  external :
    ¬ settings.Requests request.inlineSourceMap
        RawOptions.inlineSourceMap →
    settings.Requests request.sourceMap
        RawOptions.sourceMap →
    Unbroken name →
      comment =
          "//# sourceMappingURL=" ++ name ++ ".map" ++ "\n"
        ∧ IsLine comment
        ∧ beside =
          [⟨mapPath context input name, emission.map.json⟩]
  count : beside.length ≤ 1
  lines :
    Text.lines (emission.code ++ comment).toList =
      Text.lines emission.code.toList
        ++ Text.lines comment.toList
  places :
    ∀ (place : Place) (rest : String),
      place.read? emission.code = some rest →
        place.read? (emission.code ++ comment) =
          some (rest ++ comment)
  mappings :
    Text.Short emission.code →
      ∀ mapping ∈ emission.map.mappings,
        ∃ rest,
          mapping.generated.read? emission.code = some rest
  file : emission.map.sourceMap.file = name
  siblings :
    ∃ directory,
      (codePath context input name).names =
          directory ++ [Text.bytes name]
        ∧ (mapPath context input name).names =
          directory ++ [Text.bytes (name ++ ".map")]

/- An input with a document that is emitted has its outputs. -/
theorem compileInput_eq_done
    {text name : String}
    {document : Document}
    {emission : Emission}
    (hText : inputText? tree input = some text)
    (hParse : Document.parse text = .ok document)
    (hName : codeName? input = some name)
    (hEmit :
      document.emit (emitOptions context name) = .ok emission) :
    compileInput tree context input =
      .done
        (outputs context.options (codePath context input name)
          name emission) := by
  rw [compileInput_of_text hText]
  simp only [compileText, hParse, codePath?_eq, hName,
    Option.map_some]
  rw [← emitOptions, hEmit]

/-
  The names that give no name for code are the bare endings,
  and those that are no texts.
-/
theorem codeName?_eq_none_iff :
    codeName? input = none ↔
      ∀ name, nameText? input = some name →
        name = inputEnding ∨ name = ".json" := by
  rw [codeName?]
  cases hLast : nameText? input with
  | none => simp
  | some last =>
      simp only [ite_eq_left_iff, reduceCtorEq, imp_false,
        not_not, Option.some.injEq, forall_eq']
      constructor
      · intro hStem
        rcases exists_names_of_nameText? hLast with
          ⟨front, hNames⟩
        have hMember : Text.bytes last ∈ input.names := by
          simp [hNames]
        have hInert := Path.isInert_of_mem_leading hMember
        rcases exists_eq_stem_append last with
          ⟨ending, hEnding, hParts⟩
        rw [hStem, String.empty_append] at hParts
        rw [hParts] at hInert ⊢
        simp only [List.mem_cons, List.not_mem_nil,
          or_false] at hEnding
        rcases hEnding with rfl | rfl | rfl
        · exact .inl rfl
        · exact .inr rfl
        · exact absurd hInert (by decide)
      · rintro (rfl | rfl) <;> decide

section Requests

variable {settings : Settings} {request : Request}
variable {name : String} {emission : Emission}

/-
  What comes of the requests, for code that ends its line and a
  source map whose places are in the code.
-/
theorem delivers_of_options
    (hOptions :
      context.options =
        (settings.resolved.override request).settle.1)
    (hName : codeName? input = some name)
    (hCode : EndsLine emission.code)
    (hPlaces :
      Text.Short emission.code →
        ∀ mapping ∈ emission.map.mappings,
          ∃ rest,
            mapping.generated.read? emission.code = some rest)
    (hFile : emission.map.file = name) :
    Delivers settings request context input name emission
      (commentFor context.options name emission.map)
      (filesBeside context.options (codePath context input name)
        name emission.map) := by
  rcases (settings.resolved.override request).settle_maps with
    ⟨hInline, hExternal⟩
  rw [← hOptions] at hInline hExternal
  have hInlineIff :
      settings.Requests request.inlineSourceMap
          RawOptions.inlineSourceMap ↔
        context.options.inlineSourceMap = true := by
    rw [hInline]
    exact Settings.requests_iff rfl fun _ => rfl
  have hExternalIff :
      settings.Requests request.sourceMap
          RawOptions.sourceMap ↔
        (settings.resolved.override request).sourceMap =
          true :=
    Settings.requests_iff rfl fun _ => rfl
  constructor
  case none =>
    intro hNoComment hNoFile
    rw [hInlineIff, Bool.not_eq_true] at hNoComment
    rw [hExternalIff, Bool.not_eq_true] at hNoFile
    rw [hNoFile, Bool.false_and] at hExternal
    simp [commentFor, filesBeside, hNoComment, hExternal]
  case inline =>
    intro hRequest
    rw [hInlineIff] at hRequest
    rw [commentFor, filesBeside, if_pos hRequest, if_pos hRequest]
    exact
      ⟨rfl,
        ⟨_, emission.map.unbroken_inlineComment, rfl⟩, rfl⟩
  case external =>
    intro hNoComment hRequest hUnbroken
    rw [hInlineIff, Bool.not_eq_true] at hNoComment
    rw [hExternalIff] at hRequest
    rw [← hInline, hRequest, hNoComment] at hExternal
    rw [commentFor, filesBeside, hNoComment, hExternal]
    have hStart : Unbroken MapBuilder.commentStart := by
      decide
    have hEnding : Unbroken ".map" := by
      decide
    refine
      ⟨?_, ⟨_, hStart.append (hUnbroken.append hEnding), rfl⟩,
        rfl⟩
    simp [MapBuilder.commentStart, String.append_assoc]
  case count =>
    rw [filesBeside]
    split
    · exact Nat.zero_le 1
    · split
      · exact Nat.le_refl 1
      · exact Nat.zero_le 1
  case lines => exact Text.lines_append hCode _
  case places =>
    intro place rest hRead
    exact Place.read?_append hRead _
  case mappings => exact hPlaces
  case file => exact hFile
  case siblings => exact ⟨_, names_codePath hName, names_mapPath hName⟩

end Requests

/-
  An input whose program has code is written as that code, with
  one comment after it at most and one file beside it at most,
  as the settings and the command line ask for. Only the bare
  endings and names that are no texts give no name for the
  code, and no output.
-/
theorem compileInput_delivers
    (settings : Settings)
    (request : Request)
    (context : Context)
    {text : String}
    {document : Document}
    {fragment : Fragment}
    (hOptions :
      context.options =
        (settings.resolved.override request).settle.1)
    (hText : inputText? tree input = some text)
    (hParse : Document.parse text = .ok document)
    (hCompile :
      document.program.compile document.sourceFiles.1 =
        .ok fragment) :
    (∀ name, codeName? input = some name →
        ∃ emission comment beside,
          document.emit (emitOptions context name) = .ok emission
            ∧ emission.code = fragment.render.code
            ∧ compileInput tree context input =
              .done
                (⟨codePath context input name,
                    emission.code ++ comment⟩
                  :: beside)
            ∧ Delivers settings request context input name
                emission comment beside)
      ∧ (codeName? input = none ↔
          ∀ name, nameText? input = some name →
            name = inputEnding ∨ name = ".json")
      ∧ (codeName? input = none →
          compileInput tree context input =
            .failed true
              (.error input.text
                "cannot derive an output file name")) := by
  refine ⟨?_, codeName?_eq_none_iff, ?_⟩
  · intro name hName
    have hEmit :=
      Document.emit_eq_ok (emitOptions context name) hCompile
    have hCode := Program.endsLine_code hCompile
    have hDone := compileInput_eq_done hText hParse hName hEmit
    rw [outputs_eq hCode] at hDone
    refine ⟨_, _, _, hEmit, rfl, hDone, ?_⟩
    refine delivers_of_options hOptions hName hCode ?_ rfl
    intro hShort mapping hMapping
    rcases List.mem_map.mp hMapping with ⟨record, hRecord, rfl⟩
    rw [LineGroups.sort, List.mem_mergeSort] at hRecord
    exact Fragment.exists_read?_mapping hShort hRecord
  · intro hName
    have hFault := Fault.nameless hText hParse hName
    rw [hFault.compileInput_eq, hText, Option.isSome_some]

/-
  One file with four names: an ending alone, a name before it,
  one with a line feed, and one that is no text.
-/
def contentsTree (contents : List UInt8) : FileTree where
  entries :=
    [(.ofTexts ["w"], .directory),
      (.ofTexts ["w", ".ast.json"], .file 0),
      (.ofTexts ["w", "a.ast.json"], .file 0),
      (.ofTexts ["w", "a\nb.ast.json"], .file 0),
      ([Text.bytes "w", 255 :: Text.bytes ".ast.json"], .file 0)]
  nodes := [contents]

/- The path with a name that is no text. -/
def strangePath : Path :=
  ⟨Text.bytes "/w/" ++ 255 :: Text.bytes ".ast.json"⟩

theorem inputText?_contentsTree
    (text : String)
    (hInput :
      input ∈
        [.ofText "/w/.ast.json", .ofText "/w/a.ast.json",
          .ofText "/w/a\nb.ast.json", strangePath]) :
    inputText? (contentsTree (Text.bytes text)) input =
      some text := by
  have hRead :
      (contentsTree (Text.bytes text)).readFile input =
        .ok (Text.bytes text) := by
    generalize Text.bytes text = contents
    simp only [List.mem_cons, List.not_mem_nil, or_false] at hInput
    rcases hInput with rfl | rfl | rfl | rfl <;> rfl
  rw [inputText?, hRead]
  exact Text.ofBytes?_bytes text

/- Both kinds of source maps are asked for, and one of them. -/
theorem compileInput_delivers_requests :
    (∃ emission : Emission,
        compileInput
            (contentsTree (Text.bytes Document.callSample.write))
            ⟨.ofText "/w", none, { inlineSourceMap := true }⟩
            (.ofText "/w/a.ast.json") =
          .done
            [⟨.ofText "/w/a.js",
              emission.code
                ++ ("//# sourceMappingURL="
                  ++ "data:application/json;base64,"
                  ++ Base64.encode
                    (Text.bytes emission.map.json)
                  ++ "\n")⟩]
          ∧ emission.map.sourceMap.file = "a.js")
      ∧ ∃ emission : Emission,
          compileInput
              (contentsTree
                (Text.bytes Document.callSample.write))
              ⟨.ofText "/w", some (.ofText "/w/out"),
                { outDir := some (Text.bytes "out")
                  sourceMap := true }⟩
              (.ofText "/w/a.ast.json") =
            .done
              [⟨.ofText "/w/out/a.js",
                  emission.code
                    ++ "//# sourceMappingURL=a.js.map\n"⟩,
                ⟨.ofText "/w/out/a.js.map", emission.map.json⟩]
            ∧ emission.map.sourceMap.file = "a.js" := by
  have hText :
      inputText?
          (contentsTree (Text.bytes Document.callSample.write))
          (.ofText "/w/a.ast.json") =
        some Document.callSample.write :=
    inputText?_contentsTree _ (by decide)
  have hName :
      codeName? (.ofText "/w/a.ast.json") = some "a.js" :=
    rfl
  have hNesting :
      Document.callSample.value.nesting ≤ Json.nestingLimit := by
    decide
  have hViolations :
      Document.callSample.program.node.violations = [] := by
    cbv
  have hYields :=
    Document.callSample.program.node.yields_compile
      Document.callSample.sourceFiles.1 0
  rcases hYields.exists_ok_iff.mpr hViolations with
    ⟨fragment, hCompile⟩
  have hParse := Document.parse_write hNesting
  constructor
  · rcases
        (compileInput_delivers
          { options := some { sourceMap := some true } }
          { inlineSourceMap := true }
          ⟨.ofText "/w", none, { inlineSourceMap := true }⟩ rfl
          hText hParse hCompile).1 "a.js" hName with
      ⟨emission, comment, beside, _, _, hDone, hDelivers⟩
    rcases hDelivers.inline (.inl rfl) with ⟨rfl, _, rfl⟩
    exact ⟨emission, hDone, hDelivers.file⟩
  · rcases
        (compileInput_delivers {}
          { outDir := some (Text.bytes "out"), sourceMap := true }
          ⟨.ofText "/w", some (.ofText "/w/out"),
            { outDir := some (Text.bytes "out")
              sourceMap := true }⟩
          rfl hText hParse hCompile).1 "a.js" hName with
      ⟨emission, comment, beside, _, _, hDone, hDelivers⟩
    have hNoComment :
        ¬ Settings.Requests {} false
            RawOptions.inlineSourceMap := by
      simp [Settings.Requests]
    rcases hDelivers.external hNoComment (.inl rfl) (by decide) with
      ⟨rfl, _, rfl⟩
    exact ⟨emission, hDone, hDelivers.file⟩

/-
  A program that has code has no output under a name that is
  the ending of inputs and nothing more, or that is no text.
  Under a name with a line feed, the comment with the name of
  the source map takes two lines.
-/
theorem compileInput_unusual_names :
    ∃ fragment,
      Document.parse emptyProgram.write = .ok emptyProgram
        ∧ emptyProgram.program.compile
              emptyProgram.sourceFiles.1 =
            .ok fragment
        ∧ (∀ input ∈ [.ofText "/w/.ast.json", strangePath],
            inputText?
                (contentsTree (Text.bytes emptyProgram.write))
                input =
              some emptyProgram.write
            ∧ (compileInput
                (contentsTree (Text.bytes emptyProgram.write))
                ⟨.ofText "/w", none, {}⟩ input).outputs =
              [])
        ∧ (∃ map,
            compileInput
                (contentsTree (Text.bytes emptyProgram.write))
                ⟨.ofText "/w", none, { sourceMap := true }⟩
                (.ofText "/w/a\nb.ast.json") =
              .done
                [⟨.ofText "/w/a\nb.js",
                    fragment.render.code
                      ++ "//# sourceMappingURL=a\nb.js.map\n"⟩,
                  ⟨.ofText "/w/a\nb.js.map", map⟩])
        ∧ Text.lines
              "//# sourceMappingURL=a\nb.js.map\n".toList =
            ["//# sourceMappingURL=a\n".toList,
              "b.js.map\n".toList] := by
  have hNesting :
      emptyProgram.value.nesting ≤ Json.nestingLimit := by
    decide
  have hParse := Document.parse_write hNesting
  have hViolations :
      emptyProgram.program.node.violations = [] := by
    cbv
  have hYields :=
    emptyProgram.program.node.yields_compile
      emptyProgram.sourceFiles.1 0
  rcases hYields.exists_ok_iff.mpr hViolations with
    ⟨fragment, hCompile⟩
  refine ⟨fragment, hParse, hCompile, ?_, ?_, by decide⟩
  · intro input hInput
    have hText :
        inputText?
            (contentsTree (Text.bytes emptyProgram.write))
            input =
          some emptyProgram.write := by
      apply inputText?_contentsTree
      simp only [List.mem_cons, List.not_mem_nil,
        or_false] at hInput ⊢
      tauto
    have hNone : codeName? input = none := by
      simp only [List.mem_cons, List.not_mem_nil,
        or_false] at hInput
      rcases hInput with rfl | rfl <;> decide
    refine ⟨hText, ?_⟩
    rw [(Fault.nameless hText hParse hNone).compileInput_eq,
      Compiled.outputs]
  · have hText :
        inputText?
            (contentsTree (Text.bytes emptyProgram.write))
            (.ofText "/w/a\nb.ast.json") =
          some emptyProgram.write :=
      inputText?_contentsTree _ (by decide)
    have hName :
        codeName? (.ofText "/w/a\nb.ast.json") =
          some "a\nb.js" :=
      rfl
    have hEmit :=
      Document.emit_eq_ok
        (emitOptions
          ⟨.ofText "/w", none, { sourceMap := true }⟩ "a\nb.js")
        hCompile
    have hDone := compileInput_eq_done hText hParse hName hEmit
    rw [outputs_eq (Program.endsLine_code hCompile)] at hDone
    exact ⟨_, hDone⟩

end Build

end TracedScript
