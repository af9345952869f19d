import TracedScript.Proofs.Base64
import TracedScript.Proofs.BuildInputs
import TracedScript.Proofs.DocumentText
import TracedScript.Proofs.Emission
import TracedScript.Proofs.OutputWriting

/-
  What a build says about its inputs, and what it writes.

  Key definitions include:
    * `Build.Fault`: what is wrong with an input, said without
      the build.
    * `Build.Reports`: what is said about one input.
    * `Build.outputPaths`: the paths of the outputs of an input.
    * `Build.Asked`: the options that a build is asked for.
    * `Build.Accounts`: all inputs are accounted for.

  Main declarations:
    * `Build.Fault.compileInput_eq`, `Build.compileInput_cases`:
      an input is faulty or has outputs.
    * `Build.plan_eq_ok_iff`, `Build.run_eq_ok_iff`: what comes
      of a build.
    * `Build.accounts_of_run`
    * `Build.run_accounts_for_inputs`
-/

------------------------------------------------------------
-- One Input
------------------------------------------------------------

namespace TracedScript

namespace Build

variable {tree : FileTree} {context : Context} {input : Path}

/- The text of an input, if it can be read. -/
def inputText?
    (tree : FileTree)
    (input : Path) :
    Option String :=
  (tree.readFile input).toOption.bind Text.ofBytes?

/- The directory for the outputs of an input. -/
def outputDirectory
    (context : Context)
    (input : Path) :
    Path :=
  (outputDirectory? context.base context.outDir input).getD input

/- The path of the code of an input with a name. -/
def codePath
    (context : Context)
    (input : Path)
    (name : String) :
    Path :=
  (outputDirectory context input).join (Text.bytes name)

/- The path of its source map. -/
def mapPath
    (context : Context)
    (input : Path)
    (name : String) :
    Path :=
  (codePath context input name).withName
    (Text.bytes (name ++ ".map"))

/- How the document of an input is emitted under a name. -/
def emitOptions
    (context : Context)
    (name : String) :
    EmitOptions where
  outputFile := name
  map :=
    { sourceRoot := context.options.sourceRoot
      includeContent := context.options.inlineSources }

/-
  The paths of the outputs of an input: its code, and then its
  source map if there is a file for it.
-/
def outputPaths
    (context : Context)
    (input : Path) :
    List Path :=
  match codeName? input with
  | none => []
  | some name =>
      codePath context input name ::
        if context.options.sourceMap then
          [mapPath context input name]
        else []

theorem codeName?_eq_some
    {name : String}
    (hName : codeName? input = some name) :
    ∃ last,
      nameText? input = some last
        ∧ stem last ≠ ""
        ∧ name = stem last ++ ".js" := by
  rw [codeName?] at hName
  split at hName
  · cases hName
  · next last hLast =>
      split at hName
      · cases hName
      · next hStem =>
          cases hName
          exact ⟨last, hLast, hStem, rfl⟩

/- An input with a name for its code has a directory for it. -/
theorem outputDirectory?_of_codeName?
    {name : String}
    (hName : codeName? input = some name) :
    outputDirectory? context.base context.outDir input =
      some (outputDirectory context input) := by
  rcases codeName?_eq_some hName with ⟨last, hLast, _⟩
  rcases exists_names_of_nameText? hLast with ⟨front, hNames⟩
  have hSome : input.names ≠ [] := by simp [hNames]
  rcases Path.exists_parent? hSome with ⟨parent, hParent⟩
  rw [outputDirectory, outputDirectory?, hParent]
  rfl

theorem codePath?_eq
    (context : Context)
    (input : Path) :
    codePath? context.base context.outDir input =
      (codeName? input).map fun name =>
        (name, codePath context input name) := by
  rw [codePath?]
  cases hName : codeName? input with
  | none => rfl
  | some name =>
      rw [outputDirectory?_of_codeName? hName]
      rfl

/-
  What is wrong with an input, and what is said about it. It
  cannot be read, is no text or no document, gives no name for
  the code, or has a node without code.
-/
inductive Fault
    (tree : FileTree)
    (input : Path) :
    Diagnostic → Prop where
  | refused
      {refusal : FileTree.Refusal}
      (hRead : tree.readFile input = .error refusal) :
      Fault tree input
        (.error input.text
          ("cannot read file: " ++ refusal.text))
  | undecodable
      {contents : List UInt8}
      (hRead : tree.readFile input = .ok contents)
      (hText : Text.ofBytes? contents = none) :
      Fault tree input
        (.error input.text
          ("cannot read file: "
            ++ "stream did not contain valid UTF-8"))
  | invalid
      {text : String}
      {fault : Json.Fault}
      (hText : inputText? tree input = some text)
      (hParse : Document.parse text = .error fault) :
      Fault tree input
        (.error input.text (invalidDocument fault))
  | nameless
      {text : String}
      {document : Document}
      (hText : inputText? tree input = some text)
      (hParse : Document.parse text = .ok document)
      (hName : codeName? input = none) :
      Fault tree input
        (.error input.text "cannot derive an output file name")
  | malformed
      {text name : String}
      {document : Document}
      {error : NodeError}
      (hText : inputText? tree input = some text)
      (hParse : Document.parse text = .ok document)
      (hName : codeName? input = some name)
      (hCompile :
        document.program.compile document.sourceFiles.1 =
          .error error) :
      Fault tree input
        ⟨.error, document.source, some error.position,
          "malformed " ++ error.kind.label ++ " node: "
            ++ error.reason.message⟩

/- An input that can be read is compiled from its text. -/
theorem compileInput_of_text
    {text : String}
    (hText : inputText? tree input = some text)
    (context : Context) :
    compileInput tree context input =
      compileText context input text := by
  rw [inputText?, Option.bind_eq_some_iff] at hText
  rcases hText with ⟨contents, hRead, hText⟩
  rw [compileInput]
  cases hFile : tree.readFile input with
  | error refusal =>
      rw [hFile] at hRead
      cases hRead
  | ok other =>
      rw [hFile] at hRead
      cases hRead
      simp only [hText]

namespace Fault

variable {diagnostic : Diagnostic}

theorem isError
    (hFault : Fault tree input diagnostic) :
    diagnostic.isError = true := by
  cases hFault <;> rfl

/- A faulty input fails with its diagnostic. -/
theorem compileInput_eq
    (hFault : Fault tree input diagnostic)
    (context : Context) :
    compileInput tree context input =
      .failed (inputText? tree input).isSome diagnostic := by
  cases hFault with
  | refused hRead =>
      rw [inputText?, compileInput]
      simp only [hRead]
      rfl
  | undecodable hRead hText =>
      rw [inputText?, compileInput]
      simp only [hRead, hText, Except.toOption, Option.bind_some]
      rfl
  | invalid hText hParse =>
      rw [hText, compileInput_of_text hText]
      simp only [compileText, hParse, Option.isSome_some]
  | nameless hText hParse hName =>
      rw [hText, compileInput_of_text hText]
      simp only [compileText, hParse, codePath?_eq, hName,
        Option.map_none, Option.isSome_some]
  | malformed hText hParse hName hCompile =>
      rw [hText, compileInput_of_text hText]
      simp only [compileText, hParse, codePath?_eq, hName,
        Option.map_some, Document.emit_eq_error _ hCompile,
        emitDiagnostic, Option.isSome_some]

end Fault

/- An input is faulty, or it is read and has outputs. -/
theorem compileInput_cases
    (tree : FileTree)
    (context : Context)
    (input : Path) :
    (∃ diagnostic, Fault tree input diagnostic)
      ∨ ∃ (name : String) (document : Document)
            (emission : Emission),
          codeName? input = some name
            ∧ (inputText? tree input).isSome = true
            ∧ document.emit (emitOptions context name) =
              .ok emission
            ∧ compileInput tree context input =
              .done
                (outputs context.options
                  (codePath context input name) name
                  emission) := by
  cases hText : inputText? tree input with
  | none =>
      cases hRead : tree.readFile input with
      | error refusal => exact .inl ⟨_, .refused hRead⟩
      | ok contents =>
          rw [inputText?, hRead] at hText
          exact .inl ⟨_, .undecodable hRead hText⟩
  | some text =>
      cases hParse : Document.parse text with
      | error fault => exact .inl ⟨_, .invalid hText hParse⟩
      | ok document =>
          cases hName : codeName? input with
          | none => exact .inl ⟨_, .nameless hText hParse hName⟩
          | some name =>
              cases hCompile :
                  document.program.compile
                    document.sourceFiles.1 with
              | error error =>
                  exact
                    .inl
                      ⟨_, .malformed hText hParse hName hCompile⟩
              | ok fragment =>
                  have hEmit :=
                    Document.emit_eq_ok (emitOptions context name)
                      hCompile
                  refine
                    .inr ⟨name, document, _, rfl, rfl, hEmit, ?_⟩
                  rw [compileInput_of_text hText]
                  simp only [compileText, hParse, codePath?_eq,
                    hName, Option.map_some]
                  rw [← emitOptions, hEmit]

/- An input with the text of a document has its outputs. -/
theorem compileInput_of_contents
    {document : Document}
    {fragment : Fragment}
    {name : String}
    (hContents :
      tree.readFile input = .ok (Text.bytes document.write))
    (hNesting : document.value.nesting ≤ Json.nestingLimit)
    (hName : codeName? input = some name)
    (hCompile :
      document.program.compile document.sourceFiles.1 =
        .ok fragment) :
    compileInput tree context input =
      .done
        (outputs context.options (codePath context input name)
          name
          ⟨fragment.code, fragment.records,
            document.mapBuilder (emitOptions context name)
              (LineGroups.sort fragment.records)⟩) := by
  have hText : inputText? tree input = some document.write := by
    rw [inputText?, hContents]
    exact Text.ofBytes?_bytes document.write
  rw [compileInput_of_text hText]
  simp only [compileText, Document.parse_write hNesting,
    codePath?_eq, hName, Option.map_some]
  rw [← emitOptions, Document.emit_eq_ok _ hCompile]

theorem wasRead_compileInput
    (tree : FileTree)
    (context : Context)
    (input : Path) :
    (compileInput tree context input).wasRead =
      (inputText? tree input).isSome := by
  rcases compileInput_cases tree context input with
    ⟨diagnostic, hFault⟩ | ⟨_, _, _, _, hText, _, hDone⟩
  · rw [hFault.compileInput_eq, Compiled.wasRead]
  · rw [hDone, hText, Compiled.wasRead]

/-
  What is said about an input: exactly one diagnostic if it is
  faulty, and nothing otherwise.
-/
inductive Reports
    (tree : FileTree)
    (input : Path) :
    List Diagnostic → Prop where
  | faulty
      {diagnostic : Diagnostic}
      (hFault : Fault tree input diagnostic) :
      Reports tree input [diagnostic]
  | good
      (hGood : ∀ diagnostic, ¬ Fault tree input diagnostic) :
      Reports tree input []

theorem reports_compileInput
    (tree : FileTree)
    (context : Context)
    (input : Path) :
    Reports tree input
      (compileInput tree context input).diagnostics := by
  rcases compileInput_cases tree context input with
    ⟨diagnostic, hFault⟩ | ⟨_, _, _, _, _, _, hDone⟩
  · rw [hFault.compileInput_eq, Compiled.diagnostics]
    exact .faulty hFault
  · rw [hDone, Compiled.diagnostics]
    apply Reports.good
    intro diagnostic hFault
    rw [hFault.compileInput_eq] at hDone
    cases hDone

/-
  Where source maps do not go into files and comments at once,
  the outputs of an input that is not faulty have its paths.
-/
theorem paths_compileInput
    (hSettled :
      context.options.sourceMap = true →
        context.options.inlineSourceMap = false)
    (hGood : ∀ diagnostic, ¬ Fault tree input diagnostic) :
    (compileInput tree context input).outputs.map Output.path =
      outputPaths context input := by
  rcases compileInput_cases tree context input with
    ⟨diagnostic, hFault⟩ | ⟨name, _, _, hName, _, _, hDone⟩
  · exact absurd hFault (hGood diagnostic)
  · rw [hDone, Compiled.outputs, outputPaths, hName, outputs]
    cases hMap : context.options.sourceMap with
    | true => simp [hSettled hMap, mapPath]
    | false =>
        cases context.options.inlineSourceMap <;> simp

------------------------------------------------------------
-- Options
------------------------------------------------------------

/-
  The options that a build is asked for: those of its settings,
  if it has any, and before them those of the command line.
-/
def Asked
    (tree : FileTree)
    (cwd : Path)
    (request : Request)
    (options : Options) : Prop :=
  ∃ path settings,
    settingsPath tree (tree.canonical cwd) request.project =
        .ok path
      ∧ (match path with
          | none => settings = {}
          | some path => readSettings tree path = .ok settings)
      ∧ options = settings.resolved.override request

/- A build goes by the options it is asked for, settled. -/
theorem setup_eq_ok
    {cwd : Path}
    {request : Request}
    {start : Setup}
    (hSetup : setup tree cwd request = .ok start) :
    ∃ options,
      Asked tree cwd request options
        ∧ start.context.options = options.settle.1
        ∧ start.warnings = options.settle.2 := by
  rcases bind_eq_ok_iff.mp hSetup with
    ⟨path, hPath, hSettings⟩
  cases path with
  | none =>
      cases hSettings
      exact ⟨_, ⟨none, {}, hPath, rfl, rfl⟩, rfl, rfl⟩
  | some path =>
      rcases bind_eq_ok_iff.mp hSettings with
        ⟨settings, hRead, hStart⟩
      cases hStart
      exact
        ⟨_, ⟨some path, settings, hPath, hRead, rfl⟩, rfl, rfl⟩

/- Settled options have one kind of source map at most. -/
theorem inlineSourceMap_settle
    {options : Options}
    (hMap : options.settle.1.sourceMap = true) :
    options.settle.1.inlineSourceMap = false := by
  rcases options with
    ⟨outDir, sourceMap, inlineSourceMap, inlineSources,
      sourceRoot, noEmit⟩
  cases sourceMap <;> cases inlineSourceMap <;>
    cases inlineSources <;>
    simp_all [Options.settle, Options.settleMaps,
      Options.settleSources, Options.writesMap]

/- Options that exclude each other are no errors. -/
theorem isError_of_mem_settle
    {options : Options}
    {diagnostic : Diagnostic}
    (hWarning : diagnostic ∈ options.settle.2) :
    diagnostic.isError = false := by
  rw [Options.settle, List.mem_append] at hWarning
  rcases hWarning with hMaps | hSources
  · rw [Options.settleMaps] at hMaps
    split at hMaps
    · rw [List.mem_singleton.mp hMaps]
      rfl
    · cases hMaps
  · rw [Options.settleSources] at hSources
    split at hSources
    · rw [List.mem_singleton.mp hSources]
      rfl
    · cases hSources

------------------------------------------------------------
-- Plans
------------------------------------------------------------

section PlanInputs

variable (tree) (context) (warnings : List Diagnostic)
variable (found : List Path)

/- What a plan says about each input. -/
def reports : List (List Diagnostic) :=
  found.map fun input =>
    (compileInput tree context input).diagnostics

theorem diagnostics_planInputs :
    (planInputs tree context warnings found).diagnostics =
      warnings ++ (reports tree context found).flatten := by
  rw [planInputs, List.flatMap_def, List.map_map]
  rfl

theorem read_planInputs :
    (planInputs tree context warnings found).read =
      found.filter fun input =>
        (inputText? tree input).isSome := by
  simp only [planInputs, List.filter_map, List.map_map]
  apply (List.map_id _).trans
  apply List.filter_congr
  intro input _
  exact wasRead_compileInput tree context input

theorem outputs_planInputs :
    (planInputs tree context warnings found).outputs =
      found.flatMap fun input =>
        (compileInput tree context input).outputs := by
  simp only [planInputs, List.flatMap_map]

theorem forall₂_reports :
    List.Forall₂ (Reports tree) found
      (reports tree context found) := by
  rw [reports, List.forall₂_map_right_iff, List.forall₂_same]
  intro input _
  exact reports_compileInput tree context input

/- The errors of a plan are the faults of its inputs. -/
theorem hasErrors_planInputs_iff
    (hWarnings :
      ∀ diagnostic ∈ warnings, diagnostic.isError = false) :
    (planInputs tree context warnings found).hasErrors = true ↔
      ∃ input ∈ found, ∃ diagnostic,
        Fault tree input diagnostic := by
  rw [Plan.hasErrors, diagnostics_planInputs,
    List.any_append, Bool.or_eq_true, List.any_eq_true,
    List.any_eq_true]
  constructor
  · rintro (⟨diagnostic, hMember, hError⟩
      | ⟨diagnostic, hMember, hError⟩)
    · rw [hWarnings diagnostic hMember] at hError
      cases hError
    · rcases List.mem_flatten.mp hMember with
        ⟨report, hReport, hDiagnostic⟩
      rcases List.mem_map.mp hReport with ⟨input, hInput, rfl⟩
      have hReports := reports_compileInput tree context input
      generalize
        (compileInput tree context input).diagnostics = report
        at hReports hDiagnostic
      cases hReports with
      | faulty hFault => exact ⟨input, hInput, _, hFault⟩
      | good => cases hDiagnostic
  · rintro ⟨input, hInput, diagnostic, hFault⟩
    refine .inr ⟨diagnostic, ?_, hFault.isError⟩
    rw [List.mem_flatten]
    refine ⟨[diagnostic], ?_, List.mem_singleton.mpr rfl⟩
    refine List.mem_map.mpr ⟨input, hInput, ?_⟩
    rw [hFault.compileInput_eq, Compiled.diagnostics]

end PlanInputs

------------------------------------------------------------
-- Runs
------------------------------------------------------------

variable {after : FileTree} {cwd : Path} {request : Request}
variable {result : Result}

/- A plan is made from the settings and the inputs. -/
theorem plan_eq_ok_iff
    {made : Plan} :
    plan tree cwd request = .ok made ↔
      ∃ start found,
        setup tree cwd request = .ok start
          ∧ inputs tree start.roots = .ok found
          ∧ made =
            if found = [] then emptyPlan start.warnings
            else
              planInputs tree start.context start.warnings
                found := by
  constructor
  · intro hPlan
    rcases bind_eq_ok_iff.mp hPlan with ⟨start, hStart, hRest⟩
    rcases bind_eq_ok_iff.mp hRest with ⟨found, hFound, hMade⟩
    refine ⟨start, found, hStart, hFound, ?_⟩
    split at hMade
    · next hNone =>
        cases hMade
        rw [if_pos hNone]
    · next hSome =>
        cases hMade
        rw [if_neg hSome]
  · rintro ⟨start, found, hStart, hFound, hMade⟩
    refine bind_eq_ok_iff.mpr ⟨start, hStart, ?_⟩
    refine bind_eq_ok_iff.mpr ⟨found, hFound, ?_⟩
    rw [hMade]
    split <;> rfl

/- The plan for inputs that are known. -/
theorem plan_of_inputs
    {start : Setup}
    {found : List Path}
    (hStart : setup tree cwd request = .ok start)
    (hFound : inputs tree start.roots = .ok found)
    (hSome : found ≠ []) :
    plan tree cwd request =
      .ok
        (planInputs tree start.context start.warnings found) :=
  plan_eq_ok_iff.mpr
    ⟨start, found, hStart, hFound, (if_neg hSome).symm⟩

/- A build with a result has made a plan and written it. -/
theorem run_eq_ok_iff :
    run tree cwd request = (after, .ok result) ↔
      ∃ made,
        plan tree cwd request = .ok made
          ∧ writeAll tree made.toWrite = (after, .ok ())
          ∧ result =
            ⟨made.diagnostics, made.read,
              made.toWrite.map Output.path⟩ := by
  constructor
  · intro hRun
    rw [run] at hRun
    split at hRun
    · cases hRun
    · next made hPlan =>
        rcases hWrite : writeAll tree made.toWrite with
          ⟨written, outcome⟩
        simp only [hWrite] at hRun
        cases outcome with
        | error failure => cases hRun
        | ok _ =>
            cases hRun
            exact ⟨made, hPlan, hWrite, rfl⟩
  · rintro ⟨made, hPlan, hWrite, rfl⟩
    simp only [run, hPlan, hWrite]
    rfl

/- Good inputs are built if their outputs can be written. -/
theorem exists_run_of_outputs
    {start : Setup}
    {found : List Path}
    (outputs : List Output)
    (hStart : setup tree cwd request = .ok start)
    (hFound : inputs tree start.roots = .ok found)
    (hSome : found ≠ [])
    (hMade :
      planInputs tree start.context start.warnings found =
        ⟨[], found, outputs, false⟩)
    (hWritten : (writeAll tree outputs).2 = .ok ()) :
    ∃ after result,
      run tree cwd request = (after, .ok result)
        ∧ result.emitted = outputs.map Output.path := by
  have hPlan := plan_of_inputs hStart hFound hSome
  rw [hMade] at hPlan
  exact
    ⟨_, _,
      run_eq_ok_iff.mpr ⟨_, hPlan, Prod.ext rfl hWritten, rfl⟩,
      rfl⟩

/-
  A build accounts for all inputs that it found: what it says
  about them, which of them were read, and what was written.
  With any error, or if nothing is to be written, nothing is.
-/
structure Accounts
    (tree after : FileTree)
    (start : Setup)
    (found : List Path)
    (result : Result) : Prop where
  diagnostics :
    ∃ reports,
      List.Forall₂ (Reports tree) found reports
        ∧ result.diagnostics = start.warnings ++ reports.flatten
  hasErrors :
    result.hasErrors = true ↔
      ∃ input ∈ found, ∃ diagnostic,
        Fault tree input diagnostic
  read :
    result.read =
      found.filter fun input => (inputText? tree input).isSome
  nothing :
    start.context.options.noEmit = true
        ∨ result.hasErrors = true →
      result.emitted = [] ∧ after = tree
  everything :
    start.context.options.noEmit = false →
    result.hasErrors = false →
      result.emitted = found.flatMap (outputPaths start.context)
        ∧ Written result.emitted tree after

/- A build with inputs accounts for them. -/
theorem accounts_of_run
    {start : Setup}
    {found : List Path}
    (hRun : run tree cwd request = (after, .ok result))
    (hStart : setup tree cwd request = .ok start)
    (hFound : inputs tree start.roots = .ok found)
    (hSome : found ≠ []) :
    Accounts tree after start found result := by
  rcases run_eq_ok_iff.mp hRun with
    ⟨made, hPlan, hWrite, hResult⟩
  rw [plan_of_inputs hStart hFound hSome] at hPlan
  have hMade := (Except.ok.inj hPlan).symm
  rcases setup_eq_ok hStart with
    ⟨options, _, hOptions, hSettled⟩
  have hWarnings :
      ∀ diagnostic ∈ start.warnings,
        diagnostic.isError = false := by
    intro diagnostic hWarning
    rw [hSettled] at hWarning
    exact isError_of_mem_settle hWarning
  have hErrors : result.hasErrors = made.hasErrors := by
    rw [hResult, Result.hasErrors, Plan.hasErrors]
  have hErrorsIff :=
    hasErrors_planInputs_iff tree start.context start.warnings
      found hWarnings
  rw [← hMade, ← hErrors] at hErrorsIff
  have hNoEmit : made.noEmit = start.context.options.noEmit := by
    rw [hMade, planInputs]
  constructor
  case diagnostics =>
    refine
      ⟨reports tree start.context found,
        forall₂_reports tree start.context found, ?_⟩
    rw [hResult, hMade, diagnostics_planInputs]
  case hasErrors => exact hErrorsIff
  case read => rw [hResult, hMade, read_planInputs]
  case nothing =>
    intro hNothing
    have hNone : made.toWrite = [] := by
      rw [Plan.toWrite, hNoEmit, ← hErrors, if_pos]
      rw [Bool.or_eq_true]
      exact hNothing
    rw [hNone, writeAll] at hWrite
    cases hWrite
    exact ⟨by rw [hResult, hNone]; rfl, rfl⟩
  case everything =>
    intro hEmit hGood
    have hAll : made.toWrite = made.outputs := by
      rw [Plan.toWrite, hNoEmit, ← hErrors, hEmit, hGood]
      rfl
    have hPaths :
        result.emitted =
          found.flatMap (outputPaths start.context) := by
      rw [hResult, hAll, hMade, outputs_planInputs,
        List.map_flatMap]
      apply List.flatMap_congr
      intro input hInput
      apply paths_compileInput
      · rw [hOptions]
        exact inlineSourceMap_settle
      intro diagnostic hFault
      have hBad :=
        hErrorsIff.mpr ⟨input, hInput, diagnostic, hFault⟩
      rw [hGood] at hBad
      cases hBad
    refine ⟨hPaths, ?_⟩
    rw [hResult]
    exact written_writeAll hWrite

/- A program without statements. -/
def emptyProgram : Document :=
  ⟨"main.src", none, ⟨⟨1, 0⟩, [], ⟨2, 0⟩⟩⟩

/- An input with this program has code and a source map. -/
theorem exists_outputs_emptyProgram
    {name : String}
    (hContents :
      tree.readFile input =
        .ok (Text.bytes emptyProgram.write))
    (hName : codeName? input = some name) :
    ∃ emission,
      compileInput tree context input =
        .done
          (outputs context.options (codePath context input name)
            name emission) := by
  have hYields :=
    emptyProgram.program.node.yields_compile
      emptyProgram.sourceFiles.1 0
  have hViolations :
      emptyProgram.program.node.violations = [] := by
    cbv
  rcases hYields.exists_ok_iff.mpr hViolations with
    ⟨fragment, hCompile⟩
  have hNesting :
      emptyProgram.value.nesting ≤ Json.nestingLimit := by
    decide
  exact
    ⟨_,
      compileInput_of_contents hContents hNesting hName hCompile⟩

/- The run of a build with one input, up to its code. -/
theorem exists_run_of_input
    {base root path : Path}
    {outDir : Option Path}
    {word : Option Name}
    {name : String}
    (hStart :
      setup tree cwd request =
        .ok ⟨⟨base, outDir, { outDir := word }⟩, [], [root]⟩)
    (hAt : inputsAt tree root = .ok [input])
    (hContents :
      tree.readFile input =
        .ok (Text.bytes emptyProgram.write))
    (hName : codeName? input = some name)
    (hPath :
      codePath ⟨base, outDir, { outDir := word }⟩ input name =
        path) :
    ∃ code,
      ∀ {later : FileTree},
        writeAll tree [⟨path, code⟩] = (later, .ok ()) →
          run tree cwd request =
            (later, .ok ⟨[], [input], [path]⟩) := by
  have hCompiled :
      ∃ emission,
        compileInput tree ⟨base, outDir, { outDir := word }⟩
            input =
          .done
            (outputs { outDir := word } path name emission) := by
    rw [← hPath]
    exact exists_outputs_emptyProgram hContents hName
  rcases hCompiled with ⟨emission, hDone⟩
  refine ⟨emission.code, ?_⟩
  intro later hWrite
  have hPlan :=
    plan_of_inputs hStart (inputs_singleton hAt)
      (List.cons_ne_nil _ _)
  have hMade :
      planInputs tree ⟨base, outDir, { outDir := word }⟩ []
          [input] =
        ⟨[], [input], [⟨path, emission.code⟩], false⟩ := by
    simp only [planInputs, List.map_cons, hDone]
    rfl
  rw [hMade] at hPlan
  exact run_eq_ok_iff.mpr ⟨_, hPlan, hWrite, rfl⟩

/-
  A good input that is found in a directory, and another input
  beside it that is named.
-/
def pairTree (contents : List UInt8) : FileTree where
  entries :=
    [(.ofTexts ["w"], .directory),
      (.ofTexts ["w", "a.ast.json"], .file 0),
      (.ofTexts ["w", "a.json"], .file 1)]
  nodes := [Text.bytes emptyProgram.write, contents]

def pairRequest : Request where
  sourceMap := true
  files := ["a.json", "."].map Text.bytes

def pairSetup : Setup where
  context := ⟨.ofText "/w", none, { sourceMap := true }⟩
  warnings := []
  roots := [.ofText "/w/a.json", .ofText "/w/."]

def pairInputs : List Path :=
  [.ofText "/w/a.ast.json", .ofText "/w/a.json"]

theorem setup_pair
    (contents : List UInt8) :
    setup (pairTree contents) (.ofText "/w") pairRequest =
      .ok pairSetup :=
  rfl

theorem inputs_pair
    (contents : List UInt8) :
    inputs (pairTree contents) pairSetup.roots =
      .ok pairInputs := by
  have hSearch :
      (pairTree contents).search [] (.ofText "/w/.")
          (.ofTexts ["w"]) =
        .ok
          [.ofText "/w/./a.ast.json", .ofText "/w/./a.json"] := by
    have hReach :
        (pairTree contents).reach .find (.ofText "/w/.") =
          .ok (.ofTexts ["w"]) :=
      rfl
    rw [FileTree.search_of_reach hReach]
    rfl
  have hFile :
      inputsAt (pairTree contents) (.ofText "/w/a.json") =
        .ok [.ofText "/w/a.json"] :=
    rfl
  have hFound :
      pairSetup.roots.mapM (inputsAt (pairTree contents)) =
        .ok [[.ofText "/w/a.json"], [.ofText "/w/a.ast.json"]] := by
    rw [pairSetup, List.mapM_cons, List.mapM_cons, hFile,
      inputsAt_of_search rfl rfl hSearch]
    rfl
  have hSort :
      Path.sort
          [.ofText "/w/a.json", .ofText "/w/a.ast.json"] =
        pairInputs :=
    Path.sort_eq_of_mem_iff (by decide)
      (by simp [pairInputs, or_comm])
  exact
    bind_eq_ok_iff.mpr ⟨_, hFound, congrArg Except.ok hSort⟩

/- Where both inputs are good, their code has the same paths. -/
theorem exists_outputs_pair
    (contents : List UInt8)
    (hInput : input ∈ pairInputs)
    (hContents :
      (pairTree contents).readFile input =
        .ok (Text.bytes emptyProgram.write)) :
    ∃ code map,
      compileInput (pairTree contents) pairSetup.context input =
        .done
          [⟨.ofText "/w/a.js", code⟩,
            ⟨.ofText "/w/a.js.map", map⟩] := by
  rcases List.mem_pair.mp hInput with rfl | rfl
  all_goals
    rcases exists_outputs_emptyProgram hContents rfl with
      ⟨emission, hDone⟩
    exact ⟨_, _, hDone⟩

/- An input that is no text keeps the other from being written. -/
theorem exists_run_pair_unreadable :
    ∃ result,
      run (pairTree [255]) (.ofText "/w") pairRequest =
          (pairTree [255], .ok result)
        ∧ result.read = [.ofText "/w/a.ast.json"]
        ∧ result.emitted = [] := by
  have hInput : .ofText "/w/a.ast.json" ∈ pairInputs := by decide
  rcases exists_outputs_pair [255] hInput rfl with
    ⟨code, map, hDone⟩
  have hFault :
      Fault (pairTree [255]) (.ofText "/w/a.json") _ :=
    .undecodable rfl rfl
  have hPlan :=
    plan_of_inputs (setup_pair [255]) (inputs_pair [255])
      (List.cons_ne_nil _ _)
  refine
    ⟨_, run_eq_ok_iff.mpr ⟨_, hPlan, ?_, rfl⟩, ?_, ?_⟩
  all_goals
    simp only [planInputs, pairInputs, List.map_cons, hDone,
      hFault.compileInput_eq]
    rfl

/-
  Two good inputs are both written, here to the same paths. The
  contents are given by an equation, so that evaluating the run
  does not open them.
-/
theorem exists_run_pair
    {contents : List UInt8}
    (hContents : contents = Text.bytes emptyProgram.write) :
    ∃ after result,
      run (pairTree contents) (.ofText "/w") pairRequest =
          (after, .ok result)
        ∧ result.emitted =
          [.ofText "/w/a.js", .ofText "/w/a.js.map",
            .ofText "/w/a.js", .ofText "/w/a.js.map"] := by
  have hFirst : .ofText "/w/a.ast.json" ∈ pairInputs := by decide
  have hSecond : .ofText "/w/a.json" ∈ pairInputs := by decide
  rcases exists_outputs_pair contents hFirst rfl with
    ⟨code, map, hDone⟩
  rcases
      exists_outputs_pair contents hSecond
        (congrArg Except.ok hContents) with
    ⟨otherCode, otherMap, hOtherDone⟩
  refine
    exists_run_of_outputs
      [⟨.ofText "/w/a.js", code⟩, ⟨.ofText "/w/a.js.map", map⟩,
        ⟨.ofText "/w/a.js", otherCode⟩,
        ⟨.ofText "/w/a.js.map", otherMap⟩]
      (setup_pair contents) (inputs_pair contents)
      (List.cons_ne_nil _ _) ?_ ?_
  · simp only [planInputs, pairInputs, List.map_cons, hDone,
      hOtherDone]
    rfl
  · rfl

/- A file with two names, one of them that of the code. -/
def twoNamesTree (contents old : List UInt8) : FileTree where
  entries :=
    [(.ofTexts ["w"], .directory),
      (.ofTexts ["w", "m.ast.json"], .file 0),
      (.ofTexts ["w", "m.js"], .file 1),
      (.ofTexts ["w", "n.txt"], .file 1)]
  nodes := [contents, old]

/- The code is written over the file. -/
theorem exists_run_twoNames
    {contents : List UInt8}
    (hContents : Text.bytes emptyProgram.write = contents)
    (old : List UInt8) :
    ∃ code,
      run (twoNamesTree contents old) (.ofText "/w")
          { files := [Text.bytes "m.ast.json"] } =
        (twoNamesTree contents (Text.bytes code),
          .ok
            ⟨[], [.ofText "/w/m.ast.json"],
              [.ofText "/w/m.js"]⟩) := by
  have hRead :
      (twoNamesTree contents old).readFile
          (.ofText "/w/m.ast.json") =
        .ok (Text.bytes emptyProgram.write) := by
    rw [hContents]
    rfl
  have hStart :
      setup (twoNamesTree contents old) (.ofText "/w")
          { files := [Text.bytes "m.ast.json"] } =
        .ok
          ⟨⟨.ofText "/w", none, {}⟩, [],
            [.ofText "/w/m.ast.json"]⟩ :=
    rfl
  have hAt :
      inputsAt (twoNamesTree contents old)
          (.ofText "/w/m.ast.json") =
        .ok [.ofText "/w/m.ast.json"] :=
    rfl
  have hPath :
      codePath ⟨.ofText "/w", none, {}⟩ (.ofText "/w/m.ast.json")
          "m.js" =
        .ofText "/w/m.js" :=
    rfl
  rcases exists_run_of_input hStart hAt hRead rfl hPath with
    ⟨code, hRun⟩
  exact ⟨code, hRun rfl⟩

end Build

end TracedScript
