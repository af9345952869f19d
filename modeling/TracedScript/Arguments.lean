/-
  The words of the command line.

  Words are read from left to right. The value of an option
  and the names of files are kept back until the next option
  that is known, or the end; only then are they checked.

  Key definitions include:
    * `Arguments`
    * `UsageError`
    * `Arguments.parse`
-/

------------------------------------------------------------
-- Arguments and Errors
------------------------------------------------------------

namespace TracedScript

/- What the command line asks for. -/
structure Arguments where
  project : Option String := none
  outDir : Option String := none
  sourceMap : Bool := false
  inlineSourceMap : Bool := false
  inlineSources : Bool := false
  sourceRoot : Option String := none
  noEmit : Bool := false
  pretty : Option Bool := none
  files : List String := []
deriving DecidableEq, Repr

/- Why the words of the command line ask for no build. -/
inductive UsageError where
  | help
  | version
  | unknownArgument
  | invalidValue
  | repeated
  | unexpectedValue
deriving DecidableEq, Repr

/- The exit code: asking for help is no failure. -/
def UsageError.exitCode : UsageError → Nat
  | .help => 0
  | .version => 0
  | _ => 2

namespace Arguments

------------------------------------------------------------
-- Options
------------------------------------------------------------

/- The options that take a value. -/
inductive Setting where
  | project
  | outDir
  | sourceRoot
  | pretty
deriving DecidableEq, Repr

/- The options that take none. -/
inductive Switch where
  | sourceMap
  | inlineSourceMap
  | inlineSources
  | noEmit
deriving DecidableEq, Repr

/- What the name of an option stands for. -/
inductive Meaning where
  | setting (setting : Setting)
  | switch (switch : Switch)
  | stop (error : UsageError)
deriving DecidableEq, Repr

/- The long names of the options. -/
def longNames : List (String × Meaning) :=
  [("project", .setting .project),
    ("outDir", .setting .outDir),
    ("out-dir", .setting .outDir),
    ("sourceMap", .switch .sourceMap),
    ("source-map", .switch .sourceMap),
    ("inlineSourceMap", .switch .inlineSourceMap),
    ("inline-source-map", .switch .inlineSourceMap),
    ("inlineSources", .switch .inlineSources),
    ("inline-sources", .switch .inlineSources),
    ("sourceRoot", .setting .sourceRoot),
    ("source-root", .setting .sourceRoot),
    ("noEmit", .switch .noEmit),
    ("no-emit", .switch .noEmit),
    ("pretty", .setting .pretty),
    ("help", .stop .help),
    ("version", .stop .version)]

/- The short names of the options. -/
def shortNames : List (Char × Meaning) :=
  [('p', .setting .project),
    ('h', .stop .help),
    ('V', .stop .version)]

/- A field that is given for the first time. -/
def once
    {α : Type}
    (old : Option α)
    (new : Option α) :
    Except UsageError (Option α) :=
  match old, new with
  | some _, _ => .error .repeated
  | none, none => .error .invalidValue
  | none, some value => .ok (some value)

/- A path, which must not be empty. -/
def pathValue? (value : String) : Option String :=
  if value = "" then none else some value

/- A truth value. -/
def booleanValue? (value : String) : Option Bool :=
  if value = "true" then some true
  else if value = "false" then some false
  else none

/- Gives an option its value, which it must not have before. -/
def set
    (arguments : Arguments)
    (setting : Setting)
    (value : String) :
    Except UsageError Arguments :=
  match setting with
  | .project =>
      (fun field => { arguments with project := field })
        <$> once arguments.project (pathValue? value)
  | .outDir =>
      (fun field => { arguments with outDir := field })
        <$> once arguments.outDir (pathValue? value)
  | .sourceRoot =>
      (fun field => { arguments with sourceRoot := field })
        <$> once arguments.sourceRoot (some value)
  | .pretty =>
      (fun field => { arguments with pretty := field })
        <$> once arguments.pretty (booleanValue? value)

/- Turns a switch on, which must be off before. -/
def turnOn
    (arguments : Arguments)
    (switch : Switch) :
    Except UsageError Arguments :=
  match switch with
  | .sourceMap =>
      if arguments.sourceMap then .error .repeated
      else .ok { arguments with sourceMap := true }
  | .inlineSourceMap =>
      if arguments.inlineSourceMap then .error .repeated
      else .ok { arguments with inlineSourceMap := true }
  | .inlineSources =>
      if arguments.inlineSources then .error .repeated
      else .ok { arguments with inlineSources := true }
  | .noEmit =>
      if arguments.noEmit then .error .repeated
      else .ok { arguments with noEmit := true }

------------------------------------------------------------
-- Words
------------------------------------------------------------

/- What is kept back until it is checked. -/
inductive Pending where
  | nothing
  | setting (setting : Setting) (value : Option String)
  | files (names : List String)
deriving DecidableEq, Repr

/- What has been read of the command line. -/
structure Progress where
  arguments : Arguments := {}
  pending : Pending := .nothing
  filesOnly : Bool := false
deriving DecidableEq, Repr

namespace Progress

/- Checks what was kept back. -/
def settle (progress : Progress) : Except UsageError Progress :=
  match progress.pending with
  | .nothing => .ok progress
  | .setting _ none => .error .invalidValue
  | .setting setting (some value) => do
      let arguments ← progress.arguments.set setting value
      pure { progress with arguments, pending := .nothing }
  | .files names =>
      if names.contains "" then .error .invalidValue
      else
        .ok
          { progress with
            arguments :=
              { progress.arguments with
                files := progress.arguments.files ++ names }
            pending := .nothing }

/- Keeps back the name of a file. -/
def addFile
    (progress : Progress)
    (name : String) :
    Except UsageError Progress :=
  match progress.pending with
  | .files names =>
      .ok { progress with pending := .files (names ++ [name]) }
  | _ => do
      let progress ← progress.settle
      pure { progress with pending := .files [name] }

/- Reads an option with the value that is written with it, if any. -/
def option
    (progress : Progress)
    (meaning : Meaning)
    (value : Option String) :
    Except UsageError Progress :=
  match meaning, value with
  | .setting setting, some value => do
      let progress ← progress.settle
      let arguments ← progress.arguments.set setting value
      pure { progress with arguments }
  | .setting setting, none => do
      let progress ← progress.settle
      pure { progress with pending := .setting setting none }
  | .switch _, some _ => .error .unexpectedValue
  | .switch switch, none => do
      let progress ← progress.settle
      let arguments ← progress.arguments.turnOn switch
      pure { progress with arguments }
  | .stop _, some _ => .error .unexpectedValue
  | .stop error, none => do
      let _ ← progress.settle
      throw error

/- The name of a long option, and what follows the first `=`. -/
def nameAndValue :
    List Char → List Char × Option (List Char)
  | [] => ([], none)
  | c :: rest =>
      if c = '=' then ([], some rest)
      else
        let (name, value) := nameAndValue rest
        (c :: name, value)

/- Reads a word that starts with two dashes. -/
def longOption
    (progress : Progress)
    (word : List Char) :
    Except UsageError Progress :=
  let (name, value) := nameAndValue word
  match longNames.lookup (String.ofList name) with
  | none => .error .unknownArgument
  | some meaning =>
      progress.option meaning (value.map String.ofList)

/- The value that follows a short name in the same word. -/
def attachedValue : List Char → Option (List Char)
  | [] => none
  | '=' :: value => some value
  | value => some value

/-
  Reads a word that starts with one dash. An option that
  takes no value ends the reading, so no other can follow it.
-/
def shortOption
    (progress : Progress)
    (name : Char)
    (rest : List Char) :
    Except UsageError Progress :=
  match shortNames.lookup name with
  | none => .error .unknownArgument
  | some (.setting setting) =>
      progress.option (.setting setting)
        ((attachedValue rest).map String.ofList)
  | some meaning => progress.option meaning none

/- Reads a word that is not an option. -/
def plainWord
    (progress : Progress)
    (word : String) :
    Except UsageError Progress :=
  match progress.pending with
  | .setting setting none =>
      .ok
        { progress with pending := .setting setting (some word) }
  | _ => progress.addFile word

/- Reads one more word. After `--` every word is a file. -/
def step
    (progress : Progress)
    (word : String) :
    Except UsageError Progress :=
  if progress.filesOnly then progress.addFile word
  else if word = "--" then .ok { progress with filesOnly := true }
  else
    match word.toList with
    | '-' :: '-' :: rest => progress.longOption rest
    | '-' :: name :: rest => progress.shortOption name rest
    | _ => progress.plainWord word

end Progress

/- Reads the words of the command line. -/
def parse (words : List String) : Except UsageError Arguments := do
  let progress ← words.foldlM Progress.step {}
  let progress ← progress.settle
  pure progress.arguments

end Arguments

end TracedScript
