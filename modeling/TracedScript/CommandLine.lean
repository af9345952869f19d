import TracedScript.Build
import TracedScript.Report

/-
  The command as a function of what it finds.

  Key definitions include:
    * `CommandLine.Surroundings`
    * `CommandLine.Answer`
    * `CommandLine.run`
-/

------------------------------------------------------------
-- Surroundings
------------------------------------------------------------

namespace TracedScript

namespace CommandLine

/- What a command finds apart from files and words. -/
structure Surroundings where
  environment : List (String × String) := []
  outputIsTerminal : Bool := false
  errorsAreTerminal : Bool := false
deriving DecidableEq, Repr

/-
  Whether escape sequences are written at all: a variable may
  force or forbid them, and else they need a terminal.
-/
def Surroundings.showsColors (surroundings : Surroundings) : Bool :=
  match surroundings.environment.lookup "CLICOLOR_FORCE",
      surroundings.environment.lookup "NO_COLOR" with
  | some "0", some _ => false
  | some "0", none => fromTerminal
  | some _, _ => true
  | none, some _ => false
  | none, none => fromTerminal
where
  fromTerminal : Bool :=
    surroundings.outputIsTerminal
      && surroundings.environment.lookup "CLICOLOR" ≠ some "0"

/- What a command leaves behind. -/
structure Answer where
  tree : FileTree
  exitCode : Nat
  output : String := ""
  errors : String := ""
deriving DecidableEq

------------------------------------------------------------
-- Texts
------------------------------------------------------------

/- The name and version of the command. -/
def versionText : String :=
  "quillc 0.1.0\n"

/- How the command is used. -/
def helpText : String :=
  "\n".intercalate
    ["Compile quill ASTs to JavaScript with source maps",
      "",
      "Usage: quillc [OPTIONS] [FILE]...",
      "",
      "Arguments:",
      "  [FILE]...  Input `.ast.json` files, "
        ++ "or directories to search for them",
      "",
      "Options:",
      "  -p, --project <PROJECT>         "
        ++ "Path to quill.json or a directory containing it",
      "      --outDir <OUT_DIR>          "
        ++ "Specify an output folder for all emitted files",
      "      --sourceMap                 "
        ++ "Create source map files for emitted JavaScript files",
      "      --inlineSourceMap           "
        ++ "Include sourcemap files inside the emitted JavaScript",
      "      --inlineSources             "
        ++ "Include source code in the sourcemaps",
      "      --sourceRoot <SOURCE_ROOT>  "
        ++ "Specify the root path for debuggers to find the "
        ++ "reference source code",
      "      --noEmit                    "
        ++ "Disable emitting files from a compilation",
      "      --pretty <PRETTY>           "
        ++ "Enable color and formatting in diagnostics "
        ++ "[possible values: true, false]",
      "  -h, --help                      Print help",
      "  -V, --version                   Print version",
      ""]

/- What is said about words that make no sense. -/
def usageText : UsageError → String
  | .help => helpText
  | .version => versionText
  | .unknownArgument => "error: unexpected argument found\n"
  | .invalidValue => "error: invalid value for an argument\n"
  | .repeated =>
      "error: an argument cannot be used multiple times\n"
  | .unexpectedValue => "error: unexpected value for an argument\n"

/- What is said about a build that stopped. -/
def failureText (failure : Build.Failure) : String :=
  match failure.contexts with
  | [] => "Error\n"
  | [context] => "Error: " ++ context ++ "\n"
  | context :: causes =>
      "Error: " ++ context ++ "\n\nCaused by:\n"
        ++ String.join
          (causes.map fun cause => "    " ++ cause ++ "\n")

------------------------------------------------------------
-- Running
------------------------------------------------------------

/- The report of a build, if there is anything to report. -/
def reportText
    (surroundings : Surroundings)
    (arguments : Arguments)
    (diagnostics : List Diagnostic) :
    String :=
  let pretty :=
    arguments.pretty.getD surroundings.errorsAreTerminal
  Report.render (pretty && surroundings.showsColors) diagnostics

/- Runs the command with some words in a working directory. -/
def run
    (surroundings : Surroundings)
    (tree : FileTree)
    (cwd : Path)
    (words : List String) :
    Answer :=
  match Arguments.parse words with
  | .error error =>
      if error.exitCode = 0 then
        { tree, exitCode := 0, output := usageText error }
      else
        { tree
          exitCode := error.exitCode
          errors := usageText error }
  | .ok arguments =>
      match Build.run tree cwd arguments.request with
      | (tree, .error failure) =>
          { tree, exitCode := 1, errors := failureText failure }
      | (tree, .ok result) =>
          { tree
            exitCode := if result.hasErrors then 1 else 0
            errors :=
              reportText surroundings arguments
                result.diagnostics }

end CommandLine

end TracedScript
