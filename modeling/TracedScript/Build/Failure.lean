import TracedScript.FileTree.Search
import TracedScript.Json.Fault
import TracedScript.Settings

/-
  Why a build stops without a result.

  Key definitions include:
    * `Build.Failure`
    * `Build.Failure.contexts`: what is said about it.
    * `Build.Failure.cause?`: what lies behind it.
-/

------------------------------------------------------------
-- Failures
------------------------------------------------------------

namespace TracedScript

namespace Build

/- Why a build stops without a result. -/
inductive Failure where
  | settingsNotFound (path : Path)
  | settingsNotFile (path : Path)
  | settingsUnreadable (path : Path)
  | settingsInvalid (path : Path) (fault : Json.Fault)
  | inputNotFound (path : Path)
  | inputsNotSearched
      (path : Path)
      (fault : FileTree.SearchFault)
  | directoryNotMade (path : Path)
  | fileNotWritten (path : Path)
deriving DecidableEq, Repr

/- What the parsing of settings was for, as messages say it. -/
def parseContext : String :=
  "failed to parse " ++ Settings.fileName

/- What was being done when a build stopped, outermost first. -/
def Failure.contexts : Failure → List String
  | .settingsNotFound path =>
      [Settings.fileName ++ " not found at " ++ path.text]
  | .settingsNotFile path =>
      ["project path is not a file: " ++ path.text]
  | .settingsUnreadable path =>
      ["failed to read config: " ++ path.text]
  | .settingsInvalid path _ =>
      ["failed to parse config: " ++ path.text, parseContext]
  | .inputNotFound path => ["input not found: " ++ path.text]
  | .inputsNotSearched path fault =>
      ["failed to search " ++ path.text, fault.text]
  | .directoryNotMade path =>
      ["failed to create directory " ++ path.text]
  | .fileNotWritten path => ["failed to write " ++ path.text]

/- What lies behind a failure. -/
inductive Cause where
  | json (fault : Json.Fault)
  | files
deriving DecidableEq, Repr

/- What lies behind a failure, if it is more than its message. -/
def Failure.cause? : Failure → Option Cause
  | .settingsNotFound _ => none
  | .settingsNotFile _ => none
  | .settingsUnreadable _ => some .files
  | .settingsInvalid _ fault => some (.json fault)
  | .inputNotFound _ => none
  | .inputsNotSearched _ (.blocked _ _) => some .files
  | .inputsNotSearched _ (.looping _ _) => none
  | .directoryNotMade _ => some .files
  | .fileNotWritten _ => some .files

end Build

end TracedScript
