import TracedScript.Position

/-
  What a build has to say about its inputs.

  Key definitions include:
    * `Severity` and `Diagnostic`
-/

------------------------------------------------------------
-- Diagnostics
------------------------------------------------------------

namespace TracedScript

/- How grave a diagnostic is. -/
inductive Severity where
  | warning
  | error
  | message
deriving DecidableEq, Repr

/- The name of a severity. -/
def Severity.label : Severity → String
  | .warning => "warning"
  | .error => "error"
  | .message => "message"

/- A remark on a file; an empty name stands for no file. -/
structure Diagnostic where
  severity : Severity
  file : String
  position : Option Position
  text : String
deriving DecidableEq, Repr

namespace Diagnostic

/- An error without a position. -/
def error (file text : String) : Diagnostic :=
  ⟨.error, file, none, text⟩

/- A warning that belongs to no file. -/
def warning (text : String) : Diagnostic :=
  ⟨.warning, "", none, text⟩

/- Whether a diagnostic is an error. -/
def isError (diagnostic : Diagnostic) : Bool :=
  diagnostic.severity = .error

end Diagnostic

end TracedScript
