import TracedScript.Diagnostic

/-
  Diagnostics as text.

  Key definitions include:
    * `Report.paint`: a text between escape sequences.
    * `Report.line`: the line of a diagnostic.
    * `Report.render`: all lines and the number of errors.
-/

------------------------------------------------------------
-- Colours
------------------------------------------------------------

namespace TracedScript

namespace Report

/- The ways in which a text stands out on a terminal. -/
inductive Style where
  | cyan
  | bold
  | boldRed
  | boldYellow
  | boldCyan
deriving DecidableEq, Repr

/- The escape sequence that turns a style on. -/
def Style.sequence : Style → String
  | .cyan => "\x1b[36m"
  | .bold => "\x1b[1m"
  | .boldRed => "\x1b[1;31m"
  | .boldYellow => "\x1b[1;33m"
  | .boldCyan => "\x1b[1;36m"

/- The escape sequence that turns all styles off. -/
def reset : String := "\x1b[0m"

/- Turns a style on again wherever a text turns all styles off. -/
def resume
    (sequence : List Char) :
    List Char → List Char
  | '\x1b' :: '[' :: '0' :: 'm' :: rest =>
      reset.toList ++ sequence ++ resume sequence rest
  | c :: rest => c :: resume sequence rest
  | [] => []

/- A text in a style, if styles are shown. -/
def paint
    (colors : Bool)
    (style : Style)
    (text : String) :
    String :=
  if colors then
    style.sequence
      ++ String.ofList
        (resume style.sequence.toList text.toList)
      ++ reset
  else text

------------------------------------------------------------
-- Lines
------------------------------------------------------------

/- The style in which a severity is shown. -/
def severityStyle : Severity → Style
  | .error => .boldRed
  | .warning => .boldYellow
  | .message => .boldCyan

/- Where a diagnostic belongs to: columns are shown from one. -/
def location (diagnostic : Diagnostic) : String :=
  if diagnostic.file = "" then "<unknown>"
  else
    match diagnostic.position with
    | none => diagnostic.file
    | some position =>
        diagnostic.file ++ ":" ++ toString position.line.toNat
          ++ ":" ++ toString (position.column.toNat + 1)

/- The line of a diagnostic. -/
def line
    (colors : Bool)
    (diagnostic : Diagnostic) :
    String :=
  paint colors .cyan (location diagnostic) ++ " - "
    ++ paint colors (severityStyle diagnostic.severity)
      diagnostic.severity.label
    ++ ": " ++ diagnostic.text

/- The number of errors in words. -/
def summary (errors : Nat) : String :=
  "\nFound " ++ toString errors ++ " error"
    ++ (if errors = 1 then "" else "s") ++ ".\n"

/- The lines of all diagnostics, and the number of errors, if any. -/
def render
    (colors : Bool)
    (diagnostics : List Diagnostic) :
    String :=
  let lines :=
    diagnostics.map fun diagnostic =>
      line colors diagnostic ++ "\n"
  let errors := diagnostics.countP Diagnostic.isError
  String.join lines
    ++ (if errors = 0 then "" else paint colors .bold (summary errors))

end Report

end TracedScript
