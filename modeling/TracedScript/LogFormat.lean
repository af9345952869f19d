import TracedScript.Text.Blank

/-
  The forms in which a log can be written.

  Key definitions include:
    * `LogFormat`
    * `LogFormat.parse`
-/

------------------------------------------------------------
-- Log Formats
------------------------------------------------------------

namespace TracedScript

/- The form in which a log is written. -/
inductive LogFormat where
  | text
  | tree
  | json
deriving DecidableEq, Repr

/- The form with a name; any other name stands for plain text. -/
def LogFormat.parse (name : String) : LogFormat :=
  let word := Text.lower (Text.trim name)
  if word = "tree" then .tree
  else if word = "json" then .json
  else .text

end TracedScript
