import TracedScript.Text.Blank
import TracedScript.Text.Hidden

/-
  Quoted texts, as they stand in messages.

  Key definitions include:
    * `Text.quoteChar`: a character inside quotes.
    * `Text.quoted`: a text in quotes, one line long.
-/

------------------------------------------------------------
-- Quoting
------------------------------------------------------------

namespace TracedScript

namespace Text

/- Whether a character is written by its code point. -/
def isHidden (c : Char) : Bool :=
  inRanges hiddenRanges c.toNat

/- A character inside quotes. -/
def quoteChar (c : Char) : List Char :=
  if c = '"' then ['\\', '"']
  else if c = '\\' then ['\\', '\\']
  else if c = '\n' then ['\\', 'n']
  else if c = '\r' then ['\\', 'r']
  else if c = '\t' then ['\\', 't']
  else if c = '\x00' then ['\\', '0']
  else if isHidden c then
    ['\\', 'u', '\x7b'] ++ Nat.toDigits 16 c.toNat ++ ['\x7d']
  else [c]

/- A text in quotes. -/
def quoted (text : String) : String :=
  String.ofList
    ('"' :: text.toList.flatMap quoteChar ++ ['"'])

end Text

end TracedScript
