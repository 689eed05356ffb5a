/-
Texts and characters as they are shown in messages.

A shown character is itself, unless it would be misread: the delimiters of
its surroundings, the backslash and the usual control characters get a
backslash, and every other unprintable character is given by its scalar value
in hexadecimal. `quoteString` and `quoteChar` put the delimiters around.
-/
import LinePattern.Text.Unprintable

namespace LinePattern.Text

/-- The scalar value of a character, in hexadecimal without leading zeros. -/
def hexEscape (c : Char) : String :=
  "\\u\x7b" ++ String.ofList (Nat.toDigits 16 c.toNat) ++ "\x7d"

/-- A character as it stands between the given delimiters. -/
def escape (delimiters : List Char) (c : Char) : String :=
  if c = '\x00' then "\\0"
  else if c = '\t' then "\\t"
  else if c = '\n' then "\\n"
  else if c = '\r' then "\\r"
  else if c = '\\' || delimiters.contains c then "\\" ++ c.toString
  else if isUnprintable c then hexEscape c
  else c.toString

/-- A text between double quotes. -/
def quoteString (s : String) : String :=
  "\"" ++ String.join (s.toList.map (escape ['"'])) ++ "\""

/-- A character between single quotes. -/
def quoteChar (c : Char) : String :=
  "'" ++ escape ['\''] c ++ "'"

/-- A list of texts, each quoted, in brackets. -/
def quoteList (texts : List String) : String :=
  "[" ++ String.intercalate ", " (texts.map quoteString) ++ "]"

end LinePattern.Text
