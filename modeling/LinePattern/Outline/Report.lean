/-
The report on an outline: a line for each of its lines, with the number, the
kind and the captures.
-/
import LinePattern.Outline.LineKind
import LinePattern.Text.Quoted

namespace LinePattern.Outline

/-! ## Lines -/

/-- The line without the carriage return it ends with, if it does. The
characters are given last first. -/
def dropReturn : List Char → List Char
  | '\r' :: earlier => earlier
  | reversed => reversed

/-- The lines of a text, where `current` holds the characters of the line so
far, last first. A line ends with a line feed, and a carriage return before
that belongs to its end. What follows the last line feed is a line if it is
not empty. -/
def linesFrom (current : List Char) : List Char → List String
  | [] => if current.isEmpty then [] else [String.ofList current.reverse]
  | c :: rest =>
    if c = '\n' then String.ofList (dropReturn current).reverse :: linesFrom [] rest
    else linesFrom (c :: current) rest

/-- The lines of a text. -/
def lines (text : String) : List String := linesFrom [] text.toList

/-! ## Columns -/

/-- The text, with blanks before it up to the width. -/
def padLeft (width : Nat) (s : String) : String :=
  String.ofList (List.replicate (width - s.length) ' ') ++ s

/-- The text, with blanks after it up to the width. -/
def padRight (width : Nat) (s : String) : String :=
  s ++ String.ofList (List.replicate (width - s.length) ' ')

/-- The report on the line with the given number. -/
def reportLine (set : PatternSet LineKind) (number : Nat) (line : String) : String :=
  let verdict := set.verdict line
  let place := padLeft 4 (toString number) ++ "  "
  match verdict.payload with
  | some kind => place ++ padRight 10 kind.name ++ " " ++ Text.quoteList verdict.captures ++ "\n"
  | none => place ++ padRight 10 "text" ++ "\n"

/-- The report on a text; its lines are numbered from one. -/
def report (set : PatternSet LineKind) (text : String) : String :=
  String.join ((lines text).zipIdx.map fun (line, i) => reportLine set (i + 1) line)

end LinePattern.Outline
