/-
The kinds of lines in an outline document: headlines, keywords, list items,
footnotes and blank lines. Every other line is text.
-/
import LinePattern.Matcher.Set

namespace LinePattern.Outline

/-- What a line of an outline is. -/
inductive LineKind where
  | headline
  | keyword
  | listItem
  | footnote
  | blank
deriving DecidableEq, Repr

/-- The name of the kind. -/
def LineKind.name : LineKind → String
  | headline => "headline"
  | keyword => "keyword"
  | listItem => "list-item"
  | footnote => "footnote"
  | blank => "blank"

/-- The pattern of each kind. Where two accept a line, the first one counts. -/
def linePatterns : List (String × LineKind) := [
  ("(\\*+)\\s+.*", .headline),
  ("\\s*#\\+(\\w+):\\s*(.*)$", .keyword),
  ("\\s*[-+]\\s+(.*)", .listItem),
  ("\\[fn:(\\w+)\\]\\s+(.*)", .footnote),
  ("\\s*$", .blank)]

/-- The compiled patterns of all kinds. -/
def lineSet : Except PatternError (PatternSet LineKind) := PatternSet.compile {} linePatterns

end LinePattern.Outline
