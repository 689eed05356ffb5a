/-
The written form of a symbol in messages: a character stands between single
quotes, the classes by their escapes, a complement as a negated class.
-/
import LinePattern.Symbol
import LinePattern.Text.Quoted

namespace LinePattern.Symbol

mutual

/-- The symbol as messages show it. -/
def display : Symbol → String
  | char c => Text.quoteChar c
  | digit => "\\d"
  | word => "\\w"
  | noneOf members => "[^" ++ displayMembers members ++ "]"
  | any => "."
  | endOfLine => "$"

/-- The members of a negated class, one after the other. A character stands
there without quotes, so both kinds of quote are escaped. -/
def displayMembers : List Symbol → String
  | [] => ""
  | char c :: rest => Text.escape ['\'', '"'] c ++ displayMembers rest
  | s :: rest => s.display ++ displayMembers rest

end

end LinePattern.Symbol
