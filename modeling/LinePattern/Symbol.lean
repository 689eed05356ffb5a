/-
The labels of transitions.

A symbol is one character, one of the two ASCII classes, the complement of a
list of symbols, any character, or the end of the line. `Symbol.accepts` says
which characters a step along a symbol may consume. The end of the line
accepts none: it is tested where a text ends.
-/

namespace LinePattern

/-- An ASCII decimal digit. No other script's digits count. -/
def isDigit (c : Char) : Bool := c.isDigit

/-- An ASCII letter or digit, or the low line. -/
def isWord (c : Char) : Bool := c.isAlphanum || c == '_'

/-- What a transition is labelled with. -/
inductive Symbol where
  /-- Exactly this character. -/
  | char (c : Char)
  /-- Any ASCII digit. -/
  | digit
  /-- Any ASCII letter or digit, or the low line. -/
  | word
  /-- Any character that none of the members accepts. -/
  | noneOf (members : List Symbol)
  /-- Any character. -/
  | any
  /-- The end of the text, which is no character. -/
  | endOfLine
deriving Inhabited

namespace Symbol

mutual

/-- Whether a step along the symbol may consume the character. -/
def accepts : Symbol → Char → Bool
  | char x, c => x == c
  | digit, c => isDigit c
  | word, c => isWord c
  | noneOf members, c => !someAccepts members c
  | any, _ => true
  | endOfLine, _ => false

/-- Whether one of the symbols accepts the character. -/
def someAccepts : List Symbol → Char → Bool
  | [], _ => false
  | s :: rest, c => s.accepts c || someAccepts rest c

end

theorem someAccepts_eq_any (members : List Symbol) (c : Char) :
    someAccepts members c = members.any (·.accepts c) := by
  induction members with
  | nil => rfl
  | cons s rest ih => simp [someAccepts, ih]

theorem accepts_noneOf (members : List Symbol) (c : Char) :
    (noneOf members).accepts c = !members.any (·.accepts c) := by
  simp [accepts, someAccepts_eq_any]

/-- The symbols that a negated class may list: those that stand for
characters directly. -/
def isClassMember : Symbol → Bool
  | char _ | digit | word => true
  | noneOf _ | any | endOfLine => false

end Symbol

end LinePattern
