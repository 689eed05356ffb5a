/-
The choices a pattern is compiled with. They never change which patterns are
accepted, only what a negated class stands for, how groups are numbered, when
a scan stops, and how large an automaton may grow.
-/

namespace LinePattern

/-- What a negated class matches. -/
inductive NegationMode where
  /-- The characters that no member of the class accepts. -/
  | complement
  /-- Any character. The members keep their own transitions, which lead to
  dead ends. -/
  | anyCharacter
deriving DecidableEq, Repr, Inhabited

/-- How capture groups are numbered, from zero. -/
inductive GroupNumbering where
  /-- In the order of their opening parentheses. -/
  | byOpening
  /-- In the order of their closing parentheses. -/
  | byClosing
deriving DecidableEq, Repr, Inhabited

/-- When a scan that has reached an accepting state stops. -/
inductive MatchPolicy where
  /-- At the first accepting state. -/
  | first
  /-- At the first step after it that no capture group claims. -/
  | earlyExit
  /-- At the end of the text or a dead end; the last accepting state counts. -/
  | longest
deriving DecidableEq, Repr, Inhabited

/-- The choices for one compilation. -/
structure Options where
  negation : NegationMode := .complement
  numbering : GroupNumbering := .byOpening
  /-- Without a choice each kind of matcher uses its own policy. -/
  policy : Option MatchPolicy := none
  /-- The largest number of deterministic states, if there is a limit. -/
  maxStates : Option Nat := none
deriving DecidableEq, Repr, Inhabited

/-- The chosen policy, or the given one when none was chosen. -/
def Options.policyOr (options : Options) (default : MatchPolicy) : MatchPolicy :=
  options.policy.getD default

end LinePattern
