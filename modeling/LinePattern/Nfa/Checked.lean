/-
Composition of automata that were put together by hand, whose names may be
those of missing states. Each operation here is the one of the same name
without the mark, and refuses an operand in which it would have to add a
transition to a missing state.
-/
import LinePattern.Nfa.Operators

namespace LinePattern.Nfa

def addTransition? (nfa : Nfa) (source target : StateId) (symbol : Symbol) : Option Nfa :=
  if source < nfa.size then some (nfa.addTransition source target symbol) else none

def addEpsilon? (nfa : Nfa) (source target : StateId) : Option Nfa :=
  if source < nfa.size then some (nfa.addEpsilon source target) else none

/-- A final state of `left` may also be one that `right` brings. -/
def concat? (left right : Nfa) : Option Nfa :=
  if left.finals.all (· < left.size + right.size) then some (left.concat right) else none

/-- A final state may also be one of the two new states. -/
def alt? (left right : Nfa) : Option Nfa :=
  if left.finals.all (· < left.size + right.size + 2) && right.finals.all (· < right.size + 2) then
    some (left.alt right)
  else none

/-- A final state may also be one of the two new states. -/
def plus? (nfa : Nfa) : Option Nfa :=
  if nfa.finals.all (· < nfa.size + 2) then some nfa.plus else none

/-- A final state may also be one of the two new states. -/
def star? (nfa : Nfa) : Option Nfa :=
  if nfa.finals.all (· < nfa.size + 2) then some nfa.star else none

/-- Without final states there is nothing to add. -/
def optional? (nfa : Nfa) : Option Nfa :=
  if nfa.finals.isEmpty || nfa.initial < nfa.size then some nfa.optional else none

/-- The initial state may also be the new state. -/
def negate? (mode : NegationMode) (nfa : Nfa) : Option Nfa :=
  if mode = .complement || nfa.initial ≤ nfa.size then some (nfa.negate mode) else none

/-- The initial state of those merged already may also be one that the new member brings. -/
def addMember? (merged : Nfa) (i : PatternId) (nfa : Nfa) : Option Nfa :=
  if merged.initial < merged.size + nfa.size then some (merged.addMember i nfa) else none

def mergeFrom? (merged : Nfa) (i : PatternId) : List Nfa → Option Nfa
  | [] => some merged
  | nfa :: rest => (merged.addMember? i nfa).bind (mergeFrom? · (i + 1) rest)

def merge? (automata : List Nfa) : Option Nfa := mergeFrom? blank 0 automata

end LinePattern.Nfa
