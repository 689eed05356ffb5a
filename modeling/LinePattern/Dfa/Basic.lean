/-
Deterministic automata with capture tags.

A state lists its steps in increasing order of their symbols, at most one for
each. A step may carry a capture group. What a scan credits when it moves to
a state is decided by the target alone: the group of the first step to it
that carries one.

Symbols may overlap, so a character can be accepted by several steps.
`DfaState.follow?` takes the most specific: the character itself, then a
class it belongs to, digits before words, then the first complement that
accepts it, then any character.
-/
import LinePattern.Nfa.Basic

namespace LinePattern

/-- One labelled step out of a deterministic state. -/
structure DfaStep where
  symbol : Symbol
  target : StateId
  /-- The capture group of the transitions behind the step. -/
  group : Option Nat
deriving DecidableEq

/-- A state of a deterministic automaton. -/
structure DfaState where
  /-- In increasing order of the symbols. -/
  steps : List DfaStep
  isFinal : Bool
  /-- The pattern for which the state accepts. -/
  pattern : Option PatternId
deriving DecidableEq

namespace DfaState

/-- The state without steps that does not accept. -/
def dead : DfaState := ⟨[], false, none⟩

/-- The target of the step with the symbol. -/
def next? (s : DfaState) (symbol : Symbol) : Option StateId :=
  (s.steps.find? (·.symbol = symbol)).map (·.target)

/-- The steps along complements, in order. -/
def exclusions (s : DfaState) : List DfaStep :=
  s.steps.filter fun step => match step.symbol with
    | .noneOf _ => true
    | _ => false

/-- The target of the first complement that accepts the character. -/
def nextExcluding? (s : DfaState) (c : Char) : Option StateId :=
  (s.exclusions.find? (·.symbol.accepts c)).map (·.target)

/-- The group that is credited for moving to `target`. -/
def groupInto? (s : DfaState) (target : StateId) : Option Nat :=
  s.steps.findSome? fun step => if step.target = target then step.group else none

/-- The state that the character leads to. -/
def follow? (s : DfaState) (c : Char) : Option StateId :=
  s.next? (.char c)
    <|> (if isDigit c then s.next? .digit else none)
    <|> (if isWord c then s.next? .word else none)
    <|> s.nextExcluding? c
    <|> s.next? .any

/-- The targets that are credited to a group, in increasing order, with the
group. -/
def groupTable (s : DfaState) : List (StateId × Nat) :=
  (s.steps.map (·.target)).eraseDups.mergeSort.filterMap fun target =>
    (s.groupInto? target).map (target, ·)

end DfaState

/-- A deterministic automaton. -/
structure Dfa where
  states : Array DfaState
  initial : StateId

namespace Dfa

/-- The automaton with one dead state, which rejects every text. -/
def empty : Dfa := ⟨#[.dead], 0⟩

def size (dfa : Dfa) : Nat := dfa.states.size

/-- The state of the given number. A missing state is dead. -/
def state (dfa : Dfa) (id : StateId) : DfaState := dfa.states.getD id .dead

/-- The state that a character leads to from the state `id`. -/
def findNext (dfa : Dfa) (id : StateId) (c : Char) : Option StateId := (dfa.state id).follow? c

end Dfa

end LinePattern
