/-
Composition of automata: sequence, choice, repetition, negation and merging.

Every operator keeps the states of its left operand where they are, puts
those of the right one after them, and new states last. Written with `n` for
a new initial and `f` for a new final state:

    concat    left finals → right initial
    alt       n → left initial, n → right initial, finals → f
    plus      n → initial, finals → f, finals → initial
    star      plus, and n → f
    optional  initial → finals
-/
import LinePattern.Nfa.Basic
import LinePattern.Options

namespace LinePattern.Nfa

/-- `left`, then `right`. -/
def concat (left right : Nfa) : Nfa :=
  { (left.absorb right).addEpsilons (left.finals.map (·, right.initial + left.size)) with
    finals := right.finals.map (· + left.size) }

/-- `left` or `right`. -/
def alt (left right : Nfa) : Nfa :=
  let start := left.size + right.size
  let stop := start + 1
  let finals := left.finals ++ right.finals.map (· + left.size)
  { (left.absorb right).addState.addState.addEpsilons
      ([(start, left.initial), (start, right.initial + left.size)] ++ finals.map (·, stop)) with
    initial := start
    finals := [stop] }

/-- One or more times. -/
def plus (nfa : Nfa) : Nfa :=
  let start := nfa.size
  let stop := start + 1
  { nfa.addState.addState.addEpsilons
      ((start, nfa.initial) :: nfa.finals.flatMap fun f => [(f, stop), (f, nfa.initial)]) with
    initial := start
    finals := [stop] }

/-- Any number of times. -/
def star (nfa : Nfa) : Nfa := nfa.plus.addEpsilon nfa.size (nfa.size + 1)

/-- Once or not at all. -/
def optional (nfa : Nfa) : Nfa := nfa.addEpsilons (nfa.finals.map (nfa.initial, ·))

/-- The negation of a class whose members are the labels of `nfa`. -/
def negate (mode : NegationMode) (nfa : Nfa) : Nfa :=
  match mode with
  | .complement => ofSymbol (.excluding (nfa.edges.map (·.symbol)))
  | .anyCharacter =>
    { nfa.addState.addTransition nfa.initial nfa.size .any with finals := [nfa.size] }

/-- Adds an automaton to those merged already, as the one at place `i`. Its
final states are stamped with the place, and the initial state of the whole
leads to its own. -/
def addMember (merged : Nfa) (i : PatternId) (nfa : Nfa) : Nfa :=
  { (merged.absorb (nfa.stamp i)).addEpsilon merged.initial (nfa.initial + merged.size) with
    finals := merged.finals ++ nfa.finals.map (· + merged.size) }

/-- Adds automata to those merged already, the first of them at place `i`. -/
def mergeFrom (merged : Nfa) (i : PatternId) : List Nfa → Nfa
  | [] => merged
  | nfa :: rest => mergeFrom (merged.addMember i nfa) (i + 1) rest

/-- The automata as alternatives that remember which of them accepts. -/
def merge (automata : List Nfa) : Nfa := mergeFrom blank 0 automata

/-! ## Sizes -/

@[simp] theorem size_concat (left right : Nfa) :
    (left.concat right).size = left.size + right.size := by
  unfold concat
  exact (size_addEpsilons _ _).trans (size_absorb left right)

@[simp] theorem size_alt (left right : Nfa) :
    (left.alt right).size = left.size + right.size + 2 := by
  unfold alt
  exact (size_addEpsilons _ _).trans (by simp)

@[simp] theorem size_plus (nfa : Nfa) : nfa.plus.size = nfa.size + 2 := by
  unfold plus
  exact (size_addEpsilons _ _).trans (by simp)

@[simp] theorem size_star (nfa : Nfa) : nfa.star.size = nfa.size + 2 := by
  simp [star]

@[simp] theorem size_addMember (merged nfa : Nfa) (i : PatternId) :
    (merged.addMember i nfa).size = merged.size + nfa.size := by
  unfold addMember
  exact (size_addEpsilon _ _ _).trans (by simp)

@[simp] theorem size_optional (nfa : Nfa) : nfa.optional.size = nfa.size := by
  simp [optional]

end LinePattern.Nfa
