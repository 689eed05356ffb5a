/-
Determinisation: one deterministic state for every set of nondeterministic
states that some word of symbols leads to.

The sets are numbered as they are met, and the rows of the table, one for
each set, are completed in that order. So the first set without a row is the
next to complete, and the construction is over when there is none. A row has
a step for each symbol that leads anywhere: to the closure of its targets,
with the group of the first transition that belongs to one.

Symbols are labels here, whatever characters they share; which label a
character follows is for the scan to decide.
-/
import LinePattern.Nfa.Closure
import LinePattern.Dfa.Basic
import LinePattern.Dfa.StateSets

namespace LinePattern

/-- Why an automaton has no deterministic counterpart. -/
inductive SubsetError where
  /-- There are more deterministic states than allowed. -/
  | stateLimit (limit : Nat)
  /-- A transition that had to be followed names a missing state. -/
  | missingState
deriving DecidableEq, Repr

namespace Subset

/-- The sets met so far, and the rows of the first of them. -/
structure Table where
  sets : StateSets
  rows : Array (List DfaStep)

/-- The number of a set, which is added unless it is there. -/
def intern (limit : Option Nat) (sets : StateSets) (set : List StateId) :
    Except SubsetError (StateId × StateSets) :=
  match sets.number? set with
  | some id => .ok (id, sets)
  | none =>
    match limit with
    | some limit =>
      if sets.size < limit then .ok (sets.size, sets.push set) else .error (.stateLimit limit)
    | none => .ok (sets.size, sets.push set)

/-- The transitions that leave the states of a set, state by state. -/
def edgesFrom (nfa : Nfa) (set : List StateId) : List Edge :=
  set.flatMap fun id => (nfa.state id).transitions.map fun (symbol, target) => ⟨id, symbol, target⟩

/-- The closure of the states, or the error that one is missing. -/
def closure (nfa : Nfa) (seeds : List StateId) : Except SubsetError (List StateId) :=
  match nfa.closure? seeds with
  | some set => .ok set
  | none => .error .missingState

/-- The steps along the symbols out of a set that the edges leave, and the
sets known after. -/
def row (nfa : Nfa) (limit : Option Nat) (edges : List Edge) :
    List Symbol → StateSets → Except SubsetError (List DfaStep × StateSets)
  | [], sets => .ok ([], sets)
  | symbol :: rest, sets =>
    match edges.filter (·.symbol = symbol) with
    | [] => row nfa limit edges rest sets
    | e :: more => do
      let target ← closure nfa (e.target :: more.map (·.target))
      let (id, sets) ← intern limit sets target
      let (steps, sets) ← row nfa limit edges rest sets
      .ok (⟨symbol, id, (e :: more).findSome? nfa.groupOf?⟩ :: steps, sets)

/-- Completes the table, in at most the given number of rows. -/
def complete (nfa : Nfa) (limit : Option Nat) (alphabet : List Symbol) :
    Nat → Table → Except SubsetError Table
  | 0, table => .ok table
  | fuel + 1, ⟨sets, rows⟩ =>
    match sets.toArray[rows.size]? with
    | none => .ok ⟨sets, rows⟩
    | some set => do
      let (steps, sets) ← row nfa limit (edgesFrom nfa set) alphabet sets
      complete nfa limit alphabet fuel ⟨sets, rows.push steps⟩

/-- The pattern for which a set accepts: the first of those for which its
final states do. -/
def patternOf? (nfa : Nfa) (set : List StateId) : Option PatternId :=
  ((set.filter nfa.isFinal).filterMap nfa.trace?).min?

/-- The deterministic state for a set and its row. -/
def stateOf (nfa : Nfa) (set : List StateId) (steps : List DfaStep) : DfaState :=
  ⟨steps, set.any nfa.isFinal, patternOf? nfa set⟩

/-- The completed table. Its sets hold states of the automaton in increasing
order, so there are at most as many as the automaton has sets of states. -/
def table (nfa : Nfa) (limit : Option Nat) : Except SubsetError Table := do
  let start ← closure nfa [nfa.initial]
  let (_, sets) ← intern limit .empty start
  complete nfa limit nfa.alphabet (Nat.pow 2 nfa.size) ⟨sets, #[]⟩

end Subset

/-- The deterministic automaton for the same words of symbols, unless it has
more states than `limit`. -/
def Nfa.determinize (nfa : Nfa) (limit : Option Nat) : Except SubsetError Dfa := do
  let table ← Subset.table nfa limit
  .ok ⟨(table.sets.toArray.zip table.rows).map fun (set, steps) => Subset.stateOf nfa set steps, 0⟩

end LinePattern
