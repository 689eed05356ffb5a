/-
Nondeterministic automata with capture groups and traces.

The states of an automaton are numbered from zero, and everything else in it
names them by number: transitions, the initial and final states, the edges of
a capture group, and the traces, which say for which pattern a final state
accepts. Nothing keeps a name from being that of a missing state; such a name
is an error only where it is followed.

`absorb` puts the states of a second automaton after those of the first, so
every name in the second one grows by the size of the first.
-/
import LinePattern.Symbol.Order

namespace LinePattern

/-- The number of a state. An automaton is assumed to have fewer than 2^32
states, so that these numbers never wrap around. -/
abbrev StateId := Nat

/-- The number of a pattern in the list it was compiled with, which is assumed
to have fewer than 2^32 patterns. A number from outside goes through `ofWord`. -/
abbrev PatternId := Nat

/-- The pattern that a number from outside names. Only the low 32 bits of such
a number count. -/
def PatternId.ofWord (n : Nat) : PatternId := n.toUInt32.toNat

/-- One labelled transition. -/
structure Edge where
  source : StateId
  symbol : Symbol
  target : StateId
deriving DecidableEq

namespace Edge

/-- The edge in an automaton that has `offset` other states before. -/
def shift (offset : Nat) (e : Edge) : Edge :=
  ⟨e.source + offset, e.symbol, e.target + offset⟩

/-- Compares edges by source, then symbol, then target. -/
def compare (e f : Edge) : Ordering :=
  (Ord.compare e.source f.source).then
    ((e.symbol.compare f.symbol).then (Ord.compare e.target f.target))

/-- The edges in increasing order. -/
def sort (edges : List Edge) : List Edge :=
  edges.mergeSort fun e f => e.compare f != .gt

end Edge

/-- A capture group: the number of its slot, and the edges that were built
inside its parentheses. -/
structure CaptureSet where
  group : Nat
  edges : List Edge

def CaptureSet.shift (offset : Nat) (set : CaptureSet) : CaptureSet :=
  ⟨set.group, set.edges.map (·.shift offset)⟩

/-- The transitions that leave a state, in the order they were added. -/
structure NfaState where
  transitions : List (Symbol × StateId) := []
  /-- The states reached without reading anything. -/
  epsilons : List StateId := []

namespace NfaState

/-- The targets of the transitions with a symbol. -/
def targets (s : NfaState) (symbol : Symbol) : List StateId :=
  (s.transitions.filter (·.1 = symbol)).map (·.2)

def addTransition (s : NfaState) (symbol : Symbol) (target : StateId) : NfaState :=
  if (symbol, target) ∈ s.transitions then s
  else { s with transitions := s.transitions ++ [(symbol, target)] }

def addEpsilon (s : NfaState) (target : StateId) : NfaState :=
  if target ∈ s.epsilons then s else { s with epsilons := s.epsilons ++ [target] }

def shift (offset : Nat) (s : NfaState) : NfaState :=
  ⟨s.transitions.map fun t => (t.1, t.2 + offset), s.epsilons.map (· + offset)⟩

/-- The targets of each symbol that labels a transition, by symbol. -/
def targetsBySymbol (s : NfaState) : List (Symbol × List StateId) :=
  (Symbol.sortedSet (s.transitions.map (·.1))).map fun symbol => (symbol, s.targets symbol)

end NfaState

/-- A nondeterministic automaton. -/
structure Nfa where
  states : Array NfaState
  initial : StateId
  finals : List StateId
  /-- The groups in the order in which they were recorded. -/
  captures : List CaptureSet
  /-- The patterns for which states accept, the newest stamp first. -/
  traces : List (StateId × PatternId)

namespace Nfa

/-- The automaton with one state, which does not accept. -/
def blank : Nfa := ⟨#[{}], 0, [], [], []⟩

/-- The automaton that accepts one symbol. -/
def ofSymbol (symbol : Symbol) : Nfa := ⟨#[{ transitions := [(symbol, 1)] }, {}], 0, [1], [], []⟩

def size (nfa : Nfa) : Nat := nfa.states.size

/-! ## Views -/

/-- The state of the given number. A missing state has no transitions. -/
def state (nfa : Nfa) (id : StateId) : NfaState := nfa.states.getD id {}

def isFinal (nfa : Nfa) (id : StateId) : Bool := nfa.finals.contains id

/-- The pattern for which a state accepts: the one it was stamped with last. -/
def trace? (nfa : Nfa) (id : StateId) : Option PatternId := nfa.traces.lookup id

/-- The stamped states in increasing order, each with its pattern. A stamp on
a missing state shows when the state is added. -/
def traceTable (nfa : Nfa) : List (StateId × PatternId) :=
  (List.range nfa.size).filterMap fun id => (nfa.trace? id).map (id, ·)

/-- The labelled transitions, state by state. -/
def edges (nfa : Nfa) : List Edge :=
  nfa.states.toList.zipIdx.flatMap fun (s, id) => s.transitions.map fun (symbol, target) =>
    ⟨id, symbol, target⟩

/-- The symbols that label a transition, in increasing order. -/
def alphabet (nfa : Nfa) : List Symbol := Symbol.sortedSet (nfa.edges.map (·.symbol))

/-- The group of an edge: that of the first recorded set it belongs to. A
group is recorded when it closes, so this is the innermost group around the
edge. -/
def groupOf? (nfa : Nfa) (e : Edge) : Option Nat :=
  (nfa.captures.find? (·.edges.contains e)).map (·.group)

/-! ## Growing an automaton -/

/-- Adds a state, whose number is the size of the automaton before. -/
def addState (nfa : Nfa) : Nfa := { nfa with states := nfa.states.push {} }

/-- Adds a transition, unless it is there. A missing source gets none. -/
def addTransition (nfa : Nfa) (source target : StateId) (symbol : Symbol) : Nfa :=
  { nfa with states := nfa.states.modify source (·.addTransition symbol target) }

/-- Adds a step that reads nothing, unless it is there. A missing source gets
none. -/
def addEpsilon (nfa : Nfa) (source target : StateId) : Nfa :=
  { nfa with states := nfa.states.modify source (·.addEpsilon target) }

/-- Adds steps that read nothing, in the given order. -/
def addEpsilons (nfa : Nfa) : List (StateId × StateId) → Nfa
  | [] => nfa
  | (source, target) :: rest => (nfa.addEpsilon source target).addEpsilons rest

/-- Makes the edges present now a capture group. -/
def recordCapture (nfa : Nfa) (group : Nat) : Nfa :=
  { nfa with captures := nfa.captures ++ [⟨group, nfa.edges⟩] }

/-- Lets the final states accept for a pattern. -/
def stamp (nfa : Nfa) (pattern : PatternId) : Nfa :=
  { nfa with traces := nfa.finals.map (·, pattern) ++ nfa.traces }

/-- Puts the states of `other` after those of `nfa`, with its groups and
traces. The initial and the final states remain those of `nfa`. -/
def absorb (nfa other : Nfa) : Nfa :=
  { nfa with
    states := nfa.states ++ other.states.map (·.shift nfa.size)
    captures := nfa.captures ++ other.captures.map (·.shift nfa.size)
    traces := other.traces.map (fun t => (t.1 + nfa.size, t.2)) ++ nfa.traces }

/-! ## What growing keeps -/

@[simp] theorem size_blank : blank.size = 1 := rfl

@[simp] theorem size_ofSymbol (symbol : Symbol) : (ofSymbol symbol).size = 2 := rfl

@[simp] theorem size_addState (nfa : Nfa) : nfa.addState.size = nfa.size + 1 := by
  simp [size, addState]

@[simp] theorem size_addTransition (nfa : Nfa) (source target : StateId) (symbol : Symbol) :
    (nfa.addTransition source target symbol).size = nfa.size := by
  simp [size, addTransition]

@[simp] theorem size_addEpsilon (nfa : Nfa) (source target : StateId) :
    (nfa.addEpsilon source target).size = nfa.size := by
  simp [size, addEpsilon]

@[simp] theorem size_addEpsilons (nfa : Nfa) (steps : List (StateId × StateId)) :
    (nfa.addEpsilons steps).size = nfa.size := by
  induction steps generalizing nfa with
  | nil => rfl
  | cons step rest ih => simp [addEpsilons, ih]

@[simp] theorem size_recordCapture (nfa : Nfa) (group : Nat) :
    (nfa.recordCapture group).size = nfa.size := rfl

@[simp] theorem size_stamp (nfa : Nfa) (pattern : PatternId) :
    (nfa.stamp pattern).size = nfa.size := rfl

@[simp] theorem size_absorb (nfa other : Nfa) :
    (nfa.absorb other).size = nfa.size + other.size := by
  simp [size, absorb]

theorem addEpsilons_eq (nfa : Nfa) (steps : List (StateId × StateId)) :
    nfa.addEpsilons steps = { nfa with states := (nfa.addEpsilons steps).states } := by
  induction steps generalizing nfa with
  | nil => rfl
  | cons step rest ih =>
    rw [addEpsilons, ih]
    rfl

end Nfa

end LinePattern
