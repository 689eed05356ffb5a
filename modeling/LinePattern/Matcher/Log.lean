/-
The events of a compilation, and the lines they are logged as.

Every pattern that can be read is reported with its tokens. A construction is
reported when it succeeded. A set also reports its first pattern that has no
automaton, after which it looks at no more of them, and that it was given no
patterns.
-/
import LinePattern.Matcher.Single
import LinePattern.Matcher.Set

namespace LinePattern

/-- How important a line of the log is. -/
inductive LogLevel where
  | trace
  | debug
  | warn
deriving DecidableEq, Repr

/-- Something a compilation reports. -/
inductive Event where
  /-- A pattern was read. -/
  | read (pattern : String) (tokens : List Token)
  /-- The sizes of an automaton, its alphabet and its deterministic counterpart. -/
  | determinized (nfaStates symbols dfaStates : Nat)
  /-- A single pattern was compiled. -/
  | compiled (pattern : String) (nfaStates dfaStates : Nat)
  /-- A set was given no patterns. -/
  | emptySet
  /-- The pattern at a place in the list of a set has no automaton. -/
  | memberFailed (index : Nat) (error : PatternError)
  /-- A set was compiled. -/
  | setCompiled (patterns nfaStates dfaStates : Nat)
deriving DecidableEq

namespace Event

def level : Event → LogLevel
  | read _ _ => .trace
  | emptySet => .warn
  | determinized _ _ _ | compiled _ _ _ | memberFailed _ _ | setCompiled _ _ _ => .debug

/-- The sizes before and after determinisation. -/
def sizes (nfaStates dfaStates : Nat) : String :=
  toString nfaStates ++ " NFA states -> " ++ toString dfaStates ++ " DFA states"

def text : Event → String
  | read pattern tokens =>
    "parsed " ++ Text.quoteString pattern ++ " -> " ++ Token.displayAll tokens
  | determinized nfaStates symbols dfaStates =>
    "subset construction: " ++ toString nfaStates ++ " NFA states, " ++ toString symbols
      ++ " symbols -> " ++ toString dfaStates ++ " DFA states"
  | compiled pattern nfaStates dfaStates =>
    "compiled " ++ Text.quoteString pattern ++ ": " ++ sizes nfaStates dfaStates
  | emptySet => "compiling an empty pattern set; it will never match"
  | memberFailed index error =>
    "pattern " ++ toString index ++ " of the set failed to compile: " ++ error.message
  | setCompiled patterns nfaStates dfaStates =>
    "compiled pattern set: " ++ toString patterns ++ " patterns, " ++ sizes nfaStates dfaStates

/-- The events of reading one pattern. -/
def ofReading (pattern : String) : List Event :=
  match tokenize pattern with
  | .ok tokens => [read pattern tokens]
  | .error _ => []

/-- The events of building automata for the patterns of a set, the first of
which stands at place `index`. -/
def ofMembers (options : Options) (index : Nat) : List String → List Event
  | [] => []
  | pattern :: rest =>
    ofReading pattern ++
      match patternNfa options pattern with
      | .ok _ => ofMembers options (index + 1) rest
      | .error e => [memberFailed index e]

/-- The events of determinising what the patterns build, if that succeeds,
followed by the one that `last` makes of the sizes. -/
def ofConstruction (options : Options) (patterns : List String) (last : Nat → Nat → Event) :
    List Event :=
  match patternNfas options patterns with
  | .error _ => []
  | .ok nfas =>
    let nfa := Nfa.merge nfas
    match nfa.determinize options.maxStates with
    | .error _ => []
    | .ok dfa => [determinized nfa.size nfa.alphabet.length dfa.size, last nfa.size dfa.size]

end Event

/-- The events of compiling a single pattern. -/
def CompiledPattern.events (options : Options) (pattern : String) : List Event :=
  Event.ofReading pattern ++ Event.ofConstruction options [pattern] (.compiled pattern)

/-- The events of compiling a pattern set. -/
def PatternSet.events (options : Options) (patterns : List String) : List Event :=
  if patterns.isEmpty then [.emptySet]
  else
    Event.ofMembers options 0 patterns
      ++ Event.ofConstruction options patterns (.setCompiled patterns.length)

end LinePattern
