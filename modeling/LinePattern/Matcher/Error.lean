/-
Why a pattern, or a list of patterns, has no matcher.
-/
import LinePattern.Pattern.Reader
import LinePattern.Pattern.Assemble
import LinePattern.Dfa.Subset

namespace LinePattern

/-- Why compiling failed. -/
inductive PatternError where
  /-- The pattern text cannot be read. -/
  | unreadable (error : SyntaxError)
  /-- The token stream describes no automaton. -/
  | malformed (error : BuildError)
  /-- The automaton needs more states than allowed. -/
  | tooManyStates (limit : Nat)
  /-- The automaton names a missing state. -/
  | missingState
deriving DecidableEq

namespace PatternError

def ofSubset : SubsetError → PatternError
  | .stateLimit limit => tooManyStates limit
  | .missingState => missingState

def message : PatternError → String
  | unreadable e => "invalid pattern: " ++ e.message
  | malformed e => "malformed token stream: " ++ e.message
  | tooManyStates limit =>
    "DFA construction exceeded the limit of " ++ toString limit ++ " states"
  | missingState => "the automaton names a missing state"

end PatternError

def SubsetError.message : SubsetError → String
  | stateLimit limit => "subset construction exceeded " ++ toString limit ++ " DFA states"
  | missingState => "the automaton names a missing state"

/-- The automaton of a pattern text. -/
def patternNfa (options : Options) (pattern : String) : Except PatternError Nfa := do
  let tokens ← (tokenize pattern).mapError .unreadable
  (Nfa.ofTokens options tokens).mapError .malformed

/-- The automata of pattern texts, or the error of the first that has none. -/
def patternNfas (options : Options) : List String → Except PatternError (List Nfa)
  | [] => .ok []
  | pattern :: rest => do
    let nfa ← patternNfa options pattern
    let nfas ← patternNfas options rest
    .ok (nfa :: nfas)

/-- The deterministic automaton of pattern texts that accepts for each of them
under its place in the list. -/
def patternsDfa (options : Options) (patterns : List String) : Except PatternError Dfa := do
  let nfas ← patternNfas options patterns
  ((Nfa.merge nfas).determinize options.maxStates).mapError .ofSubset

end LinePattern
