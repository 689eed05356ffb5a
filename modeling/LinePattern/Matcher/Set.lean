/-
Several patterns with payloads, compiled into one automaton.

All patterns are followed by one scan. Where several accept at the same
place, the one that stands first in the list wins, and its payload is the
answer. Capture groups are numbered in each pattern by itself.
-/
import LinePattern.Matcher.Error
import LinePattern.Matcher.Verdict

namespace LinePattern

/-- Compiled patterns with their payloads. -/
structure PatternSet (P : Type) where
  patterns : List (String × P)
  dfa : Dfa
  policy : MatchPolicy

namespace PatternSet

variable {P : Type}

/-- By default the scans of a set go on after an accepting state only for a
capture group. -/
def policyOf (options : Options) : MatchPolicy := options.policyOr .earlyExit

/-- The set without patterns, which never matches. -/
def empty (options : Options) : PatternSet P := ⟨[], .empty, policyOf options⟩

/-- Compiles patterns. No patterns make the empty set, whatever the limit on
states. -/
def compile (options : Options) (patterns : List (String × P)) :
    Except PatternError (PatternSet P) :=
  if patterns.isEmpty then .ok (empty options)
  else do
    let dfa ← patternsDfa options (patterns.map (·.1))
    .ok ⟨patterns, dfa, policyOf options⟩

def size (set : PatternSet P) : Nat := set.patterns.length

def isEmpty (set : PatternSet P) : Bool := set.patterns.isEmpty

/-- The payload of the pattern at a place in the list. -/
def payload? (set : PatternSet P) (id : PatternId) : Option P :=
  set.patterns[id]?.map (·.2)

/-- Matches a text. A match carries the payload of the winning pattern. -/
def verdict (set : PatternSet P) (text : String) : Verdict P :=
  let outcome := set.dfa.scan set.policy text
  .ofOutcome text outcome (outcome.pattern.bind set.payload?)

def isMatch (set : PatternSet P) (text : String) : Bool :=
  (set.dfa.scan set.policy text).matched

instance : LineMatcher (PatternSet P) P := ⟨verdict, isMatch⟩

end PatternSet

end LinePattern
