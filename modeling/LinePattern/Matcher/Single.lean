/-
A single pattern, compiled.
-/
import LinePattern.Matcher.Error
import LinePattern.Matcher.Verdict

namespace LinePattern

/-- A compiled pattern. -/
structure CompiledPattern where
  pattern : String
  dfa : Dfa
  policy : MatchPolicy

namespace CompiledPattern

/-- Compiles a pattern. By default its scans stop at the first accepting
state. -/
def compile (options : Options) (pattern : String) : Except PatternError CompiledPattern := do
  let dfa ← patternsDfa options [pattern]
  .ok ⟨pattern, dfa, options.policyOr .first⟩

/-- Matches a text. A match carries the empty payload. -/
def verdict (compiled : CompiledPattern) (text : String) : Verdict Unit :=
  let outcome := compiled.dfa.scan compiled.policy text
  .ofOutcome text outcome (if outcome.matched then some () else none)

def isMatch (compiled : CompiledPattern) (text : String) : Bool :=
  (compiled.dfa.scan compiled.policy text).matched

instance : LineMatcher CompiledPattern Unit := ⟨verdict, isMatch⟩

end CompiledPattern

end LinePattern
