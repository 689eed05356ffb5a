/-
What a matcher answers for a line, and what all matchers have in common.
-/
import LinePattern.Dfa.Scan

namespace LinePattern

/-- The answer for a line. Without a match there are no captures and there is
no payload. -/
structure Verdict (P : Type) where
  text : String
  matched : Bool
  /-- The text of each capture slot. -/
  captures : List String
  payload : Option P
deriving DecidableEq, Repr

namespace Verdict

/-- The verdict for a text with the given outcome, and the payload it has when
it matched. -/
def ofOutcome {P : Type} (text : String) (outcome : Outcome) (payload : Option P) : Verdict P :=
  if outcome.matched then ⟨text, true, outcome.captures, payload⟩ else ⟨text, false, [], none⟩

/-- The text of a capture group; `none` when it has no slot. -/
def capture? {P : Type} (verdict : Verdict P) (group : Nat) : Option String :=
  verdict.captures[group]?

end Verdict

/-- Something that lines can be matched with. A matcher may answer whether a
line matches in a shorter way than by its verdict. -/
class LineMatcher (M : Type) (P : outParam Type) where
  verdict : M → String → Verdict P
  isMatch : M → String → Bool := fun matcher text => (verdict matcher text).matched

/-- The place of the first line that matches. -/
def firstMatch? {M P : Type} [LineMatcher M P] (matcher : M) (lines : List String) : Option Nat :=
  lines.findIdx? (LineMatcher.isMatch matcher)

end LinePattern
