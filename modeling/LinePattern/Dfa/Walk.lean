/-
The path of a text through a deterministic automaton.

`walk` lists the states entered, as far as the characters lead. It is shorter
than the text exactly when it ends at a dead end. A policy makes the visits
at the front of it: `visitsUnder` says how far a scan goes.
-/
import LinePattern.Dfa.Basic
import LinePattern.Options

namespace LinePattern

/-- A state entered on the way, and the group credited for entering it. -/
structure Visit where
  state : StateId
  group : Option Nat
deriving DecidableEq, Repr

namespace Dfa

/-- The states entered from the state `id` on. -/
def walkFrom (dfa : Dfa) (id : StateId) : List Char → List Visit
  | [] => []
  | c :: rest =>
    match dfa.findNext id c with
    | none => []
    | some target => ⟨target, (dfa.state id).groupInto? target⟩ :: dfa.walkFrom target rest

/-- The states entered from the initial state on. -/
def walk (dfa : Dfa) (text : String) : List Visit := dfa.walkFrom dfa.initial text.toList

/-- The state after a walk that starts in the state `id`. -/
def lastState (id : StateId) (visits : List Visit) : StateId :=
  (visits.getLast?.map (·.state)).getD id

/-- The visits, of those on a path, that a scan makes: up to the first
accepting state, past it along steps that belong to a group, or all. -/
def visitsUnder (dfa : Dfa) (policy : MatchPolicy) (visits : List Visit) : List Visit :=
  let accepts (visit : Visit) := (dfa.state visit.state).isFinal
  let before := visits.takeWhile (!accepts ·)
  let after := visits.dropWhile (!accepts ·)
  match policy with
  | .first => before ++ after.take 1
  | .earlyExit => before ++ after.take 1 ++ (after.drop 1).takeWhile (·.group.isSome)
  | .longest => visits

theorem length_walkFrom_le (dfa : Dfa) (id : StateId) (cs : List Char) :
    (dfa.walkFrom id cs).length ≤ cs.length := by
  induction cs generalizing id with
  | nil => simp [walkFrom]
  | cons c rest ih =>
    unfold walkFrom
    split
    · simp
    · simpa using ih _

end Dfa

end LinePattern
