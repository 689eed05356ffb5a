/-
The states that are reached without reading anything.

`closureWith?` explores from the seeds with a stack and a set of the states
met so far, whatever that set was used for before. It fails only where it
meets a state that is missing, or one the set has no place for. Each round
takes one state from the stack, and a state enters the stack only when the
set had it not, so the room left in the set and the length of the stack
bound the number of rounds.
-/
import LinePattern.Nfa.SparseSet

namespace LinePattern

/-- Inserts the states, and puts those that were missing on the stack. -/
def SparseSet.pushFresh : List StateId → List StateId → SparseSet →
    Option (List StateId × SparseSet)
  | [], stack, seen => some (stack, seen)
  | id :: ids, stack, seen =>
    match seen.insert? id with
    | none => none
    | some (fresh, seen) => pushFresh ids (if fresh then id :: stack else stack) seen

theorem SparseSet.room_of_pushFresh {ids stack stack' : List StateId} {seen seen' : SparseSet}
    (h : pushFresh ids stack seen = some (stack', seen')) :
    seen'.room + stack'.length = seen.room + stack.length := by
  induction ids generalizing stack seen with
  | nil =>
    simp only [pushFresh, Option.some.injEq, Prod.mk.injEq] at h
    rw [h.1, h.2]
  | cons id ids ih =>
    unfold pushFresh at h
    split at h
    · simp at h
    · next fresh seen₁ hinsert =>
      have hroom := room_of_insert? hinsert
      rw [ih h]
      cases fresh <;> simp at hroom ⊢ <;> omega

namespace Nfa

/-- Explores from the states on the stack, all of which have been seen. -/
def explore (nfa : Nfa) (stack : List StateId) (seen : SparseSet) : Option SparseSet :=
  match stack with
  | [] => some seen
  | id :: rest =>
    match nfa.states[id]? with
    | none => none
    | some s =>
      match _h : SparseSet.pushFresh s.epsilons rest seen with
      | none => none
      | some (stack, seen) => explore nfa stack seen
termination_by seen.room + stack.length
decreasing_by
  have := SparseSet.room_of_pushFresh _h
  simp only [List.length_cons]
  omega

/-- The states reached from the seeds without reading anything, with the set
that was used to find them. -/
def closureWith? (nfa : Nfa) (seeds : List StateId) (scratch : SparseSet) :
    Option (List StateId × SparseSet) :=
  match SparseSet.pushFresh seeds [] scratch.clear with
  | none => none
  | some (stack, seen) => (nfa.explore stack seen).map fun seen => (seen.sorted, seen)

/-- The states reached from the seeds without reading anything, in increasing
order; `none` when one of them is missing. -/
def closure? (nfa : Nfa) (seeds : List StateId) : Option (List StateId) :=
  (nfa.closureWith? seeds (.empty nfa.size)).map (·.1)

end Nfa

end LinePattern
