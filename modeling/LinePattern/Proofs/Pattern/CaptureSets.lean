/-
The edges of a capture set are transitions.

A group is recorded with the edges that are there when it closes. Every operator
keeps the transitions of its operands, under new numbers for the right one, and
renumbers the edges of the groups in the same way. So whatever is built along a
tree, a group never lists an edge that cannot be taken
(`TokenTree.capturesSteps`).
-/
import LinePattern.Proofs.Nfa.Path
import LinePattern.Proofs.Pattern.TokenTree

namespace LinePattern

namespace Nfa

variable {nfa other left right : Nfa}

/-- The edges of every capture set are transitions of the automaton. -/
def CapturesSteps (nfa : Nfa) : Prop :=
  ∀ set ∈ nfa.captures, ∀ e ∈ set.edges, nfa.Step e.source (some e.symbol) e.target

theorem CapturesSteps.of_steps (h : nfa.CapturesSteps) (hcaptures : other.captures = nfa.captures)
    (hsteps : ∀ {p label q}, nfa.Step p label q → other.Step p label q) : other.CapturesSteps :=
  fun set hset e he => hsteps (h set (hcaptures ▸ hset) e he)

theorem CapturesSteps.absorb (hl : left.CapturesSteps) (hr : right.CapturesSteps) :
    (left.absorb right).CapturesSteps := by
  intro set hset e he
  rw [step_absorb]
  rcases List.mem_append.1 hset with hset | hset
  · exact .inl (hl set hset e he)
  · obtain ⟨set', hset', rfl⟩ := List.mem_map.1 hset
    obtain ⟨e', he', rfl⟩ := List.mem_map.1 he
    exact .inr ⟨_, _, rfl, rfl, hr set' hset' e' he'⟩

theorem CapturesSteps.addState (h : nfa.CapturesSteps) : nfa.addState.CapturesSteps :=
  h.of_steps rfl step_addState.2

theorem CapturesSteps.addEpsilons (h : nfa.CapturesSteps) (steps : List (StateId × StateId)) :
    (nfa.addEpsilons steps).CapturesSteps :=
  h.of_steps (by rw [addEpsilons_eq]) fun hs => step_addEpsilons.2 (.inl hs)

theorem capturesSteps_ofSymbol (symbol : Symbol) : (ofSymbol symbol).CapturesSteps :=
  fun _ hset => by cases hset

theorem CapturesSteps.concat (hl : left.CapturesSteps) (hr : right.CapturesSteps) :
    (left.concat right).CapturesSteps :=
  (hl.absorb hr).addEpsilons _

theorem CapturesSteps.alt (hl : left.CapturesSteps) (hr : right.CapturesSteps) :
    (left.alt right).CapturesSteps :=
  (hl.absorb hr).addState.addState.addEpsilons _

theorem CapturesSteps.plus (h : nfa.CapturesSteps) : nfa.plus.CapturesSteps :=
  h.addState.addState.addEpsilons _

theorem CapturesSteps.star (h : nfa.CapturesSteps) : nfa.star.CapturesSteps :=
  h.plus.of_steps rfl fun hs => step_addEpsilon.2 (.inl hs)

theorem CapturesSteps.optional (h : nfa.CapturesSteps) : nfa.optional.CapturesSteps :=
  h.addEpsilons _

theorem CapturesSteps.negate (h : nfa.CapturesSteps) (mode : NegationMode) :
    (nfa.negate mode).CapturesSteps := by
  cases mode with
  | complement => exact capturesSteps_ofSymbol _
  | anyCharacter => exact h.addState.of_steps rfl fun hs => step_addTransition.2 (.inl hs)

theorem CapturesSteps.recordCapture (h : nfa.CapturesSteps) (group : Nat) :
    (nfa.recordCapture group).CapturesSteps := by
  intro set hset e he
  rcases List.mem_append.1 hset with hset | hset
  · exact h set hset e he
  · obtain rfl := List.mem_singleton.1 hset
    exact mem_edges.1 he

end Nfa

/-- The groups of an automaton that is built along a tree list transitions. -/
theorem TokenTree.capturesSteps (options : Options) (closed : Nat) (tree : TokenTree) :
    (tree.nfa options closed).CapturesSteps := by
  induction tree generalizing closed with
  | literal symbol => exact Nfa.capturesSteps_ofSymbol symbol
  | any => exact Nfa.capturesSteps_ofSymbol .any
  | endOfLine => exact Nfa.capturesSteps_ofSymbol .endOfLine
  | concat left right ihl ihr => exact (ihl _).concat (ihr _)
  | alt left right ihl ihr => exact (ihl _).alt (ihr _)
  | star body ih => exact (ih _).star
  | plus body ih => exact (ih _).plus
  | optional body ih => exact (ih _).optional
  | negate body ih => exact (ih _).negate _
  | capture group body ih => exact (ih _).recordCapture _

end LinePattern
