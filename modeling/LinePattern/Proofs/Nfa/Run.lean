/-
Runs, by the edges they take.

A path only says which word is read. A run says along which edges, so the
characters that it reads in a group can be told: those read along the edges for
which the group is the innermost one (`consumed`). This is what a capture is
meant to be, for a run that accepts.
-/
import LinePattern.Proofs.Nfa.Path

namespace LinePattern

namespace Nfa

variable {nfa : Nfa} {p q : StateId} {e : Edge} {es rest : List Edge} {v w : List Symbol}
  {group : Nat} {u : List Char} {c : Char}

/-- A run from one state to another that takes the edges in turn. Between them it
moves along nothing. -/
inductive Run (nfa : Nfa) : StateId → List Edge → StateId → Prop
  | nil {p q : StateId} : nfa.Path p [] q → Run nfa p [] q
  | cons {p q : StateId} {e : Edge} {es : List Edge} : nfa.Path p [] e.source →
    nfa.Step e.source (some e.symbol) e.target → Run nfa e.target es q → Run nfa p (e :: es) q

namespace Run

theorem path (h : nfa.Run p es q) : nfa.Path p (es.map (·.symbol)) q := by
  induction h with
  | nil hpath => exact hpath
  | cons hpath hs _ ih => exact hpath.trans (.symbol hs ih)

theorem split (h : nfa.Run p (es ++ rest) q) : ∃ r, nfa.Run p es r ∧ nfa.Run r rest q := by
  induction es generalizing p with
  | nil => exact ⟨p, .nil (.refl p), h⟩
  | cons e es ih =>
    cases h with
    | cons hpath hs hrest =>
      obtain ⟨r, hr, hrest⟩ := ih hrest
      exact ⟨r, .cons hpath hs hr, hrest⟩

end Run

/-- A word is read along some edges. -/
theorem path_iff_exists_run :
    nfa.Path p w q ↔ ∃ es, es.map (·.symbol) = w ∧ nfa.Run p es q := by
  constructor
  · intro h
    induction w generalizing p with
    | nil => exact ⟨[], rfl, .nil h⟩
    | cons s w ih =>
      rw [← List.singleton_append, Path.append_iff] at h
      obtain ⟨r, hs, hw⟩ := h
      obtain ⟨source, target, hbefore, hs, hbehind⟩ := Path.singleton_iff.1 hs
      obtain ⟨es, rfl, hrun⟩ := ih (hbehind.trans hw)
      exact ⟨⟨source, s, target⟩ :: es, rfl, .cons hbefore hs hrun⟩
  · rintro ⟨es, rfl, hrun⟩
    exact hrun.path

/-- The edge goes on from a state that the word leads to. -/
structure Leaves (nfa : Nfa) (v : List Symbol) (e : Edge) : Prop where
  mem_reach : e.source ∈ nfa.reach v
  step : nfa.Step e.source (some e.symbol) e.target

/-- An edge of a run goes on from the word that the run read before. -/
theorem Run.leaves (h : nfa.Run nfa.initial (es ++ e :: rest) q) :
    nfa.Leaves (es.map (·.symbol)) e := by
  obtain ⟨r, hr, hrest⟩ := h.split
  cases hrest with
  | cons hpath hs _ =>
    refine ⟨?_, hs⟩
    have hwhole := hr.path.trans hpath
    rwa [List.append_nil] at hwhole

/-! ## What a run consumes in a group -/

/-- The characters that are read along edges whose innermost group is the given
one, when the edges read the text one by one. -/
def consumed (nfa : Nfa) (group : Nat) (es : List Edge) (u : List Char) : List Char :=
  ((es.zip u).filter fun (e, _) => nfa.groupOf? e = some group).map (·.2)

theorem consumed_concat (hlength : es.length = u.length) :
    nfa.consumed group (es ++ [e]) (u ++ [c]) =
      nfa.consumed group es u ++ if nfa.groupOf? e = some group then [c] else [] := by
  rw [consumed, List.zip_append hlength, List.filter_append, List.map_append, consumed]
  by_cases hgroup : nfa.groupOf? e = some group
  · simp [hgroup]
  · simp [hgroup]

theorem consumed_concat_nil (hlength : es.length = u.length) :
    nfa.consumed group (es ++ [e]) u = nfa.consumed group es u := by
  have hzip : (es ++ [e]).zip (u ++ []) = es.zip u := by
    rw [List.zip_append hlength, List.zip_nil_right, List.append_nil]
  rw [List.append_nil] at hzip
  rw [consumed, hzip, consumed]

end Nfa

end LinePattern
