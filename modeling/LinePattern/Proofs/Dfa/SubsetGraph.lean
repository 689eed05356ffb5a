/-
The graph of the sets that words lead to.

Its vertices are the reachable sets, with an edge along a symbol to the set that
the symbol leads to (`Nfa.move`), and the set of the empty word as its root. An
automaton that is made from a table follows this graph, for whatever automaton
the table was completed (`Tabulates.run?`), and the order in which the sets are
met is breadth first (`Tabulates.breadthFirst`). So the states are numbered by
their least words, and the table depends on nothing but the graph
(`determinize_canonical`).
-/
import LinePattern.Proofs.Dfa.Labels
import LinePattern.Proofs.Dfa.Numbering

namespace LinePattern

namespace Nfa

variable {nfa other : Nfa} {p q : StateId} {s : Symbol} {v w : List Symbol}

/-- The vertices of the graph of an automaton. -/
def Vertex (nfa : Nfa) : Type := {S : Set StateId // nfa.Reachable S}

/-- An isomorphism between the graphs of two automata: it takes the root to the
root, and edges to edges along the same symbol. -/
structure GraphIso (nfa other : Nfa) where
  toEquiv : nfa.Vertex ≃ other.Vertex
  root_iff : ∀ S, S.val = nfa.reach [] ↔ (toEquiv S).val = other.reach []
  edge_iff : ∀ S s T, nfa.move S.val s = T.val ↔ other.move (toEquiv S).val s = (toEquiv T).val

namespace GraphIso

/-- The way back. -/
def symm (iso : GraphIso nfa other) : GraphIso other nfa where
  toEquiv := iso.toEquiv.symm
  root_iff S := by simpa using (iso.root_iff (iso.toEquiv.symm S)).symm
  edge_iff S s T := by simpa using (iso.edge_iff (iso.toEquiv.symm S) s (iso.toEquiv.symm T)).symm

/-- The set of a word is taken to the set of the same word. -/
theorem val_eq_reach (iso : GraphIso nfa other) {S : nfa.Vertex} (hS : S.val = nfa.reach w) :
    (iso.toEquiv S).val = other.reach w := by
  induction w using List.reverseRecOn generalizing S with
  | nil => exact (iso.root_iff S).1 hS
  | append_singleton w s ih =>
    have hread : nfa.Readable (w ++ [s]) := by
      rw [Readable, ← hS]
      exact S.property.nonempty
    let T : nfa.Vertex := ⟨nfa.reach w, reachable_reach hread.of_append⟩
    have hedge := (iso.edge_iff T s S).1 (reach_concat.symm.trans hS.symm)
    rw [ih (S := T) rfl] at hedge
    rw [reach_concat, hedge]

theorem readable (iso : GraphIso nfa other) (h : nfa.Readable w) : other.Readable w := by
  rw [Readable, ← iso.val_eq_reach (S := ⟨nfa.reach w, reachable_reach h⟩) rfl]
  exact (iso.toEquiv _).property.nonempty

theorem reach_eq (iso : GraphIso nfa other) (h : nfa.Readable w) (heq : nfa.reach v = nfa.reach w) :
    other.reach v = other.reach w := by
  let S : nfa.Vertex := ⟨nfa.reach w, reachable_reach h⟩
  rw [← iso.val_eq_reach (S := S) heq.symm, iso.val_eq_reach (S := S) rfl]

theorem reach_eq_iff (iso : GraphIso nfa other) :
    (nfa.reach v = nfa.reach w ∧ nfa.Readable w) ↔
      (other.reach v = other.reach w ∧ other.Readable w) :=
  ⟨fun ⟨heq, h⟩ => ⟨iso.reach_eq h heq, iso.readable h⟩,
    fun ⟨heq, h⟩ => ⟨iso.symm.reach_eq h heq, iso.symm.readable h⟩⟩

/-- The order in which a state lists its steps does not show in the graph. -/
theorem nonempty_of_step_iff (hinitial : nfa.initial = other.initial)
    (hstep : ∀ p label q, nfa.Step p label q ↔ other.Step p label q) :
    Nonempty (GraphIso nfa other) := by
  have hpath : ∀ p w q, nfa.Path p w q ↔ other.Path p w q := fun p w q =>
    ⟨Path.map (f := id) (hstep _ _ _).1, Path.map (f := id) (hstep _ _ _).2⟩
  have hreach : ∀ w, nfa.reach w = other.reach w := fun w => by
    ext q
    rw [mem_reach, mem_reach, hpath, hinitial]
  have hmove : ∀ S s, nfa.move S s = other.move S s := fun S s => by
    simp only [move, hpath, hstep]
  have hreachable : ∀ S, nfa.Reachable S ↔ other.Reachable S := fun S => by
    have halphabet : ∀ s, s ∈ nfa.alphabet ↔ s ∈ other.alphabet := fun s => by
      simp only [mem_alphabet, hstep]
    constructor
    · rintro ⟨hne, hclosed, w, hword, hw⟩
      exact ⟨hne, fun hp hs => hclosed hp ((hstep _ _ _).2 hs), w,
        fun s hs => (halphabet s).1 (hword s hs), hw.trans (hreach w)⟩
    · rintro ⟨hne, hclosed, w, hword, hw⟩
      exact ⟨hne, fun hp hs => hclosed hp ((hstep _ _ _).1 hs), w,
        fun s hs => (halphabet s).2 (hword s hs), hw.trans (hreach w).symm⟩
  exact ⟨{
    toEquiv := Equiv.subtypeEquivRight hreachable
    root_iff := fun S => by rw [hreach]; rfl
    edge_iff := fun S s T => by rw [hmove]; rfl }⟩

end GraphIso

end Nfa

namespace Subset

variable {nfa : Nfa} {limit : Option Nat} {table : Table} {dfa : Dfa} {id : StateId}
  {set target : List StateId} {s : Symbol} {v w : List Symbol}

/-! ## Tables follow the graph -/

theorem move_eq_of_closure?
    (h : nfa.closure? ((along s (edgesFrom nfa set)).map (·.target)) = some target) :
    nfa.move {q | q ∈ set} s = {q | q ∈ target} := by
  obtain ⟨-, -, hmem⟩ := Nfa.mem_closure? h
  ext q
  rw [mem_move_iff, Set.mem_ofPred_eq, hmem]
  simp only [List.mem_map, exists_exists_and_eq_and]

theorem reach_nil_of_closure? (h : nfa.closure? [nfa.initial] = some set) :
    nfa.reach [] = {q | q ∈ set} := by
  obtain ⟨-, -, hmem⟩ := Nfa.mem_closure? h
  ext q
  rw [Set.mem_ofPred_eq, hmem, Nfa.mem_reach]
  simp

namespace Tabulates

theorem exists_step (h : Tabulates nfa table dfa) {target : StateId}
    (hnext : (dfa.state id).next? s = some target) :
    ∃ set steps step, table.sets.toArray[id]? = some set ∧ table.rows[id]? = some steps ∧
      step ∈ steps ∧ step.symbol = s ∧ step.target = target := by
  obtain ⟨step, hstep, hsymbol, htarget⟩ := (DfaState.next?_eq_some_iff (h.sorted id)).1 hnext
  obtain ⟨set, steps, hset, hsteps, hstate⟩ := h.exists_row (Dfa.lt_size_of_mem_steps hstep)
  rw [hstate] at hstep
  exact ⟨set, steps, step, hset, hsteps, hstep, hsymbol, htarget⟩

/-- A step goes along an edge of the graph, and where there is none the graph
has no edge. -/
theorem next? (h : Tabulates nfa table dfa) (hset : table.sets.toArray[id]? = some set)
    (s : Symbol) :
    match (dfa.state id).next? s with
    | some target => ∃ set', table.sets.toArray[target]? = some set' ∧
        nfa.move {q | q ∈ set} s = {q | q ∈ set'} ∧ (nfa.move {q | q ∈ set} s).Nonempty
    | none => nfa.move {q | q ∈ set} s = ∅ := by
  cases hnext : (dfa.state id).next? s with
  | some target =>
    obtain ⟨_, steps, step, hset', hsteps, hstep, rfl, rfl⟩ := h.exists_step hnext
    rw [hset, Option.some.injEq] at hset'
    subst hset'
    have hrow := h.row hset hsteps
    obtain ⟨set', htarget, hclosure⟩ := hrow.target step hstep
    obtain ⟨e, he⟩ := hrow.exists_edge hstep
    exact ⟨set', htarget, move_eq_of_closure? hclosure, e.target,
      mem_move_iff.2 ⟨e, he, .refl _⟩⟩
  | none =>
    rw [Set.eq_empty_iff_forall_notMem]
    intro q hq
    obtain ⟨e, he, -⟩ := mem_move_iff.1 hq
    obtain ⟨steps, hsteps, hstate⟩ := h.state_eq hset
    obtain ⟨step, hstep, rfl⟩ := (h.row hset hsteps).exists_step he
    have hsome : ((dfa.state id).next? step.symbol).isSome = true :=
      DfaState.isSome_next?_of_mem (hstate ▸ hstep)
    rw [hnext] at hsome
    cases hsome

/-- A word that is read leads to its set, and no other word leads anywhere. -/
theorem run? (h : Tabulates nfa table dfa) (w : List Symbol) :
    match dfa.run? dfa.initial w with
    | some id => ∃ set, table.sets.toArray[id]? = some set ∧ nfa.reach w = {q | q ∈ set} ∧
        nfa.Readable w
    | none => ¬ nfa.Readable w := by
  induction w using List.reverseRecOn with
  | nil =>
    obtain ⟨set, hset, hclosure⟩ := h.start
    rw [← h.initial_eq] at hset
    exact ⟨set, hset, reach_nil_of_closure? hclosure, Nfa.readable_nil nfa⟩
  | append_singleton w s ih =>
    rw [Dfa.run?_concat]
    cases hrun : dfa.run? dfa.initial w with
    | none =>
      rw [hrun] at ih
      exact fun hread => ih hread.of_append
    | some id =>
      rw [hrun] at ih
      obtain ⟨set, hset, hreach, -⟩ := ih
      have hnext := h.next? hset s
      rw [Option.bind_some]
      rw [← hreach, ← Nfa.reach_concat] at hnext
      cases hstep : (dfa.state id).next? s with
      | none =>
        rw [hstep] at hnext
        exact Set.not_nonempty_iff_eq_empty.2 hnext
      | some target =>
        rw [hstep] at hnext
        exact hnext

theorem exists_set (h : Tabulates nfa table dfa) (hrun : dfa.run? dfa.initial w = some id) :
    ∃ set, table.sets.toArray[id]? = some set ∧ nfa.reach w = {q | q ∈ set} ∧ nfa.Readable w := by
  have hw := h.run? w
  rwa [hrun] at hw

theorem exists_run? (h : Tabulates nfa table dfa) (hread : nfa.Readable w) :
    ∃ id, dfa.run? dfa.initial w = some id := by
  have hw := h.run? w
  cases hrun : dfa.run? dfa.initial w with
  | some id => exact ⟨id, rfl⟩
  | none =>
    rw [hrun] at hw
    exact absurd hread hw

/-- Words meet in a state when they lead to one set. -/
theorem meet_iff (h : Tabulates nfa table dfa) :
    dfa.Meet v w ↔ nfa.reach v = nfa.reach w ∧ nfa.Readable w := by
  constructor
  · rintro ⟨id, hv, hw⟩
    obtain ⟨set, hset, hreach, -⟩ := h.exists_set hv
    obtain ⟨set', hset', hreach', hread⟩ := h.exists_set hw
    rw [hset, Option.some.injEq] at hset'
    subst hset'
    exact ⟨hreach.trans hreach'.symm, hread⟩
  · rintro ⟨heq, hread⟩
    have hread' : nfa.Readable v := by rwa [Nfa.Readable, heq]
    obtain ⟨i, hv⟩ := h.exists_run? hread'
    obtain ⟨j, hw⟩ := h.exists_run? hread
    obtain ⟨set, hset, hreach, -⟩ := h.exists_set hv
    obtain ⟨set', hset', hreach', -⟩ := h.exists_set hw
    have hmem : {q | q ∈ set} = {q | q ∈ set'} := hreach.symm.trans (heq.trans hreach')
    have hsame : set = set' := (h.listed.sorted hset).eq_of_mem_iff (h.listed.sorted hset')
      (Set.ext_iff.1 hmem)
    obtain rfl := h.listed.distinct hset (hsame ▸ hset')
    exact ⟨i, hv, hw⟩

/-- **Sets are met breadth first.** -/
theorem breadthFirst (h : Tabulates nfa table dfa) : dfa.BreadthFirst where
  initial_eq := h.initial_eq
  pos := by
    obtain ⟨set, hset, -⟩ := h.start
    exact h.dfa_size_eq ▸ (Array.getElem?_eq_some_iff.1 hset).1
  next?_lt {i s j} hnext := by
    obtain ⟨_, steps, step, -, hsteps, hstep, -, rfl⟩ := h.exists_step hnext
    exact h.dfa_size_eq ▸ h.target_lt hsteps hstep
  exists_discovers {j} hpos hj := by
    obtain ⟨i, steps, hi, hsteps, ⟨before, step, behind, hsplit, rfl, hbefore⟩, hearlier⟩ :=
      h.met hpos (h.dfa_size_eq ▸ hj)
    obtain ⟨_, steps', -, hsteps', hstate⟩ := h.exists_row (hi.trans hj)
    rw [hsteps, Option.some.injEq] at hsteps'
    subst hsteps'
    have hsorted := h.sorted i
    have hrow : (dfa.state i).steps = before ++ step :: behind := by rw [hstate, stateOf, hsplit]
    refine ⟨i, step.symbol, (DfaState.next?_eq_some_iff hsorted).2 ⟨step, by simp [hrow], rfl, rfl⟩,
      hi, fun {k t l} hnext horder => ?_⟩
    rcases horder with hk | ⟨rfl, hprecedes⟩
    · obtain ⟨_, row, other, -, hrow, hother, -, rfl⟩ := h.exists_step hnext
      exact hearlier k hk row hrow other hother
    · -- In the row itself, a step with a smaller symbol stands before this one.
      obtain ⟨other, hother, rfl, rfl⟩ := (DfaState.next?_eq_some_iff hsorted).1 hnext
      rcases hsorted.before_or_compare hrow hother with hother | rfl | hlater
      · exact hbefore other hother
      · exact absurd hprecedes (irrefl_of Symbol.Precedes _)
      · exact absurd hprecedes (asymm_of Symbol.Precedes hlater)

end Tabulates

/-- **The numbering is canonical.** The states are those that words lead to
from the first, in the order of the least words that lead to them. So the table
depends on the graph of the automaton alone: automata with isomorphic graphs
have the same table, whatever the order in which they list their steps, and
under whatever limits they were made. -/
theorem determinize_canonical (h : nfa.determinize limit = .ok dfa) :
    dfa.Canonical ∧
      ∀ other limit' dfa', Nfa.determinize other limit' = .ok dfa' →
        Nonempty (Nfa.GraphIso nfa other) →
        dfa'.size = dfa.size ∧ ∀ id s, (dfa'.state id).next? s = (dfa.state id).next? s := by
  obtain ⟨table, -, htable⟩ := tabulates_of_determinize h
  have hcanonical := htable.breadthFirst.canonical
  refine ⟨hcanonical, fun other limit' dfa' h' ⟨iso⟩ => ?_⟩
  obtain ⟨table', -, htable'⟩ := tabulates_of_determinize h'
  exact htable'.breadthFirst.canonical.eq_table hcanonical fun v w => by
    rw [htable.meet_iff, htable'.meet_iff, iso.reach_eq_iff]

/-- The same steps in another order, and a limit: one table, in which the state
behind `a` comes before the one behind `b`. -/
theorem determinize_canonical_reordered :
    let nfa : Nfa := ⟨#[{ transitions := [(.char 'b', 1), (.char 'a', 2)], epsilons := [1, 2] },
      { transitions := [(.any, 2)] }, {}], 0, [2], [], []⟩
    let other : Nfa := ⟨#[{ transitions := [(.char 'a', 2), (.char 'b', 1)], epsilons := [2, 1] },
      { transitions := [(.any, 2)] }, {}], 0, [2], [], []⟩
    ∃ dfa dfa', nfa.determinize none = .ok dfa ∧ other.determinize (some 3) = .ok dfa' ∧
      dfa.Canonical ∧ dfa.run? dfa.initial [.char 'a'] = some 1 ∧
      ∀ id s, (dfa'.state id).next? s = (dfa.state id).next? s := by
  intro nfa other
  have hrun : (nfa.determinize none).toOption.any (fun dfa =>
      dfa.run? dfa.initial [.char 'a'] = some 1) = true := by
    decide +kernel
  have hrun' : (other.determinize (some 3)).toOption.any (fun _ => true) = true := by
    decide +kernel
  obtain ⟨dfa, hdfa, hrun⟩ := exists_ok_of_any hrun
  obtain ⟨dfa', hdfa', -⟩ := exists_ok_of_any hrun'
  have hstep : ∀ p label q, nfa.Step p label q ↔ other.Step p label q := by
    intro p label q
    match p with
    | 0 => cases label <;> simp [nfa, other, Nfa.Step, Nfa.state, NfaState.Leads, or_comm]
    | 1 => rfl
    | p + 2 => rfl
  obtain ⟨hcanonical, htable⟩ := determinize_canonical hdfa
  obtain ⟨-, hnext⟩ := htable other _ _ hdfa' (Nfa.GraphIso.nonempty_of_step_iff rfl hstep)
  exact ⟨dfa, dfa', hdfa, hdfa', hcanonical, of_decide_eq_true hrun, hnext⟩

end Subset

end LinePattern
