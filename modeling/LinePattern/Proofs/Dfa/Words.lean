/-
Words of symbols through the automaton that the subset construction builds.

Following the steps of a word goes from set to set (`Numbered.run?`): it leads
to the state for the set that the word leads to, and nowhere exactly when the
set is empty. `determinize_correct` puts the construction together: its states
are the reachable sets, and each says of its set what there is to say.
-/
import LinePattern.Proofs.Dfa.Subset

namespace LinePattern

namespace Dfa

/-- The state that a word of symbols leads to from the state `id`. -/
def run? (dfa : Dfa) (id : StateId) : List Symbol → Option StateId
  | [] => some id
  | symbol :: word =>
    match (dfa.state id).next? symbol with
    | none => none
    | some target => dfa.run? target word

theorem state_of_size_le {dfa : Dfa} {id : StateId} (h : dfa.size ≤ id) :
    dfa.state id = .dead := by
  rw [state, Array.getD_eq_getD_getElem?, Array.getElem?_eq_none h, Option.getD_none]

theorem lt_size_of_mem_steps {dfa : Dfa} {id : StateId} {step : DfaStep}
    (h : step ∈ (dfa.state id).steps) : id < dfa.size := by
  by_contra hge
  rw [state_of_size_le (Nat.le_of_not_lt hge)] at h
  cases h

theorem state_mem_of_mem_steps {dfa : Dfa} {id : StateId} {step : DfaStep}
    (h : step ∈ (dfa.state id).steps) : dfa.state id ∈ dfa.states := by
  have hid := lt_size_of_mem_steps h
  rw [state, Array.getD_eq_getD_getElem?, Array.getElem?_eq_getElem hid, Option.getD_some]
  exact Array.getElem_mem hid

end Dfa

namespace Nfa

variable {nfa : Nfa} {w : List Symbol}

/-- A set of states that some word over the alphabet leads to. -/
structure Reachable (nfa : Nfa) (S : Set StateId) : Prop where
  nonempty : S.Nonempty
  closed : ∀ {p q}, p ∈ S → nfa.Step p none q → q ∈ S
  word : ∃ w, (∀ s ∈ w, s ∈ nfa.alphabet) ∧ S = nfa.reach w

/-- The patterns for which the final states in the set accept. -/
def patterns (nfa : Nfa) (S : Set StateId) : Set PatternId :=
  {p | ∃ f ∈ S, f ∈ nfa.finals ∧ nfa.trace? f = some p}

theorem reach_closed {p q : StateId} (hp : p ∈ nfa.reach w) (h : nfa.Step p none q) :
    q ∈ nfa.reach w := by
  have hpath := Path.trans hp (.skip h)
  rwa [List.append_nil] at hpath

end Nfa

namespace Subset

variable {nfa : Nfa} {dfa : Dfa} {sets : StateSets} {set : List StateId} {id : StateId}
  {v w : List Symbol} {steps : List DfaStep}

/-! ## What a state says of its set -/

theorem isFinal_stateOf : (stateOf nfa set steps).isFinal = true ↔ ∃ f ∈ set, f ∈ nfa.finals := by
  simp only [stateOf, List.any_eq_true, Nfa.isFinal, List.contains_iff_mem]

theorem mem_patterns_iff {p : PatternId} :
    p ∈ (set.filter nfa.isFinal).filterMap nfa.trace? ↔ p ∈ nfa.patterns {q | q ∈ set} := by
  simp only [List.mem_filterMap, List.mem_filter, Nfa.isFinal, List.contains_iff_mem, and_assoc]
  rfl

theorem pattern_stateOf_eq_some {p : PatternId} :
    (stateOf nfa set steps).pattern = some p ↔ IsLeast (nfa.patterns {q | q ∈ set}) p := by
  rw [stateOf, patternOf?, List.min?_eq_some_iff]
  simp only [mem_patterns_iff]
  rfl

theorem pattern_stateOf_eq_none :
    (stateOf nfa set steps).pattern = none ↔ nfa.patterns {q | q ∈ set} = ∅ := by
  rw [stateOf, patternOf?, List.min?_eq_none_iff, Set.eq_empty_iff_forall_notMem,
    List.eq_nil_iff_forall_not_mem]
  simp only [mem_patterns_iff]

/-! ## Steps and words -/

theorem Numbered.of_mem_steps (hwf : nfa.WellFormed) (h : Numbered nfa sets dfa)
    (hset : sets.toArray[id]? = some set) (hw : nfa.Lists w set) {step : DfaStep}
    (hstep : step ∈ (dfa.state id).steps) :
    step.symbol ∈ nfa.alphabet ∧
      ∃ set', sets.toArray[step.target]? = some set' ∧ nfa.Lists (w ++ [step.symbol]) set' := by
  obtain ⟨steps, hstate, hrow⟩ := h.state hset
  rw [hstate] at hstep
  have hsymbol : step.symbol ∈ steps.map (·.symbol) := List.mem_map.2 ⟨step, hstep, rfl⟩
  rw [hrow.symbols_eq] at hsymbol
  obtain ⟨set', hset', hclosure⟩ := hrow.target step hstep
  exact ⟨List.mem_of_mem_filter hsymbol, set', hset', lists_concat hwf hw hclosure⟩

theorem Numbered.exists_step (h : Numbered nfa sets dfa) (hset : sets.toArray[id]? = some set)
    (hw : nfa.Lists w set) {symbol : Symbol} (hne : nfa.reach (w ++ [symbol]) ≠ ∅) :
    ∃ step ∈ (dfa.state id).steps, step.symbol = symbol := by
  obtain ⟨steps, hstate, hrow⟩ := h.state hset
  have hsome : along symbol (edgesFrom nfa set) ≠ [] := fun hnone =>
    hne (reach_concat_eq_empty hw hnone)
  obtain ⟨e, he⟩ := List.exists_mem_of_ne_nil _ hsome
  rw [hstate]
  exact hrow.exists_step he

theorem Numbered.next? (hwf : nfa.WellFormed) (h : Numbered nfa sets dfa)
    (hset : sets.toArray[id]? = some set) (hw : nfa.Lists w set) (symbol : Symbol) :
    match (dfa.state id).next? symbol with
    | some target => ∃ set', sets.toArray[target]? = some set' ∧ nfa.Lists (w ++ [symbol]) set'
    | none => nfa.reach (w ++ [symbol]) = ∅ := by
  rw [DfaState.next?]
  cases hfind : (dfa.state id).steps.find? (·.symbol = symbol) with
  | some step =>
    obtain rfl : step.symbol = symbol := by simpa using List.find?_some hfind
    exact (h.of_mem_steps hwf hset hw (List.mem_of_find?_eq_some hfind)).2
  | none =>
    by_contra hne
    obtain ⟨step, hstep, rfl⟩ := h.exists_step hset hw hne
    simpa using List.find?_eq_none.1 hfind step hstep

/-- A word goes on to the set of the longer word, or nowhere when that is
empty. -/
theorem Numbered.run? (hwf : nfa.WellFormed) (h : Numbered nfa sets dfa)
    (hset : sets.toArray[id]? = some set) (hv : nfa.Lists v set) (w : List Symbol) :
    match dfa.run? id w with
    | some target => ∃ set', sets.toArray[target]? = some set' ∧ nfa.Lists (v ++ w) set'
    | none => nfa.reach (v ++ w) = ∅ := by
  induction w generalizing id set v with
  | nil => exact ⟨set, hset, (List.append_nil v).symm ▸ hv⟩
  | cons symbol w ih =>
    have hnext := h.next? hwf hset hv symbol
    rw [List.append_cons]
    unfold Dfa.run?
    cases hstep : (dfa.state id).next? symbol with
    | none =>
      rw [hstep] at hnext
      exact Nfa.reach_append_eq_empty hnext w
    | some target =>
      rw [hstep] at hnext
      obtain ⟨set', hset', hlists⟩ := hnext
      exact ih hset' hlists

theorem Numbered.run?_initial (hwf : nfa.WellFormed) (h : Numbered nfa sets dfa)
    (w : List Symbol) :
    match dfa.run? dfa.initial w with
    | some target => ∃ set, sets.toArray[target]? = some set ∧ nfa.Lists w set
    | none => nfa.reach w = ∅ := by
  obtain ⟨start, hstart, hlists⟩ := h.start
  exact h.run? hwf (h.initial_eq ▸ hstart) hlists w

/-! ## The states are the reachable sets -/

theorem Numbered.exists_set (h : Numbered nfa sets dfa) (id : Fin dfa.size) :
    ∃ set, sets.toArray[id.val]? = some set :=
  ⟨_, Array.getElem?_eq_getElem (Nat.lt_of_lt_of_eq id.isLt h.size_eq)⟩

theorem Numbered.lt_size (h : Numbered nfa sets dfa) (hset : sets.toArray[id]? = some set) :
    id < dfa.size :=
  Nat.lt_of_lt_of_eq (Array.getElem?_eq_some_iff.1 hset).1 h.size_eq.symm

theorem Known.reachable (h : Known nfa sets) (hset : sets.toArray[id]? = some set) :
    nfa.Reachable {q | q ∈ set} := by
  obtain ⟨hne, w, hword, hw⟩ := h.isStateSet hset
  have hreach : {q | q ∈ set} = nfa.reach w := Set.ext fun q => hw.mem_iff
  refine ⟨List.exists_mem_of_ne_nil set hne, fun {p q} hp hs => ?_, w, hword, hreach⟩
  rw [hreach] at hp ⊢
  exact Nfa.reach_closed hp hs

theorem Known.eq_of_forall_mem_iff (h : Known nfa sets) {i j : StateId} {set' : List StateId}
    (hi : sets.toArray[i]? = some set) (hj : sets.toArray[j]? = some set')
    (hmem : ∀ q, q ∈ set ↔ q ∈ set') : i = j := by
  obtain ⟨-, v, -, hv⟩ := h.isStateSet hi
  obtain ⟨-, w, -, hw⟩ := h.isStateSet hj
  have heq : set = set' := hv.sorted.eq_of_mem_iff hw.sorted hmem
  exact h.distinct hi (heq ▸ hj)

theorem Numbered.exists_of_reachable (hwf : nfa.WellFormed) (h : Numbered nfa sets dfa)
    {S : Set StateId} (hS : nfa.Reachable S) :
    ∃ (id : StateId) (set : List StateId), sets.toArray[id]? = some set ∧ {q | q ∈ set} = S := by
  obtain ⟨w, -, rfl⟩ := hS.word
  have hrun := h.run?_initial hwf w
  cases hid : dfa.run? dfa.initial w with
  | none =>
    rw [hid] at hrun
    exact absurd hrun hS.nonempty.ne_empty
  | some id =>
    rw [hid] at hrun
    obtain ⟨set, hset, hlists⟩ := hrun
    exact ⟨id, set, hset, Set.ext fun q => hlists.mem_iff⟩

/-- The states stand for the reachable sets, one for one. -/
theorem Numbered.exists_equiv (hwf : nfa.WellFormed) (h : Numbered nfa sets dfa) :
    ∃ stands : Fin dfa.size ≃ {S : Set StateId // nfa.Reachable S},
      ∀ id set, sets.toArray[id.val]? = some set → (stands id).val = {q | q ∈ set} := by
  choose list hlist using h.exists_set
  let stand (id : Fin dfa.size) : {S : Set StateId // nfa.Reachable S} :=
    ⟨{q | q ∈ list id}, h.known.reachable (hlist id)⟩
  have hstand : ∀ id set, sets.toArray[id.val]? = some set → (stand id).val = {q | q ∈ set} := by
    intro id set hset
    rw [hlist id, Option.some.injEq] at hset
    rw [← hset]
  have hbijective : Function.Bijective stand := by
    constructor
    · intro i j hij
      have hmem : {q | q ∈ list i} = {q | q ∈ list j} := congrArg Subtype.val hij
      exact Fin.ext (h.known.eq_of_forall_mem_iff (hlist i) (hlist j) (Set.ext_iff.1 hmem))
    · intro S
      obtain ⟨id, set, hset, hS⟩ := h.exists_of_reachable hwf S.property
      exact ⟨⟨id, h.lt_size hset⟩, Subtype.ext ((hstand _ set hset).trans hS)⟩
  exact ⟨Equiv.ofBijective stand hbijective, hstand⟩

theorem Numbered.isSome_run?_iff (hwf : nfa.WellFormed) (h : Numbered nfa sets dfa)
    (w : List Symbol) :
    (dfa.run? dfa.initial w).isSome = true ↔ ∃ q, nfa.Path nfa.initial w q := by
  have hrun := h.run?_initial hwf w
  cases hid : dfa.run? dfa.initial w with
  | none =>
    rw [hid] at hrun
    have hempty := Set.eq_empty_iff_forall_notMem.1 hrun
    exact ⟨nofun, fun ⟨q, hq⟩ => absurd hq (hempty q)⟩
  | some id =>
    rw [hid] at hrun
    obtain ⟨set, hset, hlists⟩ := hrun
    obtain ⟨q, hq⟩ := List.exists_mem_of_ne_nil set (h.known.isStateSet hset).1
    exact ⟨fun _ => ⟨q, hlists.mem_iff.1 hq⟩, fun _ => rfl⟩

/-- The states of the deterministic automaton stand for the reachable sets. -/
structure Determinizes (nfa : Nfa) (dfa : Dfa)
    (stands : Fin dfa.size ≃ {S : Set StateId // nfa.Reachable S}) : Prop where
  /-- The words that can be followed are those that a run reads. -/
  isSome_run? : ∀ w, (dfa.run? dfa.initial w).isSome = true ↔ ∃ q, nfa.Path nfa.initial w q
  /-- They lead to the state for the states that they lead to. -/
  stands_run? : ∀ w id, dfa.run? dfa.initial w = some id →
    ∃ hid : id < dfa.size, (stands ⟨id, hid⟩).val = nfa.reach w
  isFinal_iff : ∀ id : Fin dfa.size,
    (dfa.state id).isFinal = true ↔ ∃ f ∈ (stands id).val, f ∈ nfa.finals
  pattern_eq_some : ∀ (id : Fin dfa.size) p,
    (dfa.state id).pattern = some p ↔ IsLeast (nfa.patterns (stands id).val) p
  pattern_eq_none : ∀ id : Fin dfa.size,
    (dfa.state id).pattern = none ↔ nfa.patterns (stands id).val = ∅

theorem Numbered.determinizes (hwf : nfa.WellFormed) (h : Numbered nfa sets dfa) :
    ∃ stands, Determinizes nfa dfa stands := by
  obtain ⟨stands, hstands⟩ := h.exists_equiv hwf
  have hstate : ∀ id : Fin dfa.size, ∃ set steps,
      (stands id).val = {q | q ∈ set} ∧ dfa.state id = stateOf nfa set steps := by
    intro id
    obtain ⟨set, hset⟩ := h.exists_set id
    obtain ⟨steps, hsteps, -⟩ := h.state hset
    exact ⟨set, steps, hstands id set hset, hsteps⟩
  refine ⟨stands, h.isSome_run?_iff hwf, fun w id hid => ?_, fun id => ?_, fun id p => ?_,
    fun id => ?_⟩
  · have hrun := h.run?_initial hwf w
    rw [hid] at hrun
    obtain ⟨set, hset, hlists⟩ := hrun
    refine ⟨h.lt_size hset, ?_⟩
    rw [hstands _ set hset]
    exact Set.ext fun q => hlists.mem_iff
  · obtain ⟨set, steps, hset, hsteps⟩ := hstate id
    rw [hset, hsteps, isFinal_stateOf]
    rfl
  · obtain ⟨set, steps, hset, hsteps⟩ := hstate id
    rw [hset, hsteps, pattern_stateOf_eq_some]
  · obtain ⟨set, steps, hset, hsteps⟩ := hstate id
    rw [hset, hsteps, pattern_stateOf_eq_none]

/-- **The subset construction is correct.** On a well-formed automaton and
without a limit it succeeds, with an automaton whose states stand for the
reachable sets, one for one. -/
theorem determinize_correct (hwf : nfa.WellFormed) :
    ∃ dfa, nfa.determinize none = .ok dfa ∧
      ∃ stands : Fin dfa.size ≃ {S : Set StateId // nfa.Reachable S},
        Determinizes nfa dfa stands := by
  obtain ⟨dfa, hdfa⟩ := exists_determinize_none hwf
  obtain ⟨sets, h⟩ := numbered_of_determinize hwf hdfa
  exact ⟨dfa, hdfa, h.determinizes hwf⟩

/-- Two runs of digits with a step back along nothing, and a stamped state. -/
theorem determinize_correct_digits :
    let nfa : Nfa := ⟨#[{ transitions := [(.digit, 1), (.any, 2)], epsilons := [1] },
      { transitions := [(.digit, 1)], epsilons := [0] }, {}], 0, [1, 2], [], [(1, 7), (2, 3)]⟩
    ∃ dfa, nfa.determinize none = .ok dfa ∧
      ∃ stands : Fin dfa.size ≃ {S : Set StateId // nfa.Reachable S},
        Determinizes nfa dfa stands :=
  determinize_correct (by decide)

end Subset

end LinePattern
