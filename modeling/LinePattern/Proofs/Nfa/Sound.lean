/-
Automata that are in order.

In such an automaton no name is that of a missing state, nothing is listed twice, and
the groups list transitions (`Nfa.Sound`). An operator is made of a few edits: states are
added, steps between them, and another automaton behind them. Each edit keeps an automaton
in order as long as the states it names are there. So does every operator, then, whatever
the final states of its operands are, and wherever their steps lead.
-/
import LinePattern.Proofs.Pattern.CaptureSets

namespace LinePattern

/-! ## States that list nothing twice -/

namespace NfaState

variable {s : NfaState} {target : StateId} {symbol : Symbol} {offset : Nat}

/-- No target is listed twice for one symbol, nor twice for nothing. -/
structure Distinct (s : NfaState) : Prop where
  targets : ∀ symbol, (s.targets symbol).Nodup
  epsilons : s.epsilons.Nodup

theorem mem_targets : target ∈ s.targets symbol ↔ (symbol, target) ∈ s.transitions := by
  simp [NfaState.targets]

theorem distinct_empty : ({} : NfaState).Distinct where
  targets _ := List.nodup_nil
  epsilons := List.nodup_nil

theorem distinct_singleton (symbol : Symbol) (target : StateId) :
    ({ transitions := [(symbol, target)] } : NfaState).Distinct where
  targets other := by
    unfold NfaState.targets
    by_cases h : symbol = other
    · simp [h]
    · simp [h]
  epsilons := List.nodup_nil

theorem Distinct.addTransition (h : s.Distinct) (symbol : Symbol) (target : StateId) :
    (s.addTransition symbol target).Distinct := by
  unfold NfaState.addTransition
  split
  · exact h
  · next hnew =>
    refine ⟨fun other => ?_, h.epsilons⟩
    have hsplit : ({ s with transitions := s.transitions ++ [(symbol, target)] } : NfaState).targets
        other = s.targets other ++ if symbol = other then [target] else [] := by
      unfold NfaState.targets
      by_cases hsymbol : symbol = other
      · simp [hsymbol]
      · simp [hsymbol]
    rw [hsplit]
    by_cases hsymbol : symbol = other
    · subst hsymbol
      rw [if_pos rfl]
      rw [← List.concat_eq_append]
      exact (h.targets symbol).concat fun hmem => hnew (mem_targets.1 hmem)
    · rw [if_neg hsymbol, List.append_nil]
      exact h.targets other

theorem Distinct.addEpsilon (h : s.Distinct) (target : StateId) :
    (s.addEpsilon target).Distinct := by
  unfold NfaState.addEpsilon
  split
  · exact h
  · next hnew =>
    refine ⟨h.targets, ?_⟩
    change (s.epsilons ++ [target]).Nodup
    rw [← List.concat_eq_append]
    exact h.epsilons.concat hnew

theorem Distinct.shift (h : s.Distinct) (offset : Nat) : (s.shift offset).Distinct where
  targets symbol := by
    have hshift : (s.shift offset).targets symbol = (s.targets symbol).map (· + offset) := by
      unfold NfaState.targets NfaState.shift
      rw [List.filter_map, List.map_map, List.map_map]
      rfl
    rw [hshift]
    exact (h.targets symbol).map (fun _ _ => Nat.add_right_cancel)
  epsilons := h.epsilons.map (fun _ _ => Nat.add_right_cancel)

end NfaState

/-! ## Automata in order -/

namespace Nfa

variable {nfa other left right merged : Nfa} {nfas : List Nfa} {source target : StateId}
  {symbol : Symbol}

/-- Every name in the automaton is that of one of its states, also where a state is
stamped. No state lists a target twice, and the edges of the groups are transitions. -/
structure Sound (nfa : Nfa) : Prop extends nfa.WellFormed where
  trace_lt : ∀ t ∈ nfa.traces, t.1 < nfa.size
  distinct : ∀ id, (nfa.state id).Distinct
  captures_steps : nfa.CapturesSteps

theorem sound_blank : blank.Sound where
  initial_lt := Nat.zero_lt_one
  final_lt := nofun
  target_lt h := absurd h not_step_blank
  trace_lt := nofun
  distinct id := by
    rcases id with _ | id
    · exact NfaState.distinct_empty
    · exact NfaState.distinct_empty
  captures_steps := nofun

theorem sound_ofSymbol (symbol : Symbol) : (ofSymbol symbol).Sound where
  initial_lt := Nat.zero_lt_two
  final_lt := by simp [ofSymbol, size]
  target_lt h := (step_ofSymbol.1 h).2.2 ▸ Nat.one_lt_two
  trace_lt := nofun
  distinct id := by
    rcases id with _ | _ | id
    · exact NfaState.distinct_singleton symbol 1
    · exact NfaState.distinct_empty
    · exact NfaState.distinct_empty
  captures_steps := capturesSteps_ofSymbol symbol

namespace Sound

/-! ### The edits that operators are made of -/

theorem addState (h : nfa.Sound) : nfa.addState.Sound where
  initial_lt := by
    rw [size_addState]
    exact Nat.lt_succ_of_lt h.initial_lt
  final_lt f hf := by
    rw [size_addState]
    exact Nat.lt_succ_of_lt (h.final_lt f hf)
  target_lt hs := by
    rw [size_addState]
    exact Nat.lt_succ_of_lt (h.target_lt (step_addState.1 hs))
  trace_lt t ht := by
    rw [size_addState]
    exact Nat.lt_succ_of_lt (h.trace_lt t ht)
  distinct id := by
    rw [state_addState]
    exact h.distinct id
  captures_steps := h.captures_steps.addState

theorem addTransition (h : nfa.Sound) (htarget : target < nfa.size) :
    (nfa.addTransition source target symbol).Sound where
  initial_lt := by
    rw [size_addTransition]
    exact h.initial_lt
  final_lt f hf := by
    rw [size_addTransition]
    exact h.final_lt f hf
  target_lt hs := by
    rw [size_addTransition]
    rcases step_addTransition.1 hs with hs | ⟨-, -, -, rfl⟩
    · exact h.target_lt hs
    · exact htarget
  trace_lt t ht := by
    rw [size_addTransition]
    exact h.trace_lt t ht
  distinct id := by
    rw [Nfa.addTransition, state_modify]
    split
    · exact (h.distinct id).addTransition symbol target
    · exact h.distinct id
  captures_steps := h.captures_steps.of_steps rfl fun hs => step_addTransition.2 (.inl hs)

theorem addEpsilon (h : nfa.Sound) (htarget : target < nfa.size) :
    (nfa.addEpsilon source target).Sound where
  initial_lt := by
    rw [size_addEpsilon]
    exact h.initial_lt
  final_lt f hf := by
    rw [size_addEpsilon]
    exact h.final_lt f hf
  target_lt hs := by
    rw [size_addEpsilon]
    rcases step_addEpsilon.1 hs with hs | ⟨-, -, hpair⟩
    · exact h.target_lt hs
    · cases hpair
      exact htarget
  trace_lt t ht := by
    rw [size_addEpsilon]
    exact h.trace_lt t ht
  distinct id := by
    rw [Nfa.addEpsilon, state_modify]
    split
    · exact (h.distinct id).addEpsilon target
    · exact h.distinct id
  captures_steps := h.captures_steps.of_steps rfl fun hs => step_addEpsilon.2 (.inl hs)

theorem addEpsilons {steps : List (StateId × StateId)} (h : nfa.Sound)
    (hsteps : ∀ step ∈ steps, step.2 < nfa.size) : (nfa.addEpsilons steps).Sound := by
  induction steps generalizing nfa with
  | nil => exact h
  | cons step steps ih =>
    obtain ⟨hstep, hrest⟩ := List.forall_mem_cons.1 hsteps
    refine ih (h.addEpsilon hstep) fun step hmem => ?_
    rw [size_addEpsilon]
    exact hrest step hmem

theorem withEnds {initial : StateId} {finals : List StateId} (h : nfa.Sound)
    (hinitial : initial < nfa.size) (hfinals : ∀ f ∈ finals, f < nfa.size) :
    ({ nfa with initial := initial, finals := finals } : Nfa).Sound where
  initial_lt := hinitial
  final_lt := hfinals
  target_lt := h.target_lt
  trace_lt := h.trace_lt
  distinct := h.distinct
  captures_steps := h.captures_steps

theorem recordCapture (h : nfa.Sound) (group : Nat) : (nfa.recordCapture group).Sound where
  initial_lt := h.initial_lt
  final_lt := h.final_lt
  target_lt := h.target_lt
  trace_lt := h.trace_lt
  distinct := h.distinct
  captures_steps := h.captures_steps.recordCapture group

theorem stamp (h : nfa.Sound) (pattern : PatternId) : (nfa.stamp pattern).Sound where
  initial_lt := h.initial_lt
  final_lt := h.final_lt
  target_lt := h.target_lt
  trace_lt t ht := by
    rcases List.mem_append.1 ht with ht | ht
    · obtain ⟨f, hf, rfl⟩ := List.mem_map.1 ht
      exact h.final_lt f hf
    · exact h.trace_lt t ht
  distinct := h.distinct
  captures_steps := h.captures_steps

theorem absorb (h : nfa.Sound) (hother : other.Sound) : (nfa.absorb other).Sound where
  initial_lt := by
    rw [size_absorb]
    exact Nat.lt_add_right _ h.initial_lt
  final_lt f hf := by
    rw [size_absorb]
    exact Nat.lt_add_right _ (h.final_lt f hf)
  target_lt hstep := by
    rw [size_absorb]
    rcases step_absorb.1 hstep with hs | ⟨p, q, rfl, rfl, hs⟩
    · exact Nat.lt_add_right _ (h.target_lt hs)
    · have hlt := hother.target_lt hs
      lia
  trace_lt t ht := by
    rw [size_absorb]
    rcases List.mem_append.1 ht with ht | ht
    · obtain ⟨s, hs, rfl⟩ := List.mem_map.1 ht
      have hlt := hother.trace_lt s hs
      change s.1 + nfa.size < _
      lia
    · exact Nat.lt_add_right _ (h.trace_lt t ht)
  distinct id := by
    by_cases hid : id < nfa.size
    · rw [state_absorb_of_lt hid]
      exact h.distinct id
    · obtain ⟨k, rfl⟩ : ∃ k, id = k + nfa.size := ⟨id - nfa.size, by lia⟩
      rw [state_absorb_add]
      exact (hother.distinct k).shift nfa.size
  captures_steps := h.captures_steps.absorb hother.captures_steps

/-! ### The operators -/

theorem concat (hl : left.Sound) (hr : right.Sound) : (left.concat right).Sound := by
  have hinitial : right.initial + left.size < (left.absorb right).size := by
    have hlt := hr.initial_lt
    rw [size_absorb]
    lia
  have hsteps : ((left.absorb right).addEpsilons
      (left.finals.map (·, right.initial + left.size))).Sound := by
    refine (hl.absorb hr).addEpsilons fun step hstep => ?_
    obtain ⟨f, -, rfl⟩ := List.mem_map.1 hstep
    exact hinitial
  refine hsteps.withEnds hsteps.initial_lt fun f hf => ?_
  obtain ⟨g, hg, rfl⟩ := List.mem_map.1 hf
  have hlt := hr.final_lt g hg
  rw [size_addEpsilons, size_absorb]
  lia

theorem alt (hl : left.Sound) (hr : right.Sound) : (left.alt right).Sound := by
  have hleft := hl.initial_lt
  have hright := hr.initial_lt
  have hsteps : ((left.absorb right).addState.addState.addEpsilons
      ([(left.size + right.size, left.initial),
        (left.size + right.size, right.initial + left.size)] ++
      (left.finals ++ right.finals.map (· + left.size)).map
        (·, left.size + right.size + 1))).Sound := by
    refine (hl.absorb hr).addState.addState.addEpsilons fun step hstep => ?_
    rw [size_addState, size_addState, size_absorb]
    rcases List.mem_append.1 hstep with hstep | hstep
    · simp only [List.mem_cons, List.not_mem_nil, or_false] at hstep
      rcases hstep with rfl | rfl
      · change left.initial < _
        lia
      · change right.initial + left.size < _
        lia
    · obtain ⟨f, -, rfl⟩ := List.mem_map.1 hstep
      change left.size + right.size + 1 < _
      lia
  refine hsteps.withEnds ?_ fun f hf => ?_
  · rw [size_addEpsilons, size_addState, size_addState, size_absorb]
    lia
  · rw [List.mem_singleton.1 hf, size_addEpsilons, size_addState, size_addState, size_absorb]
    lia

theorem plus (h : nfa.Sound) : nfa.plus.Sound := by
  have hinitial := h.initial_lt
  have hsteps : (nfa.addState.addState.addEpsilons ((nfa.size, nfa.initial) ::
      nfa.finals.flatMap fun f => [(f, nfa.size + 1), (f, nfa.initial)])).Sound := by
    refine h.addState.addState.addEpsilons fun step hstep => ?_
    rw [size_addState, size_addState]
    rcases List.mem_cons.1 hstep with rfl | hstep
    · change nfa.initial < _
      lia
    · obtain ⟨f, -, hf⟩ := List.mem_flatMap.1 hstep
      simp only [List.mem_cons, List.not_mem_nil, or_false] at hf
      rcases hf with rfl | rfl
      · change nfa.size + 1 < _
        lia
      · change nfa.initial < _
        lia
  refine hsteps.withEnds ?_ fun f hf => ?_
  · rw [size_addEpsilons, size_addState, size_addState]
    lia
  · rw [List.mem_singleton.1 hf, size_addEpsilons, size_addState, size_addState]
    lia

theorem star (h : nfa.Sound) : nfa.star.Sound := by
  refine h.plus.addEpsilon ?_
  rw [size_plus]
  lia

theorem optional (h : nfa.Sound) : nfa.optional.Sound := by
  refine h.addEpsilons fun step hstep => ?_
  obtain ⟨f, hf, rfl⟩ := List.mem_map.1 hstep
  exact h.final_lt f hf

theorem negate (h : nfa.Sound) (mode : NegationMode) : (nfa.negate mode).Sound := by
  cases mode with
  | complement => exact sound_ofSymbol _
  | anyCharacter =>
    have htarget : nfa.size < nfa.addState.size := by
      rw [size_addState]
      lia
    have hstep : (nfa.addState.addTransition nfa.initial nfa.size .any).Sound :=
      h.addState.addTransition htarget
    refine hstep.withEnds hstep.initial_lt fun f hf => ?_
    rw [List.mem_singleton.1 hf, size_addTransition]
    exact htarget

theorem addMember (hm : merged.Sound) (h : nfa.Sound) (i : PatternId) :
    (merged.addMember i nfa).Sound := by
  have hinitial : nfa.initial + merged.size < (merged.absorb (nfa.stamp i)).size := by
    have hlt := h.initial_lt
    rw [size_absorb, size_stamp]
    lia
  have hstep : ((merged.absorb (nfa.stamp i)).addEpsilon merged.initial
      (nfa.initial + merged.size)).Sound :=
    (hm.absorb (h.stamp i)).addEpsilon hinitial
  refine hstep.withEnds hstep.initial_lt fun f hf => ?_
  rw [size_addEpsilon, size_absorb, size_stamp]
  rcases List.mem_append.1 hf with hf | hf
  · exact Nat.lt_add_right _ (hm.final_lt f hf)
  · obtain ⟨g, hg, rfl⟩ := List.mem_map.1 hf
    have hlt := h.final_lt g hg
    lia

end Sound

end Nfa

end LinePattern
