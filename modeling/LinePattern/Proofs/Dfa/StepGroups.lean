/-
The group that a step is credited to, and the transitions behind the step.

A deterministic state keeps one group for each state it leads to, that of the
first step there that has one. So a label can be credited to the group of
another one that leads to the same states. In an automaton with its loops in
groups, two labels do so only where transitions with both belong to groups
(`exists_grouped_of_reach_eq`): of the targets of one label take one from which
no other of them is left behind; it is on a loop with a target of the other
label. So whether a character is credited depends on its label alone, and the
group is that of the least label with the same target
(`groupInto?_eq_group_least`).
-/
import Mathlib.Order.Preorder.Finite
import LinePattern.Proofs.Dfa.Credit
import LinePattern.Proofs.Matcher.Set
import LinePattern.Proofs.Pattern.Loops

namespace LinePattern

/-! ## Patterns -/

theorem loopsGrouped_of_patternNfa {options : Options} {pattern : String} {nfa : Nfa}
    (h : patternNfa options pattern = .ok nfa) : nfa.LoopsGrouped := by
  obtain ⟨tokens, htokens, hassemble⟩ := bind_eq_ok_iff.1 h
  rw [mapError_eq_ok_iff] at htokens hassemble
  obtain ⟨e, hparse, rfl⟩ := tokenize_eq_ok_iff_parse.1 htokens
  obtain ⟨tree, htree, hloops⟩ := e.exists_loopsGrouped options 0 (Expr.valid_of_parse hparse)
  rw [Expr.tokens, ← htree, TokenTree.ofTokens_tokens] at hassemble
  cases hassemble
  exact hloops 0

theorem loopsGrouped_of_patternNfas {options : Options} {texts : List String} {nfas : List Nfa}
    (h : patternNfas options texts = .ok nfas) : (Nfa.merge nfas).LoopsGrouped := by
  refine Nfa.loopsGrouped_merge (wellFormed_of_patternNfas h) fun nfa hnfa => ?_
  obtain ⟨i, hi⟩ := List.mem_iff_getElem?.1 hnfa
  obtain ⟨pattern, -, hpattern⟩ := exists_getElem?_patterns h hi
  exact loopsGrouped_of_patternNfa hpattern

/-! ## Labels that lead to the same states -/

namespace Subset

variable {nfa : Nfa} {sets : StateSets} {dfa : Dfa} {set : List StateId} {id target : StateId}
  {v w : List Symbol} {s t : Symbol}

/-- The group of the transitions along a symbol out of a set: that of the first
of them that belongs to one. -/
def stepGroup (nfa : Nfa) (set : List StateId) (symbol : Symbol) : Option Nat :=
  (along symbol (edgesFrom nfa set)).findSome? nfa.groupOf?

theorem isSome_stepGroup_iff : (stepGroup nfa set s).isSome = true ↔
    ∃ e ∈ along s (edgesFrom nfa set), nfa.Grouped e := by
  simp only [stepGroup, List.findSome?_isSome_iff, Nfa.isSome_groupOf?_iff]

/-- Two labels that lead to the same states both lead there in a group. -/
theorem exists_grouped_of_reach_eq (h : nfa.LoopsGrouped) (hw : nfa.Lists w set) (hne : s ≠ t)
    (hread : (nfa.reach (w ++ [s])).Nonempty) (heq : nfa.reach (w ++ [s]) = nfa.reach (w ++ [t])) :
    ∃ e ∈ along s (edgesFrom nfa set), nfa.Grouped e := by
  -- A transition whose target leads back to every target that leads to it.
  have hsome : {e | e ∈ along s (edgesFrom nfa set)}.Nonempty := by
    obtain ⟨q, hq⟩ := hread
    obtain ⟨e, he, -⟩ := (mem_reach_concat_iff_along hw).1 hq
    exact ⟨e, he⟩
  obtain ⟨e, he, hmax⟩ := Set.Finite.exists_maximalFor
    (fun e : Edge => {q | nfa.Path e.target [] q}) _ (List.finite_toSet _) hsome
  have hback : ∀ e' ∈ along s (edgesFrom nfa set), nfa.Path e'.target [] e.target →
      nfa.Path e.target [] e'.target := fun e' he' hto =>
    hmax he' (fun _ hq => hto.trans hq) (.refl e'.target)
  have hreach : e.target ∈ nfa.reach (w ++ [s]) :=
    (mem_reach_concat_iff_along hw).2 ⟨e, he, .refl _⟩
  obtain ⟨f, hf, hfe⟩ := (mem_reach_concat_iff_along hw).1 (heq ▸ hreach)
  have hreach' : f.target ∈ nfa.reach (w ++ [t]) :=
    (mem_reach_concat_iff_along hw).2 ⟨f, hf, .refl _⟩
  obtain ⟨e', he', hef⟩ := (mem_reach_concat_iff_along hw).1 (heq ▸ hreach')
  have hloop : nfa.Path e.target [] f.target := (hback e' he' (hef.trans hfe)).trans hef
  obtain ⟨-, rfl, hs⟩ := mem_along.1 he
  obtain ⟨-, rfl, hs'⟩ := mem_along.1 hf
  exact ⟨e, he, h e (Nfa.mem_edges.2 hs) f (Nfa.mem_edges.2 hs') (fun h => hne (h ▸ rfl)) hloop hfe⟩

end Subset

/-! ## The first step to a state -/

/-- The group into a state is that of the first step there, if all steps that
lead there together belong to groups. -/
theorem exists_first_step {target : StateId} : ∀ {steps : List DfaStep},
    steps.Pairwise (fun a b => a.symbol.compare b.symbol = .lt) →
    (∀ a ∈ steps, ∀ b ∈ steps, a.symbol ≠ b.symbol → a.target = b.target →
      a.group.isSome = true) →
    (∃ step ∈ steps, step.target = target) →
    ∃ first ∈ steps, first.target = target ∧
      (∀ step ∈ steps, step.target = target → first.symbol.compare step.symbol ≠ .gt) ∧
      (steps.findSome? fun step => if step.target = target then step.group else none) = first.group
  | [], _, _, h => by simp at h
  | a :: rest, hsorted, hgroups, hstep => by
    obtain ⟨hless, hrest⟩ := List.pairwise_cons.1 hsorted
    by_cases ha : a.target = target
    · refine ⟨a, List.mem_cons_self, ha, ?_, ?_⟩
      · rintro step (_ | ⟨_, hmem⟩) _
        · simp [Symbol.compare_eq_iff.2 rfl]
        · simp [hless step hmem]
      · rw [List.findSome?_cons, if_pos ha]
        cases hgroup : a.group with
        | some group => rfl
        | none =>
          -- A second step there would put the first in a group.
          rw [List.findSome?_eq_none_iff]
          intro step hmem
          split
          · next htarget =>
            have hne : a.symbol ≠ step.symbol := by
              intro heq
              have hlt := hless step hmem
              rw [Symbol.compare_eq_iff.2 heq] at hlt
              cases hlt
            have hsome := hgroups a List.mem_cons_self step (List.mem_cons_of_mem _ hmem) hne
              (ha.trans htarget.symm)
            rw [hgroup] at hsome
            cases hsome
          · rfl
    · obtain ⟨step, hmem, htarget⟩ := hstep
      have hmem : step ∈ rest := by
        rcases List.mem_cons.1 hmem with rfl | hmem
        · exact absurd htarget ha
        · exact hmem
      obtain ⟨first, hfirst, hto, hleast, hgroup⟩ := exists_first_step hrest
        (fun b hb c hc => hgroups b (List.mem_cons_of_mem _ hb) c (List.mem_cons_of_mem _ hc))
        ⟨step, hmem, htarget⟩
      refine ⟨first, List.mem_cons_of_mem _ hfirst, hto, ?_, ?_⟩
      · rintro b (_ | ⟨_, hb⟩) hbt
        · exact absurd hbt ha
        · exact hleast b hb hbt
      · rw [List.findSome?_cons, if_neg ha]
        exact hgroup

namespace Subset

variable {nfa : Nfa} {sets : StateSets} {dfa : Dfa} {set : List StateId} {id target : StateId}
  {v w : List Symbol} {s t : Symbol}

theorem Numbered.run?_initial_eq_some_iff (hwf : nfa.WellFormed) (h : Numbered nfa sets dfa)
    (hset : sets.toArray[id]? = some set) : dfa.run? dfa.initial v = some id ↔ nfa.Lists v set := by
  have hrun := h.run?_initial hwf v
  cases hid : dfa.run? dfa.initial v with
  | none =>
    rw [hid] at hrun
    obtain ⟨q, hq⟩ := List.exists_mem_of_ne_nil set (h.known.isStateSet hset).1
    refine ⟨nofun, fun hlists => ?_⟩
    have hmem := hlists.mem_iff.1 hq
    rw [hrun] at hmem
    cases hmem
  | some id' =>
    rw [hid] at hrun
    obtain ⟨set', hset', hlists'⟩ := hrun
    constructor
    · intro heq
      cases heq
      rw [hset] at hset'
      cases hset'
      exact hlists'
    · intro hlists
      rw [h.known.eq_of_forall_mem_iff hset' hset fun q =>
        hlists'.mem_iff.trans hlists.mem_iff.symm]

/-- Steps that lead to the same state have groups, if there are two. -/
theorem Numbered.isSome_group (hwf : nfa.WellFormed) (hloops : nfa.LoopsGrouped)
    (h : Numbered nfa sets dfa) (hset : sets.toArray[id]? = some set) (hw : nfa.Lists w set)
    {a b : DfaStep} (ha : a ∈ (dfa.state id).steps) (hb : b ∈ (dfa.state id).steps)
    (hne : a.symbol ≠ b.symbol) (htarget : a.target = b.target) :
    (stepGroup nfa set a.symbol).isSome = true := by
  obtain ⟨-, set', hset', hlists'⟩ := h.of_mem_steps hwf hset hw ha
  obtain ⟨-, set'', hset'', hlists''⟩ := h.of_mem_steps hwf hset hw hb
  rw [htarget, hset''] at hset'
  cases hset'
  obtain ⟨q, hq⟩ := List.exists_mem_of_ne_nil _ (h.known.isStateSet hset'').1
  exact isSome_stepGroup_iff.2 <| exists_grouped_of_reach_eq hloops hw hne ⟨q, hlists'.mem_iff.1 hq⟩
    (Set.ext fun q => hlists'.mem_iff.symm.trans hlists''.mem_iff)

/-- **The group a step is credited to.** In the automaton for patterns, a state
stands for the states that the words into it lead to. A step out of it along a
label is credited to a group exactly when some transition with the label, out of
these states, belongs to one; and the group is that of the least of the labels
with the same target. -/
theorem groupInto?_eq_group_least {options : Options} {texts : List String} {nfas : List Nfa}
    {limit : Option Nat} (hnfas : patternNfas options texts = .ok nfas)
    (hdfa : (Nfa.merge nfas).determinize limit = .ok dfa) (hid : id < dfa.size) :
    ∃ members, (∃ v, dfa.run? dfa.initial v = some id) ∧
      (∀ v, dfa.run? dfa.initial v = some id → (Nfa.merge nfas).Lists v members) ∧
      ∀ s target, (dfa.state id).next? s = some target →
        (((dfa.state id).groupInto? target).isSome = true ↔
          ∃ e ∈ along s (edgesFrom (Nfa.merge nfas) members), (Nfa.merge nfas).Grouped e) ∧
        ∃ t, (dfa.state id).next? t = some target ∧
          (∀ t', (dfa.state id).next? t' = some target → t.compare t' ≠ .gt) ∧
          (dfa.state id).groupInto? target = stepGroup (Nfa.merge nfas) members t := by
  have hwf := Nfa.wellFormed_merge (wellFormed_of_patternNfas hnfas)
  have hloops := loopsGrouped_of_patternNfas hnfas
  obtain ⟨sets, hnumbered⟩ := numbered_of_determinize hwf hdfa
  obtain ⟨members, hset⟩ := hnumbered.exists_set ⟨id, hid⟩
  obtain ⟨-, w, -, hw⟩ := hnumbered.known.isStateSet hset
  obtain ⟨steps, hstate, hrow⟩ := hnumbered.state hset
  have hsteps : (dfa.state id).steps = steps := by rw [hstate, stateOf]
  have hgroup : ∀ step ∈ (dfa.state id).steps,
      step.group = stepGroup (Nfa.merge nfas) members step.symbol :=
    fun step hstep => hrow.group_eq step (hsteps ▸ hstep)
  have hsorted := hnumbered.sorted hset
  have hshared : ∀ a ∈ (dfa.state id).steps, ∀ b ∈ (dfa.state id).steps, a.symbol ≠ b.symbol →
      a.target = b.target → a.group.isSome = true := fun a ha b hb hne htarget =>
    hgroup a ha ▸ hnumbered.isSome_group hwf hloops hset hw ha hb hne htarget
  refine ⟨members, ⟨w, (hnumbered.run?_initial_eq_some_iff hwf hset).2 hw⟩,
    fun v => (hnumbered.run?_initial_eq_some_iff hwf hset).1, fun s target hnext => ?_⟩
  obtain ⟨step, hstep, rfl, rfl⟩ := (DfaState.next?_eq_some_iff hsorted).1 hnext
  obtain ⟨first, hfirst, htarget, hleast, hinto⟩ :=
    exists_first_step hsorted hshared ⟨step, hstep, rfl⟩
  have hinto : (dfa.state id).groupInto? step.target = first.group := hinto
  refine ⟨?_, first.symbol, (DfaState.next?_eq_some_iff hsorted).2 ⟨first, hfirst, rfl, htarget⟩,
    fun t hnext' => ?_, hinto.trans (hgroup first hfirst)⟩
  · rw [← isSome_stepGroup_iff, ← hgroup step hstep, hinto]
    by_cases hsame : first.symbol = step.symbol
    · rw [hgroup first hfirst, hgroup step hstep, hsame]
    · exact iff_of_true (hshared first hfirst step hstep hsame htarget)
        (hshared step hstep first hfirst (Ne.symm hsame) htarget.symm)
  · obtain ⟨step', hstep', rfl, htarget'⟩ := (DfaState.next?_eq_some_iff hsorted).1 hnext'
    exact hleast step' hstep' htarget'

/-- Two labels that lead to the same state, beside a pattern with a group of its
own. -/
theorem groupInto?_eq_group_least_shared : ∃ nfas dfa members t,
    patternNfas {} ["((a)?b?)*", "c(\\d)"] = .ok nfas ∧
      (Nfa.merge nfas).determinize none = .ok dfa ∧ (Nfa.merge nfas).Lists [] members ∧
      (dfa.state 0).next? (.char 'b') = some 1 ∧
      (((dfa.state 0).groupInto? 1).isSome = true ↔
        ∃ e ∈ along (.char 'b') (edgesFrom (Nfa.merge nfas) members), (Nfa.merge nfas).Grouped e) ∧
      (dfa.state 0).next? t = some 1 ∧
      (dfa.state 0).groupInto? 1 = stepGroup (Nfa.merge nfas) members t := by
  have hrun : ((patternNfas {} ["((a)?b?)*", "c(\\d)"]).toOption.any fun nfas =>
      ((Nfa.merge nfas).determinize none).toOption.any fun dfa =>
        0 < dfa.size ∧ dfa.initial = 0 ∧
          (dfa.state 0).next? (.char 'b') = some 1) = true := by
    decide +kernel
  obtain ⟨nfas, hnfas, hrun⟩ := exists_ok_of_any hrun
  obtain ⟨dfa, hdfa, hrun⟩ := exists_ok_of_any hrun
  obtain ⟨hid, hinitial, hnext⟩ := of_decide_eq_true hrun
  obtain ⟨members, -, hlists, hstep⟩ := groupInto?_eq_group_least hnfas hdfa hid
  obtain ⟨hcredited, t, ht, -, hgroup⟩ := hstep _ _ hnext
  exact ⟨nfas, dfa, members, t, hnfas, hdfa, hlists [] (congrArg some hinitial), hnext, hcredited,
    ht, hgroup⟩

/-- A step on `b` that is credited to the group around `a`. -/
theorem groupInto?_of_other_label : ∃ nfas dfa members,
    patternNfas {} ["((a)?b?)*"] = .ok nfas ∧ (Nfa.merge nfas).determinize none = .ok dfa ∧
      dfa.run? dfa.initial [] = some 0 ∧ (Nfa.merge nfas).Lists [] members ∧
      (dfa.state 0).next? (.char 'b') = some 1 ∧ (dfa.state 0).groupInto? 1 = some 1 ∧
      stepGroup (Nfa.merge nfas) members (.char 'b') = some 0 ∧
      ∀ set ∈ (Nfa.merge nfas).captures, set.group = 1 → ∀ e ∈ set.edges, e.symbol ≠ .char 'b' := by
  have hrun : ((patternNfas {} ["((a)?b?)*"]).toOption.any fun nfas =>
      ((Nfa.merge nfas).determinize none).toOption.any fun dfa =>
        (Nfa.merge nfas).WellFormed ∧
          (Nfa.merge nfas).closure? [(Nfa.merge nfas).initial] = some [0, 1, 2, 3, 4, 5, 6] ∧
          dfa.run? dfa.initial [] = some 0 ∧ (dfa.state 0).next? (.char 'b') = some 1 ∧
          (dfa.state 0).groupInto? 1 = some 1 ∧
          stepGroup (Nfa.merge nfas) [0, 1, 2, 3, 4, 5, 6] (.char 'b') = some 0 ∧
          ∀ set ∈ (Nfa.merge nfas).captures, set.group = 1 →
            ∀ e ∈ set.edges, e.symbol ≠ .char 'b') = true := by
    decide +kernel
  obtain ⟨nfas, hnfas, hrun⟩ := exists_ok_of_any hrun
  obtain ⟨dfa, hdfa, hrun⟩ := exists_ok_of_any hrun
  obtain ⟨hwf, hclosure, hinitial, hnext, hinto, hgroup, hedges⟩ := of_decide_eq_true hrun
  exact ⟨nfas, dfa, _, hnfas, hdfa, hinitial, lists_nil hwf hclosure, hnext, hinto, hgroup, hedges⟩

end Subset

end LinePattern
