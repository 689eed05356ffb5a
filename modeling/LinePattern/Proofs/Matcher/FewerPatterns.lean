/-
Leaving patterns out never makes a list harder to compile.

A list that compiles under a limit on states still does when patterns are left
out of it, and its automaton does not get larger (`exists_compile_of_subset`).
Fewer automata are merged, and a merge of some of them needs no more states
than the merge of all.
-/
import LinePattern.Proofs.Dfa.Limit
import LinePattern.Proofs.Dfa.MergeSize
import LinePattern.Proofs.Matcher.Set

namespace LinePattern

variable {options : Options} {texts : List String} {nfas : List Nfa} {dfa : Dfa}

theorem exists_patternNfas_of_forall
    (h : ∀ text ∈ texts, ∃ nfa ∈ nfas, patternNfa options text = .ok nfa) :
    ∃ few, patternNfas options texts = .ok few ∧ ∀ nfa ∈ few, nfa ∈ nfas := by
  induction texts with
  | nil => exact ⟨[], rfl, by simp⟩
  | cons text texts ih =>
    obtain ⟨⟨nfa, hmem, hnfa⟩, hrest⟩ := List.forall_mem_cons.1 h
    obtain ⟨few, hfew, hsub⟩ := ih hrest
    refine ⟨nfa :: few, ?_, List.forall_mem_cons.2 ⟨hmem, hsub⟩⟩
    simp [patternNfas, hnfa, hfew, bind, Except.bind]

theorem patternsDfa_eq_ok_iff : patternsDfa options texts = .ok dfa ↔
    ∃ nfas, patternNfas options texts = .ok nfas ∧
      (Nfa.merge nfas).determinize options.maxStates = .ok dfa := by
  simp only [patternsDfa, bind_eq_ok_iff, mapError_eq_ok_iff]

/-- The automaton of some of the texts is made under a limit under which that
of all of them is made, and is not larger. -/
theorem exists_patternsDfa_of_subset {few : List String}
    (h : patternsDfa options texts = .ok dfa) (hfew : ∀ text ∈ few, text ∈ texts) :
    ∃ dfa', patternsDfa options few = .ok dfa' ∧ dfa'.size ≤ dfa.size := by
  obtain ⟨nfas, hnfas, hdfa⟩ := patternsDfa_eq_ok_iff.1 h
  have hwfs := wellFormed_of_patternNfas hnfas
  have hwf := Nfa.wellFormed_merge hwfs
  obtain ⟨fewNfas, hfewNfas, hsub⟩ : ∃ fewNfas, patternNfas options few = .ok fewNfas ∧
      ∀ nfa ∈ fewNfas, nfa ∈ nfas := by
    refine exists_patternNfas_of_forall fun text htext => ?_
    obtain ⟨i, hi⟩ := List.mem_iff_getElem?.1 (hfew text htext)
    obtain ⟨nfa, hnfa, hbuild⟩ := exists_getElem?_nfas hnfas hi
    exact ⟨nfa, List.mem_of_getElem? hnfa, hbuild⟩
  have hwf' := Nfa.wellFormed_merge (wellFormed_of_patternNfas hfewNfas)
  obtain ⟨dfa', hdfa'⟩ := Subset.exists_determinize_none hwf'
  obtain ⟨sets, hnumbered⟩ := Subset.numbered_of_determinize hwf hdfa
  obtain ⟨sets', hnumbered'⟩ := Subset.numbered_of_determinize hwf' hdfa'
  have hsize : dfa'.size ≤ dfa.size := hnumbered'.size_le_of_subset hwfs hsub hnumbered
  refine ⟨dfa', patternsDfa_eq_ok_iff.2 ⟨fewNfas, hfewNfas, ?_⟩, hsize⟩
  rw [Subset.determinize_eq_ok_iff hwf']
  refine ⟨hdfa', fun l hl => Nat.le_trans hsize ?_⟩
  exact ((Subset.determinize_eq_ok_iff hwf).1 hdfa).2 l hl

namespace PatternSet

variable {P : Type} {patterns kept : List (String × P)} {set : PatternSet P}

theorem compile_nil (options : Options) :
    compile options ([] : List (String × P)) = .ok (empty options) := rfl

theorem compile_eq_ok_iff (hne : patterns ≠ []) : compile options patterns = .ok set ↔
    ∃ dfa, patternsDfa options (patterns.map (·.1)) = .ok dfa ∧
      set = ⟨patterns, dfa, policyOf options⟩ := by
  have hempty : patterns.isEmpty = false := by simpa using hne
  simp only [compile, hempty, Bool.false_eq_true, if_false, bind_eq_ok_iff, Except.ok.injEq,
    eq_comm (b := set)]

/-- There is always the state for the empty word. -/
theorem size_dfa_pos (hcompile : compile options patterns = .ok set) : 0 < set.dfa.size := by
  obtain ⟨nfas, sets, -, -, hnumbered, -⟩ := exists_numbered hcompile
  obtain ⟨start, hstart, -⟩ := hnumbered.start
  exact hnumbered.lt_size hstart

/-- **Some of the patterns compile where all of them do**, under the same limit
and to an automaton that is not larger. -/
theorem exists_compile_of_subset (hcompile : compile options patterns = .ok set)
    (hkept : ∀ p ∈ kept, p ∈ patterns) :
    ∃ set', compile options kept = .ok set' ∧ set'.dfa.size ≤ set.dfa.size := by
  by_cases hnil : kept = []
  · subst hnil
    exact ⟨.empty options, compile_nil options, size_dfa_pos hcompile⟩
  · have hne : patterns ≠ [] := by
      intro hpatterns
      subst hpatterns
      exact hnil (List.eq_nil_iff_forall_not_mem.2 fun p hp => by simpa using hkept p hp)
    obtain ⟨dfa, hdfa, rfl⟩ := (compile_eq_ok_iff hne).1 hcompile
    have htexts : ∀ text ∈ kept.map (·.1), text ∈ patterns.map (·.1) := by
      intro text htext
      obtain ⟨p, hp, rfl⟩ := List.mem_map.1 htext
      exact List.mem_map_of_mem (hkept p hp)
    obtain ⟨dfa', hdfa', hsize⟩ := exists_patternsDfa_of_subset hdfa htexts
    exact ⟨⟨kept, dfa', policyOf options⟩, (compile_eq_ok_iff hnil).2 ⟨dfa', hdfa', rfl⟩, hsize⟩

end PatternSet

end LinePattern
