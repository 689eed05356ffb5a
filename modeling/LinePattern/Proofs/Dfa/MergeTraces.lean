/-
A merge is the union of its members, with a mark for each.

Every final state of a merge is one that a member brought, and it was stamped with
the place of the member when it came (`trace?_of_mem_finals_merge`). What the members
were stamped with before does not show, nor does anything that comes later. So the
states in which a word is accepted name the members that accept it, and the
deterministic automaton, which keeps of these names the least, finds the first of them
(`merge_traces`).
-/
import LinePattern.Proofs.Nfa.Trace

namespace LinePattern.Nfa

variable {merged nfa : Nfa} {nfas : List Nfa} {i : PatternId} {f : StateId} {w : List Symbol}

/-! ## The stamps of the final states -/

theorem trace?_of_mem_finals_addMember (hm : merged.WellFormed)
    (hf : f ∈ (merged.addMember i nfa).finals) :
    (f ∈ merged.finals ∧ (merged.addMember i nfa).trace? f = merged.trace? f) ∨
      (merged.addMember i nfa).trace? f = some i := by
  obtain hf | ⟨f', hf', rfl⟩ := mem_finals_addMember.1 hf
  · exact .inl ⟨hf, trace?_addMember_of_lt (hm.final_lt f hf)⟩
  · exact .inr (trace?_addMember hf')

/-- A final state there was keeps its stamp; those that are added are stamped with the
places of the members. -/
theorem trace?_of_mem_finals_mergeFrom (hm : merged.Hub) (hwf : ∀ nfa ∈ nfas, nfa.WellFormed)
    (hf : f ∈ (merged.mergeFrom i nfas).finals) :
    (f ∈ merged.finals ∧ (merged.mergeFrom i nfas).trace? f = merged.trace? f) ∨
      ∃ k < nfas.length, (merged.mergeFrom i nfas).trace? f = some (i + k) := by
  induction nfas generalizing merged i with
  | nil => exact .inl ⟨hf, rfl⟩
  | cons nfa rest ih =>
    obtain ⟨hnfa, hrest⟩ := List.forall_mem_cons.1 hwf
    rw [mergeFrom] at hf ⊢
    obtain ⟨hbefore, htrace⟩ | ⟨k, hk, htrace⟩ := ih (hm.addMember hnfa i) hrest hf
    · rw [htrace]
      obtain h | h := trace?_of_mem_finals_addMember hm.toWellFormed hbefore
      · exact .inl h
      · exact .inr ⟨0, Nat.succ_pos _, h⟩
    · refine .inr ⟨k + 1, Nat.succ_lt_succ hk, ?_⟩
      rw [htrace, Nat.add_assoc, Nat.add_comm 1]

theorem trace?_of_mem_finals_merge (hwf : ∀ nfa ∈ nfas, nfa.WellFormed)
    (hf : f ∈ (merge nfas).finals) : ∃ i < nfas.length, (merge nfas).trace? f = some i := by
  obtain ⟨hblank, -⟩ | ⟨k, hk, htrace⟩ := trace?_of_mem_finals_mergeFrom hub_blank hwf hf
  · cases hblank
  · exact ⟨k, hk, by rw [merge, htrace, Nat.zero_add]⟩

/-! ## The deterministic automaton -/

/-- A state chooses the first of the members that accept the words that lead to it. -/
theorem pattern_eq_some_iff_of_run? {sets : StateSets} {dfa : Dfa} {id : StateId}
    (hwf : ∀ nfa ∈ nfas, nfa.WellFormed) (h : Subset.Numbered (merge nfas) sets dfa)
    (hid : dfa.run? dfa.initial w = some id) :
    ((dfa.state id).isFinal = true ↔ ∃ nfa ∈ nfas, w ∈ nfa.language) ∧
      ∀ i, (dfa.state id).pattern = some i ↔
        IsLeast {i | ∃ nfa, nfas[i]? = some nfa ∧ w ∈ nfa.language} i := by
  have hrun := h.run?_initial (wellFormed_merge hwf) w
  rw [hid] at hrun
  obtain ⟨set, hset, hlists⟩ := hrun
  obtain ⟨steps, hstate, -⟩ := h.state hset
  have hpatterns : (merge nfas).patterns {q | q ∈ set} =
      {i | ∃ nfa, nfas[i]? = some nfa ∧ w ∈ nfa.language} := by
    rw [← hlists.reach_eq]
    exact Set.ext fun i => mem_patterns_merge hwf
  refine ⟨?_, fun i => ?_⟩
  · rw [h.isFinal_iff hset hlists, mem_language_merge hwf]
  · rw [hstate, Subset.pattern_stateOf_eq_some, hpatterns]

/-- **A merge is a traced union.** A word leads to a final state with the trace of a place
exactly when the member at that place accepts it, and all final states are traced to
members. In the deterministic automaton, which there is, a word leads to a final state
exactly when some member accepts it, and the pattern of that state is the first of those
that do. Members may be stamped before, and may step back into their initial states. -/
theorem merge_traces (hwf : ∀ nfa ∈ nfas, nfa.WellFormed) :
    (∀ w i, (∃ f ∈ (merge nfas).reach w, f ∈ (merge nfas).finals ∧
        (merge nfas).trace? f = some i) ↔ ∃ nfa, nfas[i]? = some nfa ∧ w ∈ nfa.language) ∧
    (∀ f ∈ (merge nfas).finals, ∃ i < nfas.length, (merge nfas).trace? f = some i) ∧
    (∃ dfa, (merge nfas).determinize none = .ok dfa) ∧
    ∀ limit dfa, (merge nfas).determinize limit = .ok dfa → ∀ w,
      ((∃ id, dfa.run? dfa.initial w = some id ∧ (dfa.state id).isFinal = true) ↔
        ∃ nfa ∈ nfas, w ∈ nfa.language) ∧
      ∀ id, dfa.run? dfa.initial w = some id → ∀ i, (dfa.state id).pattern = some i ↔
        IsLeast {i | ∃ nfa, nfas[i]? = some nfa ∧ w ∈ nfa.language} i := by
  have hmerge := wellFormed_merge hwf
  refine ⟨fun w i => mem_patterns_merge hwf, fun f => trace?_of_mem_finals_merge hwf,
    Subset.exists_determinize_none hmerge, fun limit dfa hdfa w => ?_⟩
  obtain ⟨sets, h⟩ := Subset.numbered_of_determinize hmerge hdfa
  refine ⟨⟨fun ⟨id, hid, hfinal⟩ => (pattern_eq_some_iff_of_run? hwf h hid).1.1 hfinal,
    fun hL => ?_⟩, fun id hid => (pattern_eq_some_iff_of_run? hwf h hid).2⟩
  -- A member that accepts the word reads it, so the word leads somewhere.
  obtain ⟨f, -, hf⟩ := (mem_language_merge hwf).2 hL
  obtain ⟨id, hid⟩ := Option.isSome_iff_exists.1 ((h.isSome_run?_iff hmerge w).2 ⟨f, hf⟩)
  exact ⟨id, hid, (pattern_eq_some_iff_of_run? hwf h hid).1.2 hL⟩

/-- The first member is stamped, and goes back to its initial state, in which it accepts. -/
theorem merge_traces_of_loop :
    let nfas : List Nfa := [⟨#[{ transitions := [(.char 'a', 0)] }], 0, [0], [], [(0, 7)]⟩,
      ofSymbol (.char 'a')]
    (∃ f ∈ (merge nfas).reach [.char 'a'], f ∈ (merge nfas).finals ∧
      (merge nfas).trace? f = some 0) ∧
    (∀ f ∈ (merge nfas).finals, ∃ i < 2, (merge nfas).trace? f = some i) ∧
    ∃ dfa id, (merge nfas).determinize none = .ok dfa ∧
      dfa.run? dfa.initial [.char 'a'] = some id ∧ (dfa.state id).isFinal = true ∧
      (dfa.state id).pattern = some 0 := by
  intro nfas
  have hwf : ∀ nfa ∈ nfas, nfa.WellFormed := by decide
  have ⟨htraced, hfinals, ⟨dfa, hdfa⟩, hrun⟩ := merge_traces hwf
  have hloop : [Symbol.char 'a'] ∈ nfas[0].language := by
    have hstep : nfas[0].Step 0 (some (.char 'a')) 0 := List.mem_cons_self
    exact ⟨0, List.mem_cons_self, .step hstep (.refl 0)⟩
  obtain ⟨id, hid, hfinal⟩ := (hrun none dfa hdfa [.char 'a']).1.2 ⟨_, List.mem_cons_self, hloop⟩
  have hleast := ((hrun none dfa hdfa [.char 'a']).2 id hid 0).2
    ⟨⟨_, rfl, hloop⟩, fun _ _ => Nat.zero_le _⟩
  exact ⟨(htraced _ 0).2 ⟨_, rfl, hloop⟩, hfinals, dfa, id, hdfa, hid, hfinal, hleast⟩

end LinePattern.Nfa
