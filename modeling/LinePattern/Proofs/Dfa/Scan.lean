/-
What a scan accepts.

The policies stop at different places, but they agree on whether there is a
match: `Dfa.accepts` follows the text and asks for an accepting state behind
any of its characters or at its end (`matched_scan`).

A scan follows one label for each character, chosen by priority. Whatever the
choice, the label accepts the character (`exists_step_of_follow?`), so what a
scan of a determinised automaton accepts, some word of the nondeterministic one
reads (`matches_of_accepts`). Where no character is accepted by two labels there
is no choice, and the scan misses nothing (`accepts_of_matches`).
-/
import LinePattern.Dfa.Scan
import LinePattern.Proofs.Dfa.Words
import LinePattern.Proofs.Symbol.Reading

namespace LinePattern

/-! ## One answer for all policies -/

namespace Dfa

/-- Whether a step along the end of the line leads to an accepting state. -/
def acceptsAtEnd (dfa : Dfa) (id : StateId) : Bool :=
  match (dfa.state id).next? .endOfLine with
  | none => false
  | some target => (dfa.state target).isFinal

/-- Whether a text leads from the state `id` to an accepting one: behind one of
its characters, or at its end. -/
def accepts (dfa : Dfa) (id : StateId) : List Char → Bool
  | [] => dfa.acceptsAtEnd id
  | c :: rest =>
    match dfa.findNext id c with
    | none => false
    | some target => (dfa.state target).isFinal || dfa.accepts target rest

end Dfa

namespace Scan

variable {dfa : Dfa}

@[simp] theorem state_move (scan : Scan) (target : StateId) (c : Char) :
    (scan.move dfa target c).state = target := by
  unfold move
  cases scan.groupInto? dfa target <;> rfl

@[simp] theorem isSome_acceptHere? (dfa : Dfa) (scan : Scan) :
    (scan.acceptHere? dfa).isSome = (dfa.state scan.state).isFinal := by
  unfold acceptHere?
  cases hfinal : (dfa.state scan.state).isFinal <;> simp [hfinal]

@[simp] theorem isSome_acceptAtEnd? (scan : Scan) :
    (scan.acceptAtEnd? dfa).isSome = dfa.acceptsAtEnd scan.state := by
  unfold acceptAtEnd? Dfa.acceptsAtEnd
  cases (dfa.state scan.state).next? .endOfLine with
  | none => rfl
  | some target => simp

theorem isSome_first (scan : Scan) (text : List Char) :
    (first dfa scan text).isSome = dfa.accepts scan.state text := by
  induction text generalizing scan with
  | nil => simp [first, Dfa.accepts]
  | cons c rest ih =>
    unfold first Dfa.accepts
    cases dfa.findNext scan.state c with
    | none => rfl
    | some target =>
      have hhere := isSome_acceptHere? dfa (scan.move dfa target c)
      have hrest := ih (scan.move dfa target c)
      rw [state_move] at hhere hrest
      simp only [← hhere, ← hrest]
      cases acceptHere? dfa (scan.move dfa target c) <;> rfl

theorem isSome_earlyExit (recorded : Option (Option PatternId)) (scan : Scan)
    (text : List Char) :
    (earlyExit dfa recorded scan text).isSome =
      (recorded.isSome || dfa.accepts scan.state text) := by
  induction text generalizing recorded scan with
  | nil => cases recorded <;> simp [earlyExit, Dfa.accepts]
  | cons c rest ih =>
    unfold earlyExit Dfa.accepts
    cases dfa.findNext scan.state c with
    | none => cases recorded <;> rfl
    | some target =>
      have hhere := isSome_acceptHere? dfa (scan.move dfa target c)
      rw [state_move] at hhere
      simp only [← hhere]
      split
      · next hstop =>
        cases recorded with
        | none => simp at hstop
        | some pattern => rfl
      · rw [ih, state_move]
        cases recorded <;> simp

theorem isSome_longest (best : Option Mark) (lengths : List Nat) (scan : Scan)
    (text : List Char) :
    (longest dfa best lengths scan text).isSome =
      (best.isSome || dfa.accepts scan.state text) := by
  induction text generalizing best lengths scan with
  | nil => cases best <;> simp [longest, Dfa.accepts]
  | cons c rest ih =>
    unfold longest Dfa.accepts
    cases dfa.findNext scan.state c with
    | none => cases best <;> rfl
    | some target =>
      have hhere := isSome_acceptHere? dfa (scan.move dfa target c)
      rw [state_move] at hhere
      simp only [← hhere, ih, state_move]
      cases best <;> simp

theorem isSome_under (policy : MatchPolicy) (dfa : Dfa) (text : List Char) :
    (under policy dfa text).isSome = dfa.accepts dfa.initial text := by
  cases policy with
  | first => exact isSome_first _ _
  | earlyExit => simp [under, isSome_earlyExit, start]
  | longest => simp [under, isSome_longest, start]

end Scan

/-- **Whether a text matches does not depend on the policy.** -/
theorem Dfa.matched_scan (dfa : Dfa) (policy : MatchPolicy) (text : String) :
    (dfa.scan policy text).matched =
      ((dfa.state dfa.initial).isFinal || dfa.accepts dfa.initial text.toList) := by
  rw [← Scan.isSome_under policy, Dfa.scan]
  cases Scan.under policy dfa text.toList with
  | some acceptance => simp [Outcome.accepted]
  | none => cases hfinal : (dfa.state dfa.initial).isFinal <;> simp [hfinal, Outcome.accepted,
      Outcome.rejected]

/-! ## The label that a character follows -/

namespace DfaState

variable {s : DfaState} {c : Char} {target : StateId} {symbol : Symbol} {step : DfaStep}

theorem exists_step_of_next? (h : s.next? symbol = some target) :
    ∃ step ∈ s.steps, step.symbol = symbol ∧ step.target = target := by
  obtain ⟨step, hfind, rfl⟩ := Option.map_eq_some_iff.1 h
  exact ⟨step, List.mem_of_find?_eq_some hfind, by simpa using List.find?_some hfind, rfl⟩

theorem isSome_next?_of_mem (h : step ∈ s.steps) : (s.next? step.symbol).isSome = true := by
  rw [next?, Option.isSome_map, List.find?_isSome]
  exact ⟨step, h, by simp⟩

theorem exists_step_of_nextExcluding? (h : s.nextExcluding? c = some target) :
    ∃ step ∈ s.steps, step.symbol.accepts c = true ∧ step.target = target := by
  obtain ⟨step, hfind, rfl⟩ := Option.map_eq_some_iff.1 h
  have hmem : step ∈ s.exclusions := List.mem_of_find?_eq_some hfind
  have haccepts : step.symbol.accepts c = true := by simpa using List.find?_some hfind
  exact ⟨step, List.mem_of_mem_filter hmem, haccepts, rfl⟩

theorem isSome_nextExcluding?_of_mem {members : List Symbol} (h : step ∈ s.steps)
    (hsymbol : step.symbol = .noneOf members) (haccepts : step.symbol.accepts c = true) :
    (s.nextExcluding? c).isSome = true := by
  have hmem : step ∈ s.exclusions := by
    rw [exclusions, List.mem_filter]
    exact ⟨h, by simp [hsymbol]⟩
  rw [nextExcluding?, Option.isSome_map, List.find?_isSome]
  exact ⟨step, hmem, haccepts⟩

theorem exists_step_of_follow? (h : s.follow? c = some target) :
    ∃ step ∈ s.steps, step.symbol.accepts c = true ∧ step.target = target := by
  have hnext : ∀ symbol : Symbol, symbol.accepts c = true → s.next? symbol = some target →
      ∃ step ∈ s.steps, step.symbol.accepts c = true ∧ step.target = target := by
    intro symbol haccepts hnext
    obtain ⟨step, hstep, rfl, rfl⟩ := exists_step_of_next? hnext
    exact ⟨step, hstep, haccepts, rfl⟩
  simp only [follow?, Option.orElse_eq_some, Option.ite_none_right_eq_some] at h
  rcases h with h | ⟨-, ⟨hdigit, h⟩ | ⟨-, ⟨hword, h⟩ | ⟨-, h | ⟨-, h⟩⟩⟩⟩
  · exact hnext (.char c) (by simp [Symbol.accepts]) h
  · exact hnext .digit hdigit h
  · exact hnext .word hword h
  · exact exists_step_of_nextExcluding? h
  · exact hnext .any rfl h

theorem isSome_follow?_of_mem (h : step ∈ s.steps) (haccepts : step.symbol.accepts c = true) :
    (s.follow? c).isSome = true := by
  by_contra hnone
  rw [Option.not_isSome_iff_eq_none] at hnone
  simp only [follow?, Option.orElse_eq_none] at hnone
  obtain ⟨hchar, hdigit, hword, hexcluding, hany⟩ := hnone
  have hnext := isSome_next?_of_mem h
  cases hsymbol : step.symbol with
  | char x =>
    rw [hsymbol, Symbol.accepts, beq_iff_eq] at haccepts
    rw [hsymbol, haccepts, hchar] at hnext
    cases hnext
  | digit =>
    rw [hsymbol, Symbol.accepts] at haccepts
    rw [if_pos haccepts] at hdigit
    rw [hsymbol, hdigit] at hnext
    cases hnext
  | word =>
    rw [hsymbol, Symbol.accepts] at haccepts
    rw [if_pos haccepts] at hword
    rw [hsymbol, hword] at hnext
    cases hnext
  | noneOf members =>
    have hsome := isSome_nextExcluding?_of_mem h hsymbol haccepts
    rw [hexcluding] at hsome
    cases hsome
  | any =>
    rw [hsymbol, hany] at hnext
    cases hnext
  | endOfLine =>
    rw [hsymbol, Symbol.accepts] at haccepts
    cases haccepts

end DfaState

/-! ## Scans of a determinised automaton -/

/-- No character is accepted by two labels. -/
def Nfa.ScalarDisjoint (nfa : Nfa) : Prop :=
  ∀ s ∈ nfa.alphabet, ∀ t ∈ nfa.alphabet, ∀ c, s.accepts c = true → t.accepts c = true → s = t

namespace Subset

variable {nfa : Nfa} {dfa : Dfa} {sets : StateSets} {set : List StateId} {id : StateId}
  {v : List Symbol} {text : List Char}

/-- A state accepts when the words that lead to it do. -/
theorem Numbered.isFinal_iff (h : Numbered nfa sets dfa) (hset : sets.toArray[id]? = some set)
    (hv : nfa.Lists v set) : (dfa.state id).isFinal = true ↔ v ∈ nfa.language := by
  obtain ⟨steps, hstate, -⟩ := h.state hset
  rw [hstate, isFinal_stateOf, Nfa.mem_language]
  constructor
  · rintro ⟨f, hf, hfinal⟩
    exact ⟨f, hfinal, hv.mem_iff.1 hf⟩
  · rintro ⟨f, hfinal, hf⟩
    exact ⟨f, hv.mem_iff.2 hf, hfinal⟩

theorem Numbered.acceptsAtEnd_iff (hwf : nfa.WellFormed) (h : Numbered nfa sets dfa)
    (hset : sets.toArray[id]? = some set) (hv : nfa.Lists v set) :
    dfa.acceptsAtEnd id = true ↔ v ++ [.endOfLine] ∈ nfa.language := by
  have hnext := h.next? hwf hset hv .endOfLine
  unfold Dfa.acceptsAtEnd
  cases hstep : (dfa.state id).next? .endOfLine with
  | none =>
    rw [hstep] at hnext
    refine ⟨nofun, fun hL => ?_⟩
    obtain ⟨f, -, hf⟩ := Nfa.mem_language.1 hL
    exact absurd hf (Set.eq_empty_iff_forall_notMem.1 hnext f)
  | some target =>
    rw [hstep] at hnext
    obtain ⟨set', hset', hlists⟩ := hnext
    exact h.isFinal_iff hset' hlists

/-- What a scan accepts from a state, the words that lead there can be
continued to read. -/
theorem matches_of_accepts (hwf : nfa.WellFormed) (h : Numbered nfa sets dfa)
    (hset : sets.toArray[id]? = some set) (hv : nfa.Lists v set)
    (haccepts : ((dfa.state id).isFinal || dfa.accepts id text) = true) :
    Matches (readings (nfa.language.leftQuotient v)) text := by
  induction text generalizing id set v with
  | nil =>
    rw [Bool.or_eq_true, h.isFinal_iff hset hv, Dfa.accepts, h.acceptsAtEnd_iff hwf hset hv]
      at haccepts
    rw [matches_nil, nil_mem_readings]
    rcases haccepts with hL | hL
    · left
      simpa using hL
    · right
      exact ⟨[.endOfLine], hL, .cons rfl .nil⟩
  | cons c rest ih =>
    rw [Bool.or_eq_true, h.isFinal_iff hset hv] at haccepts
    rw [matches_readings_cons]
    rcases haccepts with hL | haccepts
    · left
      simpa using hL
    · right
      unfold Dfa.accepts at haccepts
      split at haccepts
      · cases haccepts
      · next target hfollow =>
        obtain ⟨step, hstep, hreads, rfl⟩ := DfaState.exists_step_of_follow? hfollow
        obtain ⟨-, set', hset', hlists⟩ := h.of_mem_steps hwf hset hv hstep
        refine ⟨step.symbol, hreads, ?_⟩
        rw [← Language.leftQuotient_append]
        exact ih hset' hlists haccepts

/-- Without overlapping labels a scan accepts whatever the words that lead to
its state can be continued to read. -/
theorem accepts_of_matches (hwf : nfa.WellFormed) (hdisjoint : nfa.ScalarDisjoint)
    (h : Numbered nfa sets dfa) (hset : sets.toArray[id]? = some set) (hv : nfa.Lists v set)
    (hmatches : Matches (readings (nfa.language.leftQuotient v)) text) :
    ((dfa.state id).isFinal || dfa.accepts id text) = true := by
  induction text generalizing id set v with
  | nil =>
    rw [Bool.or_eq_true, h.isFinal_iff hset hv, Dfa.accepts, h.acceptsAtEnd_iff hwf hset hv]
    rw [matches_nil, nil_mem_readings] at hmatches
    rcases hmatches with hL | ⟨w, hL, hread⟩
    · left
      simpa using hL
    · right
      cases hread with
      | cons hs hrest =>
        cases hrest
        rw [Symbol.reads_endOfText] at hs
        exact hs ▸ hL
  | cons c rest ih =>
    rw [Bool.or_eq_true, h.isFinal_iff hset hv]
    rw [matches_readings_cons] at hmatches
    rcases hmatches with hL | ⟨s, hreads, hmatches⟩
    · left
      simpa using hL
    · right
      rw [← Language.leftQuotient_append] at hmatches
      -- Some word goes on with the symbol, so there is a step along it.
      have hne : nfa.reach (v ++ [s]) ≠ ∅ := by
        intro hempty
        obtain ⟨w, hw⟩ := hmatches.exists_mem
        obtain ⟨f, -, hf⟩ := Nfa.mem_language.1 hw
        exact Set.eq_empty_iff_forall_notMem.1 (Nfa.reach_append_eq_empty hempty w) f hf
      obtain ⟨step, hstep, rfl⟩ := h.exists_step hset hv hne
      obtain ⟨target, hfollow⟩ := Option.isSome_iff_exists.1
        (DfaState.isSome_follow?_of_mem hstep hreads)
      -- The step that is followed accepts the character as well, so it is this one.
      obtain ⟨step', hstep', hreads', rfl⟩ := DfaState.exists_step_of_follow? hfollow
      obtain ⟨hsymbol, -⟩ := h.of_mem_steps hwf hset hv hstep
      obtain ⟨hsymbol', set', hset', hlists⟩ := h.of_mem_steps hwf hset hv hstep'
      rw [hdisjoint _ hsymbol _ hsymbol' c hreads hreads'] at hmatches
      unfold Dfa.accepts
      rw [Dfa.findNext, hfollow]
      exact ih hset' hlists hmatches

/-- A scan accepts nothing that the nondeterministic automaton does not. -/
theorem matches_of_matched (hwf : nfa.WellFormed) (h : Numbered nfa sets dfa)
    {policy : MatchPolicy} {text : String} (hmatched : (dfa.scan policy text).matched = true) :
    Matches (readings nfa.language) text.toList := by
  obtain ⟨start, hstart, hlists⟩ := h.start
  rw [Dfa.matched_scan, h.initial_eq] at hmatched
  exact matches_of_accepts hwf h hstart hlists hmatched

/-- Without overlapping labels a scan misses nothing. -/
theorem matched_of_matches (hwf : nfa.WellFormed) (hdisjoint : nfa.ScalarDisjoint)
    (h : Numbered nfa sets dfa) {text : String} (policy : MatchPolicy)
    (hmatches : Matches (readings nfa.language) text.toList) :
    (dfa.scan policy text).matched = true := by
  obtain ⟨start, hstart, hlists⟩ := h.start
  rw [Dfa.matched_scan, h.initial_eq]
  exact accepts_of_matches hwf hdisjoint h hstart hlists hmatches

end Subset

end LinePattern
