/-
The label that a state follows.

Whatever automaton it is made from, a deterministic state lists its steps in
strictly increasing order of their symbols, and has at most one step along each
(`sorted_of_determinize`). So trying one kind of label after the other takes
the least label that accepts the character (`follow?_eq_some_iff`), and the
complements are tried in the order of their symbols, each once.
-/
import LinePattern.Proofs.Dfa.Course

namespace LinePattern

namespace DfaState

variable {s : DfaState} {c : Char} {symbol other : Symbol} {target : StateId}

/-- The symbol labels a step of the state. -/
def HasLabel (s : DfaState) (symbol : Symbol) : Prop := (s.next? symbol).isSome = true

/-- The least of the labels that accept the character. -/
structure LeastLabel (s : DfaState) (c : Char) (symbol : Symbol) : Prop where
  accepts : symbol.accepts c = true
  hasLabel : s.HasLabel symbol
  least : ∀ t : Symbol, t.accepts c = true → s.HasLabel t → t = symbol ∨ symbol.compare t = .lt

theorem LeastLabel.unique (h : s.LeastLabel c symbol) (h' : s.LeastLabel c other) :
    symbol = other := by
  rcases h.least other h'.accepts h'.hasLabel with heq | hlt
  · exact heq.symm
  · rcases h'.least symbol h.accepts h.hasLabel with heq | hlt'
    · exact heq
    · rw [← Symbol.compare_swap, hlt] at hlt'
      cases hlt'

theorem Sorted.dead : Sorted .dead := List.Pairwise.nil

theorem Sorted.hasLabel_iff (h : s.Sorted) :
    s.HasLabel symbol ↔ ∃ step ∈ s.steps, step.symbol = symbol := by
  simp only [HasLabel, Option.isSome_iff_exists, next?_eq_some_iff h]
  constructor
  · rintro ⟨target, step, hstep, hsymbol, -⟩
    exact ⟨step, hstep, hsymbol⟩
  · rintro ⟨step, hstep, hsymbol⟩
    exact ⟨step.target, step, hstep, hsymbol, rfl⟩

theorem Sorted.leastLabel_of_find? (h : s.Sorted) {step : DfaStep}
    (hfind : s.steps.find? (·.symbol.accepts c) = some step) : s.LeastLabel c step.symbol := by
  have haccepts : step.symbol.accepts c = true := by simpa using List.find?_some hfind
  refine ⟨haccepts, isSome_next?_of_mem (List.mem_of_find?_eq_some hfind), fun t ht hlabel => ?_⟩
  obtain ⟨other, hother, rfl⟩ := h.hasLabel_iff.1 hlabel
  exact (h.eq_or_compare_of_find? hfind hother ht).imp_left (congrArg DfaStep.symbol)

theorem follow?_eq_some_iff (h : s.Sorted) :
    s.follow? c = some target ↔
      ∃ symbol, s.LeastLabel c symbol ∧ s.next? symbol = some target := by
  rw [follow?_eq h, Option.map_eq_some_iff]
  constructor
  · rintro ⟨step, hfind, rfl⟩
    have hstep := List.mem_of_find?_eq_some hfind
    exact ⟨step.symbol, h.leastLabel_of_find? hfind,
      (next?_eq_some_iff h).2 ⟨step, hstep, rfl, rfl⟩⟩
  · rintro ⟨symbol, hleast, hnext⟩
    obtain ⟨step, hstep, rfl, rfl⟩ := (next?_eq_some_iff h).1 hnext
    have hsome : (s.steps.find? (·.symbol.accepts c)).isSome = true :=
      List.find?_isSome.2 ⟨step, hstep, hleast.accepts⟩
    obtain ⟨first, hfirst⟩ := Option.isSome_iff_exists.1 hsome
    -- The label of the first step that accepts is the least one too, and labels one step.
    have hsame := (h.leastLabel_of_find? hfirst).unique hleast
    have hnext' := (next?_eq_some_iff h).2 ⟨first, List.mem_of_find?_eq_some hfirst, hsame, rfl⟩
    exact ⟨first, hfirst, Option.some.inj (hnext'.symm.trans hnext)⟩

theorem follow?_eq_none_iff (h : s.Sorted) :
    s.follow? c = none ↔ ∀ symbol, s.HasLabel symbol → symbol.accepts c = false := by
  rw [follow?_eq h, Option.map_eq_none_iff, List.find?_eq_none]
  simp only [h.hasLabel_iff, Bool.not_eq_true]
  exact ⟨fun hnone symbol ⟨step, hstep, hsymbol⟩ => hsymbol ▸ hnone step hstep,
    fun hnone step hstep => hnone step.symbol ⟨step, hstep, rfl⟩⟩

/-- A state tries all its complements, and nothing else. -/
theorem mem_exclusions_iff (h : s.Sorted) :
    (∃ step ∈ s.exclusions, step.symbol = symbol ∧ step.target = target) ↔
      (∃ members, symbol = .noneOf members) ∧ s.next? symbol = some target := by
  rw [next?_eq_some_iff h]
  constructor
  · rintro ⟨step, hstep, rfl, rfl⟩
    obtain ⟨hmem, hkind⟩ := List.mem_filter.1 hstep
    refine ⟨?_, step, hmem, rfl, rfl⟩
    cases hsymbol : step.symbol with
    | noneOf members => exact ⟨members, rfl⟩
    | _ => simp [hsymbol] at hkind
  · rintro ⟨⟨members, rfl⟩, step, hmem, hsymbol, rfl⟩
    exact ⟨step, List.mem_filter.2 ⟨hmem, by simp [hsymbol]⟩, hsymbol, rfl⟩

end DfaState

namespace Subset

variable {nfa : Nfa} {limit : Option Nat} {dfa : Dfa}

theorem Tabulates.sorted {table : Table} (h : Tabulates nfa table dfa) (id : StateId) :
    (dfa.state id).Sorted := by
  by_cases hid : id < dfa.size
  · obtain ⟨set, steps, hset, hsteps, hstate⟩ := h.exists_row hid
    rw [hstate]
    exact (h.row hset hsteps).sorted
  · rw [Dfa.state_of_size_le (Nat.le_of_not_lt hid)]
    exact .dead

/-- Every state that the construction makes is sorted. -/
theorem sorted_of_determinize (h : nfa.determinize limit = .ok dfa) (id : StateId) :
    (dfa.state id).Sorted := by
  obtain ⟨table, -, htable⟩ := tabulates_of_determinize h
  exact htable.sorted id

/-- **A character follows the least label that accepts it.** It leads where the
least of the labels that accept it leads, and nowhere when there is none. Among
the complements a state tries are all its steps along one, each once, in the
order of their symbols. -/
theorem findNext_eq_least_label (h : nfa.determinize limit = .ok dfa) (id : StateId) :
    (∀ c target, dfa.findNext id c = some target ↔
      ∃ symbol, (dfa.state id).LeastLabel c symbol ∧
        (dfa.state id).next? symbol = some target) ∧
    (∀ c, dfa.findNext id c = none ↔
      ∀ symbol, (dfa.state id).HasLabel symbol → symbol.accepts c = false) ∧
    (∀ symbol target,
      (∃ step ∈ (dfa.state id).exclusions, step.symbol = symbol ∧ step.target = target) ↔
        (∃ members, symbol = .noneOf members) ∧ (dfa.state id).next? symbol = some target) ∧
    (dfa.state id).exclusions.Pairwise fun a b => a.symbol.compare b.symbol = .lt := by
  have hsorted := sorted_of_determinize h id
  exact ⟨fun c target => DfaState.follow?_eq_some_iff hsorted,
    fun c => DfaState.follow?_eq_none_iff hsorted,
    fun symbol target => DfaState.mem_exclusions_iff hsorted, hsorted.filter _⟩

/-- Labels that overlap: words come before the complement, which comes before
any character. -/
theorem findNext_eq_least_label_overlapping :
    let nfa : Nfa := ⟨#[{ transitions := [(.any, 1), (.noneOf [.char 'b'], 2), (.word, 3)] },
      {}, {}, {}], 0, [1], [], []⟩
    ∃ dfa, nfa.determinize none = .ok dfa ∧
      (∃ symbol, (dfa.state 0).LeastLabel 'a' symbol ∧ (dfa.state 0).next? symbol = some 1) ∧
      (∃ symbol, (dfa.state 0).LeastLabel '-' symbol ∧ (dfa.state 0).next? symbol = some 2) ∧
      ∃ step ∈ (dfa.state 0).exclusions, step.symbol = .noneOf [.char 'b'] ∧ step.target = 2 := by
  intro nfa
  have hrun : (nfa.determinize none).toOption.any (fun dfa =>
      dfa.findNext 0 'a' = some 1 ∧ dfa.findNext 0 '-' = some 2 ∧
        (dfa.state 0).next? (.noneOf [.char 'b']) = some 2) = true := by
    decide +kernel
  obtain ⟨dfa, hdfa, hrun⟩ := exists_ok_of_any hrun
  obtain ⟨hletter, hdash, hnext⟩ := of_decide_eq_true hrun
  obtain ⟨hfollow, -, hexclusions, -⟩ := findNext_eq_least_label hdfa 0
  exact ⟨dfa, hdfa, (hfollow _ _).1 hletter, (hfollow _ _).1 hdash,
    (hexclusions _ _).2 ⟨⟨_, rfl⟩, hnext⟩⟩

end Subset

end LinePattern
