/-
Merged automata accept what their members accept.

The automaton that members are added to is a `Hub`: no step leads into its
initial state, so a run that enters a member starts with the step to it. The
states that a word leads to are then those that it leads to in the members,
each under its own numbers (`mem_reach_addMember`), and the language of a
merge is the union of the languages (`mem_language_merge`).
-/
import LinePattern.Proofs.Nfa.Path

namespace LinePattern.Nfa

variable {merged nfa : Nfa} {nfas : List Nfa} {i : PatternId} {p q : StateId}
  {label : Option Symbol} {w : List Symbol}

/-- A well-formed automaton whose initial state no step leads into. -/
structure Hub (merged : Nfa) : Prop extends merged.WellFormed where
  not_step_initial : ∀ {p label}, ¬ merged.Step p label merged.initial

theorem hub_blank : blank.Hub where
  initial_lt := by decide
  final_lt := by decide
  target_lt h := absurd h not_step_blank
  not_step_initial := not_step_blank

/-! ## Adding a member -/

@[simp] theorem initial_addMember : (merged.addMember i nfa).initial = merged.initial := rfl

theorem mem_finals_addMember : q ∈ (merged.addMember i nfa).finals ↔
    q ∈ merged.finals ∨ ∃ f ∈ nfa.finals, q = f + merged.size := by
  simp only [addMember, List.mem_append, List.mem_map]
  constructor
  · rintro (h | ⟨f, hf, rfl⟩)
    · exact .inl h
    · exact .inr ⟨f, hf, rfl⟩
  · rintro (h | ⟨f, hf, rfl⟩)
    · exact .inl h
    · exact .inr ⟨f, hf, rfl⟩

/-- A member keeps its steps under its own numbers, and is entered from the
initial state. -/
theorem step_addMember (hm : merged.Hub) : (merged.addMember i nfa).Step p label q ↔
    merged.Step p label q ∨
      (∃ p' q', p = p' + merged.size ∧ q = q' + merged.size ∧ nfa.Step p' label q') ∨
      p = merged.initial ∧ label = none ∧ q = nfa.initial + merged.size := by
  have hlt : merged.initial < (merged.absorb (nfa.stamp i)).size := by
    have hi := hm.initial_lt
    rw [size_absorb]
    lia
  change ((merged.absorb (nfa.stamp i)).addEpsilon _ _).Step p label q ↔ _
  rw [step_addEpsilon_of_lt hlt, step_absorb, or_assoc]
  rfl

theorem Hub.addMember (hm : merged.Hub) (hwf : nfa.WellFormed) (i : PatternId) :
    (merged.addMember i nfa).Hub where
  initial_lt := by
    have hi := hm.initial_lt
    rw [initial_addMember, size_addMember]
    lia
  final_lt f hf := by
    rw [size_addMember]
    rcases mem_finals_addMember.1 hf with hf | ⟨f', hf', rfl⟩
    · have hlt := hm.final_lt f hf
      lia
    · have hlt := hwf.final_lt f' hf'
      lia
  target_lt {p label q} h := by
    rw [size_addMember]
    rcases (step_addMember hm).1 h with hs | ⟨p', q', -, rfl, hs⟩ | ⟨-, -, rfl⟩
    · have hlt := hm.target_lt hs
      lia
    · have hlt := hwf.target_lt hs
      lia
    · have hlt := hwf.initial_lt
      lia
  not_step_initial {p label} h := by
    have hi := hm.initial_lt
    rw [initial_addMember] at h
    rcases (step_addMember hm).1 h with h | ⟨p', q', -, hq, -⟩ | ⟨-, -, hq⟩
    · exact hm.not_step_initial h
    · lia
    · lia

/-- A run from the initial state goes on among the states there were, or enters
the new member and stays in it. -/
theorem mem_reach_addMember (hm : merged.Hub) (hwf : nfa.WellFormed) :
    q ∈ (merged.addMember i nfa).reach w ↔
      q ∈ merged.reach w ∨ ∃ q' ∈ nfa.reach w, q = q' + merged.size := by
  have hleave : ∀ {p label q}, p < merged.size → (merged.addMember i nfa).Step (id p) label q →
      (∃ q', q = id q' ∧ merged.Step p label q') ∨
        p = merged.initial ∧ label = none ∧ q = nfa.initial + merged.size := by
    intro p label q hp h
    rcases (step_addMember hm).1 h with h | ⟨p', q', rfl, -, -⟩ | h
    · exact .inl ⟨q, rfl, h⟩
    · lia
    · exact .inr h
  have hstay : ∀ {p label q}, p < nfa.size →
      (merged.addMember i nfa).Step (p + merged.size) label q →
      ∃ q', q = q' + merged.size ∧ nfa.Step p label q' := by
    intro p label q hp h
    rcases (step_addMember hm).1 h with hs | ⟨p', q', hp', rfl, hs⟩ | ⟨hp', -, -⟩
    · have hlt := hs.lt_size
      lia
    · exact ⟨q', rfl, Nat.add_right_cancel hp' ▸ hs⟩
    · have hlt := hm.initial_lt
      lia
  constructor
  · intro h
    rcases Path.leave hm.toWellFormed hleave hm.initial_lt h with
      ⟨r, rfl, h⟩ | ⟨u, v, _, rfl, hu, rfl, hv⟩
    · exact .inl h
    · -- Nothing was read before: the run could not have come back to the initial state.
      obtain ⟨rfl, -⟩ := hu.eq_of_source hm.not_step_initial
      obtain ⟨q', rfl, hmember⟩ := hv.stay hwf hstay hwf.initial_lt
      exact .inr ⟨q', hmember, rfl⟩
  · rintro (h | ⟨q', h, rfl⟩)
    · exact h.map (f := id) fun h => (step_addMember hm).2 (.inl h)
    · have henter : (merged.addMember i nfa).Step merged.initial none (nfa.initial + merged.size) :=
        (step_addMember hm).2 (.inr (.inr ⟨rfl, rfl, rfl⟩))
      have hmember : (merged.addMember i nfa).Path (nfa.initial + merged.size) w
          (q' + merged.size) :=
        Path.map (f := (· + merged.size))
          (fun h => (step_addMember hm).2 (.inr (.inl ⟨_, _, rfl, rfl, h⟩))) h
      exact .epsilon henter hmember

theorem mem_language_addMember (hm : merged.Hub) (hwf : nfa.WellFormed) :
    w ∈ (merged.addMember i nfa).language ↔ w ∈ merged.language ∨ w ∈ nfa.language := by
  constructor
  · rintro ⟨f, hf, hpath⟩
    rcases (mem_reach_addMember hm hwf).1 hpath with h | ⟨q', h, rfl⟩
    · rcases mem_finals_addMember.1 hf with hf | ⟨f', hf', rfl⟩
      · exact .inl ⟨f, hf, h⟩
      · have hlt := hm.lt_of_mem_reach h
        lia
    · rcases mem_finals_addMember.1 hf with hf | ⟨f', hf', heq⟩
      · have hlt := hm.final_lt _ hf
        lia
      · obtain rfl := Nat.add_right_cancel heq
        exact .inr ⟨q', hf', h⟩
  · rintro (⟨f, hf, h⟩ | ⟨f, hf, h⟩)
    · exact ⟨f, mem_finals_addMember.2 (.inl hf), (mem_reach_addMember hm hwf).2 (.inl h)⟩
    · exact ⟨_, mem_finals_addMember.2 (.inr ⟨f, hf, rfl⟩),
        (mem_reach_addMember hm hwf).2 (.inr ⟨f, h, rfl⟩)⟩

theorem mem_alphabet_addMember (hm : merged.Hub) {symbol : Symbol} :
    symbol ∈ (merged.addMember i nfa).alphabet ↔
      symbol ∈ merged.alphabet ∨ symbol ∈ nfa.alphabet := by
  rw [mem_alphabet, mem_alphabet, mem_alphabet]
  exact exists_labelled_iff (fun p label q => step_addMember hm) fun p q h => by cases h.2.1

/-! ## A whole list -/

theorem hub_mergeFrom (hm : merged.Hub) (hwf : ∀ nfa ∈ nfas, nfa.WellFormed) :
    (merged.mergeFrom i nfas).Hub := by
  induction nfas generalizing merged i with
  | nil => exact hm
  | cons nfa rest ih =>
    exact ih (hm.addMember (hwf nfa List.mem_cons_self) i) fun nfa h =>
      hwf nfa (List.mem_cons_of_mem _ h)

theorem mem_language_mergeFrom (hm : merged.Hub) (hwf : ∀ nfa ∈ nfas, nfa.WellFormed) :
    w ∈ (merged.mergeFrom i nfas).language ↔
      w ∈ merged.language ∨ ∃ nfa ∈ nfas, w ∈ nfa.language := by
  induction nfas generalizing merged i with
  | nil => simp [mergeFrom]
  | cons nfa rest ih =>
    have hnfa := hwf nfa List.mem_cons_self
    have hrest : ∀ nfa ∈ rest, nfa.WellFormed := fun nfa h => hwf nfa (List.mem_cons_of_mem _ h)
    rw [mergeFrom, ih (hm.addMember hnfa i) hrest, mem_language_addMember hm hnfa, or_assoc]
    simp

theorem mem_alphabet_mergeFrom (hm : merged.Hub) (hwf : ∀ nfa ∈ nfas, nfa.WellFormed)
    {symbol : Symbol} : symbol ∈ (merged.mergeFrom i nfas).alphabet ↔
      symbol ∈ merged.alphabet ∨ ∃ nfa ∈ nfas, symbol ∈ nfa.alphabet := by
  induction nfas generalizing merged i with
  | nil => simp [mergeFrom]
  | cons nfa rest ih =>
    have hnfa := hwf nfa List.mem_cons_self
    have hrest : ∀ nfa ∈ rest, nfa.WellFormed := fun nfa h => hwf nfa (List.mem_cons_of_mem _ h)
    rw [mergeFrom, ih (hm.addMember hnfa i) hrest, mem_alphabet_addMember hm, or_assoc]
    simp

theorem wellFormed_merge (hwf : ∀ nfa ∈ nfas, nfa.WellFormed) : (merge nfas).WellFormed :=
  (hub_mergeFrom hub_blank hwf).toWellFormed

/-- The language of a merge is the union of the languages of its members. -/
theorem mem_language_merge (hwf : ∀ nfa ∈ nfas, nfa.WellFormed) :
    w ∈ (merge nfas).language ↔ ∃ nfa ∈ nfas, w ∈ nfa.language := by
  have hblank : w ∉ blank.language := fun ⟨f, hf, _⟩ => by cases hf
  rw [merge, mem_language_mergeFrom hub_blank hwf]
  simp [hblank]

theorem mem_alphabet_merge (hwf : ∀ nfa ∈ nfas, nfa.WellFormed) {symbol : Symbol} :
    symbol ∈ (merge nfas).alphabet ↔ ∃ nfa ∈ nfas, symbol ∈ nfa.alphabet := by
  have hblank : symbol ∉ blank.alphabet := fun h => by
    obtain ⟨p, q, hs⟩ := mem_alphabet.1 h
    exact not_step_blank hs
  rw [merge, mem_alphabet_mergeFrom hub_blank hwf]
  simp [hblank]

end LinePattern.Nfa
