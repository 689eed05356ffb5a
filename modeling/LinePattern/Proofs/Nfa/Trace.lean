/-
A merge remembers which of its members accepts.

A member is stamped with its place when it is added, and the stamp covers those
it had before. Its states get numbers of their own, so later members leave it
alone. Hence the patterns for which a merge accepts a word are the places of the
members that accept it (`mem_patterns_merge`), and a word other than the empty
one is read where a member reads it (`readable_merge`).
-/
import LinePattern.Proofs.Dfa.Course
import LinePattern.Proofs.Nfa.Merge

namespace LinePattern.Nfa

variable {merged nfa : Nfa} {nfas : List Nfa} {i p : PatternId} {q : StateId}
  {w : List Symbol}

/-! ## Stamps -/

theorem lookup_map_const {xs : List StateId} {x : StateId} (offset : Nat) (i : PatternId)
    (h : x ∈ xs) : (xs.map fun y => (y + offset, i)).lookup (x + offset) = some i := by
  induction xs with
  | nil => cases h
  | cons y ys ih =>
    rw [List.map_cons, List.lookup_cons]
    by_cases hxy : x = y
    · simp [hxy]
    · have hne : (x + offset == y + offset) = false := by simpa using hxy
      rw [hne]
      exact ih ((List.mem_cons.1 h).resolve_left hxy)

theorem traces_addMember : (merged.addMember i nfa).traces =
    (nfa.finals.map fun f => (f + merged.size, i)) ++
      (nfa.traces.map fun t => (t.1 + merged.size, t.2)) ++ merged.traces := by
  simp [addMember, absorb, stamp, addEpsilon]

theorem trace?_addMember_of_lt (hq : q < merged.size) :
    (merged.addMember i nfa).trace? q = merged.trace? q := by
  have hfresh : ∀ t ∈ (nfa.finals.map fun f => (f + merged.size, i)) ++
      (nfa.traces.map fun t => (t.1 + merged.size, t.2)), (q != t.1) = true := by
    intro t ht
    have hge : merged.size ≤ t.1 := by
      rcases List.mem_append.1 ht with ht | ht
      · obtain ⟨f, -, rfl⟩ := List.mem_map.1 ht
        exact Nat.le_add_left _ _
      · obtain ⟨s, -, rfl⟩ := List.mem_map.1 ht
        exact Nat.le_add_left _ _
    exact bne_iff_ne.2 (Nat.ne_of_lt (Nat.lt_of_lt_of_le hq hge))
  rw [trace?, traces_addMember, List.lookup_append, List.lookup_eq_none_iff.2 hfresh,
    Option.none_or, trace?]

/-- The final states of the new member have its place. -/
theorem trace?_addMember (hq : q ∈ nfa.finals) :
    (merged.addMember i nfa).trace? (q + merged.size) = some i := by
  rw [trace?, traces_addMember, List.lookup_append, List.lookup_append,
    lookup_map_const merged.size i hq, Option.some_or, Option.some_or]

/-! ## The patterns of a word -/

theorem mem_patterns_addMember (hm : merged.Hub) (hwf : nfa.WellFormed) :
    p ∈ (merged.addMember i nfa).patterns ((merged.addMember i nfa).reach w) ↔
      p ∈ merged.patterns (merged.reach w) ∨ p = i ∧ w ∈ nfa.language := by
  constructor
  · rintro ⟨f, hf, hfinal, htrace⟩
    rcases (mem_reach_addMember hm hwf).1 hf with hf | ⟨f', hf', rfl⟩
    · have hlt := hm.lt_of_mem_reach hf
      rw [trace?_addMember_of_lt hlt] at htrace
      rcases mem_finals_addMember.1 hfinal with hfinal | ⟨f', -, rfl⟩
      · exact .inl ⟨f, hf, hfinal, htrace⟩
      · lia
    · rcases mem_finals_addMember.1 hfinal with hfinal | ⟨f'', hfinal, heq⟩
      · have hlt := hm.final_lt _ hfinal
        lia
      · obtain rfl := Nat.add_right_cancel heq
        rw [trace?_addMember hfinal] at htrace
        exact .inr ⟨(Option.some.inj htrace).symm, f', hfinal, hf'⟩
  · rintro (⟨f, hf, hfinal, htrace⟩ | ⟨rfl, f, hfinal, hf⟩)
    · rw [← trace?_addMember_of_lt (hm.lt_of_mem_reach hf)] at htrace
      exact ⟨f, (mem_reach_addMember hm hwf).2 (.inl hf), mem_finals_addMember.2 (.inl hfinal),
        htrace⟩
    · exact ⟨f + merged.size, (mem_reach_addMember hm hwf).2 (.inr ⟨f, hf, rfl⟩),
        mem_finals_addMember.2 (.inr ⟨f, hfinal, rfl⟩), trace?_addMember hfinal⟩

theorem mem_patterns_mergeFrom (hm : merged.Hub) (hwf : ∀ nfa ∈ nfas, nfa.WellFormed) :
    p ∈ (merged.mergeFrom i nfas).patterns ((merged.mergeFrom i nfas).reach w) ↔
      p ∈ merged.patterns (merged.reach w) ∨
        ∃ k nfa, p = i + k ∧ nfas[k]? = some nfa ∧ w ∈ nfa.language := by
  induction nfas generalizing merged i with
  | nil => simp [mergeFrom]
  | cons nfa rest ih =>
    have hnfa := hwf nfa List.mem_cons_self
    have hrest : ∀ nfa ∈ rest, nfa.WellFormed := fun nfa h => hwf nfa (List.mem_cons_of_mem _ h)
    rw [mergeFrom, ih (hm.addMember hnfa i) hrest, mem_patterns_addMember hm hnfa, or_assoc]
    refine or_congr_right ⟨?_, ?_⟩
    · rintro (⟨rfl, h⟩ | ⟨k, other, rfl, hk, h⟩)
      · exact ⟨0, nfa, rfl, rfl, h⟩
      · exact ⟨k + 1, other, by lia, hk, h⟩
    · rintro ⟨k, other, rfl, hk, h⟩
      cases k with
      | zero =>
        cases hk
        exact .inl ⟨rfl, h⟩
      | succ k => exact .inr ⟨k, other, by lia, hk, h⟩

/-- **A merge accepts a word for the places of the members that accept it.** -/
theorem mem_patterns_merge (hwf : ∀ nfa ∈ nfas, nfa.WellFormed) :
    p ∈ (merge nfas).patterns ((merge nfas).reach w) ↔
      ∃ nfa, nfas[p]? = some nfa ∧ w ∈ nfa.language := by
  have hblank : p ∉ blank.patterns (blank.reach w) := fun ⟨f, _, hf, _⟩ => by cases hf
  rw [merge, mem_patterns_mergeFrom hub_blank hwf]
  simp [hblank]

/-! ## The words that are read -/

theorem readable_addMember (hm : merged.Hub) (hwf : nfa.WellFormed) :
    (merged.addMember i nfa).Readable w ↔ merged.Readable w ∨ nfa.Readable w := by
  constructor
  · rintro ⟨q, hq⟩
    rcases (mem_reach_addMember hm hwf).1 hq with hq | ⟨q', hq', -⟩
    · exact .inl ⟨q, hq⟩
    · exact .inr ⟨q', hq'⟩
  · rintro (⟨q, hq⟩ | ⟨q, hq⟩)
    · exact ⟨q, (mem_reach_addMember hm hwf).2 (.inl hq)⟩
    · exact ⟨q + merged.size, (mem_reach_addMember hm hwf).2 (.inr ⟨q, hq, rfl⟩)⟩

theorem readable_mergeFrom (hm : merged.Hub) (hwf : ∀ nfa ∈ nfas, nfa.WellFormed) :
    (merged.mergeFrom i nfas).Readable w ↔ merged.Readable w ∨ ∃ nfa ∈ nfas, nfa.Readable w := by
  induction nfas generalizing merged i with
  | nil => simp [mergeFrom]
  | cons nfa rest ih =>
    have hnfa := hwf nfa List.mem_cons_self
    have hrest : ∀ nfa ∈ rest, nfa.WellFormed := fun nfa h => hwf nfa (List.mem_cons_of_mem _ h)
    rw [mergeFrom, ih (hm.addMember hnfa i) hrest, readable_addMember hm hnfa, or_assoc]
    simp

/-- A merge reads what its members read, and the empty word. -/
theorem readable_merge (hwf : ∀ nfa ∈ nfas, nfa.WellFormed) :
    (merge nfas).Readable w ↔ w = [] ∨ ∃ nfa ∈ nfas, nfa.Readable w := by
  have hblank : blank.Readable w ↔ w = [] := by
    constructor
    · rintro ⟨q, hq⟩
      exact (Path.eq_of_dead not_step_blank hq).1
    · rintro rfl
      exact readable_nil blank
  rw [merge, readable_mergeFrom hub_blank hwf, hblank]

end LinePattern.Nfa
