/-
A merge of fewer automata needs no more deterministic states.

The members of a merge keep their states apart. So two words lead to the same
states of a merge exactly when they do in every member
(`reach_merge_eq_iff`), and a merge of some of the members neither reads a
word that the whole does not read, nor tells two words apart that lead to the
same states of the whole. A deterministic state stands for the words that lead
to one set, hence there are no more of them (`Numbered.size_le_of_subset`).
-/
import LinePattern.Proofs.Dfa.Words
import LinePattern.Proofs.Nfa.Trace

namespace LinePattern

namespace Nfa

variable {merged nfa : Nfa} {nfas few : List Nfa} {i : PatternId} {q : StateId}
  {v w : List Symbol}

/-! ## Words that a merge tells apart -/

theorem mem_reach_addMember_of_lt (hm : merged.Hub) (hwf : nfa.WellFormed)
    (hq : q < merged.size) : q ∈ (merged.addMember i nfa).reach w ↔ q ∈ merged.reach w := by
  rw [mem_reach_addMember hm hwf]
  refine ⟨fun h => h.resolve_right fun ⟨q', _, heq⟩ => ?_, .inl⟩
  lia

theorem mem_reach_addMember_add (hm : merged.Hub) (hwf : nfa.WellFormed) :
    q + merged.size ∈ (merged.addMember i nfa).reach w ↔ q ∈ nfa.reach w := by
  rw [mem_reach_addMember hm hwf]
  constructor
  · intro h
    obtain h | ⟨q', hq', heq⟩ := h
    · have hlt := hm.lt_of_mem_reach h
      lia
    · rwa [Nat.add_right_cancel heq]
  · exact fun h => .inr ⟨q, h, rfl⟩

theorem reach_addMember_eq_iff (hm : merged.Hub) (hwf : nfa.WellFormed) :
    (merged.addMember i nfa).reach v = (merged.addMember i nfa).reach w ↔
      merged.reach v = merged.reach w ∧ nfa.reach v = nfa.reach w := by
  constructor
  · intro h
    refine ⟨Set.ext fun q => ?_, Set.ext fun q => ?_⟩
    · by_cases hq : q < merged.size
      · rw [← mem_reach_addMember_of_lt hm hwf hq, h, mem_reach_addMember_of_lt hm hwf hq]
      · exact ⟨fun hv => absurd (hm.lt_of_mem_reach hv) hq,
          fun hw => absurd (hm.lt_of_mem_reach hw) hq⟩
    · rw [← mem_reach_addMember_add hm hwf (i := i), h, mem_reach_addMember_add hm hwf]
  · intro h
    ext q
    rw [mem_reach_addMember hm hwf, mem_reach_addMember hm hwf, h.1, h.2]

theorem reach_mergeFrom_eq_iff (hm : merged.Hub) (hwf : ∀ nfa ∈ nfas, nfa.WellFormed) :
    (merged.mergeFrom i nfas).reach v = (merged.mergeFrom i nfas).reach w ↔
      merged.reach v = merged.reach w ∧ ∀ nfa ∈ nfas, nfa.reach v = nfa.reach w := by
  induction nfas generalizing merged i with
  | nil => simp [mergeFrom]
  | cons nfa rest ih =>
    obtain ⟨hnfa, hrest⟩ := List.forall_mem_cons.1 hwf
    rw [mergeFrom, ih (hm.addMember hnfa i) hrest, reach_addMember_eq_iff hm hnfa, and_assoc,
      List.forall_mem_cons]

theorem reach_blank_eq_iff : blank.reach v = blank.reach w ↔ (v = [] ↔ w = []) := by
  have hmem : ∀ w q, q ∈ blank.reach w ↔ w = [] ∧ q = 0 := by
    intro w q
    refine ⟨fun h => Path.eq_of_dead not_step_blank h, fun h => ?_⟩
    rw [h.1, h.2]
    exact .refl 0
  simp [Set.ext_iff, hmem]

/-- **A merge tells apart the words that a member tells apart**, and the empty
word from the others. -/
theorem reach_merge_eq_iff (hwf : ∀ nfa ∈ nfas, nfa.WellFormed) :
    (merge nfas).reach v = (merge nfas).reach w ↔
      (v = [] ↔ w = []) ∧ ∀ nfa ∈ nfas, nfa.reach v = nfa.reach w := by
  rw [merge, reach_mergeFrom_eq_iff hub_blank hwf, reach_blank_eq_iff]

/-! ## Merges of some of the members -/

/-- Each reachable set of a merge of some of the members gets a reachable set of
the whole, that of the same word, and no two get the same. -/
theorem exists_injective_of_subset (hwf : ∀ nfa ∈ nfas, nfa.WellFormed)
    (hfew : ∀ nfa ∈ few, nfa ∈ nfas) :
    ∃ extend : {S : Set StateId // (merge few).Reachable S} →
        {S : Set StateId // (merge nfas).Reachable S},
      Function.Injective extend := by
  have hwf' : ∀ nfa ∈ few, nfa.WellFormed := fun nfa h => hwf nfa (hfew nfa h)
  choose word _ hword using fun S : {S : Set StateId // (merge few).Reachable S} => S.property.word
  have hreadable : ∀ S, (merge nfas).Readable (word S) := by
    intro S
    have hread : (merge few).Readable (word S) := by
      rw [Readable, ← hword S]
      exact S.property.nonempty
    rw [readable_merge hwf'] at hread
    rw [readable_merge hwf]
    exact hread.imp_right fun ⟨nfa, hnfa, h⟩ => ⟨nfa, hfew nfa hnfa, h⟩
  refine ⟨fun S => ⟨_, reachable_reach (hreadable S)⟩, fun S T hST => Subtype.ext ?_⟩
  have hsame : (merge nfas).reach (word S) = (merge nfas).reach (word T) :=
    congrArg Subtype.val hST
  rw [reach_merge_eq_iff hwf] at hsame
  rw [hword S, hword T, reach_merge_eq_iff hwf']
  exact ⟨hsame.1, fun nfa hnfa => hsame.2 nfa (hfew nfa hnfa)⟩

end Nfa

namespace Subset

variable {nfas few : List Nfa} {sets sets' : StateSets} {dfa dfa' : Dfa}

/-- **Fewer members need no more states.** -/
theorem Numbered.size_le_of_subset (hwf : ∀ nfa ∈ nfas, nfa.WellFormed)
    (hfew : ∀ nfa ∈ few, nfa ∈ nfas) (h' : Numbered (Nfa.merge few) sets' dfa')
    (h : Numbered (Nfa.merge nfas) sets dfa) : dfa'.size ≤ dfa.size := by
  have hwf' : ∀ nfa ∈ few, nfa.WellFormed := fun nfa hnfa => hwf nfa (hfew nfa hnfa)
  obtain ⟨stands', -⟩ := h'.exists_equiv (Nfa.wellFormed_merge hwf')
  obtain ⟨stands, -⟩ := h.exists_equiv (Nfa.wellFormed_merge hwf)
  obtain ⟨extend, hextend⟩ := Nfa.exists_injective_of_subset hwf hfew
  have hinjective : Function.Injective fun id => stands.symm (extend (stands' id)) :=
    stands.symm.injective.comp (hextend.comp stands'.injective)
  simpa using Fintype.card_le_of_injective _ hinjective

end Subset

end LinePattern
