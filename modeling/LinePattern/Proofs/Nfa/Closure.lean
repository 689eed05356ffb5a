/-
The closure of states is exact.

The states that an exploration has seen in the end are those that paths along
nothing lead to from the seeds (`mem_closureWith?`), whatever the scratch set
held before. While it runs, every state seen but not on the stack is there and
has all its successors among those seen (`Explored`). In a well-formed
automaton the exploration never fails (`closureWith?_eq_some`).
-/
import LinePattern.Nfa.Closure
import LinePattern.Proofs.Nfa.Path
import LinePattern.Proofs.Nfa.SparseSet

namespace LinePattern

namespace SparseSet.Valid

variable {ids stack stack' : List StateId} {seen seen' : SparseSet}

/-- What was pushed has been added to the set, and what was missing there to
the stack. -/
theorem of_pushFresh (h : seen.Valid) (hpush : pushFresh ids stack seen = some (stack', seen')) :
    seen'.Valid ∧ seen'.capacity = seen.capacity ∧
      (∀ id, id ∈ seen'.toList ↔ id ∈ seen.toList ∨ id ∈ ids) ∧
      ∀ id, id ∈ stack' ↔ id ∈ stack ∨ id ∈ ids ∧ id ∉ seen.toList := by
  induction ids generalizing stack seen with
  | nil =>
    cases hpush
    exact ⟨h, rfl, by simp, by simp⟩
  | cons id ids ih =>
    unfold pushFresh at hpush
    split at hpush
    · cases hpush
    · next fresh t hinsert =>
      obtain ⟨t', hinsert', ht, hcapacity, htoList⟩ :=
        h.insert?_of_lt (h.lt_capacity_of_insert? hinsert)
      rw [hinsert, Option.some.injEq, Prod.mk.injEq] at hinsert'
      obtain ⟨rfl, rfl⟩ := hinsert'
      have hmem : ∀ x, x ∈ t.toList ↔ x = id ∨ x ∈ seen.toList := by
        intro x
        rw [htoList]
        split
        · next hseen => exact ⟨.inr, fun hx => hx.elim (· ▸ hseen) fun hx => hx⟩
        · rw [List.mem_append, List.mem_singleton, or_comm]
      obtain ⟨hvalid, hcapacity', hseen', hstack'⟩ := ih ht hpush
      refine ⟨hvalid, hcapacity'.trans hcapacity, fun x => ?_, fun x => ?_⟩
      · rw [hseen', hmem, List.mem_cons, or_assoc, or_left_comm]
      · rw [hstack', hmem]
        by_cases hid' : x = id
        · by_cases hseen : id ∈ seen.toList <;> simp [hid', hseen]
        · by_cases hseen : id ∈ seen.toList <;> simp [hid', hseen]

theorem exists_pushFresh (h : seen.Valid) (hids : ∀ id ∈ ids, id < seen.capacity)
    (stack : List StateId) : ∃ stack' seen', pushFresh ids stack seen = some (stack', seen') := by
  induction ids generalizing stack seen with
  | nil => exact ⟨stack, seen, rfl⟩
  | cons id ids ih =>
    obtain ⟨t, hinsert, ht, hcapacity, -⟩ := h.insert?_of_lt (hids id List.mem_cons_self)
    rw [pushFresh, hinsert]
    exact ih ht (fun x hx => hcapacity ▸ hids x (List.mem_cons_of_mem _ hx)) _

end SparseSet.Valid

namespace Nfa

variable {nfa : Nfa} {id : StateId} {stack stack' rest seeds set : List StateId} {s : NfaState}
  {seen seen' scratch scratch' : SparseSet}

theorem state_of_getElem? (h : nfa.states[id]? = some s) : nfa.state id = s := by
  rw [state, Array.getD_eq_getD_getElem?, h, Option.getD_some]

/-- The exploration between two rounds: only the states on the stack may be
missing, or lead to others than those seen. -/
structure Explored (nfa : Nfa) (stack : List StateId) (seen : SparseSet) : Prop where
  valid : seen.Valid
  stack_seen : ∀ id ∈ stack, id ∈ seen.toList
  lt_size : ∀ id ∈ seen.toList, id ∉ stack → id < nfa.size
  closed : ∀ {p q}, p ∈ seen.toList → p ∉ stack → nfa.Step p none q → q ∈ seen.toList

theorem explored_seeds (nfa : Nfa) (hscratch : scratch.Valid)
    (hpush : SparseSet.pushFresh seeds [] scratch.clear = some (stack, seen)) :
    nfa.Explored stack seen ∧ seen.capacity = scratch.capacity ∧
      ∀ q, q ∈ seen.toList ↔ q ∈ seeds := by
  obtain ⟨hvalid, hcapacity, hseen, hstack⟩ := hscratch.clear.of_pushFresh hpush
  simp only [SparseSet.toList_clear, List.not_mem_nil, false_or, not_false_eq_true, and_true]
    at hseen hstack
  have hsub : ∀ q ∈ seen.toList, q ∈ stack := fun q hq => (hstack q).2 ((hseen q).1 hq)
  exact ⟨{
    valid := hvalid
    stack_seen := fun id hid => (hseen id).2 ((hstack id).1 hid)
    lt_size := fun id hid hn => absurd (hsub id hid) hn
    closed := fun hp hn => absurd (hsub _ hp) hn }, hcapacity, hseen⟩

/-- One round: a state is taken from the stack, and its successors are pushed. -/
theorem Explored.step (h : nfa.Explored (id :: rest) seen) (hget : nfa.states[id]? = some s)
    (hpush : SparseSet.pushFresh s.epsilons rest seen = some (stack', seen')) :
    nfa.Explored stack' seen' ∧ seen'.capacity = seen.capacity ∧
      ∀ q, q ∈ seen'.toList ↔ q ∈ seen.toList ∨ nfa.Step id none q := by
  obtain ⟨hid, -⟩ := Array.getElem?_eq_some_iff.1 hget
  obtain rfl := state_of_getElem? hget
  obtain ⟨hvalid, hcapacity, hseen', hstack'⟩ := h.valid.of_pushFresh hpush
  -- A state off the new stack was seen before: it is the one taken, or off the old stack.
  have hold : ∀ p ∈ seen'.toList, p ∉ stack' → p = id ∨ p ∈ seen.toList ∧ p ∉ id :: rest := by
    intro p hp hstack
    rw [hstack', not_or] at hstack
    have hseen : p ∈ seen.toList := ((hseen' p).1 hp).elim (fun hp => hp) fun hp =>
      Classical.byContradiction fun hn => hstack.2 ⟨hp, hn⟩
    by_cases hpid : p = id
    · exact .inl hpid
    · exact .inr ⟨hseen, fun hmem => (List.mem_cons.1 hmem).elim hpid hstack.1⟩
  refine ⟨⟨hvalid, fun q hq => ?_, fun p hp hstack => ?_, fun {p q} hp hstack hs => ?_⟩,
    hcapacity, hseen'⟩
  · rcases (hstack' q).1 hq with hq | hq
    · exact (hseen' q).2 (.inl (h.stack_seen q (List.mem_cons_of_mem _ hq)))
    · exact (hseen' q).2 (.inr hq.1)
  · rcases hold p hp hstack with rfl | ⟨hseen, hn⟩
    · exact hid
    · exact h.lt_size p hseen hn
  · rw [hseen']
    rcases hold p hp hstack with rfl | ⟨hseen, hn⟩
    · exact .inr hs
    · exact .inl (h.closed hseen hn hs)

/-- What an exploration has seen in the end are the states that lead along
nothing from those seen so far, and none of them is missing. -/
theorem Explored.of_explore (h : nfa.Explored stack seen)
    (hexplore : nfa.explore stack seen = some seen') :
    seen'.Valid ∧ (∀ q ∈ seen'.toList, q < nfa.size) ∧
      ∀ q, q ∈ seen'.toList ↔ ∃ p ∈ seen.toList, nfa.Path p [] q := by
  fun_induction nfa.explore stack seen with
  | case1 seen =>
    cases hexplore
    refine ⟨h.valid, fun q hq => h.lt_size q hq List.not_mem_nil,
      fun q => ⟨fun hq => ⟨q, hq, .refl q⟩, ?_⟩⟩
    rintro ⟨p, hp, hpath⟩
    exact hpath.keep (fun hp hs => h.closed hp List.not_mem_nil hs) hp
  | case2 => cases hexplore
  | case3 => cases hexplore
  | case4 seen id rest s hget stack₁ seen₁ hpush ih =>
    obtain ⟨hnext, -, hmem⟩ := h.step hget hpush
    obtain ⟨hvalid, hlt, hreach⟩ := ih hnext hexplore
    refine ⟨hvalid, hlt, fun q => (hreach q).trans ⟨?_, ?_⟩⟩
    · rintro ⟨p, hp, hpath⟩
      rcases (hmem p).1 hp with hp | hs
      · exact ⟨p, hp, hpath⟩
      · exact ⟨id, h.stack_seen id List.mem_cons_self, .epsilon hs hpath⟩
    · rintro ⟨p, hp, hpath⟩
      exact ⟨p, (hmem p).2 (.inl hp), hpath⟩

/-- In a well-formed automaton an exploration from states does not fail. -/
theorem exists_explore (hwf : nfa.WellFormed) (h : nfa.Explored stack seen)
    (hcapacity : nfa.size ≤ seen.capacity) (hlt : ∀ q ∈ seen.toList, q < nfa.size) :
    ∃ seen', nfa.explore stack seen = some seen' := by
  fun_induction nfa.explore stack seen with
  | case1 seen => exact ⟨seen, rfl⟩
  | case2 seen id rest hget =>
    have hid := hlt id (h.stack_seen id List.mem_cons_self)
    exact absurd (Array.getElem?_eq_none_iff.1 hget) (Nat.not_le.2 hid)
  | case3 seen id rest s hget hpush =>
    have hids : ∀ q ∈ s.epsilons, q < seen.capacity := by
      intro q hq
      rw [← state_of_getElem? hget] at hq
      have hs : nfa.Step id none q := hq
      exact Nat.lt_of_lt_of_le (hwf.target_lt hs) hcapacity
    obtain ⟨stack', seen', hpush'⟩ := h.valid.exists_pushFresh hids rest
    rw [hpush] at hpush'
    cases hpush'
  | case4 seen id rest s hget stack₁ seen₁ hpush ih =>
    obtain ⟨hnext, hcapacity', hmem⟩ := h.step hget hpush
    exact ih hnext (hcapacity' ▸ hcapacity) fun q hq =>
      ((hmem q).1 hq).elim (hlt q) hwf.target_lt

/-- **Closures are exact.** Whatever the scratch set holds, a closure that is
found holds the states that lead along nothing from the seeds, in increasing
order, and none of them is missing. -/
theorem mem_closureWith? (hscratch : scratch.Valid)
    (h : nfa.closureWith? seeds scratch = some (set, scratch')) :
    scratch'.Valid ∧ set.Pairwise (· < ·) ∧ (∀ q ∈ set, q < nfa.size) ∧
      ∀ q, q ∈ set ↔ ∃ p ∈ seeds, nfa.Path p [] q := by
  unfold closureWith? at h
  split at h
  · cases h
  · next stack seen hpush =>
    obtain ⟨hexplored, -, hseen⟩ := explored_seeds nfa hscratch hpush
    obtain ⟨final, hfinal, heq⟩ := Option.map_eq_some_iff.1 h
    cases heq
    obtain ⟨hvalid, hlt, hreach⟩ := hexplored.of_explore hfinal
    refine ⟨hvalid, SparseSet.pairwise_sorted _, fun q hq => ?_, fun q => ?_⟩
    · exact hlt q (hvalid.contains_iff.1 (SparseSet.mem_sorted.1 hq))
    · simp only [SparseSet.mem_sorted, hvalid.contains_iff, hreach, hseen]

/-- In a well-formed automaton, and with a scratch set large enough, the
closure of states is found. -/
theorem closureWith?_eq_some (hwf : nfa.WellFormed) (hscratch : scratch.Valid)
    (hcapacity : nfa.size ≤ scratch.capacity) (hseeds : ∀ p ∈ seeds, p < nfa.size) :
    ∃ set scratch', nfa.closureWith? seeds scratch = some (set, scratch') ∧ scratch'.Valid ∧
      set.Pairwise (· < ·) ∧ ∀ q, q ∈ set ↔ ∃ p ∈ seeds, nfa.Path p [] q := by
  obtain ⟨stack, seen, hpush⟩ := hscratch.clear.exists_pushFresh
    (fun p hp => Nat.lt_of_lt_of_le (hseeds p hp) hcapacity) []
  obtain ⟨hexplored, hcapacity', hseen⟩ := explored_seeds nfa hscratch hpush
  obtain ⟨final, hfinal⟩ := exists_explore hwf hexplored (hcapacity' ▸ hcapacity) fun q hq =>
    hseeds q ((hseen q).1 hq)
  have hfound : nfa.closureWith? seeds scratch = some (final.sorted, final) := by
    rw [closureWith?, hpush]
    simp only [hfinal, Option.map_some]
  obtain ⟨hvalid, hsorted, -, hmem⟩ := mem_closureWith? hscratch hfound
  exact ⟨_, _, hfound, hvalid, hsorted, hmem⟩

theorem mem_closure? (h : nfa.closure? seeds = some set) :
    set.Pairwise (· < ·) ∧ (∀ q ∈ set, q < nfa.size) ∧
      ∀ q, q ∈ set ↔ ∃ p ∈ seeds, nfa.Path p [] q := by
  obtain ⟨⟨set', scratch⟩, hset, rfl⟩ := Option.map_eq_some_iff.1 h
  exact (mem_closureWith? (SparseSet.valid_empty nfa.size) hset).2

theorem closure?_eq_some (hwf : nfa.WellFormed) (hseeds : ∀ p ∈ seeds, p < nfa.size) :
    ∃ set, nfa.closure? seeds = some set ∧ set.Pairwise (· < ·) ∧
      ∀ q, q ∈ set ↔ ∃ p ∈ seeds, nfa.Path p [] q := by
  obtain ⟨set, scratch, hset, -, hsorted, hmem⟩ := closureWith?_eq_some hwf
    (SparseSet.valid_empty nfa.size) (Nat.le_of_eq (SparseSet.capacity_empty _).symm) hseeds
  exact ⟨set, by rw [closure?, hset, Option.map_some], hsorted, hmem⟩

end Nfa

end LinePattern
