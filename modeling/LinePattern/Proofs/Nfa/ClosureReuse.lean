/-
Closures with a set that was used before.

A closure is found with a scratch set, which it clears and then only inserts into. So
whatever uses the set has behind it, it is in order (`Becomes.valid`), and what the
closure leaves of it can be used for the next one (`becomes_closureWith?`). The states
found are listed in increasing order, which leaves no trace of the way in which they
were found: neither of the seeds, but for the set of them, nor of the order in which an
automaton stores its steps (`closureWith?_exact`).
-/
import Mathlib.Data.List.Sort
import Mathlib.Logic.Relation
import LinePattern.Proofs.Nfa.Closure
import LinePattern.Proofs.Nfa.SparseSetUse

namespace LinePattern

namespace SparseSet

variable {s t u : SparseSet} {id : StateId} {capacity : Nat} {uses rest : List Use}
  {answers : List (Option Bool)} {stack stack' ids : List StateId}

/-- Some uses make `t` of `s`. -/
def Becomes (s t : SparseSet) : Prop := ∃ uses answers, s.run? uses = some (answers, t)

theorem run?_append (h : s.run? uses = some (answers, t)) {answers' : List (Option Bool)}
    (hrest : t.run? rest = some (answers', u)) :
    s.run? (uses ++ rest) = some (answers ++ answers', u) := by
  induction uses generalizing s answers with
  | nil =>
    cases h
    exact hrest
  | cons use uses ih =>
    obtain ⟨⟨answer, next⟩, hperform, h⟩ := Option.bind_eq_some_iff.1 h
    obtain ⟨⟨others, last⟩, hrun, heq⟩ := Option.map_eq_some_iff.1 h
    cases heq
    rw [List.cons_append, run?, hperform]
    simp only [Option.bind_some, ih hrun, Option.map_some, List.cons_append]

namespace Becomes

theorem refl (s : SparseSet) : s.Becomes s := ⟨[], [], rfl⟩

theorem trans (h : s.Becomes t) (h' : t.Becomes u) : s.Becomes u := by
  obtain ⟨uses, answers, hrun⟩ := h
  obtain ⟨rest, answers', hrest⟩ := h'
  exact ⟨uses ++ rest, answers ++ answers', run?_append hrun hrest⟩

theorem clear (s : SparseSet) : s.Becomes s.clear := ⟨[.clear], [none], rfl⟩

theorem insert {fresh : Bool} (h : s.insert? id = some (fresh, t)) : s.Becomes t := by
  refine ⟨[.insert id], [some fresh], ?_⟩
  rw [run?, perform?, h]
  rfl

theorem pushFresh (h : SparseSet.pushFresh ids stack s = some (stack', t)) : s.Becomes t := by
  induction ids generalizing stack s with
  | nil =>
    cases h
    exact refl _
  | cons id ids ih =>
    unfold SparseSet.pushFresh at h
    split at h
    · cases h
    · next fresh next hinsert => exact (insert hinsert).trans (ih h)

theorem valid (h : (empty capacity).Becomes s) : s.Valid ∧ s.capacity = capacity := by
  obtain ⟨uses, answers, hrun⟩ := h
  have hfollows := (follows_empty capacity).of_run? hrun
  exact ⟨hfollows.valid, hfollows.capacity_eq⟩

end Becomes

end SparseSet

namespace Nfa

variable {nfa other : Nfa} {p q : StateId} {seeds stack set : List StateId} {capacity : Nat}
  {seen seen' scratch scratch' : SparseSet}

/-- A closure uses its scratch set, and does nothing else to it. -/
theorem becomes_explore (h : nfa.explore stack seen = some seen') : seen.Becomes seen' := by
  fun_induction nfa.explore stack seen with
  | case1 seen =>
    cases h
    exact .refl _
  | case2 | case3 => cases h
  | case4 seen id rest s hget stack₁ seen₁ hpush ih => exact .trans (.pushFresh hpush) (ih h)

theorem becomes_closureWith? (h : nfa.closureWith? seeds scratch = some (set, scratch')) :
    scratch.Becomes scratch' := by
  unfold closureWith? at h
  split at h
  · cases h
  · next stack seen hpush =>
    obtain ⟨final, hfinal, heq⟩ := Option.map_eq_some_iff.1 h
    cases heq
    have hseeded : scratch.Becomes seen := .trans (.clear scratch) (.pushFresh hpush)
    exact hseeded.trans (becomes_explore hfinal)

/-- A step from `p` to `q` that reads nothing. -/
def Skips (nfa : Nfa) (p q : StateId) : Prop := q ∈ (nfa.state p).epsilons

theorem path_nil_iff : nfa.Path p [] q ↔ Relation.ReflTransGen nfa.Skips p q := by
  constructor
  · intro h
    exact h.keep (P := Relation.ReflTransGen nfa.Skips p) (fun hp hs => hp.tail hs) .refl
  · intro h
    induction h with
    | refl => exact .refl p
    | tail _ hs ih => exact ih.trans (.skip hs)

/-- The other automaton has as many states, each with the same steps that read nothing,
stored in an order of its own. -/
structure Reordered (nfa other : Nfa) : Prop where
  size_eq : other.size = nfa.size
  perm : ∀ p < nfa.size, (other.state p).epsilons.Perm (nfa.state p).epsilons

theorem Reordered.skips_iff (h : nfa.Reordered other) (p q : StateId) :
    other.Skips p q ↔ nfa.Skips p q := by
  by_cases hp : p < nfa.size
  · exact (h.perm p hp).mem_iff
  · -- Neither automaton has such a state.
    have hnfa : ¬ nfa.Step p none q := fun hs => hp hs.lt_size
    have hother : ¬ other.Step p none q := fun hs => hp (h.size_eq ▸ hs.lt_size)
    exact ⟨fun hs => absurd hs hother, fun hs => absurd hs hnfa⟩

theorem Reordered.reflTransGen_iff (h : nfa.Reordered other) (p q : StateId) :
    Relation.ReflTransGen other.Skips p q ↔ Relation.ReflTransGen nfa.Skips p q := by
  have hskips : other.Skips = nfa.Skips := funext₂ fun p q => propext (h.skips_iff p q)
  rw [hskips]

/-- **Closures are exact whatever the scratch set holds.** The states that steps along
nothing lead to from the seeds, in increasing order, are what the closure of the seeds
finds with every set that has a place for each state, after any use of the set, and it
leaves the set fit for further use. The order of the seeds, their repetitions and the
order in which the automaton stores its steps change nothing. -/
theorem closureWith?_exact (hwf : nfa.WellFormed) (hseeds : ∀ p ∈ seeds, p < nfa.size) :
    ∃ set : List StateId, set.Pairwise (· < ·) ∧
      (∀ q, q ∈ set ↔ ∃ p ∈ seeds, Relation.ReflTransGen nfa.Skips p q) ∧
      ∀ (other : Nfa) (seeds' : List StateId) (capacity : Nat) (scratch : SparseSet),
        other.WellFormed → nfa.Reordered other → (∀ p, p ∈ seeds' ↔ p ∈ seeds) →
        nfa.size ≤ capacity → (SparseSet.empty capacity).Becomes scratch →
          ∃ scratch', other.closureWith? seeds' scratch = some (set, scratch') ∧
            (SparseSet.empty capacity).Becomes scratch' := by
  obtain ⟨set, -, hsorted, hmem⟩ := closure?_eq_some hwf hseeds
  simp only [path_nil_iff] at hmem
  refine ⟨set, hsorted, hmem, ?_⟩
  intro other seeds' capacity scratch hother hreordered hsame hcapacity hscratch
  obtain ⟨hvalid, hsize⟩ := hscratch.valid
  have hlarge : other.size ≤ scratch.capacity := by rw [hreordered.size_eq, hsize]; exact hcapacity
  have hseeds' : ∀ p ∈ seeds', p < other.size := by
    intro p hp
    rw [hreordered.size_eq]
    exact hseeds p ((hsame p).1 hp)
  obtain ⟨set', scratch', hfound, -, hsorted', hmem'⟩ :=
    closureWith?_eq_some hother hvalid hlarge hseeds'
  have heq : set' = set := by
    refine hsorted'.sortedLT.eq_of_mem_iff hsorted.sortedLT fun q => ?_
    rw [hmem', hmem]
    simp only [path_nil_iff, hreordered.reflTransGen_iff, hsame]
  exact ⟨scratch', heq ▸ hfound, hscratch.trans (becomes_closureWith? hfound)⟩

/-- A loop around an optional step, with its steps stored backwards, a seed given twice, and
a set in which other numbers were left. -/
theorem closureWith?_exact_loop :
    let nfa := (ofSymbol (.char 'a')).optional.star
    let other : Nfa :=
      { nfa with states := nfa.states.map fun s => { s with epsilons := s.epsilons.reverse } }
    ∃ answers scratch scratch',
      (SparseSet.empty 9).run? [.insert 8, .insert 0, .clear, .insert 2] =
        some (answers, scratch) ∧
      other.closureWith? [1, 1] scratch = some ([0, 1, 3], scratch') := by
  intro nfa other
  have hwf : nfa.WellFormed := by decide
  have hother : other.WellFormed := by decide +kernel
  have hreordered : nfa.Reordered other := ⟨by decide +kernel, by decide +kernel⟩
  have hseeds : ∀ p ∈ [1], p < nfa.size := by decide
  obtain ⟨set, -, -, hset⟩ := closureWith?_exact hwf hseeds
  have hfirst : (nfa.closureWith? [1] (.empty 4)).map (·.1) = some [0, 1, 3] := by
    decide +kernel
  obtain ⟨first, hset₁, -⟩ := hset nfa [1] 4 (.empty 4) hwf ⟨rfl, fun _ _ => .refl _⟩
    (fun _ => Iff.rfl) (by decide) (.refl _)
  rw [hset₁] at hfirst
  obtain rfl : set = [0, 1, 3] := Option.some.inj hfirst
  have hfits : ∀ use ∈ [.insert 8, .insert 0, .clear, .insert 2], SparseSet.Use.Fits 9 use := by
    decide
  obtain ⟨answers, scratch, hrun, -⟩ := (SparseSet.follows_empty 9).run hfits
  obtain ⟨scratch', hfound, -⟩ := hset other [1, 1] 9 scratch hother hreordered (by simp)
    (by decide) ⟨_, _, hrun⟩
  exact ⟨answers, scratch, scratch', hrun, hfound⟩

end Nfa

end LinePattern
