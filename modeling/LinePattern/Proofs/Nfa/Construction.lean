/-
Automata put together in any way.

A `Construction` is any way to put an automaton together with the operators, and
`Construction.build?` follows it with the operators that refuse to add a step to a missing
state. They never refuse: what they are given was put together before, and is in order
(`Construction.exists_sound`). In an automaton that is in order neither a closure nor the
subset construction meets a missing state (`Construction.build?_sound`).
-/
import LinePattern.Nfa.Checked
import LinePattern.Proofs.Dfa.Limit
import LinePattern.Proofs.Nfa.ClosureReuse
import LinePattern.Proofs.Nfa.Sound

namespace LinePattern

/-- A way to put an automaton together. -/
inductive Construction where
  | blank
  | ofSymbol (symbol : Symbol)
  | concat (left right : Construction)
  | alt (left right : Construction)
  | plus (body : Construction)
  | star (body : Construction)
  | optional (body : Construction)
  | negate (mode : NegationMode) (body : Construction)
  | capture (group : Nat) (body : Construction)
  | stamp (pattern : PatternId) (body : Construction)
  | merge (members : List Construction)

mutual

/-- The automaton, unless a step would have to be added to a state that is missing. -/
def Construction.build? : Construction → Option Nfa
  | .blank => some .blank
  | .ofSymbol symbol => some (.ofSymbol symbol)
  | .concat left right => left.build?.bind fun l => right.build?.bind fun r => l.concat? r
  | .alt left right => left.build?.bind fun l => right.build?.bind fun r => l.alt? r
  | .plus body => body.build?.bind (·.plus?)
  | .star body => body.build?.bind (·.star?)
  | .optional body => body.build?.bind (·.optional?)
  | .negate mode body => body.build?.bind (·.negate? mode)
  | .capture group body => body.build?.map (·.recordCapture group)
  | .stamp pattern body => body.build?.map (·.stamp pattern)
  | .merge members => (Construction.buildAll? members).bind Nfa.merge?

def Construction.buildAll? : List Construction → Option (List Nfa)
  | [] => some []
  | member :: rest =>
    member.build?.bind fun nfa => (Construction.buildAll? rest).map (nfa :: ·)

end

namespace Nfa

variable {nfa left right merged : Nfa} {nfas : List Nfa}

/-! ## Nothing is refused -/

theorem concat?_eq_some (hl : left.Sound) (right : Nfa) :
    left.concat? right = some (left.concat right) := by
  rw [concat?, if_pos]
  rw [List.all_eq_true]
  intro f hf
  exact decide_eq_true (Nat.lt_add_right _ (hl.final_lt f hf))

theorem alt?_eq_some (hl : left.Sound) (hr : right.Sound) :
    left.alt? right = some (left.alt right) := by
  have hleft : left.finals.all (· < left.size + right.size + 2) = true := by
    rw [List.all_eq_true]
    intro f hf
    have hlt := hl.final_lt f hf
    exact decide_eq_true (by lia)
  have hright : right.finals.all (· < right.size + 2) = true := by
    rw [List.all_eq_true]
    intro f hf
    have hlt := hr.final_lt f hf
    exact decide_eq_true (by lia)
  rw [alt?, hleft, hright]
  rfl

/-- Repetition adds two states, and none of the final states is either. -/
theorem all_finals_lt (h : nfa.Sound) : nfa.finals.all (· < nfa.size + 2) = true := by
  rw [List.all_eq_true]
  intro f hf
  exact decide_eq_true (Nat.lt_add_right 2 (h.final_lt f hf))

theorem plus?_eq_some (h : nfa.Sound) : nfa.plus? = some nfa.plus := by
  rw [plus?, if_pos (all_finals_lt h)]

theorem star?_eq_some (h : nfa.Sound) : nfa.star? = some nfa.star := by
  rw [star?, if_pos (all_finals_lt h)]

theorem optional?_eq_some (h : nfa.Sound) : nfa.optional? = some nfa.optional := by
  rw [optional?, if_pos]
  rw [decide_eq_true h.initial_lt, Bool.or_true]

theorem negate?_eq_some (h : nfa.Sound) (mode : NegationMode) :
    nfa.negate? mode = some (nfa.negate mode) := by
  rw [negate?, if_pos]
  rw [decide_eq_true (Nat.le_of_lt h.initial_lt), Bool.or_true]

theorem sound_mergeFrom (hm : merged.Sound) (h : ∀ nfa ∈ nfas, nfa.Sound) (i : PatternId) :
    (merged.mergeFrom i nfas).Sound := by
  induction nfas generalizing merged i with
  | nil => exact hm
  | cons nfa rest ih =>
    obtain ⟨hnfa, hrest⟩ := List.forall_mem_cons.1 h
    exact ih (hm.addMember hnfa i) hrest (i + 1)

theorem mergeFrom?_eq_some (hm : merged.Sound) (h : ∀ nfa ∈ nfas, nfa.Sound) (i : PatternId) :
    merged.mergeFrom? i nfas = some (merged.mergeFrom i nfas) := by
  induction nfas generalizing merged i with
  | nil => rfl
  | cons nfa rest ih =>
    obtain ⟨hnfa, hrest⟩ := List.forall_mem_cons.1 h
    have hadd : merged.addMember? i nfa = some (merged.addMember i nfa) :=
      if_pos (Nat.lt_add_right _ hm.initial_lt)
    rw [mergeFrom?, hadd, mergeFrom]
    exact ih (hm.addMember hnfa i) hrest (i + 1)

theorem merge?_eq_some (h : ∀ nfa ∈ nfas, nfa.Sound) : merge? nfas = some (merge nfas) :=
  mergeFrom?_eq_some sound_blank h 0

end Nfa

namespace Construction

theorem exists_sound_bind {operand : Option Nfa} {operator? : Nfa → Option Nfa}
    (h : ∃ nfa, operand = some nfa ∧ nfa.Sound)
    (hoperator : ∀ nfa, nfa.Sound → ∃ whole, operator? nfa = some whole ∧ whole.Sound) :
    ∃ whole, operand.bind operator? = some whole ∧ whole.Sound := by
  obtain ⟨nfa, rfl, hnfa⟩ := h
  exact hoperator nfa hnfa

mutual

/-- Every construction goes through, and leaves an automaton in order. -/
theorem exists_sound : ∀ c : Construction, ∃ nfa, c.build? = some nfa ∧ nfa.Sound
  | .blank => ⟨.blank, rfl, Nfa.sound_blank⟩
  | .ofSymbol symbol => ⟨.ofSymbol symbol, rfl, Nfa.sound_ofSymbol symbol⟩
  | .concat left right => by
    refine exists_sound_bind left.exists_sound fun l hl => ?_
    refine exists_sound_bind right.exists_sound fun r hr => ?_
    exact ⟨l.concat r, Nfa.concat?_eq_some hl r, hl.concat hr⟩
  | .alt left right => by
    refine exists_sound_bind left.exists_sound fun l hl => ?_
    refine exists_sound_bind right.exists_sound fun r hr => ?_
    exact ⟨l.alt r, Nfa.alt?_eq_some hl hr, hl.alt hr⟩
  | .plus body => by
    refine exists_sound_bind body.exists_sound fun nfa h => ?_
    exact ⟨nfa.plus, Nfa.plus?_eq_some h, h.plus⟩
  | .star body => by
    refine exists_sound_bind body.exists_sound fun nfa h => ?_
    exact ⟨nfa.star, Nfa.star?_eq_some h, h.star⟩
  | .optional body => by
    refine exists_sound_bind body.exists_sound fun nfa h => ?_
    exact ⟨nfa.optional, Nfa.optional?_eq_some h, h.optional⟩
  | .negate mode body => by
    refine exists_sound_bind body.exists_sound fun nfa h => ?_
    exact ⟨nfa.negate mode, Nfa.negate?_eq_some h mode, h.negate mode⟩
  | .capture group body => by
    obtain ⟨nfa, hbody, h⟩ := body.exists_sound
    refine ⟨nfa.recordCapture group, ?_, h.recordCapture group⟩
    rw [build?, hbody]
    rfl
  | .stamp pattern body => by
    obtain ⟨nfa, hbody, h⟩ := body.exists_sound
    refine ⟨nfa.stamp pattern, ?_, h.stamp pattern⟩
    rw [build?, hbody]
    rfl
  | .merge members => by
    obtain ⟨nfas, hmembers, h⟩ := exists_sound_all members
    refine ⟨Nfa.merge nfas, ?_, Nfa.sound_mergeFrom Nfa.sound_blank h 0⟩
    rw [build?, hmembers]
    exact Nfa.merge?_eq_some h

theorem exists_sound_all : ∀ members : List Construction,
    ∃ nfas, buildAll? members = some nfas ∧ ∀ nfa ∈ nfas, nfa.Sound
  | [] => ⟨[], rfl, nofun⟩
  | member :: rest => by
    obtain ⟨nfa, hmember, h⟩ := member.exists_sound
    obtain ⟨nfas, hrest, hall⟩ := exists_sound_all rest
    refine ⟨nfa :: nfas, ?_, List.forall_mem_cons.2 ⟨h, hall⟩⟩
    rw [buildAll?, hmember, hrest]
    rfl

end

/-- **Automata that are put together are in order, and nothing is missing in them.** However
an automaton is put together, no operator has to add a step to a missing state. The initial
state of the automaton, its final and its stamped states, and the targets of all steps are
there; no state lists a target twice for one symbol, or twice for nothing; and every edge of
a group is a transition. The closure of states finds no state missing, with a scratch set
that has a place for each state and whatever it was used for before, and neither does the
subset construction under any limit. -/
theorem build?_sound (c : Construction) : ∃ nfa, c.build? = some nfa ∧ nfa.Sound ∧
    (∀ (seeds : List StateId) (scratch : SparseSet), (∀ p ∈ seeds, p < nfa.size) →
      (SparseSet.empty nfa.size).Becomes scratch →
        ∃ set scratch', nfa.closureWith? seeds scratch = some (set, scratch')) ∧
    ∀ limit, nfa.determinize limit ≠ .error .missingState := by
  obtain ⟨nfa, hbuild, h⟩ := c.exists_sound
  refine ⟨nfa, hbuild, h, ?_, ?_⟩
  · intro seeds scratch hseeds hscratch
    obtain ⟨hvalid, hcapacity⟩ := hscratch.valid
    obtain ⟨set, scratch', hfound, -⟩ := Nfa.closureWith?_eq_some h.toWellFormed hvalid
      (Nat.le_of_eq hcapacity.symm) hseeds
    exact ⟨set, scratch', hfound⟩
  · intro limit herror
    obtain ⟨dfa, hdfa, hlimit, -⟩ := Subset.exists_determinize_budget h.toWellFormed
    cases limit with
    | none =>
      rw [hdfa] at herror
      cases herror
    | some l =>
      rw [hlimit] at herror
      split at herror <;> cases herror

end Construction

end LinePattern
