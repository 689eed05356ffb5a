/-
A sparse set through any sequence of uses.

A use inserts a number, asks for one, or clears the set. The history of a set says
what it has to answer: its members are the numbers inserted since it was last cleared,
each once, in the order in which they first came (`inserted`). One use keeps a set in
step with its history (`Follows.perform`), so a whole run does (`Follows.run`). A run
whose numbers are below the capacity never stops for want of a place
(`run?_eq_history`), and a run that went through had no other numbers
(`Follows.of_run?`).
-/
import Mathlib.Data.List.DropRight
import LinePattern.Proofs.Nfa.SparseSet

namespace LinePattern.SparseSet

variable {s t : SparseSet} {id : StateId} {capacity : Nat}

/-! ## Uses -/

/-- A use of a set. -/
inductive Use where
  | insert (id : StateId)
  | contains (id : StateId)
  | clear
deriving DecidableEq

namespace Use

/-- The number that a use puts in. -/
def inserts? : Use → Option StateId
  | insert id => some id
  | contains _ | clear => none

/-- The use names no number that is not below the capacity. -/
def Fits (capacity : Nat) : Use → Prop
  | insert id | contains id => id < capacity
  | clear => True

instance (capacity : Nat) : (use : Use) → Decidable (use.Fits capacity)
  | insert id | contains id => inferInstanceAs (Decidable (id < capacity))
  | clear => inferInstanceAs (Decidable True)

end Use

variable {use : Use} {before uses : List Use} {answers : List (Option Bool)}

/-- What a use answers, and the set after it; `none` when a place that it needs is
missing. -/
def perform? (s : SparseSet) : Use → Option (Option Bool × SparseSet)
  | .insert id => (s.insert? id).map fun (fresh, t) => (some fresh, t)
  | .contains id => (s.contains? id).map fun found => (some found, s)
  | .clear => some (none, s.clear)

/-- Uses one after the other, as long as no place is missing. -/
def run? (s : SparseSet) : List Use → Option (List (Option Bool) × SparseSet)
  | [] => some ([], s)
  | use :: rest =>
    (s.perform? use).bind fun (answer, t) =>
      (t.run? rest).map fun (answers, last) => (answer :: answers, last)

/-! ## What the history says -/

/-- The numbers inserted since the last clearing, each once, in the order in which they
first came. -/
def inserted (uses : List Use) : List StateId :=
  ((uses.rtakeWhile (· ≠ .clear)).filterMap Use.inserts?).eraseDups

/-- What a use has to answer behind the uses `before`: an insertion whether the number
was missing, a question whether it was there. -/
def Use.answer (before : List Use) : Use → Option Bool
  | .insert id => some (id ∉ inserted before)
  | .contains id => some (id ∈ inserted before)
  | .clear => none

theorem inserted_clear (uses : List Use) : inserted (uses ++ [.clear]) = [] := by
  rw [inserted, List.rtakeWhile_concat_neg _ _ _ (by simp)]
  rfl

theorem inserted_contains (uses : List Use) (id : StateId) :
    inserted (uses ++ [.contains id]) = inserted uses := by
  rw [inserted, List.rtakeWhile_concat_pos _ _ _ (by simp), List.filterMap_append]
  exact congrArg List.eraseDups (List.append_nil _)

/-- A repeated number is dropped where it comes again. -/
theorem eraseDups_concat (ids : List StateId) (id : StateId) :
    (ids ++ [id]).eraseDups = if id ∈ ids.eraseDups then ids.eraseDups else ids.eraseDups ++ [id] := by
  rw [List.eraseDups_append]
  by_cases hid : id ∈ ids
  · have hnone : [id].removeAll ids = [] := by simp [List.removeAll, hid]
    rw [hnone, if_pos (List.mem_eraseDups.2 hid)]
    exact List.append_nil _
  · have hnew : [id].removeAll ids = [id] := by simp [List.removeAll, hid]
    have hnot : id ∉ ids.eraseDups := fun h => hid (List.mem_eraseDups.1 h)
    rw [hnew, if_neg hnot]
    rfl

theorem inserted_insert (uses : List Use) (id : StateId) :
    inserted (uses ++ [.insert id]) =
      if id ∈ inserted uses then inserted uses else inserted uses ++ [id] := by
  rw [inserted, List.rtakeWhile_concat_pos _ _ _ (by simp), List.filterMap_append]
  exact eraseDups_concat _ id

/-! ## One use -/

/-- The set is in order, and its members are those that the uses left in it. -/
structure Follows (capacity : Nat) (uses : List Use) (s : SparseSet) : Prop where
  valid : s.Valid
  capacity_eq : s.capacity = capacity
  toList_eq : s.toList = inserted uses

theorem follows_empty (capacity : Nat) : Follows capacity [] (empty capacity) where
  valid := valid_empty capacity
  capacity_eq := capacity_empty capacity
  toList_eq := by simp [toList_eq_take, empty, inserted]

namespace Follows

theorem contains_eq (h : Follows capacity before s) (id : StateId) :
    s.contains id = decide (id ∈ inserted before) := by
  rw [Bool.eq_iff_iff, h.valid.contains_iff, h.toList_eq, decide_eq_true_iff]

/-- A use below the capacity finds its places, answers what the history says, and leaves
a set in step with the longer history. -/
theorem perform (h : Follows capacity before s) (hfits : use.Fits capacity) :
    ∃ t, s.perform? use = some (use.answer before, t) ∧ Follows capacity (before ++ [use]) t := by
  cases use with
  | insert id =>
    have hid : id < s.capacity := by
      rw [h.capacity_eq]
      exact hfits
    obtain ⟨t, hinsert, hvalid, hcapacity, htoList⟩ := h.valid.insert?_of_lt hid
    rw [h.toList_eq] at hinsert htoList
    refine ⟨t, ?_, hvalid, hcapacity.trans h.capacity_eq, ?_⟩
    · rw [perform?, hinsert]
      rfl
    · rw [htoList, inserted_insert]
  | contains id =>
    have hid : id < s.sparse.size := by
      rw [h.valid.sparse_size, h.capacity_eq]
      exact hfits
    refine ⟨s, ?_, h.valid, h.capacity_eq, ?_⟩
    · rw [perform?, contains?, if_pos hid, h.contains_eq]
      rfl
    · rw [h.toList_eq, inserted_contains]
  | clear =>
    refine ⟨s.clear, rfl, h.valid.clear, h.capacity_eq, ?_⟩
    rw [toList_clear, inserted_clear]

theorem fits_of_perform? {answer : Option Bool} (h : Follows capacity before s)
    (hperform : s.perform? use = some (answer, t)) : use.Fits capacity := by
  cases use with
  | insert id =>
    obtain ⟨⟨fresh, t'⟩, hinsert, -⟩ := Option.map_eq_some_iff.1 hperform
    have hid := h.valid.lt_capacity_of_insert? hinsert
    rw [h.capacity_eq] at hid
    exact hid
  | contains id =>
    obtain ⟨found, hfound, -⟩ := Option.map_eq_some_iff.1 hperform
    by_contra hid
    have hge : ¬ id < s.sparse.size := by
      rw [h.valid.sparse_size, h.capacity_eq]
      exact hid
    rw [contains?, if_neg hge] at hfound
    cases hfound
  | clear => trivial

/-! ## Whole runs -/

theorem size_eq (h : Follows capacity uses s) : s.size = (inserted uses).length := by
  rw [← h.toList_eq, length_toList h.valid.size_le]

theorem run (h : Follows capacity before s) (hfits : ∀ use ∈ uses, use.Fits capacity) :
    ∃ answers t, s.run? uses = some (answers, t) ∧ answers.length = uses.length ∧
      (∀ (i : Nat) (use : Use), uses[i]? = some use →
        answers[i]? = some (use.answer (before ++ uses.take i))) ∧
      Follows capacity (before ++ uses) t := by
  induction uses generalizing before s with
  | nil => exact ⟨[], s, rfl, rfl, nofun, by rwa [List.append_nil]⟩
  | cons use rest ih =>
    obtain ⟨hfirst, hrest⟩ := List.forall_mem_cons.1 hfits
    obtain ⟨t, hperform, hnext⟩ := h.perform hfirst
    obtain ⟨answers, last, hrun, hlength, hanswers, hlast⟩ := ih hnext hrest
    refine ⟨use.answer before :: answers, last, ?_, ?_, ?_, ?_⟩
    · rw [run?, hperform]
      simp only [Option.bind_some, hrun, Option.map_some]
    · rw [List.length_cons, List.length_cons, hlength]
    · intro i other hother
      cases i with
      | zero =>
        cases hother
        rw [List.take_zero, List.append_nil]
        rfl
      | succ i =>
        have hanswer := hanswers i other hother
        rw [List.append_assoc] at hanswer
        exact hanswer
    · rw [List.append_assoc] at hlast
      exact hlast

/-- A run that went through leaves a set in step with its history. -/
theorem of_run? (h : Follows capacity before s) (hrun : s.run? uses = some (answers, t)) :
    Follows capacity (before ++ uses) t := by
  induction uses generalizing before s answers with
  | nil =>
    cases hrun
    rwa [List.append_nil]
  | cons use rest ih =>
    obtain ⟨⟨answer, next⟩, hperform, hrest⟩ := Option.bind_eq_some_iff.1 hrun
    obtain ⟨⟨answers', last⟩, hrun', heq⟩ := Option.map_eq_some_iff.1 hrest
    cases heq
    obtain ⟨next', hperform', hnext⟩ := h.perform (h.fits_of_perform? hperform)
    rw [hperform, Option.some.injEq, Prod.mk.injEq] at hperform'
    obtain ⟨-, rfl⟩ := hperform'
    have hlast := ih hnext hrun'
    rwa [List.append_assoc] at hlast

end Follows

/-- **A sparse set is the list of what was inserted since it was last cleared.** Uses that
name numbers below the capacity never want for a place. Each answers what those before it
say. In the end the members are the numbers inserted since the last clearing, once each:
listed in the order of their insertion, sorted in increasing order, and counted. They are
never more than the two arrays have places for, and where a number is missing there is a
place left for it. -/
theorem run?_eq_history (capacity : Nat) {uses : List Use}
    (hfits : ∀ use ∈ uses, use.Fits capacity) :
    ∃ answers s, (empty capacity).run? uses = some (answers, s) ∧
      answers.length = uses.length ∧
      (∀ (i : Nat) (use : Use), uses[i]? = some use →
        answers[i]? = some (use.answer (uses.take i))) ∧
      (inserted uses).Nodup ∧ s.toList = inserted uses ∧
      s.sorted.Pairwise (· < ·) ∧ s.sorted.Perm (inserted uses) ∧
      s.size = (inserted uses).length ∧ s.size ≤ capacity ∧
      s.dense.size = capacity ∧ s.sparse.size = capacity ∧
      ∀ id < capacity, id ∉ inserted uses → s.size < capacity := by
  obtain ⟨answers, s, hrun, hlength, hanswers, h⟩ := (follows_empty capacity).run hfits
  have hnodup : (inserted uses).Nodup := h.toList_eq ▸ h.valid.nodup_toList
  have hsorted : s.sorted.Nodup := (pairwise_sorted s).imp Nat.ne_of_lt
  have hperm : s.sorted.Perm (inserted uses) := by
    rw [List.perm_ext_iff_of_nodup hsorted hnodup]
    intro id
    rw [mem_sorted, h.contains_eq, decide_eq_true_iff]
    rfl
  have hle : s.size ≤ capacity := h.capacity_eq ▸ h.valid.size_le
  refine ⟨answers, s, hrun, hlength, hanswers, hnodup, h.toList_eq, pairwise_sorted s, hperm,
    h.size_eq, hle, h.capacity_eq, h.valid.sparse_size.trans h.capacity_eq, fun id hid hmem => ?_⟩
  rw [← h.capacity_eq] at hid ⊢
  exact h.valid.size_lt_capacity hid (h.toList_eq ▸ hmem)

/-- What was cleared away leaves stale places behind, which a question for 3 finds, and
one of which becomes that of 2. -/
theorem run?_eq_history_stale :
    let uses : List Use :=
      [.insert 3, .insert 1, .clear, .contains 3, .insert 2, .insert 1, .insert 2]
    (∀ use ∈ uses, use.Fits 4) ∧ ∃ answers s, (empty 4).run? uses = some (answers, s) ∧
      answers[3]? = some (some false) ∧ answers[5]? = some (some true) ∧
      answers[6]? = some (some false) ∧ s.toList = [2, 1] ∧ s.sorted.Perm [2, 1] ∧
      s.size = 2 := by
  intro uses
  have hfits : ∀ use ∈ uses, use.Fits 4 := by decide
  have hinserted : inserted uses = [2, 1] := by decide
  obtain ⟨answers, s, hrun, -, hanswers, -, htoList, -, hperm, hsize, -⟩ :=
    run?_eq_history 4 hfits
  rw [hinserted] at htoList hperm hsize
  refine ⟨hfits, answers, s, hrun, ?_, ?_, ?_, htoList, hperm, hsize⟩
  · exact (hanswers 3 (.contains 3) rfl).trans (by decide)
  · exact (hanswers 5 (.insert 1) rfl).trans (by decide)
  · exact (hanswers 6 (.insert 2) rfl).trans (by decide)

end LinePattern.SparseSet
