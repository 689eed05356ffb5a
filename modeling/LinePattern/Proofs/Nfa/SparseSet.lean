/-
A sparse set in use holds each of its members once.

`SparseSet.Valid` says that the two arrays point at each other below the size;
what they hold beyond it is not spoken of, so clearing keeps it. In a valid set
membership is that of the list of members (`contains_iff`), and below the
capacity an insertion never fails (`insert?_of_lt`): the members are distinct
numbers below the capacity, so where one is missing there is room.
-/
import Mathlib.Data.List.Nodup
import Mathlib.Data.List.Perm.Subperm
import LinePattern.Nfa.SparseSet

namespace LinePattern.SparseSet

variable {s t : SparseSet} {id : StateId}

/-- Every place below the size is the one its member is said to stand at. -/
structure Valid (s : SparseSet) : Prop where
  size_le : s.size ≤ s.capacity
  sparse_size : s.sparse.size = s.capacity
  points : ∀ {i id}, i < s.size → s.dense[i]? = some id → s.sparse[id]? = some i

theorem valid_empty (capacity : Nat) : (empty capacity).Valid where
  size_le := Nat.zero_le _
  sparse_size := by simp [empty, SparseSet.capacity]
  points h := absurd h (Nat.not_lt_zero _)

@[simp] theorem capacity_empty (capacity : Nat) : (empty capacity).capacity = capacity := by
  simp [empty, SparseSet.capacity]

theorem Valid.clear (h : s.Valid) : s.clear.Valid where
  size_le := Nat.zero_le _
  sparse_size := h.sparse_size
  points h := absurd h (Nat.not_lt_zero _)

@[simp] theorem toList_clear (s : SparseSet) : s.clear.toList = [] := by
  simp [toList_eq_take, SparseSet.clear]

theorem mem_toList : id ∈ s.toList ↔ ∃ i < s.size, s.dense[i]? = some id := by
  rw [toList_eq_take, List.mem_iff_getElem?]
  constructor
  · rintro ⟨i, hi⟩
    rw [List.getElem?_take, Array.getElem?_toList] at hi
    split at hi
    · next hlt => exact ⟨i, hlt, hi⟩
    · cases hi
  · rintro ⟨i, hlt, hi⟩
    exact ⟨i, by rw [List.getElem?_take_of_lt hlt, Array.getElem?_toList, hi]⟩

theorem length_toList (h : s.size ≤ s.capacity) : s.toList.length = s.size := by
  rw [toList_eq_take, List.length_take, Array.length_toList]
  exact Nat.min_eq_left h

namespace Valid

theorem contains_iff (h : s.Valid) : s.contains id = true ↔ id ∈ s.toList := by
  refine ⟨mem_toList_of_contains, fun hid => ?_⟩
  obtain ⟨i, hlt, hi⟩ := mem_toList.1 hid
  simp [contains, Array.getD_eq_getD_getElem?, h.points hlt hi, hlt, hi]

theorem lt_capacity (h : s.Valid) (hid : id ∈ s.toList) : id < s.capacity := by
  obtain ⟨i, hlt, hi⟩ := mem_toList.1 hid
  obtain ⟨hsize, -⟩ := Array.getElem?_eq_some_iff.1 (h.points hlt hi)
  exact h.sparse_size ▸ hsize

theorem nodup_toList (h : s.Valid) : s.toList.Nodup := by
  rw [List.nodup_iff_getElem?_ne_getElem?]
  intro i j hij hj heq
  rw [length_toList h.size_le] at hj
  have hget : ∀ k < s.size, s.toList[k]? = s.dense[k]? := fun k hk => by
    rw [toList_eq_take, List.getElem?_take_of_lt hk, Array.getElem?_toList]
  have hdense : j < s.dense.size := Nat.lt_of_lt_of_le hj h.size_le
  have hid : s.dense[j]? = some s.dense[j] := Array.getElem?_eq_getElem hdense
  rw [hget i (Nat.lt_trans hij hj), hget j hj, hid] at heq
  have hi := h.points (Nat.lt_trans hij hj) heq
  rw [h.points hj hid, Option.some.injEq] at hi
  omega

/-- Where a number below the capacity is missing there is room for it. -/
theorem size_lt_capacity (h : s.Valid) (hid : id < s.capacity) (hmem : id ∉ s.toList) :
    s.size < s.capacity := by
  have hnodup : (id :: s.toList).Nodup := List.nodup_cons.2 ⟨hmem, h.nodup_toList⟩
  have hsubset : id :: s.toList ⊆ List.range s.capacity := by
    intro x hx
    rw [List.mem_range]
    rcases List.mem_cons.1 hx with rfl | hx
    · exact hid
    · exact h.lt_capacity hx
  have hlength := (List.subperm_of_subset hnodup hsubset).length_le
  rw [List.length_cons, length_toList h.size_le, List.length_range] at hlength
  exact hlength

theorem insert (h : s.Valid) (hid : id < s.capacity) (hmem : id ∉ s.toList) :
    Valid ⟨s.size + 1, s.dense.setIfInBounds s.size id, s.sparse.setIfInBounds id s.size⟩ where
  size_le := by
    rw [SparseSet.capacity, Array.size_setIfInBounds]
    exact h.size_lt_capacity hid hmem
  sparse_size := by
    rw [SparseSet.capacity, Array.size_setIfInBounds, Array.size_setIfInBounds]
    exact h.sparse_size
  points := by
    intro i x hi hx
    have hsize : s.size < s.dense.size := h.size_lt_capacity hid hmem
    have hsparse : id < s.sparse.size := h.sparse_size ▸ hid
    by_cases heq : i = s.size
    · subst heq
      rw [Array.getElem?_setIfInBounds_self_of_lt hsize, Option.some.injEq] at hx
      rw [← hx, Array.getElem?_setIfInBounds_self_of_lt hsparse]
    · have hlt : i < s.size := Nat.lt_of_le_of_ne (Nat.le_of_lt_succ hi) heq
      rw [Array.getElem?_setIfInBounds_ne (Ne.symm heq)] at hx
      have hne : id ≠ x := fun hxid => hmem (hxid ▸ mem_toList.2 ⟨i, hlt, hx⟩)
      rw [Array.getElem?_setIfInBounds_ne hne]
      exact h.points hlt hx

/-- Below the capacity an insertion succeeds, says whether the number was
missing, and puts a missing number behind the other members. -/
theorem insert?_of_lt (h : s.Valid) (hid : id < s.capacity) :
    ∃ t, s.insert? id = some (decide (id ∉ s.toList), t) ∧ t.Valid ∧ t.capacity = s.capacity ∧
      t.toList = if id ∈ s.toList then s.toList else s.toList ++ [id] := by
  have hcontains : s.contains? id = some (s.contains id) :=
    if_pos (Nat.lt_of_lt_of_eq hid h.sparse_size.symm)
  by_cases hmem : id ∈ s.toList
  · refine ⟨s, ?_, h, rfl, by rw [if_pos hmem]⟩
    simp [insert?, hcontains, h.contains_iff.2 hmem, hmem]
  · have hroom := h.size_lt_capacity hid hmem
    have hfalse : s.contains id = false :=
      Bool.eq_false_iff.2 fun hc => hmem (h.contains_iff.1 hc)
    refine ⟨_, ?_, h.insert hid hmem, ?_, ?_⟩
    · simp [insert?, hcontains, hfalse, hroom, hmem]
    · rw [SparseSet.capacity, Array.size_setIfInBounds, SparseSet.capacity]
    · have hsize : s.size < s.dense.toList.length := hroom
      rw [if_neg hmem, toList_eq_take, toList_eq_take, Array.toList_setIfInBounds]
      change (s.dense.toList.set s.size id).take (s.size + 1) = _
      rw [List.take_succ_eq_append_getElem (by rwa [List.length_set]), List.getElem_set_self,
        List.take_set_of_le (Nat.le_refl _)]

theorem lt_capacity_of_insert? (h : s.Valid) {fresh : Bool}
    (hinsert : s.insert? id = some (fresh, t)) : id < s.capacity := by
  by_contra hid
  have hcontains : s.contains? id = none := if_neg (h.sparse_size ▸ hid)
  rw [insert?, hcontains] at hinsert
  cases hinsert

end Valid

end LinePattern.SparseSet
