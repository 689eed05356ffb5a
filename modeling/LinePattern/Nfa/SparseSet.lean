/-
Sets of state numbers below a fixed capacity, emptied in constant time.

The members stand in `dense` in the order of their insertion, and `sparse`
says for each member where it stands. Clearing a set only resets its size;
what the arrays hold beyond it is stale, which is why membership looks a
number up in both. `mem_sorted` and `pairwise_sorted` say that `sorted` lists
the members in increasing order.
-/
import LinePattern.Nfa.Basic

namespace LinePattern

/-- A set of state numbers. -/
structure SparseSet where
  size : Nat
  dense : Array StateId
  sparse : Array Nat

namespace SparseSet

/-- The empty set for numbers below `capacity`. -/
def empty (capacity : Nat) : SparseSet :=
  ⟨0, Array.replicate capacity 0, Array.replicate capacity 0⟩

def capacity (s : SparseSet) : Nat := s.dense.size

def isEmpty (s : SparseSet) : Bool := s.size == 0

/-- Whether a number is a member. -/
def contains (s : SparseSet) (id : StateId) : Bool :=
  let slot := s.sparse.getD id s.size
  slot < s.size && s.dense[slot]? == some id

/-- Whether a number is a member; `none` when it is not below the capacity. -/
def contains? (s : SparseSet) (id : StateId) : Option Bool :=
  if id < s.sparse.size then some (s.contains id) else none

/-- Inserts a number, and says whether it was missing; `none` when it is not
below the capacity. -/
def insert? (s : SparseSet) (id : StateId) : Option (Bool × SparseSet) :=
  match s.contains? id with
  | none => none
  | some true => some (false, s)
  | some false =>
    if s.size < s.capacity then
      some (true,
        ⟨s.size + 1, s.dense.setIfInBounds s.size id, s.sparse.setIfInBounds id s.size⟩)
    else none

def clear (s : SparseSet) : SparseSet := { s with size := 0 }

/-- The members in the order of their insertion. -/
def toList (s : SparseSet) : List StateId := (s.dense.take s.size).toList

/-- The members in increasing order: of the numbers from the least member to
the greatest, those that are members. -/
def sorted (s : SparseSet) : List StateId :=
  let members : List Nat := s.toList
  let low := members.min?.getD 0
  (List.range' low (members.max?.getD 0 + 1 - low)).filter s.contains

/-- The number of insertions that are still possible. -/
def room (s : SparseSet) : Nat := s.capacity - s.size

theorem toList_eq_take (s : SparseSet) : s.toList = s.dense.toList.take s.size := by
  simp [toList, List.extract_eq_take_drop]

theorem mem_toList_of_contains {s : SparseSet} {id : StateId} (h : s.contains id = true) :
    id ∈ s.toList := by
  simp only [contains, Bool.and_eq_true, decide_eq_true_eq, beq_iff_eq] at h
  rw [toList_eq_take, List.mem_iff_getElem?]
  exact ⟨_, by rw [List.getElem?_take_of_lt h.1, Array.getElem?_toList, h.2]⟩

@[simp] theorem mem_sorted {s : SparseSet} {id : StateId} :
    id ∈ s.sorted ↔ s.contains id = true := by
  refine ⟨fun h => (List.mem_filter.1 h).2, fun h => List.mem_filter.2 ⟨?_, h⟩⟩
  have hmem := mem_toList_of_contains h
  have hlow := List.min?_getD_le_of_mem (k := 0) hmem
  have hhigh := List.le_max?_getD_of_mem (k := 0) hmem
  rw [List.mem_range'_1]
  omega

theorem pairwise_sorted (s : SparseSet) : s.sorted.Pairwise (· < ·) :=
  (List.pairwise_lt_range' 1).filter _

/-- A successful insertion uses up room exactly when the number was missing. -/
theorem room_of_insert? {s t : SparseSet} {id : StateId} {fresh : Bool}
    (h : s.insert? id = some (fresh, t)) : t.room + (if fresh then 1 else 0) = s.room := by
  unfold insert? at h
  split at h
  · simp at h
  · simp only [Option.some.injEq, Prod.mk.injEq] at h
    obtain ⟨rfl, rfl⟩ := h
    simp
  · split at h
    · next hsize =>
      simp only [Option.some.injEq, Prod.mk.injEq] at h
      obtain ⟨rfl, rfl⟩ := h
      simp only [room, capacity, Array.size_setIfInBounds, if_true] at hsize ⊢
      omega
    · simp at h

end SparseSet

end LinePattern
