/-
Sets of states, numbered in the order in which they were added.

The sets with one key are few, and a search tree holds their numbers under the
key, so that a set is compared with few others when it is looked up.
`getElem?_of_number?` and `number?_eq_none_iff` say that nothing is lost: the
number found is that of the set, and none is found only for a set that was
not added.
-/
import LinePattern.Nfa.Basic

namespace LinePattern

/-- Lists of numbers under keys, as a search tree. -/
inductive Buckets where
  | empty
  | node (key : Nat) (numbers : List Nat) (smaller larger : Buckets)

namespace Buckets

/-- The numbers under a key. -/
def find (key : Nat) : Buckets → List Nat
  | empty => []
  | node k numbers smaller larger =>
    if key = k then numbers else if key < k then smaller.find key else larger.find key

/-- Puts a number under a key. -/
def add (key number : Nat) : Buckets → Buckets
  | empty => node key [number] empty empty
  | node k numbers smaller larger =>
    if key = k then node k (number :: numbers) smaller larger
    else if key < k then node k numbers (smaller.add key number) larger
    else node k numbers smaller (larger.add key number)

theorem find_add_self (b : Buckets) (key number : Nat) :
    (b.add key number).find key = number :: b.find key := by
  induction b with
  | empty => simp [add, find]
  | node k numbers smaller larger ihs ihl => grind [add, find]

theorem find_add_of_ne (b : Buckets) {key key' : Nat} (number : Nat) (h : key' ≠ key) :
    (b.add key number).find key' = b.find key' := by
  induction b with
  | empty => simp [add, find, h]
  | node k numbers smaller larger ihs ihl => grind [add, find]

end Buckets

namespace StateSets

/-- The key of a set. The factor is near the golden section of the modulus,
which spreads the keys of sets that differ by little. -/
def key (set : List StateId) : Nat :=
  set.foldl (fun key id => (key + id + 1) * 618033 % 1000003) 0

end StateSets

/-- Sets of states. The number of a set is its place in the array. -/
structure StateSets where
  toArray : Array (List StateId)
  buckets : Buckets
  mem_buckets : ∀ {id set}, toArray[id]? = some set → id ∈ buckets.find (StateSets.key set)

namespace StateSets

/-- No sets. -/
def empty : StateSets := ⟨#[], .empty, by simp⟩

def size (sets : StateSets) : Nat := sets.toArray.size

/-- The number of a set. -/
def number? (sets : StateSets) (set : List StateId) : Option StateId :=
  (sets.buckets.find (key set)).find? fun id => sets.toArray[id]? == some set

/-- Adds a set. -/
def push (sets : StateSets) (set : List StateId) : StateSets where
  toArray := sets.toArray.push set
  buckets := sets.buckets.add (key set) sets.size
  mem_buckets := by
    intro id other h
    rw [Array.getElem?_push] at h
    by_cases hk : key other = key set
    · rw [hk, Buckets.find_add_self]
      split at h
      · next hid => simp [hid, size]
      · exact List.mem_cons_of_mem _ (hk ▸ sets.mem_buckets h)
    · rw [Buckets.find_add_of_ne _ _ hk]
      split at h
      · simp_all
      · exact sets.mem_buckets h

@[simp] theorem toArray_empty : empty.toArray = #[] := rfl

@[simp] theorem toArray_push (sets : StateSets) (set : List StateId) :
    (sets.push set).toArray = sets.toArray.push set := rfl

theorem getElem?_of_number? {sets : StateSets} {set : List StateId} {id : StateId}
    (h : sets.number? set = some id) : sets.toArray[id]? = some set := by
  simpa using List.find?_some h

theorem number?_eq_none_iff {sets : StateSets} {set : List StateId} :
    sets.number? set = none ↔ set ∉ sets.toArray := by
  simp only [number?, List.find?_eq_none, beq_iff_eq, Array.mem_iff_getElem?, not_exists]
  exact ⟨fun h id hid => h id (sets.mem_buckets hid) hid, fun h id _ => h id⟩

end StateSets

end LinePattern
