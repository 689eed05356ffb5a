/-
The order of symbols: characters by scalar value, then the digit class, the
word class, the complements, any character, and the end of the line.
Complements compare member by member, a shorter list before its extensions.

The order fixes the order of alphabets, hence the numbering of deterministic
automata. It is total: `compare_eq_iff` makes it decide equality,
`compare_swap` and `compare_trans` are its other laws. `sortedSet` is the
strictly increasing list of the symbols of a list.
-/
import LinePattern.Symbol

namespace LinePattern.Symbol

/-- The place of the symbol's kind in the order. -/
def rank : Symbol → Nat
  | char _ => 0
  | digit => 1
  | word => 2
  | noneOf _ => 3
  | any => 4
  | endOfLine => 5

mutual

/-- Compares two symbols, by kind and then by content. -/
def compare : Symbol → Symbol → Ordering
  | char a, char b => Ord.compare a.toNat b.toNat
  | noneOf as, noneOf bs => compareAll as bs
  | a, b => Ord.compare a.rank b.rank

/-- Compares two lists of symbols by their first difference. -/
def compareAll : List Symbol → List Symbol → Ordering
  | [], [] => .eq
  | [], _ :: _ => .lt
  | _ :: _, [] => .gt
  | a :: as, b :: bs => (a.compare b).then (compareAll as bs)

end

/-! ## Laws of the order -/

mutual

theorem compare_eq_iff : ∀ {a b : Symbol}, a.compare b = .eq ↔ a = b
  | char a, char b => by simp [compare, Char.toNat_inj]
  | noneOf as, noneOf bs => by simp [compare, @compareAll_eq_iff as bs]
  | char _, digit | char _, word | char _, noneOf _ | char _, any | char _, endOfLine
  | digit, char _ | digit, digit | digit, word | digit, noneOf _ | digit, any | digit, endOfLine
  | word, char _ | word, digit | word, word | word, noneOf _ | word, any | word, endOfLine
  | noneOf _, char _ | noneOf _, digit | noneOf _, word | noneOf _, any | noneOf _, endOfLine
  | any, char _ | any, digit | any, word | any, noneOf _ | any, any | any, endOfLine
  | endOfLine, char _ | endOfLine, digit | endOfLine, word | endOfLine, noneOf _
  | endOfLine, any | endOfLine, endOfLine => by simp [compare, rank]

theorem compareAll_eq_iff : ∀ {as bs : List Symbol}, compareAll as bs = .eq ↔ as = bs
  | [], [] => by simp [compareAll]
  | [], _ :: _ => by simp [compareAll]
  | _ :: _, [] => by simp [compareAll]
  | a :: as, b :: bs => by
    simp [compareAll, Ordering.then_eq_eq, @compare_eq_iff a b, @compareAll_eq_iff as bs]

end

instance : DecidableEq Symbol := fun _ _ => decidable_of_iff _ compare_eq_iff

instance : Ord Symbol := ⟨compare⟩

theorem compare_of_rank_ne {a b : Symbol} (h : a.rank ≠ b.rank) :
    a.compare b = Ord.compare a.rank b.rank := by
  cases a <;> cases b <;> first | rfl | exact absurd rfl h

mutual

theorem compare_swap : ∀ a b : Symbol, (a.compare b).swap = b.compare a
  | char a, char b => by simp [compare, Nat.compare_swap]
  | noneOf as, noneOf bs => by simp [compare, compareAll_swap as bs]
  | char _, digit | char _, word | char _, noneOf _ | char _, any | char _, endOfLine
  | digit, char _ | digit, digit | digit, word | digit, noneOf _ | digit, any | digit, endOfLine
  | word, char _ | word, digit | word, word | word, noneOf _ | word, any | word, endOfLine
  | noneOf _, char _ | noneOf _, digit | noneOf _, word | noneOf _, any | noneOf _, endOfLine
  | any, char _ | any, digit | any, word | any, noneOf _ | any, any | any, endOfLine
  | endOfLine, char _ | endOfLine, digit | endOfLine, word | endOfLine, noneOf _
  | endOfLine, any | endOfLine, endOfLine => rfl

theorem compareAll_swap : ∀ as bs : List Symbol, (compareAll as bs).swap = compareAll bs as
  | [], [] | [], _ :: _ | _ :: _, [] => rfl
  | a :: as, b :: bs => by
    simp only [compareAll, Ordering.swap_then, compare_swap a b, compareAll_swap as bs]

end

theorem rank_le_of_compare {a b : Symbol} (h : a.compare b = .lt) : a.rank ≤ b.rank := by
  by_cases hr : a.rank = b.rank
  · omega
  · rw [compare_of_rank_ne hr, Nat.compare_eq_lt] at h
    omega

mutual

theorem compare_trans :
    ∀ {a b c : Symbol}, a.compare b = .lt → b.compare c = .lt → a.compare c = .lt
  | a, b, c, hab, hbc => by
    have h₁ := rank_le_of_compare hab
    have h₂ := rank_le_of_compare hbc
    by_cases hr : a.rank = c.rank
    · have hb : a.rank = b.rank := by omega
      match a, b, c with
      | char a, char b, char c =>
        simp only [compare, Nat.compare_eq_lt] at *
        omega
      | noneOf as, noneOf bs, noneOf cs =>
        simp only [compare] at *
        exact compareAll_trans hab hbc
      | digit, digit, _ | word, word, _ | any, any, _ | endOfLine, endOfLine, _ =>
        simp [compare] at hab
    · rw [compare_of_rank_ne hr, Nat.compare_eq_lt]
      omega

theorem compareAll_trans : ∀ {as bs cs : List Symbol},
    compareAll as bs = .lt → compareAll bs cs = .lt → compareAll as cs = .lt
  | [], _ :: _, _ :: _, _, _ => rfl
  | a :: as, b :: bs, c :: cs, hab, hbc => by
    simp only [compareAll, Ordering.then_eq_lt] at *
    rcases hab with hab | ⟨hab, has⟩ <;> rcases hbc with hbc | ⟨hbc, hbs⟩
    · exact .inl (compare_trans hab hbc)
    · rw [compare_eq_iff] at hbc
      exact .inl (hbc ▸ hab)
    · rw [compare_eq_iff] at hab
      exact .inl (hab ▸ hbc)
    · rw [compare_eq_iff] at hab hbc
      exact .inr ⟨compare_eq_iff.2 (hab.trans hbc), compareAll_trans has hbs⟩

end

/-! ## Sorted lists -/

/-- Puts a symbol into a strictly increasing list, unless it is there. -/
def insertSorted (s : Symbol) : List Symbol → List Symbol
  | [] => [s]
  | t :: rest =>
    match s.compare t with
    | .lt => s :: t :: rest
    | .eq => t :: rest
    | .gt => t :: insertSorted s rest

/-- The symbols of a list in increasing order, each once. -/
def sortedSet (symbols : List Symbol) : List Symbol :=
  symbols.foldr insertSorted []

@[simp] theorem mem_insertSorted {s t : Symbol} {symbols : List Symbol} :
    t ∈ insertSorted s symbols ↔ t = s ∨ t ∈ symbols := by
  induction symbols with
  | nil => simp [insertSorted]
  | cons u rest ih =>
    unfold insertSorted
    split
    · simp
    · next h => simp [compare_eq_iff.1 h]
    · simp only [List.mem_cons, ih]
      grind

@[simp] theorem mem_sortedSet {t : Symbol} {symbols : List Symbol} :
    t ∈ sortedSet symbols ↔ t ∈ symbols := by
  unfold sortedSet
  induction symbols with
  | nil => simp
  | cons s rest ih => simp [ih]

theorem pairwise_insertSorted {s : Symbol} {symbols : List Symbol}
    (h : symbols.Pairwise fun a b => a.compare b = .lt) :
    (insertSorted s symbols).Pairwise fun a b => a.compare b = .lt := by
  induction symbols with
  | nil => simp [insertSorted]
  | cons t rest ih =>
    rw [List.pairwise_cons] at h
    unfold insertSorted
    split
    · next hst =>
      refine List.pairwise_cons.2 ⟨fun u hu => ?_, List.pairwise_cons.2 h⟩
      rcases List.mem_cons.1 hu with rfl | hu
      · exact hst
      · exact compare_trans hst (h.1 u hu)
    · exact List.pairwise_cons.2 h
    · next hst =>
      refine List.pairwise_cons.2 ⟨fun u hu => ?_, ih h.2⟩
      rcases mem_insertSorted.1 hu with rfl | hu
      · rw [← compare_swap, hst]
        rfl
      · exact h.1 u hu

/-- The symbols of `sortedSet` are strictly increasing. -/
theorem pairwise_sortedSet (symbols : List Symbol) :
    (sortedSet symbols).Pairwise fun a b => a.compare b = .lt := by
  unfold sortedSet
  induction symbols with
  | nil => exact List.Pairwise.nil
  | cons s rest ih => exact pairwise_insertSorted ih

/-- The symbols of a list in increasing order, with their repetitions. -/
def sort (symbols : List Symbol) : List Symbol :=
  symbols.mergeSort fun a b => a.compare b != .gt

/-- The complement of a class. Of its members only those that stand for
characters directly are kept, in increasing order and each once. -/
def excluding (members : List Symbol) : Symbol :=
  noneOf (sortedSet (members.filter isClassMember))

end LinePattern.Symbol
