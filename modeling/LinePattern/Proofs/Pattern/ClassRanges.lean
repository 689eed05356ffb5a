/-
Reading a class from left to right.

A reader that meets a dash takes back the character before it, and puts it there
again if no range comes of it. `pieces` reads the same items and takes nothing
back: each dash is an operator or stands for itself, as told by the member before
it, and each piece appends its members. `expandRanges_eq_pieces` says that the
two agree, on the members as on the first range that has no meaning.
-/
import LinePattern.Pattern.CharClass
import Mathlib.Data.List.Basic

namespace LinePattern.ClassItem

/-! ## The pieces of a class -/

/-- The symbol that an item is by itself. -/
def symbol : ClassItem → Symbol
  | scalar c => .char c
  | shorthand s => s
  | dash => .char '-'

/-- The characters behind `low` up to `high`, in order. -/
def charsAfter (low high : Char) : List Char :=
  (List.range' (low.toNat + 1) (high.toNat - low.toNat)).map Char.ofNat

/-- What is read at once: an item by itself, or a range operator with the
character before it and the item behind it. -/
inductive Piece where
  | single (symbol : Symbol)
  | range (low : Char) (next : ClassItem)

namespace Piece

/-- The members that a piece appends. A range appends those behind its first
character, which was there before. -/
def members : Piece → List Symbol
  | single s => [s]
  | range low next =>
    match next.rangeEnd? with
    | some high => (charsAfter low high).map .char
    | none => []

/-- What is wrong with a range. -/
inductive Faulty : Piece → RangeError → Prop
  | noEnd {low : Char} {s : Symbol} : Faulty (range low (shorthand s)) (.noEnd low)
  | notAscii {low high : Char} {next : ClassItem} (hnext : next.rangeEnd? = some high)
    (hascii : isAscii low = false ∨ isAscii high = false) : Faulty (range low next) .notAscii
  | inverted {low high : Char} {next : ClassItem} (hnext : next.rangeEnd? = some high)
    (hlow : isAscii low = true) (hhigh : isAscii high = true) (hlt : high < low) :
    Faulty (range low next) (.inverted low high)

/-- What is reported for a piece. -/
def fault? : Piece → Option RangeError
  | single _ => none
  | range low next =>
    match next.rangeEnd? with
    | none => some (.noEnd low)
    | some high =>
      if isAscii low = false ∨ isAscii high = false then some .notAscii
      else if high < low then some (.inverted low high)
      else none

/-- Pieces read in turn: the members of all of them, or the first fault. -/
def expand (pieces : List Piece) : Except RangeError (List Symbol) :=
  match pieces.findSome? fault? with
  | some e => .error e
  | none => .ok (pieces.flatMap members)

end Piece

/-- The last of the members, if it is a character. -/
def lastChar? (emitted : List Symbol) : Option Char :=
  match emitted.getLast? with
  | some (.char c) => some c
  | _ => none

/-- The character from which an item starts a range behind the members emitted
before it, when there is an item to end it. -/
def operator? (emitted : List Symbol) : ClassItem → Option Char
  | dash => lastChar? emitted
  | scalar _ | shorthand _ => none

/-- The pieces that the items are read as, behind the members emitted before
them. A dash is an operator behind a character, unless it comes last; the item
behind an operator belongs to it. -/
def pieces (emitted : List Symbol) : List ClassItem → List Piece
  | [] => []
  | [item] => [.single item.symbol]
  | item :: next :: rest =>
    match operator? emitted item with
    | some low =>
      .range low next :: pieces (emitted ++ (Piece.range low next).members) rest
    | none => .single item.symbol :: pieces (emitted ++ [item.symbol]) (next :: rest)

/-! ## Faults -/

namespace Piece

variable {p : Piece} {ps : List Piece} {e : RangeError} {members : List Symbol}

theorem fault?_eq_some_iff : p.fault? = some e ↔ p.Faulty e := by
  constructor
  · intro h
    match p with
    | range low next =>
      cases hnext : next.rangeEnd? with
      | none =>
        match next with
        | shorthand s =>
          cases h
          exact .noEnd
      | some high =>
        simp only [fault?, hnext] at h
        split at h
        · next hascii =>
          cases h
          exact .notAscii hnext hascii
        · next hascii =>
          split at h
          · next hlt =>
            cases h
            simp only [not_or, Bool.not_eq_false] at hascii
            exact .inverted hnext hascii.1 hascii.2 hlt
          · cases h
  · intro h
    cases h with
    | noEnd => rfl
    | notAscii hnext hascii => simp [fault?, hnext, hascii]
    | inverted hnext hlow hhigh hlt => simp [fault?, hnext, hlow, hhigh, hlt]

theorem fault?_eq_none_iff : p.fault? = none ↔ ∀ e, ¬ p.Faulty e := by
  simp only [← fault?_eq_some_iff, Option.eq_none_iff_forall_ne_some]

theorem expand_eq_ok_iff : expand ps = .ok members ↔
    (∀ p ∈ ps, ∀ e, ¬ p.Faulty e) ∧ members = ps.flatMap Piece.members := by
  simp only [← fault?_eq_none_iff, ← List.findSome?_eq_none_iff, expand]
  cases ps.findSome? fault? <;> simp [eq_comm]

theorem expand_eq_error_iff : expand ps = .error e ↔
    ∃ before p after, ps = before ++ p :: after ∧ p.Faulty e ∧
      ∀ q ∈ before, ∀ e, ¬ q.Faulty e := by
  have hfirst : expand ps = .error e ↔ ps.findSome? fault? = some e := by
    rw [expand]
    cases ps.findSome? fault? <;> simp
  rw [hfirst, List.findSome?_eq_some_iff]
  simp only [fault?_eq_none_iff, fault?_eq_some_iff]

theorem expand_cons_of_fault?_eq_none (h : p.fault? = none) :
    expand (p :: ps) = (expand ps).map (p.members ++ ·) := by
  simp only [expand, List.findSome?_cons, h, List.flatMap_cons]
  cases ps.findSome? fault? <;> rfl

theorem expand_cons_of_fault? (h : p.fault? = some e) : expand (p :: ps) = .error e := by
  simp only [expand, List.findSome?_cons, h]

end Piece

/-! ## The two readings agree -/

section

variable {emitted earlier : List Symbol} {low high : Char} {item next : ClassItem}
  {items rest : List ClassItem}

theorem operator?_eq_some_iff : operator? emitted item = some low ↔
    item = dash ∧ ∃ earlier, emitted = earlier ++ [.char low] := by
  match item with
  | scalar c | shorthand s => simp [operator?]
  | dash =>
    rcases List.eq_nil_or_concat' emitted with rfl | ⟨earlier, last, rfl⟩
    · simp [operator?, lastChar?]
    · cases last <;> simp [operator?, lastChar?]

theorem span_eq (h : ¬ high < low) : span low high = low :: charsAfter low high := by
  have hle : low.toNat ≤ high.toNat := Nat.le_of_not_lt h
  have hcount : high.toNat + 1 - low.toNat = high.toNat - low.toNat + 1 := by omega
  rw [span, hcount, List.range'_succ, List.map_cons, Char.ofNat_toNat]
  rfl

theorem expandFrom_single (h : operator? emitted item = none) :
    expandFrom emitted.reverse none (item :: items) =
      expandFrom (emitted ++ [item.symbol]).reverse none items := by
  rw [List.reverse_append]
  match item with
  | scalar c | shorthand s => rfl
  | dash =>
    rcases List.eq_nil_or_concat' emitted with rfl | ⟨earlier, last, rfl⟩
    · rfl
    · cases last with
      | char c => simp [operator?, lastChar?] at h
      | digit | word | noneOf | any | endOfLine =>
        rw [List.reverse_append]
        rfl

theorem expandFrom_range (h : (Piece.range low next).fault? = none) :
    expandFrom earlier.reverse (some low) (next :: rest) =
      expandFrom (earlier ++ [Symbol.char low] ++ (Piece.range low next).members).reverse none rest := by
  cases hnext : next.rangeEnd? with
  | none => simp [Piece.fault?, hnext] at h
  | some high =>
    simp only [Piece.fault?, hnext] at h
    split at h
    · cases h
    · next hascii =>
      split at h
      · cases h
      · next hlt =>
        simp only [not_or, Bool.not_eq_false] at hascii
        simp [expandFrom, hnext, hascii, hlt, span_eq hlt, Piece.members]

theorem expandFrom_range_of_fault? {e : RangeError} (h : (Piece.range low next).fault? = some e) :
    expandFrom earlier.reverse (some low) (next :: rest) = .error e := by
  cases hnext : next.rangeEnd? with
  | none =>
    simp only [Piece.fault?, hnext, Option.some.injEq] at h
    simp [expandFrom, hnext, h]
  | some high =>
    simp only [Piece.fault?, hnext] at h
    unfold expandFrom
    simp only [hnext]
    split at h
    · next hascii =>
      cases h
      simp [hascii]
    · next hascii =>
      split at h
      · next hlt =>
        cases h
        simp [hascii, hlt]
      · cases h

/-- A dash behind a character starts a range from it. -/
theorem expandFrom_dash (low : Char) (earlier : List Symbol) (items : List ClassItem) :
    expandFrom (earlier ++ [Symbol.char low]).reverse none (dash :: items) =
      expandFrom earlier.reverse (some low) items := by
  rw [List.reverse_append]
  rfl

/-- The reader keeps the members emitted so far, newest first, and adds what the
pieces of the other items say. -/
theorem expandFrom_eq (emitted : List Symbol) (items : List ClassItem) :
    expandFrom emitted.reverse none items =
      (Piece.expand (pieces emitted items)).map (emitted ++ ·) := by
  fun_induction pieces emitted items with
  | case1 emitted => simp [expandFrom, Piece.expand, Except.map]
  | case2 emitted item =>
    have hpieces : Piece.expand [.single item.symbol] = .ok [item.symbol] := rfl
    rw [hpieces, Except.map]
    cases hoperator : operator? emitted item with
    | none =>
      rw [expandFrom_single hoperator, expandFrom, List.reverse_reverse]
    | some low =>
      -- A dash that comes last is put back, with the character before it.
      obtain ⟨rfl, earlier, rfl⟩ := operator?_eq_some_iff.1 hoperator
      rw [expandFrom_dash]
      simp [expandFrom, symbol]
  | case3 emitted item next rest low hlow ih =>
    obtain ⟨rfl, earlier, rfl⟩ := operator?_eq_some_iff.1 hlow
    rw [expandFrom_dash]
    cases hfault : (Piece.range low next).fault? with
    | none =>
      rw [expandFrom_range hfault, ih, Piece.expand_cons_of_fault?_eq_none hfault]
      cases Piece.expand (pieces _ rest) <;> simp [Except.map]
    | some e =>
      rw [expandFrom_range_of_fault? hfault, Piece.expand_cons_of_fault? hfault]
      rfl
  | case4 emitted item next rest hnone ih =>
    rw [expandFrom_single hnone, ih, Piece.expand_cons_of_fault?_eq_none rfl]
    cases Piece.expand (pieces _ (next :: rest)) <;> simp [Except.map, Piece.members]

theorem expandRanges_eq_expand (items : List ClassItem) :
    expandRanges items = Piece.expand (pieces [] items) := by
  have h := expandFrom_eq [] items
  rw [List.reverse_nil] at h
  rw [expandRanges, h]
  cases Piece.expand (pieces [] items) <;> rfl

end

/-- **Ranges lose and invent no member.** The items of a class list the members
that its pieces append, unless a piece is at fault. Then the first such piece is
reported: a range that ends in a shorthand, that has an end outside ASCII, or
whose ends are the wrong way round. -/
theorem expandRanges_eq_pieces (items : List ClassItem) :
    (∀ members, expandRanges items = .ok members ↔
      (∀ p ∈ pieces [] items, ∀ e, ¬ p.Faulty e) ∧
        members = (pieces [] items).flatMap Piece.members) ∧
    ∀ e, expandRanges items = .error e ↔ ∃ before p after,
      pieces [] items = before ++ p :: after ∧ p.Faulty e ∧
        ∀ q ∈ before, ∀ e, ¬ q.Faulty e := by
  rw [expandRanges_eq_expand]
  exact ⟨fun _ => Piece.expand_eq_ok_iff, fun _ => Piece.expand_eq_error_iff⟩

/-- A range from the end of another, and a dash that comes last. -/
example : pieces [] [.scalar 'a', .dash, .scalar 'c', .dash, .scalar 'e', .dash] =
    [.single (.char 'a'), .range 'a' (.scalar 'c'), .range 'c' (.scalar 'e'),
      .single (.char '-')] := rfl

end LinePattern.ClassItem
