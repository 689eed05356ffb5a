/-
Numbering by least words.

The order of symbols orders words: the shorter first, and words of one length
lexicographically (`Symbol.WordLt`). An automaton is canonical when every state
can be reached and the states are numbered by the least words that lead to
them. A numbering in which each state is discovered along the first step to it
is of this kind (`BreadthFirst.canonical`), since the words along which states
are discovered are the least ones (`BreadthFirst.eq_or_wordLt`).

A canonical numbering says nothing but which words lead to the same state: two
canonical automata in which the same words meet have the same table
(`Canonical.eq_table`).
-/
import Mathlib.Data.List.Shortlex
import LinePattern.Proofs.Dfa.Words

namespace LinePattern

/-! ## The order of words -/

namespace Symbol

variable {s t : Symbol} {u v w : List Symbol}

/-- The order of symbols, as a relation. -/
def Precedes (s t : Symbol) : Prop := s.compare t = .lt

instance : Std.Asymm Precedes where
  asymm s t h h' := by
    have hswap := compare_swap s t
    rw [h, h'] at hswap
    cases hswap

instance : IsTrans Symbol Precedes where
  trans _ _ _ := compare_trans

instance : Std.Trichotomous Precedes where
  trichotomous s t hst hts := by
    cases hcompare : s.compare t with
    | lt => exact absurd hcompare hst
    | eq => exact compare_eq_iff.1 hcompare
    | gt =>
      have hswap := compare_swap s t
      rw [hcompare] at hswap
      exact absurd hswap.symm hts

instance : IsStrictTotalOrder Symbol Precedes where

/-- The shorter word comes first, and words of one length are in lexicographic
order. -/
def WordLt (v w : List Symbol) : Prop := List.Shortlex Precedes v w

namespace WordLt

theorem asymm (h : WordLt v w) : ¬ WordLt w v := Std.Asymm.asymm (r := List.Shortlex Precedes) v w h

theorem trans (h : WordLt u v) (h' : WordLt v w) : WordLt u w := by
  have hlex := (isStrictWeakOrder_of_isOrderConnected (r := List.Lex Precedes)).trans
  rcases List.shortlex_def.1 h with hlt | ⟨heq, hl⟩ <;>
    rcases List.shortlex_def.1 h' with hlt' | ⟨heq', hl'⟩
  · exact .of_length_lt (hlt.trans hlt')
  · exact .of_length_lt (heq' ▸ hlt)
  · exact .of_length_lt (heq ▸ hlt')
  · exact .of_lex (heq.trans heq') (hlex _ _ _ hl hl')

theorem nil (h : w ≠ []) : WordLt [] w := .of_length_lt (List.length_pos_iff.2 h)

theorem concat (h : WordLt v w) (s t : Symbol) : WordLt (v ++ [s]) (w ++ [t]) := by
  have hlex : ∀ {v w : List Symbol}, List.Lex Precedes v w → v.length = w.length →
      List.Lex Precedes (v ++ [s]) (w ++ [t]) := by
    intro v w h
    induction h with
    | nil => intro hlength; cases hlength
    | cons _ ih => exact fun hlength => .cons (ih (Nat.succ.inj hlength))
    | rel h => exact fun _ => .rel h
  rcases List.shortlex_def.1 h with hlt | ⟨heq, hl⟩
  · exact .of_length_lt (by simpa using hlt)
  · exact .of_lex (by simpa using heq) (hlex hl heq)

theorem concat_of_precedes (v : List Symbol) (h : s.Precedes t) : WordLt (v ++ [s]) (v ++ [t]) :=
  .append_left ((List.shortlex_singleton_iff s t).2 h) v

end WordLt

end Symbol

namespace Dfa

variable {dfa other : Dfa} {i j k id : StateId} {s t : Symbol} {u v w : List Symbol}

theorem run?_concat (dfa : Dfa) (id : StateId) (w : List Symbol) (s : Symbol) :
    dfa.run? id (w ++ [s]) = (dfa.run? id w).bind fun target => (dfa.state target).next? s := by
  induction w generalizing id with
  | nil =>
    rw [List.nil_append, run?, run?, Option.bind_some]
    cases (dfa.state id).next? s <;> rfl
  | cons t w ih =>
    rw [List.cons_append, run?, run?]
    cases (dfa.state id).next? t with
    | none => rfl
    | some target => exact ih target

/-! ## Canonical numberings -/

/-- The least word that leads from the initial state to a state. -/
structure LeastWord (dfa : Dfa) (id : StateId) (w : List Symbol) : Prop where
  run?_eq : dfa.run? dfa.initial w = some id
  least : ∀ v, dfa.run? dfa.initial v = some id → v = w ∨ Symbol.WordLt w v

/-- The states are those that words lead to, numbered by their least words. -/
structure Canonical (dfa : Dfa) : Prop where
  initial_eq : dfa.initial = 0
  run?_lt : ∀ {w id}, dfa.run? dfa.initial w = some id → id < dfa.size
  exists_leastWord : ∀ {id}, id < dfa.size → ∃ w, dfa.LeastWord id w
  wordLt : ∀ {i j v w}, i < j → dfa.LeastWord i v → dfa.LeastWord j w → Symbol.WordLt v w

/-- Two words lead from the initial state to the same state. -/
def Meet (dfa : Dfa) (v w : List Symbol) : Prop :=
  ∃ id, dfa.run? dfa.initial v = some id ∧ dfa.run? dfa.initial w = some id

theorem Meet.of_run? (h : dfa.run? dfa.initial w = some id) : dfa.Meet w w := ⟨id, h, h⟩

namespace Canonical

theorem eq_or_wordLt (h : dfa.Canonical) (hij : i ≤ j) (hv : dfa.LeastWord i v)
    (hw : dfa.run? dfa.initial w = some j) : w = v ∨ Symbol.WordLt v w := by
  rcases Nat.eq_or_lt_of_le hij with rfl | hlt
  · exact hv.least w hw
  · obtain ⟨x, hx⟩ := h.exists_leastWord (h.run?_lt hw)
    have hvx := h.wordLt hlt hv hx
    rcases hx.least w hw with rfl | hxw
    · exact .inr hvx
    · exact .inr (hvx.trans hxw)

/-- Where the same words meet, a word that leads to a state leads to the state
of the same number, if this is so for the smaller numbers. -/
theorem run?_of_forall_lt (h : dfa.Canonical) (h' : other.Canonical)
    (hmeet : ∀ v w, dfa.Meet v w ↔ other.Meet v w) {n : StateId}
    (ih : ∀ m < n, ∀ w, dfa.run? dfa.initial w = some m ↔ other.run? other.initial w = some m)
    (hw : dfa.run? dfa.initial w = some n) : other.run? other.initial w = some n := by
  obtain ⟨m, hm, -⟩ := (hmeet w w).1 (.of_run? hw)
  rcases Nat.lt_trichotomy m n with hlt | rfl | hgt
  · -- The word would lead to the smaller number in both.
    rw [(ih m hlt w).2 hm, Option.some.injEq] at hw
    exact absurd hw (Nat.ne_of_lt hlt)
  · exact hm
  · -- The least word of `n` in the one would be greater than that in the other, and not.
    exfalso
    obtain ⟨v, hv⟩ := h.exists_leastWord (h.run?_lt hw)
    obtain ⟨u, hu⟩ := h'.exists_leastWord (hgt.trans (h'.run?_lt hm))
    have huv : Symbol.WordLt u v := by
      obtain ⟨l, hwl, hvl⟩ := (hmeet w v).1 ⟨n, hw, hv.run?_eq⟩
      rw [hm, Option.some.injEq] at hwl
      subst hwl
      refine (h'.eq_or_wordLt hgt.le hu hvl).resolve_left fun hsame => ?_
      rw [hsame, hu.run?_eq, Option.some.injEq] at hvl
      exact Nat.ne_of_lt hgt hvl
    obtain ⟨k, hk, -⟩ := (hmeet u u).2 (.of_run? hu.run?_eq)
    have hle : n ≤ k := by
      by_contra hlt
      have hsmall := (ih k (Nat.lt_of_not_le hlt) u).1 hk
      rw [hu.run?_eq, Option.some.injEq] at hsmall
      exact hlt hsmall.le
    rcases h.eq_or_wordLt hle hv hk with rfl | hvu
    · exact huv.asymm huv
    · exact huv.asymm hvu

/-- Where the same words meet, they lead to the states of the same numbers. -/
theorem run?_eq (h : dfa.Canonical) (h' : other.Canonical)
    (hmeet : ∀ v w, dfa.Meet v w ↔ other.Meet v w) (w : List Symbol) :
    dfa.run? dfa.initial w = other.run? other.initial w := by
  have hall : ∀ n w, dfa.run? dfa.initial w = some n ↔ other.run? other.initial w = some n := by
    intro n
    induction n using Nat.strongRecOn with
    | ind n ih =>
      exact fun w => ⟨h.run?_of_forall_lt h' hmeet ih, h'.run?_of_forall_lt h
        (fun v w => (hmeet v w).symm) fun m hm w => (ih m hm w).symm⟩
  exact Option.ext fun n => hall n w

theorem size_le (h : dfa.Canonical) (h' : other.Canonical)
    (hmeet : ∀ v w, dfa.Meet v w ↔ other.Meet v w) : dfa.size ≤ other.size := by
  by_contra hlt
  obtain ⟨w, hw⟩ := h.exists_leastWord (Nat.lt_of_not_le hlt)
  exact Nat.lt_irrefl _ (h'.run?_lt ((h.run?_eq h' hmeet w).symm.trans hw.run?_eq))

/-- **Where the same words meet, the tables are the same.** -/
theorem eq_table (h : dfa.Canonical) (h' : other.Canonical)
    (hmeet : ∀ v w, dfa.Meet v w ↔ other.Meet v w) :
    dfa.size = other.size ∧ ∀ id s, (dfa.state id).next? s = (other.state id).next? s := by
  have hsize : dfa.size = other.size := Nat.le_antisymm (h.size_le h' hmeet)
    (h'.size_le h fun v w => (hmeet v w).symm)
  refine ⟨hsize, fun id s => ?_⟩
  by_cases hid : id < dfa.size
  · obtain ⟨w, hw⟩ := h.exists_leastWord hid
    have hstep := h.run?_eq h' hmeet (w ++ [s])
    have hrun := hw.run?_eq
    rw [run?_concat, run?_concat, ← h.run?_eq h' hmeet w, hrun] at hstep
    exact hstep
  · rw [state_of_size_le (Nat.le_of_not_lt hid), state_of_size_le (hsize ▸ Nat.le_of_not_lt hid)]

end Canonical

/-! ## Breadth-first numberings -/

/-- The step along `s` out of `i` discovers the state `j`: the steps that come
before it go to smaller numbers. -/
structure Discovers (dfa : Dfa) (i : StateId) (s : Symbol) (j : StateId) : Prop where
  next?_eq : (dfa.state i).next? s = some j
  lt : i < j
  first : ∀ {k t l}, (dfa.state k).next? t = some l → k < i ∨ k = i ∧ t.Precedes s → l < j

/-- Every state but the first is discovered along a step. -/
structure BreadthFirst (dfa : Dfa) : Prop where
  initial_eq : dfa.initial = 0
  pos : 0 < dfa.size
  next?_lt : ∀ {i s j}, (dfa.state i).next? s = some j → j < dfa.size
  exists_discovers : ∀ {j}, 0 < j → j < dfa.size → ∃ i s, dfa.Discovers i s j

/-- The word along which a state is discovered. -/
inductive Access (dfa : Dfa) : StateId → List Symbol → Prop
  | initial : Access dfa 0 []
  | step {i j : StateId} {s : Symbol} {w : List Symbol} :
    dfa.Discovers i s j → Access dfa i w → Access dfa j (w ++ [s])

theorem steps_trichotomous (k i : StateId) (t s : Symbol) :
    (k < i ∨ k = i ∧ t.Precedes s) ∨ (k = i ∧ t = s) ∨ (i < k ∨ i = k ∧ s.Precedes t) := by
  rcases Nat.lt_trichotomy k i with hlt | rfl | hgt
  · exact .inl (.inl hlt)
  · rcases trichotomous_of Symbol.Precedes t s with hts | hts | hst
    · exact .inl (.inr ⟨rfl, hts⟩)
    · exact .inr (.inl ⟨rfl, hts⟩)
    · exact .inr (.inr (.inr ⟨rfl, hst⟩))
  · exact .inr (.inr (.inl hgt))

/-- The steps along which states are discovered come in the order of the
states. -/
theorem Discovers.before (h : dfa.Discovers i s j) {k l : StateId} {t : Symbol}
    (h' : dfa.Discovers k t l) (hlt : j < l) : i < k ∨ i = k ∧ s.Precedes t := by
  rcases steps_trichotomous i k s t with hbefore | ⟨rfl, rfl⟩ | hbehind
  · exact hbefore
  · have hsame := h.next?_eq.symm.trans h'.next?_eq
    rw [Option.some.injEq] at hsame
    exact absurd hsame (Nat.ne_of_lt hlt)
  · exact absurd (h.first h'.next?_eq hbehind) (Nat.lt_asymm hlt)

/-- No step to a state comes before the one along which it is discovered. -/
theorem Discovers.eq_or_before (h : dfa.Discovers i s j)
    (hnext : (dfa.state k).next? t = some j) :
    (k = i ∧ t = s) ∨ (i < k ∨ i = k ∧ s.Precedes t) := by
  rcases steps_trichotomous k i t s with hbefore | hrest
  · exact absurd (h.first hnext hbefore) (Nat.lt_irrefl j)
  · exact hrest

namespace Access

theorem unique (h : dfa.Access i v) (h' : dfa.Access i w) : v = w := by
  induction h generalizing w with
  | initial =>
    cases h' with
    | initial => rfl
    | step hd _ => exact absurd hd.lt (Nat.not_lt_zero _)
  | @step i j s v hd _ ih =>
    cases h' with
    | initial => exact absurd hd.lt (Nat.not_lt_zero _)
    | @step k _ t w hd' hw =>
      obtain ⟨rfl, rfl⟩ : k = i ∧ t = s := by
        rcases hd.eq_or_before hd'.next?_eq with hsame | hbefore
        · exact hsame
        · exact absurd (hd'.first hd.next?_eq hbefore) (Nat.lt_irrefl j)
      rw [ih hw]

theorem run?_eq (hinitial : dfa.initial = 0) (h : dfa.Access i w) :
    dfa.run? dfa.initial w = some i := by
  induction h with
  | initial => rw [run?, hinitial]
  | step hd _ ih => rw [run?_concat, ih, Option.bind_some, hd.next?_eq]

/-- A smaller state has a smaller word. -/
theorem wordLt (hij : i < j) (hi : dfa.Access i v) (hj : dfa.Access j w) :
    Symbol.WordLt v w := by
  induction hj generalizing i v with
  | initial => exact absurd hij (Nat.not_lt_zero i)
  | @step k j s w hd hk ih =>
    cases hi with
    | initial => exact .nil (by simp)
    | @step k' _ t v hd' hk' =>
      rcases hd'.before hd hij with hlt | ⟨rfl, hts⟩
      · exact (ih hlt hk').concat t s
      · rw [hk'.unique hk]
        exact .concat_of_precedes w hts

end Access

namespace BreadthFirst

theorem exists_access (h : dfa.BreadthFirst) (hid : id < dfa.size) : ∃ w, dfa.Access id w := by
  induction id using Nat.strongRecOn with
  | ind id ih =>
    obtain rfl | hpos := Nat.eq_zero_or_pos id
    · exact ⟨[], .initial⟩
    · obtain ⟨i, s, hd⟩ := h.exists_discovers hpos hid
      obtain ⟨w, hw⟩ := ih i hd.lt (hd.lt.trans hid)
      exact ⟨w ++ [s], .step hd hw⟩

theorem run?_lt (h : dfa.BreadthFirst) (hw : dfa.run? dfa.initial w = some id) :
    id < dfa.size := by
  induction w using List.reverseRecOn with
  | nil =>
    rw [run?, Option.some.injEq, h.initial_eq] at hw
    exact hw ▸ h.pos
  | append_singleton w s =>
    rw [run?_concat, Option.bind_eq_some_iff] at hw
    obtain ⟨i, -, hnext⟩ := hw
    exact h.next?_lt hnext

/-- **States are discovered along their least words.** -/
theorem eq_or_wordLt (h : dfa.BreadthFirst) (hv : dfa.run? dfa.initial v = some j)
    (hw : dfa.Access j w) : v = w ∨ Symbol.WordLt w v := by
  induction v using List.reverseRecOn generalizing j w with
  | nil =>
    rw [run?, Option.some.injEq, h.initial_eq] at hv
    subst hv
    exact .inl (Access.initial.unique hw)
  | append_singleton u t ih =>
    rw [run?_concat, Option.bind_eq_some_iff] at hv
    obtain ⟨k, hk, hnext⟩ := hv
    obtain ⟨x, hx⟩ := h.exists_access (h.run?_lt hk)
    have hxu := ih hk hx
    cases hw with
    | initial => exact .inr (.nil (by simp))
    | @step i _ s w hd hi =>
      -- The last step is the one that discovers the state, or comes behind it.
      rcases hd.eq_or_before hnext with ⟨rfl, rfl⟩ | hlt | ⟨rfl, hst⟩
      · rw [hi.unique hx]
        exact hxu.imp (congrArg (· ++ [t])) (·.concat t t)
      · have hwx := hi.wordLt hlt hx
        rcases hxu with rfl | hxu
        · exact .inr (hwx.concat s t)
        · exact .inr ((hwx.trans hxu).concat s t)
      · rw [hi.unique hx]
        rcases hxu with rfl | hxu
        · exact .inr (.concat_of_precedes u hst)
        · exact .inr (hxu.concat s t)

theorem leastWord_iff (h : dfa.BreadthFirst) (hid : id < dfa.size) :
    dfa.LeastWord id w ↔ dfa.Access id w := by
  obtain ⟨v, hv⟩ := h.exists_access hid
  have hleast : dfa.LeastWord id v := ⟨hv.run?_eq h.initial_eq, fun u hu => h.eq_or_wordLt hu hv⟩
  refine ⟨fun hw => ?_, fun hw => hv.unique hw ▸ hleast⟩
  rcases hleast.least w hw.run?_eq with rfl | hvw
  · exact hv
  · rcases hw.least v hleast.run?_eq with rfl | hwv
    · exact hv
    · exact absurd hwv hvw.asymm

/-- **A breadth-first numbering is canonical.** -/
theorem canonical (h : dfa.BreadthFirst) : dfa.Canonical where
  initial_eq := h.initial_eq
  run?_lt := h.run?_lt
  exists_leastWord hid := by
    obtain ⟨w, hw⟩ := h.exists_access hid
    exact ⟨w, (h.leastWord_iff hid).2 hw⟩
  wordLt {i j v w} hij hv hw := by
    have hj := h.run?_lt hw.run?_eq
    exact Access.wordLt hij ((h.leastWord_iff (hij.trans hj)).1 hv) ((h.leastWord_iff hj).1 hw)

end BreadthFirst

end Dfa

end LinePattern
