/-
What the subset construction builds.

Its sets hold states in increasing order, and each is numbered once
(`Listed`). `Row` says what the row of a set holds: one step for each symbol on
an edge out of the set, to the number of the closure of the targets. Both are
stated for the sets met so far and survive the meeting of others (`Extends`),
so they hold after every round (`Filled`); and every number but the first is
met in some row, behind steps to smaller numbers (`Meets`). There are at most
as many sets as sublists of the states, which is the number of rounds allowed:
so every set has its row in the end (`Completed`).

In a well-formed automaton the sets are the non-empty sets of states that words
over the alphabet lead to (`Known`), and the construction does not fail unless
there is a limit (`exists_determinize_none`).
-/
import Mathlib.Data.List.Sort
import Mathlib.Data.List.Sublists
import LinePattern.Dfa.Subset
import LinePattern.Proofs.Nfa.Closure

namespace LinePattern

theorem bind_eq_ok_iff {α β ε : Type} {x : Except ε α} {f : α → Except ε β} {b : β} :
    x >>= f = .ok b ↔ ∃ a, x = .ok a ∧ f a = .ok b := by
  cases x <;> simp [bind, Except.bind]

theorem exists_ok_of_any {α ε : Type} {x : Except ε α} {check : α → Bool}
    (h : x.toOption.any check = true) : ∃ a, x = .ok a ∧ check a = true := by
  cases x with
  | error fault => cases h
  | ok a => exact ⟨a, rfl, h⟩

theorem StateSets.size_push (sets : StateSets) (set : List StateId) :
    (sets.push set).size = sets.size + 1 := by
  simp [size]

namespace Nfa

variable {nfa : Nfa} {p q : StateId} {symbol : Symbol} {w : List Symbol} {set : List StateId}

theorem mem_reach_concat :
    q ∈ nfa.reach (w ++ [symbol]) ↔
      ∃ p p', p ∈ nfa.reach w ∧ nfa.Step p (some symbol) p' ∧ nfa.Path p' [] q := by
  simp only [mem_reach, Path.append_iff, Path.singleton_iff]
  constructor
  · rintro ⟨r, hw, p, p', hr, hs, hq⟩
    exact ⟨p, p', by simpa using hw.trans hr, hs, hq⟩
  · rintro ⟨p, p', hw, hs, hq⟩
    exact ⟨p, hw, p, p', .refl p, hs, hq⟩

/-- The states that the states of a set lead to along a symbol. -/
def move (nfa : Nfa) (S : Set StateId) (symbol : Symbol) : Set StateId :=
  {q | ∃ p ∈ S, ∃ p', nfa.Step p (some symbol) p' ∧ nfa.Path p' [] q}

theorem reach_concat : nfa.reach (w ++ [symbol]) = nfa.move (nfa.reach w) symbol := by
  ext q
  rw [mem_reach_concat]
  constructor
  · rintro ⟨p, p', hp, hs, hq⟩
    exact ⟨p, hp, p', hs, hq⟩
  · rintro ⟨p, hp, p', hs, hq⟩
    exact ⟨p, p', hp, hs, hq⟩

theorem reach_append_eq_empty (h : nfa.reach w = ∅) (v : List Symbol) :
    nfa.reach (w ++ v) = ∅ := by
  rw [Set.eq_empty_iff_forall_notMem] at h ⊢
  intro q hq
  obtain ⟨p, hp, -⟩ := Path.split hq
  exact h p hp

/-- The list holds the states that the word leads to, in increasing order. -/
structure Lists (nfa : Nfa) (w : List Symbol) (set : List StateId) : Prop where
  sorted : set.Pairwise (· < ·)
  mem_iff : ∀ {q}, q ∈ set ↔ q ∈ nfa.reach w

theorem Lists.reach_eq (h : nfa.Lists w set) : nfa.reach w = {q | q ∈ set} :=
  Set.ext fun _ => h.mem_iff.symm

/-- A set that the construction numbers: some word over the alphabet leads to
its states, and there are such states. -/
def IsStateSet (nfa : Nfa) (set : List StateId) : Prop :=
  set ≠ [] ∧ ∃ w, (∀ s ∈ w, s ∈ nfa.alphabet) ∧ nfa.Lists w set

end Nfa

namespace Subset

variable {nfa : Nfa} {limit : Option Nat} {set seeds : List StateId} {id : StateId}
  {sets sets' sets'' : StateSets} {w : List Symbol}

/-! ## The numbering of the sets -/

/-- Every set has the number it had before. -/
def Extends (sets' sets : StateSets) : Prop :=
  ∀ (id : StateId) (set : List StateId),
    sets.toArray[id]? = some set → sets'.toArray[id]? = some set

theorem Extends.refl (sets : StateSets) : Extends sets sets := fun _ _ h => h

theorem Extends.trans (h' : Extends sets'' sets') (h : Extends sets' sets) :
    Extends sets'' sets := fun _ _ hset => h' _ _ (h _ _ hset)

theorem extends_push (sets : StateSets) (set : List StateId) : Extends (sets.push set) sets := by
  intro id other h
  obtain ⟨hid, -⟩ := Array.getElem?_eq_some_iff.1 h
  rw [StateSets.toArray_push, Array.getElem?_push_lt hid]
  rw [Array.getElem?_eq_getElem hid] at h
  exact h

theorem Extends.size_le (h : Extends sets' sets) : sets.size ≤ sets'.size := by
  by_contra hlt
  have hlast : sets'.size < sets.toArray.size := Nat.lt_of_not_le hlt
  have hsome := h _ _ (Array.getElem?_eq_getElem hlast)
  obtain ⟨hsize, -⟩ := Array.getElem?_eq_some_iff.1 hsome
  exact Nat.lt_irrefl _ hsize

/-- Looking a set up either finds it or adds it behind the others, where there
is room for it. -/
theorem intern_eq_ok (h : intern limit sets set = .ok (id, sets')) :
    sets'.toArray[id]? = some set ∧
      (sets' = sets ∨
        set ∉ sets.toArray ∧ (∀ l ∈ limit, sets.size < l) ∧ sets' = sets.push set) := by
  have hpush : (sets.push set).toArray[sets.size]? = some set := by
    rw [StateSets.toArray_push, StateSets.size, Array.getElem?_push_size]
  unfold intern at h
  split at h
  · next hid =>
    cases h
    exact ⟨StateSets.getElem?_of_number? hid, .inl rfl⟩
  · next hnone =>
    have hmem := StateSets.number?_eq_none_iff.1 hnone
    split at h
    · split at h
      · next l hroom =>
        cases h
        exact ⟨hpush, .inr ⟨hmem, by simpa using hroom, rfl⟩⟩
      · cases h
    · cases h
      exact ⟨hpush, .inr ⟨hmem, by simp, rfl⟩⟩

theorem eq_size_of_push (hnew : set ∉ sets.toArray)
    (hid : (sets.push set).toArray[id]? = some set) : id = sets.size := by
  rw [StateSets.toArray_push, Array.getElem?_push] at hid
  split at hid
  · next hsize => exact hsize
  · exact absurd (Array.mem_of_getElem? hid) hnew

/-- Each set has one number, and holds states in increasing order. -/
structure Listed (nfa : Nfa) (sets : StateSets) : Prop where
  distinct : ∀ {i j : StateId} {set}, sets.toArray[i]? = some set →
    sets.toArray[j]? = some set → i = j
  sorted : ∀ {id : StateId} {set}, sets.toArray[id]? = some set → set.Pairwise (· < ·)
  lt_size : ∀ {id : StateId} {set}, sets.toArray[id]? = some set → ∀ q ∈ set, q < nfa.size

theorem listed_empty (nfa : Nfa) : Listed nfa .empty where
  distinct h := by simp at h
  sorted h := by simp at h
  lt_size h := by simp at h

theorem Listed.push (h : Listed nfa sets) (hnew : set ∉ sets.toArray)
    (hsorted : set.Pairwise (· < ·)) (hlt : ∀ q ∈ set, q < nfa.size) :
    Listed nfa (sets.push set) := by
  have hcases : ∀ {id : StateId} {other}, (sets.push set).toArray[id]? = some other →
      id = sets.size ∧ other = set ∨ sets.toArray[id]? = some other := by
    intro id other hid
    rw [StateSets.toArray_push, Array.getElem?_push] at hid
    split at hid
    · next hsize =>
      cases hid
      exact .inl ⟨hsize, rfl⟩
    · exact .inr hid
  refine ⟨fun {i j other} hi hj => ?_, fun {id other} hid => ?_, fun {id other} hid => ?_⟩
  · rcases hcases hi with ⟨hsize, rfl⟩ | hold
    · exact hsize.trans (eq_size_of_push hnew hj).symm
    · rcases hcases hj with ⟨-, rfl⟩ | hold'
      · exact absurd (Array.mem_of_getElem? hold) hnew
      · exact h.distinct hold hold'
  · rcases hcases hid with ⟨-, rfl⟩ | hid
    · exact hsorted
    · exact h.sorted hid
  · rcases hcases hid with ⟨-, rfl⟩ | hid
    · exact hlt
    · exact h.lt_size hid

/-- Looking a closure up gives its number, the next one when it is new. -/
theorem Listed.intern (h : Listed nfa sets) (hclosure : nfa.closure? seeds = some set)
    (hintern : Subset.intern limit sets set = .ok (id, sets')) :
    Listed nfa sets' ∧ Extends sets' sets ∧ sets'.toArray[id]? = some set ∧
      (sets'.size = sets.size ∨ id = sets.size ∧ sets'.size = sets.size + 1) := by
  obtain ⟨hid, rfl | ⟨hnew, -, rfl⟩⟩ := intern_eq_ok hintern
  · exact ⟨h, .refl _, hid, .inl rfl⟩
  · obtain ⟨hsorted, hlt, -⟩ := Nfa.mem_closure? hclosure
    exact ⟨h.push hnew hsorted hlt, extends_push _ _, hid,
      .inr ⟨eq_size_of_push hnew hid, StateSets.size_push _ _⟩⟩

/-- There are at most as many sets as sublists of the states. -/
theorem Listed.size_le (h : Listed nfa sets) : sets.size ≤ Nat.pow 2 nfa.size := by
  have hnodup : sets.toArray.toList.Nodup := by
    rw [List.nodup_iff_getElem?_ne_getElem?]
    intro i j hij hj heq
    rw [Array.getElem?_toList, Array.getElem?_toList, Array.getElem?_eq_getElem hj] at heq
    exact Nat.ne_of_lt hij (h.distinct heq (Array.getElem?_eq_getElem hj))
  have hsubset : sets.toArray.toList ⊆ (List.range nfa.size).sublists := by
    intro set hset
    obtain ⟨id, hid⟩ := Array.mem_iff_getElem?.1 (Array.mem_toList_iff.1 hset)
    have hlt : set ⊆ List.range nfa.size := fun q hq => List.mem_range.2 (h.lt_size hid q hq)
    exact List.mem_sublists.2 (List.sublist_of_subperm_of_pairwise
      (List.subperm_of_subset (h.sorted hid).nodup hlt) (h.sorted hid) List.pairwise_lt_range)
  have hlength := (List.subperm_of_subset hnodup hsubset).length_le
  rwa [List.length_sublists, List.length_range, Array.length_toList] at hlength

/-! ## The rows -/

theorem mem_edgesFrom {e : Edge} :
    e ∈ edgesFrom nfa set ↔ e.source ∈ set ∧ nfa.Step e.source (some e.symbol) e.target := by
  obtain ⟨source, symbol, target⟩ := e
  simp only [edgesFrom, List.mem_flatMap, List.mem_map, Prod.exists, Edge.mk.injEq, Nfa.Step,
    NfaState.Leads]
  constructor
  · rintro ⟨p, hp, symbol', target', h, rfl, rfl, rfl⟩
    exact ⟨hp, h⟩
  · rintro ⟨hp, h⟩
    exact ⟨source, hp, symbol, target, h, rfl, rfl, rfl⟩

/-- The edges with a symbol. -/
def along (symbol : Symbol) (edges : List Edge) : List Edge := edges.filter (·.symbol = symbol)

theorem mem_along {symbol : Symbol} {e : Edge} :
    e ∈ along symbol (edgesFrom nfa set) ↔
      e.source ∈ set ∧ e.symbol = symbol ∧ nfa.Step e.source (some symbol) e.target := by
  rw [along, List.mem_filter, mem_edgesFrom, decide_eq_true_iff]
  constructor
  · rintro ⟨⟨hp, hs⟩, rfl⟩
    exact ⟨hp, rfl, hs⟩
  · rintro ⟨hp, rfl, hs⟩
    exact ⟨⟨hp, hs⟩, rfl⟩

/-- The states that a set leads to are those behind its edges. -/
theorem mem_move_iff {symbol : Symbol} {q : StateId} :
    q ∈ nfa.move {p | p ∈ set} symbol ↔
      ∃ e ∈ along symbol (edgesFrom nfa set), nfa.Path e.target [] q := by
  constructor
  · rintro ⟨p, hp, p', hs, hq⟩
    exact ⟨⟨p, symbol, p'⟩, mem_along.2 ⟨hp, rfl, hs⟩, hq⟩
  · rintro ⟨e, he, hq⟩
    obtain ⟨hp, -, hs⟩ := mem_along.1 he
    exact ⟨e.source, hp, e.target, hs, hq⟩

theorem mem_reach_concat_iff_along (hw : nfa.Lists w set) {symbol : Symbol} {q : StateId} :
    q ∈ nfa.reach (w ++ [symbol]) ↔
      ∃ e ∈ along symbol (edgesFrom nfa set), nfa.Path e.target [] q := by
  rw [Nfa.reach_concat, hw.reach_eq, mem_move_iff]

theorem lt_size_of_mem_targets (hwf : nfa.WellFormed) {symbol : Symbol} :
    ∀ p ∈ (along symbol (edgesFrom nfa set)).map (·.target), p < nfa.size := by
  intro p hp
  obtain ⟨e, he, rfl⟩ := List.mem_map.1 hp
  exact hwf.target_lt (mem_along.1 he).2.2

theorem reach_concat_eq_empty {symbol : Symbol} (hw : nfa.Lists w set)
    (h : along symbol (edgesFrom nfa set) = []) : nfa.reach (w ++ [symbol]) = ∅ := by
  rw [Set.eq_empty_iff_forall_notMem]
  intro q hq
  obtain ⟨e, he, -⟩ := (mem_reach_concat_iff_along hw).1 hq
  rw [h] at he
  cases he

theorem closure_eq_ok_iff : closure nfa seeds = .ok set ↔ nfa.closure? seeds = some set := by
  unfold closure
  cases nfa.closure? seeds <;> simp

/-- The closure of the targets is the set of the word with the symbol. -/
theorem lists_concat (hwf : nfa.WellFormed) {symbol : Symbol} {target : List StateId}
    (hw : nfa.Lists w set)
    (h : nfa.closure? ((along symbol (edgesFrom nfa set)).map (·.target)) = some target) :
    nfa.Lists (w ++ [symbol]) target := by
  obtain ⟨target', htarget, hsorted, hmem⟩ :=
    Nfa.closure?_eq_some hwf (lt_size_of_mem_targets hwf)
  rw [h, Option.some.injEq] at htarget
  subst htarget
  refine ⟨hsorted, fun {q} => ?_⟩
  rw [hmem, mem_reach_concat_iff_along hw]
  simp only [List.mem_map, exists_exists_and_eq_and]

theorem isStateSet_concat {symbol : Symbol} {target : List StateId} {e : Edge}
    (hword : ∀ s ∈ w, s ∈ nfa.alphabet) (hw : nfa.Lists w set)
    (he : e ∈ along symbol (edgesFrom nfa set)) (htarget : nfa.Lists (w ++ [symbol]) target) :
    nfa.IsStateSet target := by
  have hmem : e.target ∈ target :=
    htarget.mem_iff.2 ((mem_reach_concat_iff_along hw).2 ⟨e, he, .refl _⟩)
  refine ⟨List.ne_nil_of_mem hmem, w ++ [symbol], ?_, htarget⟩
  intro s hs
  rcases List.mem_append.1 hs with hs | hs
  · exact hword s hs
  · obtain rfl := List.mem_singleton.1 hs
    exact Nfa.mem_alphabet.2 ⟨_, _, (mem_along.1 he).2.2⟩

/-- The steps along the symbols out of a set that the edges leave: one for
each symbol on an edge, in order. -/
structure Row (nfa : Nfa) (sets : StateSets) (edges : List Edge) (symbols : List Symbol)
    (steps : List DfaStep) : Prop where
  symbols_eq : steps.map (·.symbol) = symbols.filter fun s => along s edges ≠ []
  target : ∀ step ∈ steps, ∃ set, sets.toArray[step.target]? = some set ∧
    nfa.closure? ((along step.symbol edges).map (·.target)) = some set
  group_eq : ∀ step ∈ steps, step.group = (along step.symbol edges).findSome? nfa.groupOf?

theorem Row.exists_edge {edges : List Edge} {symbols : List Symbol} {steps : List DfaStep}
    {step : DfaStep} (h : Row nfa sets edges symbols steps) (hstep : step ∈ steps) :
    ∃ e, e ∈ along step.symbol edges := by
  have hsymbol : step.symbol ∈ steps.map (·.symbol) := List.mem_map.2 ⟨step, hstep, rfl⟩
  rw [h.symbols_eq, List.mem_filter, decide_eq_true_iff] at hsymbol
  exact List.exists_mem_of_ne_nil _ hsymbol.2

/-- Each symbol on an edge out of a set has a step in its row. -/
theorem Row.exists_step {steps : List DfaStep} {e : Edge} {symbol : Symbol}
    (h : Row nfa sets (edgesFrom nfa set) nfa.alphabet steps)
    (he : e ∈ along symbol (edgesFrom nfa set)) : ∃ step ∈ steps, step.symbol = symbol := by
  have hsymbol : symbol ∈ nfa.alphabet := Nfa.mem_alphabet.2 ⟨_, _, (mem_along.1 he).2.2⟩
  have hmem : symbol ∈ steps.map (·.symbol) := by
    rw [h.symbols_eq, List.mem_filter]
    exact ⟨hsymbol, decide_eq_true (List.ne_nil_of_mem he)⟩
  exact List.mem_map.1 hmem

theorem Row.extend {edges : List Edge} {symbols : List Symbol} {steps : List DfaStep}
    (h : Row nfa sets edges symbols steps) (hext : Extends sets' sets) :
    Row nfa sets' edges symbols steps where
  symbols_eq := h.symbols_eq
  target step hstep := by
    obtain ⟨set, hset, hclosure⟩ := h.target step hstep
    exact ⟨set, hext _ _ hset, hclosure⟩
  group_eq := h.group_eq

theorem Row.skip {edges : List Edge} {symbols : List Symbol} {steps : List DfaStep}
    {symbol : Symbol} (h : Row nfa sets edges symbols steps) (hnone : along symbol edges = []) :
    Row nfa sets edges (symbol :: symbols) steps where
  symbols_eq := by
    rw [h.symbols_eq, List.filter_cons_of_neg]
    simp [hnone]
  target := h.target
  group_eq := h.group_eq

theorem Row.cons {edges : List Edge} {symbols : List Symbol} {steps : List DfaStep}
    {symbol : Symbol} (h : Row nfa sets edges symbols steps) (hsome : along symbol edges ≠ [])
    (hset : sets.toArray[id]? = some set)
    (hclosure : nfa.closure? ((along symbol edges).map (·.target)) = some set) :
    Row nfa sets edges (symbol :: symbols)
      (⟨symbol, id, (along symbol edges).findSome? nfa.groupOf?⟩ :: steps) where
  symbols_eq := by
    rw [List.map_cons, h.symbols_eq, List.filter_cons_of_pos]
    simpa using hsome
  target := by
    rintro step (_ | ⟨_, hstep⟩)
    · exact ⟨set, hset, hclosure⟩
    · exact h.target step hstep
  group_eq := by
    rintro step (_ | ⟨_, hstep⟩)
    · rfl
    · exact h.group_eq step hstep

/-- A number is met in a row: the first step to it stands behind steps to
smaller numbers. -/
def Meets (steps : List DfaStep) (id : StateId) : Prop :=
  ∃ before step behind, steps = before ++ step :: behind ∧ step.target = id ∧
    ∀ t ∈ before, t.target < id

theorem meets_head (step : DfaStep) (steps : List DfaStep) : Meets (step :: steps) step.target :=
  ⟨[], step, steps, rfl, rfl, by simp⟩

theorem Meets.cons {step : DfaStep} {steps : List DfaStep} (h : Meets steps id)
    (hlt : step.target < id) : Meets (step :: steps) id := by
  obtain ⟨before, first, behind, rfl, htarget, hbefore⟩ := h
  exact ⟨step :: before, first, behind, rfl, htarget, List.forall_mem_cons.2 ⟨hlt, hbefore⟩⟩

/-- A row is completed with the sets it needs: those that are new are met in it,
in order. -/
theorem row_eq_ok {edges : List Edge} {symbols : List Symbol} {steps : List DfaStep}
    (hlisted : Listed nfa sets) (h : row nfa limit edges symbols sets = .ok (steps, sets')) :
    Listed nfa sets' ∧ Extends sets' sets ∧ Row nfa sets' edges symbols steps ∧
      ∀ id, sets.size ≤ id → id < sets'.size → Meets steps id := by
  induction symbols generalizing sets steps with
  | nil =>
    cases h
    exact ⟨hlisted, .refl _, ⟨rfl, by simp, by simp⟩, fun id hle hlt =>
      absurd hlt (Nat.not_lt.2 hle)⟩
  | cons symbol symbols ih =>
    unfold row at h
    split at h
    · next hnone =>
      obtain ⟨hlisted', hext, hrow, hmeets⟩ := ih hlisted h
      exact ⟨hlisted', hext, hrow.skip hnone, hmeets⟩
    · next e more hsome =>
      have halong : along symbol edges = e :: more := hsome
      simp only [bind_eq_ok_iff, Prod.exists] at h
      obtain ⟨target, hclosure, id, sets₁, hintern, steps, sets₂, hrest, heq⟩ := h
      cases heq
      rw [closure_eq_ok_iff, ← List.map_cons, ← halong] at hclosure
      obtain ⟨hlisted₁, hext₁, hid, hsize₁⟩ := hlisted.intern hclosure hintern
      obtain ⟨hlisted₂, hext₂, hrow, hmeets⟩ := ih hlisted₁ hrest
      refine ⟨hlisted₂, hext₂.trans hext₁, ?_, fun new hle hlt => ?_⟩
      · have hcons := hrow.cons (halong ▸ List.cons_ne_nil e more) (hext₂ _ _ hid) hclosure
        rwa [halong] at hcons
      · have hid₁ : id < sets₁.size := (Array.getElem?_eq_some_iff.1 hid).1
        by_cases hnew : sets₁.size ≤ new
        · exact (hmeets new hnew hlt).cons (Nat.lt_of_lt_of_le hid₁ hnew)
        · obtain rfl : new = id := by lia
          exact meets_head _ steps

/-! ## The table -/

/-- A table between two rounds: the first sets have their rows, and every set
but the first was met in one of them, and in no row before that. -/
structure Filled (nfa : Nfa) (table : Table) : Prop where
  listed : Listed nfa table.sets
  rows_le : table.rows.size ≤ table.sets.size
  row : ∀ {id : StateId} {set steps}, table.sets.toArray[id]? = some set →
    table.rows[id]? = some steps → Row nfa table.sets (edgesFrom nfa set) nfa.alphabet steps
  met : ∀ {id : StateId}, 0 < id → id < table.sets.size → ∃ i steps, i < id ∧
    table.rows[i]? = some steps ∧ Meets steps id ∧
      ∀ k < i, ∀ steps', table.rows[k]? = some steps' → ∀ step ∈ steps', step.target < id

theorem Filled.target_lt {table : Table} {steps : List DfaStep} {step : DfaStep}
    (h : Filled nfa table) (hsteps : table.rows[id]? = some steps) (hstep : step ∈ steps) :
    step.target < table.sets.size := by
  obtain ⟨hid, -⟩ := Array.getElem?_eq_some_iff.1 hsteps
  have hset := Array.getElem?_eq_getElem (Nat.lt_of_lt_of_le hid h.rows_le)
  obtain ⟨set, htarget, -⟩ := (h.row hset hsteps).target step hstep
  exact (Array.getElem?_eq_some_iff.1 htarget).1

/-- One round: the first set without a row gets its row. -/
theorem Filled.push {rows : Array (List DfaStep)} {steps : List DfaStep}
    (h : Filled nfa ⟨sets, rows⟩) (hset : sets.toArray[rows.size]? = some set)
    (hrow : Subset.row nfa limit (edgesFrom nfa set) nfa.alphabet sets = .ok (steps, sets')) :
    Filled nfa ⟨sets', rows.push steps⟩ ∧ Extends sets' sets := by
  obtain ⟨hlisted, hext, hrow', hmeets⟩ := row_eq_ok h.listed hrow
  have hlt : rows.size < sets.size := (Array.getElem?_eq_some_iff.1 hset).1
  have hold : ∀ {k : Nat}, k < rows.size → (rows.push steps)[k]? = rows[k]? := fun hk => by
    rw [Array.getElem?_push, if_neg (Nat.ne_of_lt hk)]
  refine ⟨⟨hlisted, ?_, fun {id other steps'} hother hsteps => ?_, fun {id} hpos hid => ?_⟩, hext⟩
  · rw [Array.size_push]
    exact Nat.le_trans hlt hext.size_le
  · simp only [Array.getElem?_push] at hother hsteps
    split at hsteps
    · next hid =>
      subst hid
      cases hsteps
      rw [hext _ _ hset] at hother
      cases hother
      exact hrow'
    · obtain ⟨hid, -⟩ := Array.getElem?_eq_some_iff.1 hsteps
      have hbefore := Array.getElem?_eq_getElem (Nat.lt_of_lt_of_le hid h.rows_le)
      rw [hext _ _ hbefore] at hother
      cases hother
      exact (h.row hbefore hsteps).extend hext
  · by_cases hknown : id < sets.size
    · obtain ⟨i, steps', hi, hsteps, hmeets', hearlier⟩ := h.met hpos hknown
      have hrows : i < rows.size := (Array.getElem?_eq_some_iff.1 hsteps).1
      refine ⟨i, steps', hi, (hold hrows).trans hsteps, hmeets', fun k hk other hother => ?_⟩
      exact hearlier k hk other ((hold (Nat.lt_trans hk hrows)).symm.trans hother)
    · have hge : sets.size ≤ id := Nat.le_of_not_lt hknown
      refine ⟨rows.size, steps, Nat.lt_of_lt_of_le hlt hge, Array.getElem?_push_size,
        hmeets id hge hid, fun k hk other hother step hstep => ?_⟩
      exact Nat.lt_of_lt_of_le (h.target_lt ((hold hk).symm.trans hother) hstep) hge

/-- Completing a table keeps what it has. In the end every set has its row,
unless the rounds were used up. -/
theorem Filled.complete {fuel : Nat} {table table' : Table} (h : Filled nfa table)
    (hcomplete : Subset.complete nfa limit nfa.alphabet fuel table = .ok table') :
    Filled nfa table' ∧ Extends table'.sets table.sets ∧
      (table'.rows.size = table'.sets.size ∨ table'.rows.size = table.rows.size + fuel) := by
  induction fuel generalizing table with
  | zero =>
    cases hcomplete
    exact ⟨h, .refl _, .inr rfl⟩
  | succ fuel ih =>
    obtain ⟨sets, rows⟩ := table
    unfold Subset.complete at hcomplete
    split at hcomplete
    · next hnone =>
      cases hcomplete
      have hge := Array.getElem?_eq_none_iff.1 hnone
      exact ⟨h, .refl _, .inl (Nat.le_antisymm h.rows_le hge)⟩
    · next set hset =>
      simp only [bind_eq_ok_iff, Prod.exists] at hcomplete
      obtain ⟨steps, sets', hrow, hrest⟩ := hcomplete
      obtain ⟨hpush, hext⟩ := h.push hset hrow
      obtain ⟨hfilled, hext', hsize⟩ := ih hpush hrest
      refine ⟨hfilled, hext'.trans hext, hsize.imp_right fun hsize => hsize.trans ?_⟩
      rw [Array.size_push, Nat.succ_add_eq_add_succ]

/-- A table that is complete: every set has its row. The first set is the
closure of the initial state. -/
structure Completed (nfa : Nfa) (table : Table) : Prop extends Filled nfa table where
  size_eq : table.rows.size = table.sets.size
  start : ∃ set, table.sets.toArray[0]? = some set ∧ nfa.closure? [nfa.initial] = some set

theorem completed_of_table {table : Table} (h : Subset.table nfa limit = .ok table) :
    Completed nfa table := by
  simp only [Subset.table, bind_eq_ok_iff, Prod.exists] at h
  obtain ⟨set, hclosure, id, sets, hintern, htable⟩ := h
  rw [closure_eq_ok_iff] at hclosure
  obtain ⟨hlisted, -, hid, hsize⟩ := (listed_empty nfa).intern hclosure hintern
  have hlt : id < sets.size := (Array.getElem?_eq_some_iff.1 hid).1
  have hempty : StateSets.empty.size = 0 := rfl
  obtain ⟨rfl, hone⟩ : id = 0 ∧ sets.size = 1 := by lia
  have hfirst : Filled nfa ⟨sets, #[]⟩ :=
    ⟨hlisted, Nat.zero_le _, fun _ h => by simp at h, fun {id} hpos hid =>
      absurd (Nat.lt_of_lt_of_eq hid hone) (Nat.not_lt.2 hpos)⟩
  obtain ⟨hfilled, hext, hrounds⟩ := hfirst.complete htable
  refine ⟨hfilled, ?_, set, hext _ _ hid, hclosure⟩
  -- The rounds suffice: there are no more sets than rounds.
  have hbound := hfilled.listed.size_le
  have hle := hfilled.rows_le
  simp only [List.size_toArray, List.length_nil, Nat.zero_add] at hrounds
  omega

/-- What the construction returns is the automaton of the rows in its table. -/
structure Tabulates (nfa : Nfa) (table : Table) (dfa : Dfa) : Prop extends
    Completed nfa table where
  initial_eq : dfa.initial = 0
  dfa_size_eq : dfa.size = table.sets.size
  state_eq : ∀ {id : StateId} {set}, table.sets.toArray[id]? = some set →
    ∃ steps, table.rows[id]? = some steps ∧ dfa.state id = stateOf nfa set steps

theorem tabulates_of_determinize {dfa : Dfa} (h : nfa.determinize limit = .ok dfa) :
    ∃ table, Subset.table nfa limit = .ok table ∧ Tabulates nfa table dfa := by
  obtain ⟨table, hrun, heq⟩ := bind_eq_ok_iff.1 h
  cases heq
  have hcompleted := completed_of_table hrun
  have hzip : (table.sets.toArray.zip table.rows).size = table.sets.size := by
    rw [Array.size_zip, hcompleted.size_eq, StateSets.size, Nat.min_self]
  refine ⟨table, hrun, hcompleted, rfl, ?_, fun {id set} hset => ?_⟩
  · rw [Dfa.size, Array.size_map, hzip]
  · have hid : id < table.rows.size :=
      Nat.lt_of_lt_of_eq (Array.getElem?_eq_some_iff.1 hset).1 hcompleted.size_eq.symm
    have hsteps := Array.getElem?_eq_getElem hid
    refine ⟨table.rows[id], hsteps, ?_⟩
    have hpair : (table.sets.toArray.zip table.rows)[id]? = some (set, table.rows[id]) :=
      Array.getElem?_zip_eq_some.2 ⟨hset, hsteps⟩
    rw [Dfa.state, Array.getD_eq_getD_getElem?, Array.getElem?_map, hpair]
    rfl

theorem Tabulates.exists_row {table : Table} {dfa : Dfa} (h : Tabulates nfa table dfa)
    (hid : id < dfa.size) : ∃ set steps, table.sets.toArray[id]? = some set ∧
      table.rows[id]? = some steps ∧ dfa.state id = stateOf nfa set steps := by
  have hset := Array.getElem?_eq_getElem (Nat.lt_of_lt_of_eq hid h.dfa_size_eq)
  obtain ⟨steps, hsteps, hstate⟩ := h.state_eq hset
  exact ⟨_, steps, hset, hsteps, hstate⟩

/-! ## The sets of a well-formed automaton -/

/-- The sets are state sets, and each has one number. -/
structure Known (nfa : Nfa) (sets : StateSets) : Prop where
  distinct : ∀ {i j : StateId} {set}, sets.toArray[i]? = some set →
    sets.toArray[j]? = some set → i = j
  isStateSet : ∀ {id : StateId} {set}, sets.toArray[id]? = some set → nfa.IsStateSet set

/-- The deterministic automaton has one state for each of the sets, numbered
like them: first that of the empty word. -/
structure Numbered (nfa : Nfa) (sets : StateSets) (dfa : Dfa) : Prop where
  known : Known nfa sets
  initial_eq : dfa.initial = 0
  start : ∃ set, sets.toArray[0]? = some set ∧ nfa.Lists [] set
  size_eq : dfa.size = sets.size
  state : ∀ {id : StateId} {set}, sets.toArray[id]? = some set →
    ∃ steps, dfa.state id = stateOf nfa set steps ∧
      Row nfa sets (edgesFrom nfa set) nfa.alphabet steps

/-- The closure of the initial state is the set of the empty word. -/
theorem lists_nil (hwf : nfa.WellFormed) (h : nfa.closure? [nfa.initial] = some set) :
    nfa.Lists [] set := by
  obtain ⟨set', hset, hsorted, hmem⟩ :=
    Nfa.closure?_eq_some hwf (List.forall_mem_singleton.2 hwf.initial_lt)
  rw [h, Option.some.injEq] at hset
  subst hset
  exact ⟨hsorted, fun {q} => by simp [hmem, Nfa.mem_reach]⟩

/-- The sets are state sets: each was met along a step out of an earlier one. -/
theorem Completed.isStateSet (hwf : nfa.WellFormed) {table : Table} (h : Completed nfa table)
    (hset : table.sets.toArray[id]? = some set) : nfa.IsStateSet set := by
  induction id using Nat.strongRecOn generalizing set with
  | ind id ih =>
    obtain rfl | hpos := Nat.eq_zero_or_pos id
    · obtain ⟨start, hstart, hclosure⟩ := h.start
      rw [hset, Option.some.injEq] at hstart
      subst hstart
      have hlists := lists_nil hwf hclosure
      exact ⟨List.ne_nil_of_mem (hlists.mem_iff.2 (.refl nfa.initial)), [], by simp, hlists⟩
    · obtain ⟨hid, -⟩ := Array.getElem?_eq_some_iff.1 hset
      obtain ⟨i, steps, hi, hsteps, ⟨before, step, behind, rfl, rfl, -⟩, -⟩ := h.met hpos hid
      have hfrom := Array.getElem?_eq_getElem (Nat.lt_trans hi hid)
      obtain ⟨-, w, hword, hw⟩ := ih i hi hfrom
      have hrow := h.row hfrom hsteps
      have hstep : step ∈ before ++ step :: behind := by simp
      obtain ⟨set', hset', hclosure⟩ := hrow.target step hstep
      rw [hset, Option.some.injEq] at hset'
      subst hset'
      obtain ⟨e, he⟩ := hrow.exists_edge hstep
      exact isStateSet_concat hword hw he (lists_concat hwf hw hclosure)

/-- What the construction returns is the automaton of the sets in its table. -/
theorem exists_table (hwf : nfa.WellFormed) {dfa : Dfa} (h : nfa.determinize limit = .ok dfa) :
    ∃ table, Subset.table nfa limit = .ok table ∧ Numbered nfa table.sets dfa := by
  obtain ⟨table, htable, h⟩ := tabulates_of_determinize h
  obtain ⟨start, hstart, hclosure⟩ := h.start
  refine ⟨table, htable, ⟨h.listed.distinct, h.isStateSet hwf⟩, h.initial_eq,
    ⟨start, hstart, lists_nil hwf hclosure⟩, h.dfa_size_eq, fun {id set} hset => ?_⟩
  obtain ⟨steps, hsteps, hstate⟩ := h.state_eq hset
  exact ⟨steps, hstate, h.row hset hsteps⟩

theorem numbered_of_determinize (hwf : nfa.WellFormed) {dfa : Dfa}
    (h : nfa.determinize limit = .ok dfa) : ∃ sets, Numbered nfa sets dfa := by
  obtain ⟨table, -, hnumbered⟩ := exists_table hwf h
  exact ⟨table.sets, hnumbered⟩

/-! ## Without a limit -/

theorem exists_intern_none (sets : StateSets) (set : List StateId) :
    ∃ id sets', intern none sets set = .ok (id, sets') := by
  unfold intern
  split
  · exact ⟨_, _, rfl⟩
  · exact ⟨_, _, rfl⟩

theorem exists_closure (hwf : nfa.WellFormed) (hseeds : ∀ p ∈ seeds, p < nfa.size) :
    ∃ set, closure nfa seeds = .ok set := by
  obtain ⟨set, hset, -⟩ := Nfa.closure?_eq_some hwf hseeds
  exact ⟨set, closure_eq_ok_iff.2 hset⟩

theorem exists_row_none (hwf : nfa.WellFormed) (set : List StateId) (symbols : List Symbol)
    (sets : StateSets) :
    ∃ steps sets', row nfa none (edgesFrom nfa set) symbols sets = .ok (steps, sets') := by
  induction symbols generalizing sets with
  | nil => exact ⟨_, _, rfl⟩
  | cons symbol symbols ih =>
    unfold row
    split
    · exact ih sets
    · next e more hsome =>
      have halong : along symbol (edgesFrom nfa set) = e :: more := hsome
      have hseeds : ∀ p ∈ e.target :: more.map (·.target), p < nfa.size := by
        rw [← List.map_cons, ← halong]
        exact lt_size_of_mem_targets hwf
      obtain ⟨target, htarget⟩ := exists_closure hwf hseeds
      obtain ⟨id, sets₁, hintern⟩ := exists_intern_none sets target
      obtain ⟨steps, sets₂, hrow⟩ := ih sets₁
      simp only [htarget, hintern, hrow, bind, Except.bind]
      exact ⟨_, _, rfl⟩

theorem exists_complete_none (hwf : nfa.WellFormed) (alphabet : List Symbol) (fuel : Nat)
    (table : Table) : ∃ table', complete nfa none alphabet fuel table = .ok table' := by
  induction fuel generalizing table with
  | zero => exact ⟨_, rfl⟩
  | succ fuel ih =>
    unfold complete
    split
    · exact ⟨_, rfl⟩
    · next set _ =>
      obtain ⟨steps, sets, hrow⟩ := exists_row_none hwf set alphabet table.sets
      simp only [hrow, bind, Except.bind]
      exact ih _

/-- **Without a limit the construction succeeds.** -/
theorem exists_determinize_none (hwf : nfa.WellFormed) : ∃ dfa, nfa.determinize none = .ok dfa := by
  obtain ⟨start, hstart⟩ := exists_closure hwf (List.forall_mem_singleton.2 hwf.initial_lt)
  obtain ⟨id, sets, hintern⟩ := exists_intern_none .empty start
  obtain ⟨table, htable⟩ := exists_complete_none hwf nfa.alphabet (Nat.pow 2 nfa.size) ⟨sets, #[]⟩
  simp only [Nfa.determinize, Subset.table, hstart, hintern, htable, bind, Except.bind]
  exact ⟨_, rfl⟩

end Subset

end LinePattern
