/-
What a limit on states does to the subset construction.

Sets are only ever added. With a limit the construction goes the way it goes
without one, up to the first set that is too many, and there it fails. So the
limit decides by the number of states that there are in the end
(`determinize_limit`): it changes nothing of an automaton it lets pass.
-/
import LinePattern.Proofs.Dfa.Subset

namespace LinePattern

namespace Subset

variable {nfa : Nfa} {limit : Option Nat} {l : Nat} {set : List StateId} {id : StateId}
  {sets sets' : StateSets} {edges : List Edge} {symbols alphabet : List Symbol}
  {steps : List DfaStep} {table table' : Table} {dfa : Dfa}

/-! ## Sets are only added -/

theorem size_le_of_intern (h : intern limit sets set = .ok (id, sets')) :
    sets.size ≤ sets'.size := by
  obtain ⟨-, rfl | ⟨-, -, rfl⟩⟩ := intern_eq_ok h
  · exact Nat.le_refl _
  · exact (extends_push sets set).size_le

theorem size_le_of_row (h : row nfa limit edges symbols sets = .ok (steps, sets')) :
    sets.size ≤ sets'.size := by
  induction symbols generalizing sets steps with
  | nil =>
    cases h
    exact Nat.le_refl _
  | cons symbol symbols ih =>
    unfold row at h
    split at h
    · exact ih h
    · simp only [bind_eq_ok_iff, Prod.exists] at h
      obtain ⟨target, -, id, sets₁, hintern, steps, sets₂, hrest, heq⟩ := h
      cases heq
      exact Nat.le_trans (size_le_of_intern hintern) (ih hrest)

theorem size_le_of_complete {fuel : Nat}
    (h : complete nfa limit alphabet fuel table = .ok table') :
    table.sets.size ≤ table'.sets.size := by
  induction fuel generalizing table with
  | zero =>
    cases h
    exact Nat.le_refl _
  | succ fuel ih =>
    obtain ⟨sets, rows⟩ := table
    unfold complete at h
    split at h
    · cases h
      exact Nat.le_refl _
    · simp only [bind_eq_ok_iff, Prod.exists] at h
      obtain ⟨steps, sets₁, hrow, hrest⟩ := h
      exact Nat.le_trans (size_le_of_row hrow) (ih hrest)

/-! ## Up to the limit nothing changes -/

/-- A result that comes with the sets known by then, unless they are more than
the limit. -/
def capped {α : Type} (l : Nat) (sets : StateSets) (a : α) : Except SubsetError α :=
  if sets.size ≤ l then .ok a else .error (.stateLimit l)

theorem capped_of_le {α : Type} {a : α} (h : sets.size ≤ l) : capped l sets a = .ok a := by
  simp [capped, h]

theorem capped_of_lt {α : Type} {a : α} (h : l < sets.size) :
    capped l sets a = .error (.stateLimit l) := by
  simp [capped, Nat.not_le.2 h]

theorem ok_bind {α β ε : Type} (a : α) (go : α → Except ε β) : (Except.ok a >>= go) = go a := rfl

/-- What goes on from capped sets is capped, when sets are only added. -/
theorem capped_bind {α β : Type} {a : α} {b : β} {go : α → Except SubsetError β}
    (hgrow : sets.size ≤ sets'.size) (hgo : sets.size ≤ l → go a = capped l sets' b) :
    (capped l sets a >>= go) = capped l sets' b := by
  by_cases hroom : sets.size ≤ l
  · rw [capped_of_le hroom]
    exact hgo hroom
  · have hlt : l < sets.size := Nat.lt_of_not_le hroom
    rw [capped_of_lt hlt, capped_of_lt (Nat.lt_of_lt_of_le hlt hgrow)]
    rfl

theorem intern_limit (h : intern none sets set = .ok (id, sets')) (hroom : sets.size ≤ l) :
    intern (some l) sets set = capped l sets' (id, sets') := by
  unfold intern at h ⊢
  cases hnumber : sets.number? set with
  | some known =>
    simp only [hnumber] at h ⊢
    cases h
    rw [capped_of_le hroom]
  | none =>
    simp only [hnumber] at h ⊢
    cases h
    simp only [capped, StateSets.size_push, Nat.succ_le_iff]

theorem row_limit (h : row nfa none edges symbols sets = .ok (steps, sets'))
    (hroom : sets.size ≤ l) :
    row nfa (some l) edges symbols sets = capped l sets' (steps, sets') := by
  induction symbols generalizing sets steps with
  | nil =>
    cases h
    rw [capped_of_le hroom, row]
  | cons symbol symbols ih =>
    unfold row at h ⊢
    cases hedges : edges.filter (·.symbol = symbol) with
    | nil =>
      simp only [hedges] at h ⊢
      exact ih h hroom
    | cons e more =>
      simp only [hedges, bind_eq_ok_iff, Prod.exists] at h
      obtain ⟨target, hclosure, id, sets₁, hintern, steps, sets₂, hrest, heq⟩ := h
      cases heq
      simp only [hclosure, ok_bind, intern_limit hintern hroom]
      refine capped_bind (size_le_of_row hrest) fun hroom₁ => ?_
      simp only [ih hrest hroom₁]
      exact capped_bind (Nat.le_refl _) fun hroom₂ => (capped_of_le hroom₂).symm

theorem complete_limit {fuel : Nat} (h : complete nfa none alphabet fuel table = .ok table')
    (hroom : table.sets.size ≤ l) :
    complete nfa (some l) alphabet fuel table = capped l table'.sets table' := by
  induction fuel generalizing table with
  | zero =>
    cases h
    rw [capped_of_le hroom, complete]
  | succ fuel ih =>
    obtain ⟨sets, rows⟩ := table
    unfold complete at h ⊢
    cases hset : sets.toArray[rows.size]? with
    | none =>
      simp only [hset] at h ⊢
      cases h
      rw [capped_of_le hroom]
    | some set =>
      simp only [hset, bind_eq_ok_iff, Prod.exists] at h
      obtain ⟨steps, sets₁, hrow, hrest⟩ := h
      simp only [row_limit hrow hroom]
      exact capped_bind (size_le_of_complete hrest) fun hroom₁ => ih hrest hroom₁

theorem table_limit (h : Subset.table nfa none = .ok table) (l : Nat) :
    Subset.table nfa (some l) = capped l table.sets table := by
  simp only [Subset.table, bind_eq_ok_iff, Prod.exists] at h
  obtain ⟨start, hclosure, id, sets, hintern, hcomplete⟩ := h
  have hempty : StateSets.empty.size ≤ l := Nat.zero_le l
  simp only [Subset.table, hclosure, ok_bind, intern_limit hintern hempty]
  exact capped_bind (size_le_of_complete hcomplete) fun hroom => complete_limit hcomplete hroom

/-- **A limit is exact and has no other effect.** The construction fails when
its automaton has more states than allowed, and else it makes the automaton it
makes without a limit. -/
theorem determinize_limit (hwf : nfa.WellFormed) (h : nfa.determinize none = .ok dfa) (l : Nat) :
    nfa.determinize (some l) =
      if dfa.size ≤ l then .ok dfa else .error (.stateLimit l) := by
  obtain ⟨table, htable, hnumbered⟩ := exists_table hwf h
  simp only [Nfa.determinize, htable, table_limit htable l, bind, Except.bind] at h ⊢
  rw [hnumbered.size_eq]
  by_cases hroom : table.sets.size ≤ l
  · rw [capped_of_le hroom, if_pos hroom]
    exact h
  · rw [capped_of_lt (Nat.lt_of_not_le hroom), if_neg hroom]

/-- **The budget is that of the automaton made without one.** A well-formed
automaton has a deterministic one. A limit that this does not exceed makes no
difference to it, and a smaller one is what the construction fails with; so a
larger limit never loses an automaton. -/
theorem exists_determinize_budget (hwf : nfa.WellFormed) :
    ∃ dfa, nfa.determinize none = .ok dfa ∧
      (∀ l, nfa.determinize (some l) =
        if dfa.size ≤ l then .ok dfa else .error (.stateLimit l)) ∧
      ∀ l l' d, l ≤ l' → nfa.determinize (some l) = .ok d → nfa.determinize (some l') = .ok d := by
  obtain ⟨dfa, hdfa⟩ := exists_determinize_none hwf
  have hlimit := determinize_limit hwf hdfa
  refine ⟨dfa, hdfa, hlimit, fun l l' d hle hd => ?_⟩
  rw [hlimit] at hd ⊢
  split at hd
  · next hroom => rwa [if_pos (Nat.le_trans hroom hle)]
  · cases hd

/-- A digit takes two states: one is not enough, and with two the automaton is
the one made without a limit. -/
theorem exists_determinize_budget_digit : ∃ dfa,
    (Nfa.ofSymbol .digit).determinize none = .ok dfa ∧ dfa.size = 2 ∧
      (Nfa.ofSymbol .digit).determinize (some 1) = .error (.stateLimit 1) ∧
      (Nfa.ofSymbol .digit).determinize (some 2) = .ok dfa := by
  have hwf : (Nfa.ofSymbol .digit).WellFormed := by decide
  obtain ⟨dfa, hdfa, hlimit, -⟩ := exists_determinize_budget hwf
  have hrun : ((Nfa.ofSymbol .digit).determinize none).toOption.map Dfa.size = some 2 := by
    decide +kernel
  have hsize : dfa.size = 2 := by simpa [hdfa, Except.toOption] using hrun
  refine ⟨dfa, hdfa, hsize, ?_, ?_⟩
  · rw [hlimit, hsize, if_neg (by decide)]
  · rw [hlimit, hsize, if_pos (Nat.le_refl 2)]

theorem determinize_eq_ok_iff (hwf : nfa.WellFormed) :
    nfa.determinize limit = .ok dfa ↔
      nfa.determinize none = .ok dfa ∧ ∀ l ∈ limit, dfa.size ≤ l := by
  cases limit with
  | none => simp
  | some l =>
    obtain ⟨whole, hwhole⟩ := exists_determinize_none hwf
    rw [determinize_limit hwf hwhole l, hwhole]
    simp only [Option.mem_some_iff, forall_eq', Except.ok.injEq]
    by_cases hroom : whole.size ≤ l
    · rw [if_pos hroom, Except.ok.injEq]
      exact ⟨fun heq => ⟨heq, heq ▸ hroom⟩, fun h => h.1⟩
    · rw [if_neg hroom]
      exact ⟨nofun, fun h => absurd (h.1 ▸ h.2) hroom⟩

end Subset

end LinePattern
