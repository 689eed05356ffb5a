/-
The path of a text, replayed.

The path of a text through the automaton does not depend on the policy. Its
states are numbered by the characters read (`stateAfter?`), and the captures
behind some of the characters are those of a replay that starts without any
(`creditAfter`). A policy chooses among the numbers behind which a state accepts:
the first scan takes the least, the longest scan the greatest unless the end of
the line accepts, and the early exit the greatest of those that it gets to. This
gives one answer to every text (`Dfa.Replays`, `Replays.unique`).

A scan that has seen some of the characters is on the path, in the state behind
them (`stateAfter?_length`) and with the captures behind them
(`creditAfter_length`).
-/
import LinePattern.Proofs.Dfa.Credit
import Mathlib.Order.Bounds.Basic

namespace LinePattern

/-! ## The path of a text -/

/-- The captures with one more character for a group. Missing captures are
added as empty texts. -/
def creditText (captures : List String) (group : Option Nat) (c : Char) : List String :=
  match group with
  | none => captures
  | some group => (captures.rightpad (group + 1) "").modify group (·.push c)

namespace Dfa

variable {dfa : Dfa} {policy : MatchPolicy} {text : String} {k : Nat} {q : StateId}

/-- The state behind the first `k` characters. -/
def stateAfter? (dfa : Dfa) (text : String) (k : Nat) : Option StateId :=
  (dfa.initial :: (dfa.walk text).map (·.state))[k]?

/-- The captures behind the first `k` characters. -/
def creditAfter (dfa : Dfa) (text : String) (k : Nat) : List String :=
  (((dfa.walk text).zip text.toList).take k).foldl
    (fun captures (visit, c) => creditText captures visit.group c) []

/-- The numbers of characters behind which a state accepts, none left out but
zero. -/
def acceptedAfter (dfa : Dfa) (text : String) : Set Nat :=
  {k | 0 < k ∧ ∃ q, dfa.stateAfter? text k = some q ∧ (dfa.state q).isFinal = true}

/-- The accepting state behind all characters and the end of the line. -/
def endState? (dfa : Dfa) (text : String) : Option StateId :=
  ((dfa.stateAfter? text text.toList.length).bind fun q => (dfa.state q).next? .endOfLine).filter
    fun target => (dfa.state target).isFinal

/-- The number of characters that a scan reads. -/
def taken (dfa : Dfa) (policy : MatchPolicy) (text : String) : Nat :=
  (dfa.visitsUnder policy (dfa.walk text)).length

/-- The captures are those behind `k` characters, the pattern is that of the
state `q`. -/
def accept (dfa : Dfa) (text : String) (k : Nat) (q : StateId) : Outcome :=
  ⟨true, dfa.creditAfter text k, (dfa.state q).pattern⟩

/-- The answer to a text under a policy. -/
inductive Replays (dfa : Dfa) (text : String) : MatchPolicy → Outcome → Prop
  /-- The first scan stops in the first accepting state. -/
  | first_behind {k : Nat} {q : StateId} : IsLeast (dfa.acceptedAfter text) k →
    dfa.stateAfter? text k = some q → Replays dfa text .first (dfa.accept text k q)
  /-- The end of the line comes last. -/
  | first_atEnd {q : StateId} : dfa.acceptedAfter text = ∅ → dfa.endState? text = some q →
    Replays dfa text .first (dfa.accept text text.toList.length q)
  /-- The end of the line comes first. -/
  | longest_atEnd {q : StateId} : dfa.endState? text = some q →
    Replays dfa text .longest (dfa.accept text text.toList.length q)
  /-- The longest scan answers for the last accepting state. -/
  | longest_behind {k : Nat} {q : StateId} : dfa.endState? text = none →
    IsGreatest (dfa.acceptedAfter text) k → dfa.stateAfter? text k = some q →
    Replays dfa text .longest (dfa.accept text k q)
  /-- The end of the line comes first, if the scan gets there. -/
  | earlyExit_atEnd {q : StateId} : dfa.taken .earlyExit text = text.toList.length →
    dfa.endState? text = some q →
    Replays dfa text .earlyExit (dfa.accept text text.toList.length q)
  /-- The early exit answers for the last accepting state that it enters, with the
  captures that it has when it stops. -/
  | earlyExit_behind {k : Nat} {q : StateId} :
    (dfa.taken .earlyExit text = text.toList.length → dfa.endState? text = none) →
    IsGreatest {k ∈ dfa.acceptedAfter text | k ≤ dfa.taken .earlyExit text} k →
    dfa.stateAfter? text k = some q →
    Replays dfa text .earlyExit (dfa.accept text (dfa.taken .earlyExit text) q)
  /-- Nothing is read, and nothing captured. -/
  | initially {policy : MatchPolicy} : dfa.acceptedAfter text = ∅ → dfa.endState? text = none →
    (dfa.state dfa.initial).isFinal = true →
    Replays dfa text policy ⟨true, [], (dfa.state dfa.initial).pattern⟩
  | rejected {policy : MatchPolicy} : dfa.acceptedAfter text = ∅ → dfa.endState? text = none →
    (dfa.state dfa.initial).isFinal = false → Replays dfa text policy .rejected

theorem stateAfter?_succ (dfa : Dfa) (text : String) (k : Nat) :
    dfa.stateAfter? text (k + 1) = ((dfa.walk text)[k]?).map (·.state) := by
  rw [stateAfter?, List.getElem?_cons_succ, List.getElem?_map]

theorem le_length_of_stateAfter? (h : dfa.stateAfter? text k = some q) :
    k ≤ (dfa.walk text).length := by
  obtain ⟨hlt, -⟩ := List.getElem?_eq_some_iff.1 h
  simpa using Nat.le_of_lt_succ hlt

theorem le_length_of_mem_acceptedAfter (h : k ∈ dfa.acceptedAfter text) :
    k ≤ (dfa.walk text).length := by
  obtain ⟨-, q, hq, -⟩ := h
  exact le_length_of_stateAfter? hq

instance (dfa : Dfa) (text : String) (k : Nat) : Decidable (k ∈ dfa.acceptedAfter text) :=
  decidable_of_iff
    (0 < k ∧ (dfa.stateAfter? text k).any (fun q => (dfa.state q).isFinal) = true)
    (by simp [acceptedAfter, Option.any_eq_true])

instance (dfa : Dfa) (text : String) (n k : Nat) :
    Decidable (IsGreatest {j ∈ dfa.acceptedAfter text | j ≤ n} k) :=
  decidable_of_iff
    ((k ∈ dfa.acceptedAfter text ∧ k ≤ n) ∧ ∀ j ≤ n, j ∈ dfa.acceptedAfter text → j ≤ k)
    (and_congr_right fun _ => ⟨fun h j hj => h j hj.2 hj.1, fun h _ hle hj => h ⟨hj, hle⟩⟩)

theorem isGreatest_acceptedAfter
    (h : IsGreatest {j ∈ dfa.acceptedAfter text | j ≤ (dfa.walk text).length} k) :
    IsGreatest (dfa.acceptedAfter text) k :=
  ⟨h.1.1, fun _ hj => h.2 ⟨hj, le_length_of_mem_acceptedAfter hj⟩⟩

theorem length_walk_le (dfa : Dfa) (text : String) :
    (dfa.walk text).length ≤ text.toList.length :=
  dfa.length_walkFrom_le _ _

/-! ## The answer is determined -/

theorem Replays.unique {outcome outcome' : Outcome} (h : dfa.Replays text policy outcome)
    (h' : dfa.Replays text policy outcome') : outcome = outcome' := by
  have hleast : ∀ {k}, IsLeast (dfa.acceptedAfter text) k → dfa.acceptedAfter text ≠ ∅ :=
    fun h => h.nonempty.ne_empty
  have hgreatest : ∀ {k}, IsGreatest (dfa.acceptedAfter text) k → dfa.acceptedAfter text ≠ ∅ :=
    fun h => h.nonempty.ne_empty
  have hread : ∀ {n k}, IsGreatest {k ∈ dfa.acceptedAfter text | k ≤ n} k →
      dfa.acceptedAfter text ≠ ∅ := fun h => (h.nonempty.mono (Set.sep_subset _ _)).ne_empty
  cases h <;> cases h' <;> grind [IsLeast.unique, IsGreatest.unique]

end Dfa

/-! ## A scan is on the path -/

namespace Slots

theorem texts_creditTo (slots : Slots) (group : Option Nat) (c : Char) :
    (slots.creditTo group c).texts = creditText slots.texts group c := by
  cases group with
  | none => rfl
  | some group =>
    have hpush : ∀ slot : List Char,
        String.ofList (c :: slot).reverse = (String.ofList slot.reverse).push c := fun slot => by
      rw [← String.toList_inj]
      simp
    exact map_modify_rightpad hpush slots (group + 1) group []

end Slots

namespace Scan

variable {dfa : Dfa} {scan next : Scan} {u rest : List Char}

theorem length_walkFrom (h : scan.after? dfa u = some next) :
    (dfa.walkFrom scan.state u).length = u.length := by
  induction u generalizing scan with
  | nil => rfl
  | cons c u ih =>
    obtain ⟨target, hnext, hrest⟩ := Option.bind_eq_some_iff.1 h
    have hlength := ih hrest
    rw [state_move] at hlength
    rw [Dfa.walkFrom, hnext, List.length_cons, hlength, List.length_cons]

theorem walkFrom_append (h : scan.after? dfa u = some next) (rest : List Char) :
    dfa.walkFrom scan.state (u ++ rest) =
      dfa.walkFrom scan.state u ++ dfa.walkFrom next.state rest := by
  induction u generalizing scan with
  | nil =>
    cases h
    rfl
  | cons c u ih =>
    obtain ⟨target, hnext, hrest⟩ := Option.bind_eq_some_iff.1 h
    have happend := ih hrest
    rw [state_move] at happend
    simp only [List.cons_append, Dfa.walkFrom, hnext, happend]

theorem slots_after? (h : scan.after? dfa u = some next) :
    next.slots = ((dfa.walkFrom scan.state u).zip u).foldl
      (fun slots (visit, c) => slots.creditTo visit.group c) scan.slots := by
  induction u generalizing scan with
  | nil =>
    cases h
    rfl
  | cons c u ih =>
    obtain ⟨target, hnext, hrest⟩ := Option.bind_eq_some_iff.1 h
    have hslots := ih hrest
    rw [state_move, slots_move] at hslots
    rw [Dfa.walkFrom, hnext, List.zip_cons_cons, List.foldl_cons]
    exact hslots

/-! ## Numbers of characters -/

variable {text : String} {seen : List Char} {c : Char} {target : StateId}

theorem walk_eq (hscan : (start dfa).after? dfa seen = some scan)
    (htext : seen ++ rest = text.toList) :
    dfa.walk text = dfa.walkFrom dfa.initial seen ++ dfa.walkFrom scan.state rest := by
  rw [Dfa.walk, ← htext]
  exact walkFrom_append hscan rest

theorem creditAfter_length (hscan : (start dfa).after? dfa seen = some scan)
    (htext : seen ++ rest = text.toList) :
    dfa.creditAfter text seen.length = scan.slots.texts := by
  have hlength : (dfa.walkFrom dfa.initial seen).length = seen.length := length_walkFrom hscan
  have htexts : ∀ (steps : List (Visit × Char)) (slots : Slots),
      (steps.foldl (fun slots (visit, c) => slots.creditTo visit.group c) slots).texts =
        steps.foldl (fun captures (visit, c) => creditText captures visit.group c) slots.texts := by
    intro steps
    induction steps with
    | nil => exact fun _ => rfl
    | cons step steps ih =>
      intro slots
      rw [List.foldl_cons, List.foldl_cons, ih, Slots.texts_creditTo]
  have hzip : ((dfa.walk text).zip text.toList).take seen.length =
      (dfa.walkFrom dfa.initial seen).zip seen := by
    rw [walk_eq hscan htext, ← htext, List.zip_append hlength, List.take_left' (by simp [hlength])]
  rw [Dfa.creditAfter, hzip, slots_after? hscan]
  exact (htexts _ []).symm

theorem stateAfter?_length (hscan : (start dfa).after? dfa seen = some scan)
    (htext : seen ++ rest = text.toList) :
    dfa.stateAfter? text seen.length = some scan.state := by
  cases List.eq_nil_or_concat' seen with
  | inl hnil =>
    subst hnil
    cases hscan
    rfl
  | inr hconcat =>
    obtain ⟨seen, c, rfl⟩ := hconcat
    obtain ⟨scan', target, hscan', hnext, rfl⟩ := after?_concat_eq_some.1 hscan
    have hlength : (dfa.walkFrom dfa.initial seen).length = seen.length := length_walkFrom hscan'
    rw [List.append_assoc, List.singleton_append] at htext
    rw [List.length_append, List.length_singleton, Dfa.stateAfter?_succ, walk_eq hscan' htext,
      List.getElem?_append_right (by omega), hlength, Nat.sub_self, Dfa.walkFrom, hnext, state_move]
    rfl

/-- Past the characters seen and the next one, the path goes on as the scan
does. -/
theorem length_walk (hscan : (start dfa).after? dfa seen = some scan)
    (htext : seen ++ rest = text.toList) :
    (dfa.walk text).length = seen.length + (dfa.walkFrom scan.state rest).length := by
  have hlength : (dfa.walkFrom dfa.initial seen).length = seen.length := length_walkFrom hscan
  rw [walk_eq hscan htext, List.length_append, hlength]

/-- A scan goes along the path as far as it leads. -/
theorem exists_after?_take {k : Nat} (h : k ≤ (dfa.walk text).length) :
    ∃ scan, (start dfa).after? dfa (text.toList.take k) = some scan := by
  induction k with
  | zero => exact ⟨start dfa, rfl⟩
  | succ k ih =>
    obtain ⟨scan, hscan⟩ := ih (Nat.le_of_lt h)
    have hk : k < text.toList.length := Nat.lt_of_lt_of_le h (dfa.length_walk_le text)
    have hlength := length_walk hscan (List.take_append_drop k text.toList)
    rw [List.length_take, Nat.min_eq_left (Nat.le_of_lt hk), List.drop_eq_getElem_cons hk,
      Dfa.walkFrom] at hlength
    cases hnext : dfa.findNext scan.state text.toList[k] with
    | none =>
      rw [hnext, List.length_nil] at hlength
      omega
    | some target =>
      rw [List.take_succ_eq_append_getElem hk]
      exact ⟨_, after?_concat_eq_some.2 ⟨scan, target, hscan, hnext, rfl⟩⟩

theorem exists_after?_of_stateAfter? {k : Nat} {q : StateId}
    (h : dfa.stateAfter? text k = some q) :
    ∃ scan, (start dfa).after? dfa (text.toList.take k) = some scan ∧ scan.state = q ∧
      dfa.creditAfter text k = scan.slots.texts := by
  have hk := Dfa.le_length_of_stateAfter? h
  obtain ⟨scan, hscan⟩ := exists_after?_take hk
  have hsplit := List.take_append_drop k text.toList
  have hlength : (text.toList.take k).length = k := by
    rw [List.length_take, Nat.min_eq_left (hk.trans (dfa.length_walk_le text))]
  have hstate := stateAfter?_length hscan hsplit
  have hcredit := creditAfter_length hscan hsplit
  rw [hlength] at hstate hcredit
  exact ⟨scan, hscan, Option.some.inj (hstate.symm.trans h), hcredit⟩

theorem endState?_eq (hscan : (start dfa).after? dfa text.toList = some scan) :
    dfa.endState? text = (scan.stopAtEnd? dfa).map (·.scan.state) := by
  have hstate := stateAfter?_length hscan (List.append_nil _)
  rw [Dfa.endState?, hstate, Option.bind_some, stopAtEnd?, behindEnd?]
  cases (dfa.state scan.state).next? .endOfLine with
  | none => rfl
  | some target =>
    cases hfinal : (dfa.state target).isFinal <;>
      simp [stopAt?, hfinal]

/-- A path that ends early has no end of the line. -/
theorem endState?_eq_none (h : (dfa.walk text).length < text.toList.length) :
    dfa.endState? text = none := by
  have hstate : dfa.stateAfter? text text.toList.length = none := by
    by_contra hne
    obtain ⟨q, hq⟩ := Option.ne_none_iff_exists'.1 hne
    have hle := Dfa.le_length_of_stateAfter? hq
    omega
  rw [Dfa.endState?, hstate]
  rfl

theorem length_concat_mem_acceptedAfter_iff
    (hscan : (start dfa).after? dfa (seen ++ [c]) = some scan)
    (htext : seen ++ c :: rest = text.toList) :
    (seen ++ [c]).length ∈ dfa.acceptedAfter text ↔ (dfa.state scan.state).isFinal = true := by
  have hsplit : (seen ++ [c]) ++ rest = text.toList := by
    rw [← htext, List.append_assoc, List.singleton_append]
  have hstate := stateAfter?_length hscan hsplit
  constructor
  · rintro ⟨-, q, hq, hfinal⟩
    rw [hstate] at hq
    cases hq
    exact hfinal
  · exact fun hfinal => ⟨by simp, scan.state, hstate, hfinal⟩

end Scan

end LinePattern
