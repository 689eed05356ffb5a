/-
Other numbers for the groups.

The number of a group is a name. It is copied from the capture sets to the steps
(`determinize_renumbered`), and it says which slot a character goes to. Nothing is
ever decided by it: a scan asks at most whether a step has a group. So with other
numbers the path of a text is the same, and so is its place on it (`taken`), and
what is captured for a group is found under its new number
(`renumbered_scan`). No two groups may get the same number.
-/
import LinePattern.Proofs.Dfa.Answers
import LinePattern.Proofs.Dfa.Untagged

namespace LinePattern

variable {f : Nat → Nat}

/-! ## New numbers -/

/-- The automaton with new numbers for its groups. -/
def Nfa.renumbered (f : Nat → Nat) (nfa : Nfa) : Nfa :=
  { nfa with captures := nfa.captures.map fun set => { set with group := f set.group } }

/-- The step with a new number for its group. -/
def DfaStep.renumbered (f : Nat → Nat) (step : DfaStep) : DfaStep :=
  { step with group := step.group.map f }

/-- The state with new numbers on its steps. -/
def DfaState.renumbered (f : Nat → Nat) (s : DfaState) : DfaState :=
  { s with steps := s.steps.map (·.renumbered f) }

/-- The deterministic automaton with new numbers for its groups. -/
def Dfa.renumbered (f : Nat → Nat) (dfa : Dfa) : Dfa :=
  { dfa with states := dfa.states.map (·.renumbered f) }

/-- The visit with a new number for its group. -/
def Visit.renumbered (f : Nat → Nat) (visit : Visit) : Visit :=
  { visit with group := visit.group.map f }

/-- The answers differ in the numbers of the groups only. A capture without a slot
counts as empty. -/
structure Outcome.Renumbered (f : Nat → Nat) (outcome outcome' : Outcome) : Prop where
  matched_eq : outcome'.matched = outcome.matched
  pattern_eq : outcome'.pattern = outcome.pattern
  getD_eq : ∀ group, outcome'.captures.getD (f group) "" = outcome.captures.getD group ""

/-! ## Determinisation -/

namespace Nfa

variable {nfa nfa' : Nfa}

theorem eq_of_withoutGroups (h : nfa'.withoutGroups = nfa.withoutGroups)
    (hcaptures : nfa'.captures = nfa.captures) : nfa' = nfa :=
  calc nfa' = { nfa'.withoutGroups with captures := nfa'.captures } := rfl
    _ = { nfa.withoutGroups with captures := nfa.captures } := by rw [h, hcaptures]

theorem withoutGroups_renumbered (nfa : Nfa) :
    (nfa.renumbered f).withoutGroups = nfa.withoutGroups := rfl

theorem groupOf?_renumbered (nfa : Nfa) (e : Edge) :
    (nfa.renumbered f).groupOf? e = (nfa.groupOf? e).map f := by
  simp only [groupOf?, renumbered, List.find?_map, Option.map_map]
  rfl

theorem merge_renumbered (nfa : Nfa) :
    merge [nfa.renumbered f] = (merge [nfa]).renumbered f := by
  refine eq_of_withoutGroups ?_ ?_
  · rw [withoutGroups_renumbered, withoutGroups_merge, withoutGroups_merge]
    rfl
  · simp [merge, mergeFrom, captures_addMember, renumbered, CaptureSet.shift, blank]

end Nfa

theorem DfaStep.eq_renumbered {step step' : DfaStep} (h : step'.untagged = step.untagged)
    (hgroup : step'.group = step.group.map f) : step' = step.renumbered f :=
  calc step' = { step'.untagged with group := step'.group } := rfl
    _ = { step.untagged with group := step.group.map f } := by rw [h, hgroup]

namespace Subset

variable {nfa : Nfa} {limit : Option Nat} {sets sets' : StateSets} {edges : List Edge}
  {symbols symbols' : List Symbol} {steps steps' : List DfaStep}

/-- The table with new numbers in its rows. -/
def Table.renumbered (f : Nat → Nat) (table : Table) : Table :=
  { table with rows := table.rows.map fun steps => steps.map (·.renumbered f) }

theorem Row.renumbered (h : Row nfa sets edges symbols steps)
    (h' : Row (nfa.renumbered f) sets' edges symbols' steps')
    (huntagged : steps'.map (·.untagged) = steps.map (·.untagged)) :
    steps' = steps.map (·.renumbered f) := by
  have hlength : steps'.length = steps.length := by simpa using congrArg List.length huntagged
  refine List.ext_getElem (by rw [hlength, List.length_map]) fun i hi' hi => ?_
  rw [List.length_map] at hi
  have hstep : steps'[i].untagged = steps[i].untagged := by
    have hget := congrArg (·[i]?) huntagged
    simpa [hi, hi'] using hget
  have hsymbol : steps'[i].symbol = steps[i].symbol := congrArg (·.symbol) hstep
  rw [List.getElem_map]
  refine DfaStep.eq_renumbered hstep ?_
  rw [h'.group_eq _ (List.getElem_mem hi'), h.group_eq _ (List.getElem_mem hi), hsymbol,
    List.map_findSome?]
  exact congrArg (List.findSome? · _) (funext nfa.groupOf?_renumbered)

theorem eq_renumbered_of_table {table table' : Table} (h : Subset.table nfa limit = .ok table)
    (h' : Subset.table (nfa.renumbered f) limit = .ok table')
    (huntagged : table'.untagged = table.untagged) : table' = table.renumbered f := by
  have hcompleted := completed_of_table h
  have hcompleted' := completed_of_table h'
  have hsets : table'.sets = table.sets := (congrArg Table.sets huntagged :)
  have hrows : table'.rows.map (fun steps => steps.map (·.untagged)) =
      table.rows.map fun steps => steps.map (·.untagged) := congrArg Table.rows huntagged
  have hsize : table'.rows.size = table.rows.size := by
    rw [hcompleted'.size_eq, hsets, hcompleted.size_eq]
  have hrenumbered : table'.rows = table.rows.map fun steps => steps.map (·.renumbered f) := by
    refine Array.ext (by rw [hsize, Array.size_map]) fun id hid' _ => ?_
    have hid : id < table.rows.size := hsize ▸ hid'
    obtain ⟨set, hset⟩ : ∃ set, table.sets.toArray[id]? = some set :=
      ⟨_, Array.getElem?_eq_getElem (Nat.lt_of_lt_of_eq hid hcompleted.size_eq)⟩
    have hset' : table'.sets.toArray[id]? = some set := by rw [hsets, hset]
    have hrow := hcompleted.row hset (Array.getElem?_eq_getElem hid)
    have hrow' := hcompleted'.row hset' (Array.getElem?_eq_getElem hid')
    have hsteps : table'.rows[id].map (·.untagged) = table.rows[id].map (·.untagged) := by
      have hget := congrArg (·[id]?) hrows
      simpa [hid, hid'] using hget
    rw [Array.getElem_map]
    exact hrow.renumbered hrow' hsteps
  rw [Table.renumbered, ← hsets, ← hrenumbered]

theorem table_renumbered (nfa : Nfa) (limit : Option Nat) :
    table (nfa.renumbered f) limit = (table nfa limit).map (·.renumbered f) := by
  -- Both tables have the sets of the automaton without groups, and its rows but for the tags.
  have huntagged : (table (nfa.renumbered f) limit).map Table.untagged =
      (table nfa limit).map Table.untagged := by
    rw [← table_withoutGroups, ← table_withoutGroups, Nfa.withoutGroups_renumbered]
  cases htable : table nfa limit with
  | error fault =>
    cases htable' : table (nfa.renumbered f) limit with
    | error fault' => rwa [htable, htable'] at huntagged
    | ok table' =>
      rw [htable, htable'] at huntagged
      cases huntagged
  | ok table =>
    cases htable' : Subset.table (nfa.renumbered f) limit with
    | error fault' =>
      rw [htable, htable'] at huntagged
      cases huntagged
    | ok table' =>
      rw [htable, htable'] at huntagged
      exact congrArg _ (eq_renumbered_of_table htable htable' (Except.ok.inj huntagged))

/-- **The numbers of the groups are copied.** With new numbers an automaton has the
same deterministic one, with the new numbers. -/
theorem determinize_renumbered (nfa : Nfa) (limit : Option Nat) :
    (nfa.renumbered f).determinize limit = (nfa.determinize limit).map (·.renumbered f) := by
  unfold Nfa.determinize
  rw [table_renumbered]
  cases table nfa limit with
  | error fault => rfl
  | ok table =>
    simp only [Except.map, ok_bind, Table.renumbered, Dfa.renumbered, Array.zip_map_right,
      Array.map_map]
    rfl

end Subset

/-! ## The path of a text -/

namespace DfaState

theorem untagged_renumbered (s : DfaState) : (s.renumbered f).untagged = s.untagged := by
  simp only [untagged, renumbered, List.map_map]
  rfl

theorem next?_renumbered (s : DfaState) (symbol : Symbol) :
    (s.renumbered f).next? symbol = s.next? symbol := by
  rw [← next?_untagged, untagged_renumbered, next?_untagged]

theorem follow?_renumbered (s : DfaState) (c : Char) :
    (s.renumbered f).follow? c = s.follow? c := by
  rw [← follow?_untagged, untagged_renumbered, follow?_untagged]

theorem groupInto?_renumbered (s : DfaState) (target : StateId) :
    (s.renumbered f).groupInto? target = (s.groupInto? target).map f := by
  rw [groupInto?, groupInto?, renumbered, List.findSome?_map, List.map_findSome?]
  refine findSome?_congr fun step _ => ?_
  simp only [Function.comp_apply, DfaStep.renumbered]
  split <;> simp

end DfaState

namespace Dfa

variable {dfa : Dfa} {policy : MatchPolicy} {text : String}

theorem state_renumbered (dfa : Dfa) (id : StateId) :
    (dfa.renumbered f).state id = (dfa.state id).renumbered f := by
  simp only [state, renumbered, Array.getD_eq_getD_getElem?, Array.getElem?_map]
  cases dfa.states[id]? <;> rfl

theorem findNext_renumbered (dfa : Dfa) (id : StateId) (c : Char) :
    (dfa.renumbered f).findNext id c = dfa.findNext id c := by
  rw [findNext, state_renumbered, DfaState.follow?_renumbered, findNext]

theorem isFinal_renumbered (dfa : Dfa) (id : StateId) :
    ((dfa.renumbered f).state id).isFinal = (dfa.state id).isFinal := by
  rw [state_renumbered]
  rfl

theorem pattern_renumbered (dfa : Dfa) (id : StateId) :
    ((dfa.renumbered f).state id).pattern = (dfa.state id).pattern := by
  rw [state_renumbered]
  rfl

theorem walkFrom_renumbered (dfa : Dfa) (id : StateId) (cs : List Char) :
    (dfa.renumbered f).walkFrom id cs = (dfa.walkFrom id cs).map (·.renumbered f) := by
  induction cs generalizing id with
  | nil => rfl
  | cons c rest ih =>
    rw [walkFrom, walkFrom, findNext_renumbered]
    cases dfa.findNext id c with
    | none => rfl
    | some target =>
      simp only [ih, state_renumbered, DfaState.groupInto?_renumbered, List.map_cons]
      rfl

theorem walk_renumbered (dfa : Dfa) (text : String) :
    (dfa.renumbered f).walk text = (dfa.walk text).map (·.renumbered f) :=
  walkFrom_renumbered dfa dfa.initial text.toList

theorem stateAfter?_renumbered (dfa : Dfa) (text : String) (k : Nat) :
    (dfa.renumbered f).stateAfter? text k = dfa.stateAfter? text k := by
  rw [stateAfter?, stateAfter?, walk_renumbered, List.map_map]
  rfl

theorem acceptedAfter_renumbered (dfa : Dfa) (text : String) :
    (dfa.renumbered f).acceptedAfter text = dfa.acceptedAfter text := by
  simp only [acceptedAfter, stateAfter?_renumbered, isFinal_renumbered]

theorem endState?_renumbered (dfa : Dfa) (text : String) :
    (dfa.renumbered f).endState? text = dfa.endState? text := by
  simp only [endState?, stateAfter?_renumbered, state_renumbered, DfaState.next?_renumbered]
  rfl

/-- Whether a scan goes on depends on whether a step has a group, not on which. -/
theorem visitsUnder_renumbered (dfa : Dfa) (policy : MatchPolicy) (visits : List Visit) :
    (dfa.renumbered f).visitsUnder policy (visits.map (·.renumbered f)) =
      (dfa.visitsUnder policy visits).map (·.renumbered f) := by
  cases policy <;>
    simp [visitsUnder, List.takeWhile_map, List.dropWhile_map, Function.comp_def, Visit.renumbered,
      isFinal_renumbered, List.map_take, ← List.map_tail]

theorem taken_renumbered (dfa : Dfa) (policy : MatchPolicy) (text : String) :
    (dfa.renumbered f).taken policy text = dfa.taken policy text := by
  rw [taken, walk_renumbered, visitsUnder_renumbered, List.length_map, taken]

end Dfa

/-! ## The slots -/

theorem getD_creditText (captures : List String) (group : Option Nat) (other : Nat) (c : Char) :
    (creditText captures group c).getD other "" =
      if group = some other then (captures.getD other "").push c else captures.getD other "" := by
  cases group with
  | none => rfl
  | some group =>
    simp only [creditText, Option.some.injEq]
    exact getD_modify_rightpad captures group other (·.push c) ""

theorem getD_foldl_renumbered (hf : Function.Injective f) (steps : List (Visit × Char))
    {captures captures' : List String}
    (h : ∀ group, captures'.getD (f group) "" = captures.getD group "") (group : Nat) :
    ((steps.map (Prod.map (·.renumbered f) id)).foldl
      (fun captures (visit, c) => creditText captures visit.group c) captures').getD (f group) "" =
    (steps.foldl (fun captures (visit, c) => creditText captures visit.group c) captures).getD
      group "" := by
  induction steps generalizing captures captures' with
  | nil => exact h group
  | cons step steps ih =>
    refine ih fun group => ?_
    have hsame : step.1.group.map f = some (f group) ↔ step.1.group = some group := by
      rw [← Option.map_some, (Option.map_injective hf).eq_iff]
    change (creditText captures' (step.1.group.map f) step.2).getD (f group) "" = _
    simp only [getD_creditText, hsame, h]

theorem Dfa.getD_creditAfter_renumbered (hf : Function.Injective f) (dfa : Dfa) (text : String)
    (k group : Nat) : ((dfa.renumbered f).creditAfter text k).getD (f group) "" =
      (dfa.creditAfter text k).getD group "" := by
  rw [creditAfter, creditAfter, walk_renumbered, List.zip_map_left, ← List.map_take]
  exact getD_foldl_renumbered hf _ (fun _ => rfl) group

namespace Dfa

variable {dfa : Dfa} {policy : MatchPolicy} {text : String} {outcome : Outcome}

theorem accept_renumbered (hf : Function.Injective f) (dfa : Dfa) (text : String) (k : Nat)
    (q : StateId) :
    (dfa.accept text k q).Renumbered f ((dfa.renumbered f).accept text k q) where
  matched_eq := rfl
  pattern_eq := dfa.pattern_renumbered q
  getD_eq := dfa.getD_creditAfter_renumbered hf text k

/-- With new numbers the same answer is given, under the new numbers. -/
theorem Replays.renumbered (hf : Function.Injective f) (h : dfa.Replays text policy outcome) :
    ∃ outcome', (dfa.renumbered f).Replays text policy outcome' ∧
      outcome.Renumbered f outcome' := by
  have haccepted := acceptedAfter_renumbered (f := f) dfa text
  have hend := endState?_renumbered (f := f) dfa text
  have hinitial := isFinal_renumbered (f := f) dfa dfa.initial
  have hstate := stateAfter?_renumbered (f := f) dfa text
  have htaken := taken_renumbered (f := f) dfa policy text
  have haccept := fun k q => accept_renumbered hf dfa text k q
  cases h with
  | first_behind hk hq =>
    exact ⟨_, .first_behind (haccepted ▸ hk) ((hstate _).trans hq), haccept _ _⟩
  | first_atEnd hnone hq =>
    exact ⟨_, .first_atEnd (haccepted.trans hnone) (hend.trans hq), haccept _ _⟩
  | longest_atEnd hq => exact ⟨_, .longest_atEnd (hend.trans hq), haccept _ _⟩
  | longest_behind hnone hk hq =>
    exact ⟨_, .longest_behind (hend.trans hnone) (haccepted ▸ hk) ((hstate _).trans hq),
      haccept _ _⟩
  | earlyExit_atEnd hall hq =>
    exact ⟨_, .earlyExit_atEnd (htaken.trans hall) (hend.trans hq), haccept _ _⟩
  | @earlyExit_behind k q hnone hk hq =>
    have hbehind : (dfa.renumbered f).Replays text .earlyExit
        ((dfa.renumbered f).accept text ((dfa.renumbered f).taken .earlyExit text) q) :=
      .earlyExit_behind (fun hall => hend.trans (hnone (htaken.symm.trans hall)))
        (by rwa [haccepted, htaken]) ((hstate k).trans hq)
    rw [htaken] at hbehind
    exact ⟨_, hbehind, haccept _ _⟩
  | initially hnone hnowhere hfinal =>
    exact ⟨_, .initially (haccepted.trans hnone) (hend.trans hnowhere) (hinitial.trans hfinal),
      rfl, dfa.pattern_renumbered dfa.initial, fun _ => rfl⟩
  | rejected hnone hnowhere hfinal =>
    exact ⟨_, .rejected (haccepted.trans hnone) (hend.trans hnowhere) (hinitial.trans hfinal),
      rfl, rfl, fun _ => rfl⟩

/-- **Other numbers change nothing but the numbers.** A scan of the automaton with new
numbers answers as before, with each capture under its new number. -/
theorem renumbered_scan (hf : Function.Injective f) (dfa : Dfa) (policy : MatchPolicy)
    (text : String) :
    (dfa.scan policy text).Renumbered f ((dfa.renumbered f).scan policy text) := by
  obtain ⟨outcome, hreplays, hsame⟩ := (dfa.replays_scan policy text).renumbered hf
  rwa [hreplays.unique ((dfa.renumbered f).replays_scan policy text)] at hsame

end Dfa

end LinePattern
