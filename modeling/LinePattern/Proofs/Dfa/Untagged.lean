/-
Groups and the deterministic automaton.

A group ends up as a tag on steps, and nowhere else. Which sets of states there
are, how they are numbered, and which of them accept for which pattern is told by
the transitions, so determinising an automaton without its groups gives the same
automaton without its tags (`determinize_withoutGroups`).

A scan looks at a tag when it credits a character, and under the early exit when
it decides whether to go on. So without the tags it goes the same way, and stops
at the same state except under the early exit.
-/
import LinePattern.Proofs.Dfa.Limit
import LinePattern.Proofs.Dfa.Place
import LinePattern.Proofs.Pattern.WithoutGroups

namespace LinePattern

/-! ## Determinisation -/

/-- The step without its tag. -/
def DfaStep.untagged (step : DfaStep) : DfaStep := { step with group := none }

/-- The state without the tags of its steps. -/
def DfaState.untagged (s : DfaState) : DfaState := { s with steps := s.steps.map (·.untagged) }

/-- The automaton without its tags. -/
def Dfa.untagged (dfa : Dfa) : Dfa := { dfa with states := dfa.states.map (·.untagged) }

theorem Nfa.explore_withoutGroups (nfa : Nfa) (stack : List StateId) (seen : SparseSet) :
    nfa.withoutGroups.explore stack seen = nfa.explore stack seen := by
  fun_induction explore nfa stack seen with
  | case1 seen => rw [explore]
  | case2 seen id rest hstate =>
    have hstate' : nfa.withoutGroups.states[id]? = none := hstate
    rw [explore, hstate']
  | case3 seen id rest s hstate hpush =>
    have hstate' : nfa.withoutGroups.states[id]? = some s := hstate
    rw [explore, hstate']
    dsimp only
    split
    · rfl
    · next hsome =>
      rw [hpush] at hsome
      cases hsome
  | case4 seen id rest s hstate stack seen' hpush ih =>
    have hstate' : nfa.withoutGroups.states[id]? = some s := hstate
    rw [explore, hstate']
    dsimp only
    split
    · next hnone =>
      rw [hpush] at hnone
      cases hnone
    · next hsome =>
      rw [hpush] at hsome
      cases hsome
      exact ih

theorem Nfa.closure?_withoutGroups (nfa : Nfa) (seeds : List StateId) :
    nfa.withoutGroups.closure? seeds = nfa.closure? seeds := by
  unfold closure? closureWith?
  simp only [explore_withoutGroups]
  rfl

namespace Subset

variable {nfa : Nfa} {limit : Option Nat} {edges : List Edge}

/-- The table without the tags of its rows. -/
def Table.untagged (table : Table) : Table :=
  { table with rows := table.rows.map fun steps => steps.map (·.untagged) }

theorem closure_withoutGroups (nfa : Nfa) (seeds : List StateId) :
    closure nfa.withoutGroups seeds = closure nfa seeds := by
  rw [closure, closure, Nfa.closure?_withoutGroups]

/-- Without groups no step of a row is tagged, and nothing else changes. -/
theorem row_withoutGroups (symbols : List Symbol) (sets : StateSets) :
    row nfa.withoutGroups limit edges symbols sets =
      (row nfa limit edges symbols sets).map fun (steps, sets) =>
        (steps.map (·.untagged), sets) := by
  induction symbols generalizing sets with
  | nil => rfl
  | cons symbol symbols ih =>
    unfold row
    split
    · exact ih sets
    · next e more hedges =>
      rw [closure_withoutGroups]
      cases closure nfa (e.target :: more.map (·.target)) with
      | error fault => rfl
      | ok target =>
        simp only [ok_bind]
        cases intern limit sets target with
        | error fault => rfl
        | ok interned =>
          obtain ⟨id, sets'⟩ := interned
          have huntagged : (e :: more).findSome? nfa.withoutGroups.groupOf? = none :=
            List.findSome?_eq_none_iff.2 fun _ _ => rfl
          simp only [ok_bind, ih sets', huntagged]
          cases row nfa limit edges symbols sets' <;> rfl

theorem complete_withoutGroups (alphabet : List Symbol) (fuel : Nat) (table : Table) :
    complete nfa.withoutGroups limit alphabet fuel table.untagged =
      (complete nfa limit alphabet fuel table).map Table.untagged := by
  induction fuel generalizing table with
  | zero => rfl
  | succ fuel ih =>
    obtain ⟨sets, rows⟩ := table
    have hsize : (rows.map fun steps => steps.map (·.untagged)).size = rows.size := Array.size_map
    simp only [Table.untagged, complete, hsize]
    cases sets.toArray[rows.size]? with
    | none => rfl
    | some set =>
      have hedges : edgesFrom nfa.withoutGroups set = edgesFrom nfa set := rfl
      simp only [hedges, row_withoutGroups]
      cases row nfa limit (edgesFrom nfa set) alphabet sets with
      | error fault => rfl
      | ok completed =>
        obtain ⟨steps, sets'⟩ := completed
        have hpush : (rows.map fun steps => steps.map (·.untagged)).push (steps.map (·.untagged)) =
            (rows.push steps).map fun steps => steps.map (·.untagged) := Array.map_push.symm
        simp only [Except.map, ok_bind, hpush]
        exact ih ⟨sets', rows.push steps⟩

theorem table_withoutGroups (nfa : Nfa) (limit : Option Nat) :
    table nfa.withoutGroups limit = (table nfa limit).map Table.untagged := by
  have hinitial : nfa.withoutGroups.initial = nfa.initial := rfl
  unfold table
  rw [closure_withoutGroups, hinitial]
  cases closure nfa [nfa.initial] with
  | error fault => rfl
  | ok start =>
    simp only [ok_bind]
    cases intern limit .empty start with
    | error fault => rfl
    | ok interned =>
      have hempty : Table.untagged ⟨interned.2, #[]⟩ = ⟨interned.2, #[]⟩ := by
        simp [Table.untagged]
      simp only [ok_bind]
      rw [← complete_withoutGroups, hempty]
      rfl

/-- **Groups are tags.** Without groups an automaton has the same deterministic
one, without its tags. -/
theorem determinize_withoutGroups (nfa : Nfa) (limit : Option Nat) :
    nfa.withoutGroups.determinize limit = (nfa.determinize limit).map Dfa.untagged := by
  unfold Nfa.determinize
  rw [table_withoutGroups]
  cases table nfa limit with
  | error fault => rfl
  | ok table =>
    simp only [Except.map, ok_bind, Table.untagged, Dfa.untagged, Array.zip_map_right, Array.map_map]
    rfl

end Subset

/-! ## Scans -/

namespace DfaState

variable {s : DfaState}

theorem next?_untagged (s : DfaState) (symbol : Symbol) :
    s.untagged.next? symbol = s.next? symbol := by
  simp [next?, untagged, DfaStep.untagged, List.find?_map, Function.comp_def]

theorem nextExcluding?_untagged (s : DfaState) (c : Char) :
    s.untagged.nextExcluding? c = s.nextExcluding? c := by
  simp [nextExcluding?, exclusions, untagged, DfaStep.untagged, List.find?_map, List.filter_map,
    Function.comp_def]

theorem follow?_untagged (s : DfaState) (c : Char) : s.untagged.follow? c = s.follow? c := by
  simp only [follow?, next?_untagged, nextExcluding?_untagged]

end DfaState

namespace Dfa

variable {dfa : Dfa}

theorem state_untagged (dfa : Dfa) (id : StateId) :
    dfa.untagged.state id = (dfa.state id).untagged := by
  simp only [state, untagged, Array.getD_eq_getD_getElem?, Array.getElem?_map]
  cases dfa.states[id]? <;> rfl

theorem findNext_untagged (dfa : Dfa) (id : StateId) (c : Char) :
    dfa.untagged.findNext id c = dfa.findNext id c := by
  rw [findNext, state_untagged, DfaState.follow?_untagged, findNext]

theorem acceptsAtEnd_untagged (dfa : Dfa) (id : StateId) :
    dfa.untagged.acceptsAtEnd id = dfa.acceptsAtEnd id := by
  unfold acceptsAtEnd
  rw [state_untagged, DfaState.next?_untagged]
  simp only [state_untagged]
  rfl

theorem accepts_untagged (dfa : Dfa) (id : StateId) (text : List Char) :
    dfa.untagged.accepts id text = dfa.accepts id text := by
  induction text generalizing id with
  | nil => exact acceptsAtEnd_untagged dfa id
  | cons c rest ih =>
    simp only [accepts, findNext_untagged, state_untagged, ih]
    rfl

end Dfa

/-- Where a scan stops, without what it has credited. -/
def Stop.spot (stop : Stop) : Place × StateId := (stop.place, stop.scan.state)

namespace Scan

variable {dfa : Dfa} {policy : MatchPolicy} {scan scan' : Scan} {last last' : Option Stop}

theorem spot_stopAt?_untagged (dfa : Dfa) (place : Place) (h : scan'.state = scan.state) :
    (stopAt? dfa.untagged place scan').map Stop.spot = (stopAt? dfa place scan).map Stop.spot := by
  simp only [stopAt?, h, Dfa.state_untagged, Option.map_if, Stop.spot]
  rfl

theorem spot_stopAtEnd?_untagged (h : scan'.state = scan.state) :
    (scan'.stopAtEnd? dfa.untagged).map Stop.spot = (scan.stopAtEnd? dfa).map Stop.spot := by
  unfold stopAtEnd? behindEnd?
  rw [h, Dfa.state_untagged, DfaState.next?_untagged]
  cases (dfa.state scan.state).next? .endOfLine with
  | none => rfl
  | some target => exact spot_stopAt?_untagged dfa .atEnd rfl

/-- From the same state a scan stops where it stops with the tags, unless it exits
early. -/
theorem spot_stopFrom_untagged (hpolicy : policy ≠ .earlyExit)
    (hlast : last'.map Stop.spot = last.map Stop.spot) (h : scan'.state = scan.state)
    (seen text : List Char) :
    (stopFrom dfa.untagged policy last' seen scan' text).map Stop.spot =
      (stopFrom dfa policy last seen scan text).map Stop.spot := by
  induction text generalizing last last' seen scan scan' with
  | nil => simp [stopFrom, Option.map_or, hlast, spot_stopAtEnd?_untagged h]
  | cons c rest ih =>
    unfold stopFrom
    rw [Dfa.findNext_untagged, h]
    cases dfa.findNext scan.state c with
    | none => exact hlast
    | some target =>
      have hmove : (scan'.move dfa.untagged target c).state = (scan.move dfa target c).state := by
        rw [state_move, state_move]
      have hhere := spot_stopAt?_untagged dfa (.behind (seen ++ [c])) hmove
      have hsome := congrArg Option.isSome hhere
      simp only [Option.isSome_map] at hsome
      simp only [hpolicy, decide_false, Bool.false_and, Bool.false_eq_true, if_false, hsome]
      split
      · exact hhere
      · refine ih ?_ hmove (seen ++ [c])
        simp [Option.map_or, hhere, hlast]

theorem spot_stop?_untagged (hpolicy : policy ≠ .earlyExit) (text : List Char) :
    (stop? dfa.untagged policy text).map Stop.spot = (stop? dfa policy text).map Stop.spot := by
  have hstart : (start dfa.untagged).state = (start dfa).state := rfl
  simp [stop?, Option.map_or, spot_stopFrom_untagged hpolicy rfl hstart,
    spot_stopAt?_untagged dfa (.behind []) hstart]

end Scan

namespace Dfa

variable {dfa : Dfa} {policy : MatchPolicy}

theorem matched_scan_untagged (dfa : Dfa) (policy : MatchPolicy) (text : String) :
    (dfa.untagged.scan policy text).matched = (dfa.scan policy text).matched := by
  rw [matched_scan, matched_scan, state_untagged]
  exact congrArg _ (accepts_untagged dfa dfa.initial text.toList)

theorem pattern_scan (dfa : Dfa) (policy : MatchPolicy) (text : String) :
    (dfa.scan policy text).pattern =
      ((Scan.stop? dfa policy text.toList).map Stop.spot).bind fun spot =>
        (dfa.state spot.2).pattern := by
  rw [(dfa.scan_agrees policy text).2]
  cases Scan.stop? dfa policy text.toList <;> rfl

theorem pattern_scan_untagged (hpolicy : policy ≠ .earlyExit) (text : String) :
    (dfa.untagged.scan policy text).pattern = (dfa.scan policy text).pattern := by
  rw [pattern_scan, pattern_scan, Scan.spot_stop?_untagged hpolicy]
  simp only [state_untagged]
  rfl

end Dfa

/-! ## The whole way -/

/-- **Capture bookkeeping is transparent.** Streams that are assembled are assembled
without their capture tokens as well, and then the automaton of them all is
determinised to the same one without its tags, or fails as before. Its scans find a
match of the same texts under every policy, and for the same pattern, except under the
early exit. -/
theorem Nfa.determinize_untagged {options : Options} {streams : List (List Token)}
    {nfas : List Nfa}
    (h : List.Forall₂ (fun tokens nfa => Nfa.ofTokens options tokens = .ok nfa) streams nfas) :
    ∃ nfas', List.Forall₂ (fun tokens nfa => Nfa.ofTokens options tokens = .ok nfa)
        (streams.map Token.withoutGroups) nfas' ∧
      ∀ limit, (merge nfas').determinize limit = ((merge nfas).determinize limit).map Dfa.untagged ∧
        ∀ dfa, (merge nfas).determinize limit = .ok dfa → ∀ policy text,
          (dfa.untagged.scan policy text).matched = (dfa.scan policy text).matched ∧
          (policy ≠ .earlyExit →
            (dfa.untagged.scan policy text).pattern = (dfa.scan policy text).pattern) := by
  have hstreams : List.Forall₂ (fun tokens nfa => Nfa.ofTokens options tokens = .ok nfa)
      (streams.map Token.withoutGroups) (nfas.map withoutGroups) := by
    rw [List.forall₂_map_left_iff, List.forall₂_map_right_iff]
    exact h.imp fun _ _ => TokenTree.ofTokens_withoutGroups
  refine ⟨_, hstreams, fun limit => ⟨?_, fun dfa _ policy text => ⟨?_, fun hpolicy => ?_⟩⟩⟩
  · rw [← withoutGroups_merge, Subset.determinize_withoutGroups]
  · exact dfa.matched_scan_untagged policy text
  · exact Dfa.pattern_scan_untagged hpolicy text

/-- A group that is closed twice, and one in a repetition. -/
theorem Nfa.determinize_untagged_two : ∃ nfas nfas',
    List.Forall₂ (fun tokens nfa => Nfa.ofTokens {} tokens = .ok nfa)
      [[.literal (.char 'a'), .capture 1, .capture 0], [.literal .digit, .capture 0, .star]] nfas ∧
    List.Forall₂ (fun tokens nfa => Nfa.ofTokens {} tokens = .ok nfa)
      [[.literal (.char 'a')], [.literal .digit, .star]] nfas' ∧
    (merge nfas').determinize none = ((merge nfas).determinize none).map Dfa.untagged := by
  have h : List.Forall₂ (fun tokens nfa => Nfa.ofTokens {} tokens = .ok nfa)
      [[.literal (.char 'a'), .capture 1, .capture 0], [.literal .digit, .capture 0, .star]]
      [((ofSymbol (.char 'a')).recordCapture 1).recordCapture 0,
        ((ofSymbol .digit).recordCapture 0).star] :=
    .cons rfl (.cons rfl .nil)
  obtain ⟨nfas', hnfas', hdeterminize⟩ := determinize_untagged h
  exact ⟨_, nfas', h, hnfas', (hdeterminize none).1⟩

end LinePattern
