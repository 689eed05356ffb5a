/-
How many captures there can be.

A slot appears with the first character that is credited to its group or to one
with a greater number. So a scan has no slot beyond the groups of its steps
(`length_captures_scan_le`). These are the groups of the capture sets
(`taggedIn_of_determinize`), and whichever way groups are numbered, the numbers are
those below the number of groups of the pattern (`perm_groups_of_patternNfa`).
-/
import LinePattern.Proofs.Dfa.Answers
import LinePattern.Proofs.Matcher.Single
import LinePattern.Proofs.Pattern.Groups

namespace LinePattern

/-! ## The groups of a determinised automaton -/

/-- The group of the step, if it has one, is among the given. -/
def DfaStep.TaggedIn (groups : List Nat) (step : DfaStep) : Prop :=
  ∀ group, step.group = some group → group ∈ groups

theorem Nfa.mem_captures_of_groupOf? {nfa : Nfa} {e : Edge} {group : Nat}
    (h : nfa.groupOf? e = some group) : group ∈ nfa.captures.map (·.group) := by
  obtain ⟨set, hfind, rfl⟩ := Option.map_eq_some_iff.1 h
  exact List.mem_map_of_mem (List.mem_of_find?_eq_some hfind)

namespace Subset

variable {nfa : Nfa} {limit : Option Nat} {edges : List Edge} {symbols alphabet : List Symbol}
  {sets sets' : StateSets} {steps : List DfaStep} {table table' : Table} {dfa : Dfa}

theorem taggedIn_of_row (h : row nfa limit edges symbols sets = .ok (steps, sets')) :
    ∀ step ∈ steps, step.TaggedIn (nfa.captures.map (·.group)) := by
  induction symbols generalizing sets steps with
  | nil =>
    cases h
    simp
  | cons symbol symbols ih =>
    unfold row at h
    split at h
    · exact ih h
    · simp only [bind_eq_ok_iff, Prod.exists] at h
      obtain ⟨target, -, id, sets₁, -, steps, sets₂, hrest, heq⟩ := h
      cases heq
      refine List.forall_mem_cons.2 ⟨fun group hgroup => ?_, ih hrest⟩
      obtain ⟨e, -, he⟩ := List.exists_of_findSome?_eq_some hgroup
      exact Nfa.mem_captures_of_groupOf? he

theorem taggedIn_of_complete {fuel : Nat}
    (h : complete nfa limit alphabet fuel table = .ok table')
    (htable : ∀ steps ∈ table.rows, ∀ step ∈ steps, step.TaggedIn (nfa.captures.map (·.group))) :
    ∀ steps ∈ table'.rows, ∀ step ∈ steps, step.TaggedIn (nfa.captures.map (·.group)) := by
  induction fuel generalizing table with
  | zero =>
    cases h
    exact htable
  | succ fuel ih =>
    obtain ⟨sets, rows⟩ := table
    unfold complete at h
    split at h
    · cases h
      exact htable
    · simp only [bind_eq_ok_iff, Prod.exists] at h
      obtain ⟨steps, sets₁, hrow, hrest⟩ := h
      refine ih hrest fun row hmem => ?_
      rcases Array.mem_push.1 hmem with hmem | rfl
      · exact htable row hmem
      · exact taggedIn_of_row hrow

/-- A step carries a group of the nondeterministic automaton, or none. -/
theorem taggedIn_of_determinize (h : nfa.determinize limit = .ok dfa) :
    ∀ s ∈ dfa.states, ∀ step ∈ s.steps, step.TaggedIn (nfa.captures.map (·.group)) := by
  obtain ⟨table, htable, heq⟩ := bind_eq_ok_iff.1 h
  cases heq
  simp only [Subset.table, bind_eq_ok_iff, Prod.exists] at htable
  obtain ⟨start, -, id, sets, -, hcomplete⟩ := htable
  have hrows := taggedIn_of_complete hcomplete (by simp)
  intro s hs
  obtain ⟨⟨set, steps⟩, hmem, rfl⟩ := Array.mem_map.1 hs
  exact hrows steps (Array.of_mem_zip hmem).2

end Subset

namespace Dfa

variable {dfa : Dfa} {groups : List Nat} {visit : Visit}

theorem mem_of_groupInto? {id target : StateId} {group : Nat}
    (h : ∀ s ∈ dfa.states, ∀ step ∈ s.steps, step.TaggedIn groups)
    (hgroup : (dfa.state id).groupInto? target = some group) : group ∈ groups := by
  obtain ⟨step, hstep, htag⟩ := List.exists_of_findSome?_eq_some hgroup
  refine h _ (state_mem_of_mem_steps hstep) step hstep group ?_
  split at htag
  · exact htag
  · cases htag

theorem mem_of_mem_walkFrom (h : ∀ s ∈ dfa.states, ∀ step ∈ s.steps, step.TaggedIn groups)
    {id : StateId} {text : List Char} (hvisit : visit ∈ dfa.walkFrom id text) :
    ∀ group, visit.group = some group → group ∈ groups := by
  induction text generalizing id with
  | nil => cases hvisit
  | cons c rest ih =>
    unfold walkFrom at hvisit
    split at hvisit
    · cases hvisit
    · rcases List.mem_cons.1 hvisit with rfl | hvisit
      · exact fun group hgroup => mem_of_groupInto? h hgroup
      · exact ih hvisit

end Dfa

/-! ## The slots of a scan -/

theorem length_creditText_le {captures : List String} {group : Option Nat} {bound : Nat} (c : Char)
    (h : captures.length ≤ bound) (hgroup : ∀ g, group = some g → g < bound) :
    (creditText captures group c).length ≤ bound := by
  cases group with
  | none => exact h
  | some group =>
    have hlt := hgroup group rfl
    rw [creditText, List.length_modify, List.rightpad, List.length_append, List.length_replicate]
    omega

namespace Dfa

variable {dfa : Dfa} {policy : MatchPolicy} {text : String} {bound : Nat}

theorem length_creditAfter_le
    (h : ∀ visit ∈ dfa.walk text, ∀ group, visit.group = some group → group < bound) (k : Nat) :
    (dfa.creditAfter text k).length ≤ bound := by
  refine List.foldlRecOn (motive := fun captures : List String => captures.length ≤ bound) _ _
    (Nat.zero_le bound) fun captures hcaptures step hstep => ?_
  have hvisit : step.1 ∈ dfa.walk text := (List.of_mem_zip (List.mem_of_mem_take hstep)).1
  exact length_creditText_le step.2 hcaptures (h step.1 hvisit)

theorem Replays.captures_eq {outcome : Outcome} (h : dfa.Replays text policy outcome) :
    outcome.captures = [] ∨ ∃ k, outcome.captures = dfa.creditAfter text k := by
  cases h with
  | first_behind | first_atEnd | longest_atEnd | longest_behind | earlyExit_atEnd
  | earlyExit_behind => exact .inr ⟨_, rfl⟩
  | initially | rejected => exact .inl rfl

/-- A scan has no slot beyond the groups of the steps. -/
theorem length_captures_scan_le {groups : List Nat}
    (h : ∀ s ∈ dfa.states, ∀ step ∈ s.steps, step.TaggedIn groups)
    (hbound : ∀ group ∈ groups, group < bound) (policy : MatchPolicy) (text : String) :
    (dfa.scan policy text).captures.length ≤ bound := by
  rcases (dfa.replays_scan policy text).captures_eq with hnil | ⟨k, hcredit⟩
  · rw [hnil]
    exact Nat.zero_le bound
  · rw [hcredit]
    exact length_creditAfter_le (fun visit hvisit group hgroup =>
      hbound group (mem_of_mem_walkFrom h hvisit group hgroup)) k

end Dfa

/-! ## The groups of a pattern -/

variable {options : Options} {pattern : String} {e : Expr} {nfa : Nfa}

/-- Whichever way groups are numbered, the numbers are the first ones. -/
theorem CaptureSet.perm_numbers (options : Options) (e : Expr) :
    (numbers options 0 (e.closings 0)).Perm (List.range e.groups) := by
  rw [List.range_eq_range', numbers]
  split
  · exact e.perm_closings 0
  · rw [e.length_closings]

/-- Each group of the pattern has one capture set. -/
theorem perm_groups_of_patternNfa (hparse : Expr.parse pattern = .ok e)
    (hnfa : patternNfa options pattern = .ok nfa) :
    (nfa.captures.map (·.group)).Perm (List.range e.groups) := by
  have hgrammatical := (Expr.derives_of_parse hparse).grammatical
  obtain ⟨tree, htokens, hrecords⟩ := e.exists_records 0 hgrammatical
  rw [patternNfa_eq_of_tokens hparse htokens] at hnfa
  cases hnfa
  rw [(hrecords.record options 0).numbers_eq]
  exact CaptureSet.perm_numbers options e

theorem Nfa.groups_merge_singleton (nfa : Nfa) :
    (Nfa.merge [nfa]).captures.map (·.group) = nfa.captures.map (·.group) := by
  have hcaptures : (Nfa.merge [nfa]).captures = nfa.captures.map (·.shift blank.size) :=
    captures_addMember blank nfa 0
  rw [hcaptures, List.map_map]
  rfl

namespace CompiledPattern

variable {compiled : CompiledPattern}

/-- **There is no slot beyond the groups of the pattern.** A pattern that compiles
can be read. Whatever the options and the text, the captures have at most as many
slots as the pattern has groups, and a number that is not below the number of
groups has no capture. -/
theorem length_captures_le (hcompile : compile options pattern = .ok compiled) :
    ∃ e, Expr.parse pattern = .ok e ∧ ∀ text : String,
      (compiled.verdict text).captures.length ≤ e.groups ∧
        ∀ group, e.groups ≤ group → (compiled.verdict text).capture? group = none := by
  obtain ⟨e, hparse⟩ := exists_parse_of_compile hcompile
  obtain ⟨nfa, hnfa, -⟩ := exists_patternNfa options hparse
  have htagged := Subset.taggedIn_of_determinize (exists_determinize_of_compile hnfa hcompile)
  rw [Nfa.groups_merge_singleton] at htagged
  have hlength : ∀ text, (compiled.verdict text).captures.length ≤ e.groups := by
    intro text
    rw [captures_verdict]
    refine Dfa.length_captures_scan_le htagged (fun group hgroup => ?_) _ text
    exact List.mem_range.1 ((perm_groups_of_patternNfa hparse hnfa).mem_iff.1 hgroup)
  exact ⟨e, hparse, fun text => ⟨hlength text, fun group hgroup =>
    List.getElem?_eq_none (Nat.le_trans (hlength text) hgroup)⟩⟩

/-- The second of two groups takes a slot, also for a match without the first. -/
theorem length_captures_le_second :
    ∃ compiled, compile {} "(a)|(b)" = .ok compiled ∧
      (compiled.verdict "b").captures = ["", "b"] ∧
      (compiled.verdict "b").captures.length ≤ 2 ∧ (compiled.verdict "b").capture? 2 = none := by
  have hread : ((Expr.parse "(a)|(b)").toOption.any fun e => e.groups == 2) = true := by
    decide +kernel
  have hrun : ((compile {} "(a)|(b)").toOption.any fun compiled =>
      (compiled.verdict "b").captures == ["", "b"]) = true := by
    decide +kernel
  obtain ⟨compiled, hcompile, hcaptures⟩ := exists_ok_of_any hrun
  obtain ⟨e, hparse, hslots⟩ := length_captures_le hcompile
  have hgroups : e.groups = 2 := by
    rw [hparse] at hread
    exact eq_of_beq hread
  obtain ⟨hlength, hnone⟩ := hslots "b"
  rw [hgroups] at hlength hnone
  exact ⟨compiled, hcompile, eq_of_beq hcaptures, hlength, hnone 2 (Nat.le_refl 2)⟩

end CompiledPattern

end LinePattern
