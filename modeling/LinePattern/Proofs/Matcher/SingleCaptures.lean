/-
What the captures of a single pattern mean.

A scan goes along one word, and knows of no run. What it credits to a group is
told by all the edges that lead to the same states: where they do not agree on
their group, the scan takes that of the first. So a capture can hold characters
that no accepting run reads in the group.

Where they agree (`Nfa.AgreesAt`), every run along the word reads each character
in the group that it is credited to (`Nfa.Credits.getD_reverse`), and the
captures are those of an accepting run. Whether the edges of a pattern agree
everywhere is read off the sets of its automaton (`Nfa.agreesAt_of_table`).
-/
import LinePattern.Proofs.Matcher.SetCaptures
import LinePattern.Proofs.Nfa.Run

namespace LinePattern

open Subset

/-! ## The group of a step -/

theorem findSome?_eq_of_forall {α β : Type} {xs : List α} {f : α → Option β} {b : Option β}
    (h : ∀ x ∈ xs, f x = none ∨ f x = b) (hmem : ∃ x ∈ xs, f x = b) : xs.findSome? f = b := by
  obtain ⟨x, hx, hfx⟩ := hmem
  cases hfind : xs.findSome? f with
  | none => rw [← hfx, List.findSome?_eq_none_iff.1 hfind x hx]
  | some y =>
    obtain ⟨x', hx', hfx'⟩ := List.exists_of_findSome?_eq_some hfind
    rcases h x' hx' with hnone | hsome
    · rw [hnone] at hfx'
      cases hfx'
    · rw [← hfx', hsome]

namespace Nfa

variable {nfa : Nfa} {v w : List Symbol} {s : Symbol} {e : Edge}

/-- Behind the word, the edges that lead where those with the label do belong to
one group, or none of them to any. -/
def AgreesAt (nfa : Nfa) (v : List Symbol) (s : Symbol) : Prop :=
  ∀ e f, nfa.Leaves v e → nfa.Leaves v f → e.symbol = s →
    nfa.reach (v ++ [f.symbol]) = nfa.reach (v ++ [s]) → nfa.groupOf? f = nfa.groupOf? e

theorem mem_edgesAfter (hwf : nfa.WellFormed) :
    e ∈ nfa.edgesAfter v s ↔ nfa.Leaves v e ∧ e.symbol = s := by
  rw [edgesAfter, mem_along, (lists_statesOf hwf v).mem_iff]
  constructor
  · rintro ⟨hsource, rfl, hs⟩
    exact ⟨⟨hsource, hs⟩, rfl⟩
  · rintro ⟨⟨hsource, hs⟩, rfl⟩
    exact ⟨hsource, rfl, hs⟩

theorem creditFor_eq (hwf : nfa.WellFormed) (hagrees : nfa.AgreesAt v s) (he : nfa.Leaves v e)
    (hs : e.symbol = s) : nfa.creditFor v s = nfa.groupOf? e := by
  have hedge : e ∈ nfa.edgesAfter v s := (mem_edgesAfter hwf).2 ⟨he, hs⟩
  have hgroup : ∀ t, nfa.reach (v ++ [t]) = nfa.reach (v ++ [s]) →
      ∀ f ∈ nfa.edgesAfter v t, nfa.groupOf? f = nfa.groupOf? e := by
    intro t ht f hf
    obtain ⟨hleaves, rfl⟩ := (mem_edgesAfter hwf).1 hf
    exact hagrees e f he hleaves hs ht
  refine findSome?_eq_of_forall (fun t _ => ?_) ⟨s, ?_, ?_⟩
  · rw [creditVia]
    split
    · next ht =>
      cases hfind : (nfa.edgesAfter v t).findSome? nfa.groupOf? with
      | none => exact .inl rfl
      | some group =>
        obtain ⟨f, hf, hfgroup⟩ := List.exists_of_findSome?_eq_some hfind
        exact .inr (by rw [← hfgroup, hgroup t ht f hf])
    · exact .inl rfl
  · exact mem_alphabet.2 ⟨_, _, hs ▸ he.step⟩
  · rw [creditVia, if_pos rfl]
    exact findSome?_eq_of_forall (fun f hf => .inr (hgroup s rfl f hf)) ⟨e, hedge, rfl⟩

/-- The edges agree at every label that a scan takes in the text. -/
def AgreesOn (nfa : Nfa) (text : List Char) : Prop :=
  ∀ u w v s, u <+: text → nfa.Course u w → v ++ [s] <+: w → nfa.AgreesAt v s

end Nfa

/-! ## The slots of a run -/

theorem Slots.getD_credit (slots : Slots) (group other : Nat) (c : Char) :
    (slots.credit group c).getD other [] =
      if group = other then c :: slots.getD other [] else slots.getD other [] :=
  getD_modify_rightpad slots group other (c :: ·) []

theorem Slots.getD_creditTo (slots : Slots) (group : Option Nat) (other : Nat) (c : Char) :
    (slots.creditTo group c).getD other [] =
      if group = some other then c :: slots.getD other [] else slots.getD other [] := by
  cases group with
  | none => rfl
  | some group => simp only [creditTo, getD_credit, Option.some.injEq]

namespace Nfa

variable {nfa : Nfa} {u : List Char} {w : List Symbol} {slots : Slots} {es : List Edge}
  {q : StateId}

/-- Where the edges agree along the word, each slot holds what a run along the
word reads in its group. -/
theorem Credits.getD_reverse (hwf : nfa.WellFormed) (h : nfa.Credits u w slots)
    (hes : es.map (·.symbol) = w) (hrun : nfa.Run nfa.initial es q)
    (hagrees : ∀ v s, v ++ [s] <+: w → nfa.AgreesAt v s) (group : Nat) :
    (slots.getD group []).reverse = nfa.consumed group es u ∧ es.length = u.length := by
  induction h generalizing es q with
  | nil =>
    obtain rfl := List.map_eq_nil_iff.1 hes
    exact ⟨rfl, rfl⟩
  | @concat u w slots c s _ ih =>
    obtain ⟨before, last, rfl, rfl, hlast⟩ := List.map_eq_append_iff.1 hes
    obtain ⟨e, rfl, rfl⟩ := List.map_eq_singleton_iff.1 hlast
    obtain ⟨r, hbefore, -⟩ := hrun.split
    obtain ⟨hslots, hlength⟩ := ih rfl hbefore fun v s hv =>
      hagrees v s (hv.trans (List.prefix_append _ _))
    have hcredit := creditFor_eq hwf (hagrees _ _ List.prefix_rfl) hrun.leaves rfl
    refine ⟨?_, by rw [List.length_append, List.length_append, hlength]; rfl⟩
    rw [consumed_concat hlength, Slots.getD_creditTo, hcredit, ← hslots]
    split
    · rw [List.reverse_cons]
    · rw [List.append_nil]

end Nfa

/-! ## Patterns whose edges agree -/

namespace Nfa

variable {nfa : Nfa} {set : List StateId} {e f : Edge}

/-- Whether the edges out of the states that lead to the same states agree on
their group. -/
def agrees (nfa : Nfa) (set : List StateId) : Bool :=
  let edges := edgesFrom nfa set
  let target (s : Symbol) := nfa.closure? ((along s edges).map (·.target))
  edges.all fun e => edges.all fun f =>
    target f.symbol ≠ target e.symbol || nfa.groupOf? f = nfa.groupOf? e

theorem groupOf?_eq_of_agrees (h : nfa.agrees set = true) (he : e ∈ edgesFrom nfa set)
    (hf : f ∈ edgesFrom nfa set)
    (htarget : nfa.closure? ((along f.symbol (edgesFrom nfa set)).map (·.target)) =
      nfa.closure? ((along e.symbol (edgesFrom nfa set)).map (·.target))) :
    nfa.groupOf? f = nfa.groupOf? e := by
  simpa [htarget] using List.all_eq_true.1 (List.all_eq_true.1 h e he) f hf

/-- The sets of the deterministic automaton are all there is to look at. -/
theorem agreesAt_of_table (hwf : nfa.WellFormed) {table : Subset.Table}
    (htable : Subset.table nfa none = .ok table)
    (hall : table.sets.toArray.all nfa.agrees = true) (v : List Symbol) (s : Symbol) :
    nfa.AgreesAt v s := by
  rintro e f he hf rfl hreach
  have hdeterminize : nfa.determinize none = .ok _ := bind_eq_ok_iff.2 ⟨table, htable, rfl⟩
  obtain ⟨table', htable', hnumbered⟩ := exists_table hwf hdeterminize
  rw [htable] at htable'
  cases htable'
  -- The word leads to one of the sets, and the edges leave states of it.
  obtain ⟨set, hset, hlists⟩ : ∃ set ∈ table.sets.toArray, nfa.Lists v set := by
    have hrun := hnumbered.run?_initial hwf v
    split at hrun
    · obtain ⟨set, hset, hlists⟩ := hrun
      exact ⟨set, Array.mem_of_getElem? hset, hlists⟩
    · exact absurd he.mem_reach (Set.eq_empty_iff_forall_notMem.1 hrun _)
  have hedge : ∀ {e}, nfa.Leaves v e → e ∈ edgesFrom nfa set := fun he =>
    mem_edgesFrom.2 ⟨hlists.mem_iff.2 he.mem_reach, he.step⟩
  have htarget : nfa.closure? ((along f.symbol (edgesFrom nfa set)).map (·.target)) =
      nfa.closure? ((along e.symbol (edgesFrom nfa set)).map (·.target)) := by
    obtain ⟨first, hfirst, -⟩ := closure?_eq_some hwf (lt_size_of_mem_targets hwf)
    obtain ⟨second, hsecond, -⟩ := closure?_eq_some hwf (lt_size_of_mem_targets hwf)
    have hlists₁ := lists_concat hwf hlists hfirst
    have hlists₂ := lists_concat hwf hlists hsecond
    have hsame : first = second := hlists₁.sorted.eq_of_mem_iff hlists₂.sorted fun q => by
      rw [hlists₁.mem_iff, hreach, hlists₂.mem_iff]
    rw [hfirst, hsecond, hsame]
  exact groupOf?_eq_of_agrees (Array.all_eq_true_iff_forall_mem.1 hall set hset) (hedge he)
    (hedge hf) htarget

end Nfa

/-! ## The captures of a match -/

/-- The characters up to a place. -/
def Place.consumed (text : List Char) : Place → List Char
  | behind u => u
  | atEnd => text

namespace Nfa

variable {nfa : Nfa} {text : List Char} {place : Place} {w : List Symbol} {slots : Slots}
  {es : List Edge} {q : StateId}

/-- A run that accepts a text at a place of it. -/
structure RunTo (nfa : Nfa) (text : List Char) (place : Place) (es : List Edge) : Prop where
  accepts : ∃ f ∈ nfa.finals, nfa.Run nfa.initial es f
  reads : List.Forall₂ Symbol.Reads (es.map (·.symbol)) (place.glyphs text)

theorem Run.mem_edgesFrom_closure? (hwf : nfa.WellFormed) {p : StateId} {e f : Edge}
    (h : nfa.Run p (e :: f :: es) q) :
    e ∈ nfa.edges ∧ ∃ set, nfa.closure? [e.target] = some set ∧ f ∈ edgesFrom nfa set := by
  cases h with
  | cons _ hs hrest =>
    cases hrest with
    | cons hpath hs' _ =>
      obtain ⟨set, hset, -, hmem⟩ :=
        closure?_eq_some hwf (List.forall_mem_singleton.2 (hwf.target_lt hs))
      exact ⟨mem_edges.2 hs, set, hset, mem_edgesFrom.2
        ⟨(hmem _).2 ⟨_, List.mem_singleton_self _, hpath⟩, hs'⟩⟩

theorem CreditsTo.getD_reverse (hwf : nfa.WellFormed) (h : nfa.CreditsTo text place w slots)
    (hcourse : nfa.CourseTo text place w) (hes : es.map (·.symbol) = w)
    (hrun : nfa.Run nfa.initial es q) (hagrees : nfa.AgreesOn text) (group : Nat) :
    (slots.getD group []).reverse = nfa.consumed group es (place.consumed text) := by
  cases h with
  | @behind u w slots hcredits =>
    cases hcourse with
    | behind hu hcourse =>
      exact (hcredits.getD_reverse hwf hes hrun (hagrees u w · · hu hcourse) group).1
  | @atEnd w slots hcredits =>
    obtain ⟨-, hcourse, -⟩ := courseTo_endOfLine_iff.1 hcourse
    obtain ⟨before, last, rfl, hbefore, hlast⟩ := List.map_eq_append_iff.1 hes
    obtain ⟨e, rfl, -⟩ := List.map_eq_singleton_iff.1 hlast
    obtain ⟨r, hrun, -⟩ := hrun.split
    obtain ⟨hslots, hlength⟩ :=
      hcredits.getD_reverse hwf hbefore hrun (hagrees text w · · List.prefix_rfl hcourse) group
    rw [hslots, Place.consumed, consumed_concat_nil hlength]

end Nfa

namespace CompiledPattern

variable {options : Options} {pattern : String} {nfa : Nfa} {compiled : CompiledPattern}
  {text : String}

theorem getD_capture? {policy : MatchPolicy} (hpolicy : compiled.policy = policy)
    (hexit : policy ≠ .earlyExit) {stop : Stop}
    (hstop : Scan.stop? compiled.dfa policy text.toList = some stop) (group : Nat) :
    ((compiled.verdict text).capture? group).getD "" =
      String.ofList (stop.scan.slots.getD group []).reverse := by
  subst hpolicy
  have hcaptures : (compiled.verdict text).captures = stop.scan.slots.texts :=
    Verdict.captures_of_stop? _ hexit hstop
  rw [Verdict.capture?, hcaptures, Slots.texts, List.getElem?_map, List.getD_eq_getElem?_getD]
  cases stop.scan.slots[group]? <;> rfl

/-- **Where edges agree, captures are those of an accepting run.** Under a policy
other than the early exit, let a pattern match a text, where the edges that lead to
the same states agree on their group behind every word that a scan takes in the text.
Then there is an accepting run that reads the text up to the place where the scan
stops, and the capture of every group is what this run consumes in the group. -/
theorem captures_of_run {policy : MatchPolicy} (hpolicy : options.policy = some policy)
    (hexit : policy ≠ .earlyExit) (hnfa : patternNfa options pattern = .ok nfa)
    (hcompile : compile options pattern = .ok compiled) (hagrees : nfa.AgreesOn text.toList)
    (hmatched : (compiled.verdict text).matched = true) :
    ∃ stop es, Scan.stop? compiled.dfa policy text.toList = some stop ∧
      nfa.RunTo text.toList stop.place es ∧
      ∀ group, ((compiled.verdict text).capture? group).getD "" =
        String.ofList (nfa.consumed group es (stop.place.consumed text.toList)) := by
  have hwf := wellFormed_of_patternNfa hnfa
  have hwf' := Nfa.wellFormed_merge_singleton hwf
  obtain ⟨sets, hnumbered, hown⟩ := exists_numbered hnfa hcompile
  rw [Options.policyOr, hpolicy, Option.getD_some] at hown
  rw [matched_verdict, (compiled.dfa.scan_agrees compiled.policy text).1, hown] at hmatched
  obtain ⟨stop, hstop⟩ := Option.isSome_iff_exists.1 hmatched
  have haccepts := (Scan.settled_of_stop? hstop).toAccepts
  obtain ⟨w, hw, hcourse, -⟩ := hnumbered.exists_word hwf' haccepts
  rw [Nfa.language_merge_singleton hwf] at hw
  have hcourse' := (Nfa.courseTo_merge_singleton hwf).1 hcourse
  have hslots := Subset.creditsTo_merge (List.forall_mem_singleton.2 hwf)
    (List.forall_mem_singleton.2 (capturesSteps_of_patternNfa hnfa)) hnumbered
    (List.getElem?_cons_zero (a := nfa)) (fun other h => by cases h) hcourse
    (Nfa.readable_of_mem_language hw) haccepts.at_eq
  obtain ⟨f, hf, hpath⟩ := hw
  obtain ⟨es, hes, hrun⟩ := Nfa.path_iff_exists_run.1 hpath
  refine ⟨stop, es, hstop, ⟨⟨f, hf, hrun⟩, hes ▸ hcourse'.reads⟩, fun group => ?_⟩
  rw [getD_capture? hown hexit hstop,
    hslots.getD_reverse hwf hcourse' hes hrun hagrees group]

/-- A group around a repetition, and one inside a repeated part. The inner one
takes part in one of two rounds. -/
theorem captures_of_run_nested :
    ∃ nfa compiled stop es,
      patternNfa { policy := some .longest } "(\\d+)-(a(b)?)*$" = .ok nfa ∧
      compile { policy := some .longest } "(\\d+)-(a(b)?)*$" = .ok compiled ∧
      (compiled.verdict "12-aba").captures = ["12", "aa", "b"] ∧
      Scan.stop? compiled.dfa .longest "12-aba".toList = some stop ∧
      nfa.RunTo "12-aba".toList stop.place es ∧
      ∀ group, ((compiled.verdict "12-aba").capture? group).getD "" =
        String.ofList (nfa.consumed group es (stop.place.consumed "12-aba".toList)) := by
  have hrun : ((compile { policy := some .longest } "(\\d+)-(a(b)?)*$").toOption.any
      fun compiled => (compiled.verdict "12-aba").matched &&
        (compiled.verdict "12-aba").captures == ["12", "aa", "b"]) = true := by
    decide +kernel
  have hedges : ((patternNfa { policy := some .longest } "(\\d+)-(a(b)?)*$").toOption.any
      fun nfa => (Subset.table nfa none).toOption.any
        (·.sets.toArray.all nfa.agrees)) = true := by
    decide +kernel
  obtain ⟨compiled, hcompile, hanswer⟩ := exists_ok_of_any hrun
  obtain ⟨nfa, hnfa, htables⟩ := exists_ok_of_any hedges
  obtain ⟨table, htable, hall⟩ := exists_ok_of_any htables
  obtain ⟨hmatched, hcaptures⟩ := Bool.and_eq_true_iff.1 hanswer
  obtain ⟨stop, es, hstop, hes, hgroups⟩ := captures_of_run rfl (by decide) hnfa hcompile
    (fun _ _ v s _ _ _ => Nfa.agreesAt_of_table (wellFormed_of_patternNfa hnfa) htable hall v s)
    hmatched
  exact ⟨nfa, compiled, stop, es, hnfa, hcompile, eq_of_beq hcaptures, hstop, hes, hgroups⟩

/-- A capture of no run. The text is matched by `ac`, which has no group. The
scan takes `a` for both ways at once, and credits it to the group that only the
other one goes through: no run reads `a` in the group and `c` behind it. -/
theorem captures_without_run :
    ∃ nfa compiled,
      patternNfa { policy := some .longest } "(a)b|ac" = .ok nfa ∧
      compile { policy := some .longest } "(a)b|ac" = .ok compiled ∧
      (Scan.stop? compiled.dfa .longest ['a', 'c']).map (·.place) = some (.behind ['a', 'c']) ∧
      (compiled.verdict "ac").captures = ["a"] ∧
      ¬ ∃ es, nfa.RunTo ['a', 'c'] (.behind ['a', 'c']) es ∧
        ∀ group, ((compiled.verdict "ac").capture? group).getD "" =
          String.ofList (nfa.consumed group es ['a', 'c']) := by
  have hrun : ((compile { policy := some .longest } "(a)b|ac").toOption.any fun compiled =>
      (Scan.stop? compiled.dfa .longest ['a', 'c']).map (·.place) == some (.behind ['a', 'c']) &&
        (compiled.verdict "ac").captures == ["a"]) = true := by
    decide +kernel
  have hbehind : ((patternNfa { policy := some .longest } "(a)b|ac").toOption.any fun nfa =>
      nfa.edges.all fun e => nfa.groupOf? e != some 0 ||
        ((nfa.closure? [e.target]).any fun set =>
          (Subset.edgesFrom nfa set).all fun f => !f.symbol.accepts 'c')) = true := by
    decide +kernel
  obtain ⟨compiled, hcompile, hanswer⟩ := exists_ok_of_any hrun
  obtain ⟨nfa, hnfa, hedges⟩ := exists_ok_of_any hbehind
  obtain ⟨hplace, hcaptures⟩ := Bool.and_eq_true_iff.1 hanswer
  refine ⟨nfa, compiled, hnfa, hcompile, eq_of_beq hplace, eq_of_beq hcaptures, ?_⟩
  rintro ⟨es, ⟨⟨final, -, htaken⟩, hreads⟩, hgroups⟩
  obtain ⟨e, f, rfl, hc⟩ : ∃ e f, es = [e, f] ∧ f.symbol.accepts 'c' = true := by
    match es, hreads with
    | [e, f], .cons _ (.cons hc .nil) => exact ⟨e, f, rfl, hc⟩
  -- The slot holds `a` alone, so the first edge is in the group.
  have hgroup : nfa.groupOf? e = some 0 := by
    have hslot := hgroups 0
    rw [Verdict.capture?, eq_of_beq hcaptures] at hslot
    have hconsumed : ['a'] = nfa.consumed 0 [e, f] ['a', 'c'] := String.ofList_injective hslot
    by_contra hne
    rw [Nfa.consumed] at hconsumed
    by_cases hf : nfa.groupOf? f = some 0 <;> simp [hne, hf] at hconsumed
  -- The second edge goes on behind it, and none that does reads `c`.
  obtain ⟨hedge, set, hset, hf⟩ := htaken.mem_edgesFrom_closure? (wellFormed_of_patternNfa hnfa)
  have hnone := List.all_eq_true.1 hedges e hedge
  rw [hgroup, hset] at hnone
  have hnot : (!f.symbol.accepts 'c') = true := List.all_eq_true.1 hnone f hf
  rw [hc] at hnot
  cases hnot

end CompiledPattern

end LinePattern
