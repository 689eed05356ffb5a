/-
Whose captures a set reports.

Groups are numbered in each pattern by itself, but a step of the scan is that of
all patterns at once, and carries one group. Where a pattern goes on with labels
that no other pattern of the list goes on with, that group is its own. So a
winner that begins with none of the labels that others begin with has the
captures it has alone (`captures_eq_alone`).

Without that condition the captures may belong to a pattern that does not match,
even where no two labels overlap (`captures_of_loser`).
-/
import LinePattern.Proofs.Dfa.Credit
import LinePattern.Proofs.Matcher.Winner

namespace LinePattern

variable {options : Options} {pattern : String} {nfa other : Nfa} {nfas : List Nfa}

theorem capturesSteps_of_patternNfa (h : patternNfa options pattern = .ok nfa) :
    nfa.CapturesSteps := by
  obtain ⟨tokens, -, hassemble⟩ := bind_eq_ok_iff.1 h
  obtain ⟨tree, -, rfl⟩ := TokenTree.ofTokens_eq_ok_iff.1 (mapError_eq_ok_iff.1 hassemble)
  exact tree.capturesSteps options 0

theorem capturesSteps_of_patternNfas {patterns : List String}
    (h : patternNfas options patterns = .ok nfas) : ∀ nfa ∈ nfas, nfa.CapturesSteps := by
  intro nfa hnfa
  obtain ⟨i, hi⟩ := List.mem_iff_getElem?.1 hnfa
  obtain ⟨pattern, -, hpattern⟩ := exists_getElem?_patterns h hi
  exact capturesSteps_of_patternNfa hpattern

/-! ## How patterns begin -/

namespace Nfa

open Subset

/-- The labels that a run can begin with. -/
def starts (nfa : Nfa) : List Symbol :=
  match nfa.closure? [nfa.initial] with
  | some set => (edgesFrom nfa set).map (·.symbol)
  | none => []

theorem mem_starts (hwf : nfa.WellFormed) {s : Symbol} : s ∈ nfa.starts ↔ nfa.Readable [s] := by
  obtain ⟨set, hset, -⟩ := closure?_eq_some hwf (List.forall_mem_singleton.2 hwf.initial_lt)
  have hlists := lists_nil hwf hset
  rw [starts, hset]
  constructor
  · intro h
    obtain ⟨e, he, rfl⟩ := List.mem_map.1 h
    obtain ⟨hsource, hs⟩ := mem_edgesFrom.1 he
    exact ⟨e.target, mem_reach_concat.2 ⟨_, _, hlists.mem_iff.1 hsource, hs, .refl _⟩⟩
  · rintro ⟨q, hq⟩
    rw [← List.nil_append [s]] at hq
    obtain ⟨p, p', hp, hs, -⟩ := mem_reach_concat.1 hq
    exact List.mem_map.2 ⟨⟨p, s, p'⟩, mem_edgesFrom.2 ⟨hlists.mem_iff.2 hp, hs⟩, rfl⟩

end Nfa

/-- The labels that a match of the pattern can begin with. -/
def patternStarts (options : Options) (pattern : String) : List Symbol :=
  match patternNfa options pattern with
  | .ok nfa => nfa.starts
  | .error _ => []

/-- A pattern that begins with none of the labels that others begin with goes on
alone wherever it goes. -/
theorem Subset.goesAlone_of_starts {others : List Nfa} (hwf : nfa.WellFormed)
    (hwfs : ∀ other ∈ others, other.WellFormed)
    (h : ∀ other ∈ others, nfa.starts.Disjoint other.starts) (w : List Symbol) :
    GoesAlone nfa others w := by
  intro t ht other hother hother'
  obtain ⟨s, v, hword⟩ : ∃ s v, w ++ [t] = [s] ++ v := by
    cases w with
    | nil => exact ⟨t, [], rfl⟩
    | cons s w => exact ⟨s, w ++ [t], rfl⟩
  rw [hword] at ht hother'
  exact h other hother ((Nfa.mem_starts hwf).2 ht.of_append)
    ((Nfa.mem_starts (hwfs other hother)).2 hother'.of_append)

/-- A member of a merge that begins with labels of its own has filled its own
slots at every place that it reaches. -/
theorem Subset.creditsTo_merge {sets : StateSets} {dfa : Dfa} {i : PatternId} {text : List Char}
    {place : Place} {w : List Symbol} {scan : Scan} (hwfs : ∀ nfa ∈ nfas, nfa.WellFormed)
    (hcaptures : ∀ nfa ∈ nfas, nfa.CapturesSteps)
    (hnumbered : Numbered (Nfa.merge nfas) sets dfa) (hnfa : nfas[i]? = some nfa)
    (hstarts : ∀ other ∈ nfas.eraseIdx i, nfa.starts.Disjoint other.starts)
    (hcourse : (Nfa.merge nfas).CourseTo text place w) (hw : nfa.Readable w)
    (hat : (Scan.start dfa).at? dfa text place = some scan) :
    nfa.CreditsTo text place w scan.slots := by
  obtain ⟨k, hhosts⟩ := Nfa.exists_hosts hwfs hcaptures hnfa
  have hwf := hwfs nfa (List.mem_of_getElem? hnfa)
  have halone := goesAlone_of_starts hwf (fun other h => hwfs other (List.mem_of_mem_eraseIdx h))
    hstarts
  exact hnumbered.creditsTo (Nfa.wellFormed_merge hwfs) hhosts hwf halone hcourse hw hat

/-! ## The captures of the winner -/

/-- Unless the policy is the early exit, the captures are those at the stop. -/
theorem Verdict.captures_of_stop? {P : Type} {dfa : Dfa} {policy : MatchPolicy} {text : String}
    {stop : Stop} (payload : Option P) (hpolicy : policy ≠ .earlyExit)
    (hstop : Scan.stop? dfa policy text.toList = some stop) :
    (ofOutcome text (dfa.scan policy text) payload).captures = stop.scan.slots.texts := by
  rw [dfa.scan_eq_outcomeOf hpolicy, hstop]
  rfl

namespace PatternSet

variable {P : Type} {patterns : List (String × P)} {set : PatternSet P} {text : String}
  {i : PatternId}

theorem isMatch_of_winner? (h : set.winner? text = some i) : set.isMatch text = true := by
  obtain ⟨hmatched, hpattern⟩ := set.dfa.scan_agrees set.policy text
  rw [isMatch_eq, hmatched]
  rw [winner?, hpattern] at h
  cases hstop : Scan.stop? set.dfa set.policy text.toList with
  | some stop => rfl
  | none =>
    rw [hstop] at h
    cases h

theorem disjoint_starts (hnfas : patternNfas options (patterns.map (·.1)) = .ok nfas)
    {p : String × P} (hnfa : patternNfa options p.1 = .ok nfa)
    (hstarts : ∀ j q, patterns[j]? = some q → j ≠ i →
      (patternStarts options p.1).Disjoint (patternStarts options q.1)) :
    ∀ other ∈ nfas.eraseIdx i, nfa.starts.Disjoint other.starts := by
  intro other hother
  obtain ⟨j, hne, hj⟩ := List.mem_eraseIdx_iff_getElem?.1 hother
  obtain ⟨q, hq, hbuild⟩ := exists_pattern hnfas hj
  have hdisjoint := hstarts j q hq hne
  rwa [patternStarts, patternStarts, hnfa, hbuild] at hdisjoint

/-- **A winner that begins with labels of its own has its own captures.** Under a
policy other than the early exit, let a pattern of a compiled list win a text,
and let its scan alone stop at the same place. If it can begin with no label
that another pattern of the list can begin with, the set reports the captures
that the pattern has alone. Labels may overlap. -/
theorem captures_eq_alone {policy : MatchPolicy} (hpolicy : options.policy = some policy)
    (hexit : policy ≠ .earlyExit) (hcompile : compile options patterns = .ok set)
    {p : String × P} (hp : patterns[i]? = some p) {compiled : CompiledPattern}
    (hcompiled : CompiledPattern.compile options p.1 = .ok compiled)
    (hstarts : ∀ j q, patterns[j]? = some q → j ≠ i →
      (patternStarts options p.1).Disjoint (patternStarts options q.1))
    (hwinner : set.winner? text = some i)
    (hplace : (Scan.stop? set.dfa set.policy text.toList).map (·.place) =
      (Scan.stop? compiled.dfa compiled.policy text.toList).map (·.place)) :
    (set.verdict text).captures = (compiled.verdict text).captures := by
  obtain ⟨nfas, sets, hnfas, hwf, hnumbered, -, hset⟩ := exists_numbered hcompile
  have hwfs := wellFormed_of_patternNfas hnfas
  obtain ⟨nfas', hnfas', stop, w, i', hwins⟩ := exists_wins hcompile (isMatch_of_winner? hwinner)
  rw [hnfas] at hnfas'
  cases hnfas'
  obtain rfl : i' = i := Option.some.inj (hwins.winner?_eq.symm.trans hwinner)
  obtain ⟨nfa, hnfa, hL, hown⟩ := hwins.exists_courseTo hwfs
  obtain ⟨nfa', hnfa', hbuild⟩ := exists_nfa hnfas hp
  rw [hnfa] at hnfa'
  cases hnfa'
  have hread := Nfa.readable_of_mem_language hL
  have hslots := Subset.creditsTo_merge hwfs (capturesSteps_of_patternNfas hnfas) hnumbered hnfa
    (disjoint_starts hnfas hbuild hstarts) hwins.courseTo hread
    (Scan.settled_of_stop? hwins.stop?_eq).at_eq
  -- The pattern alone takes the same word to the same place.
  rw [hwins.stop?_eq, Option.map_some] at hplace
  obtain ⟨stop', hstop', hplace'⟩ := Option.map_eq_some_iff.1 hplace.symm
  obtain ⟨sets', hnumbered', hcompiledPolicy⟩ := CompiledPattern.exists_numbered hbuild hcompiled
  have hmember := wellFormed_of_patternNfa hbuild
  have hcourse := (Nfa.courseTo_merge_singleton hmember).2 hown
  rw [← hplace'] at hcourse
  have hslots' := Subset.creditsTo_merge (List.forall_mem_singleton.2 hmember)
    (List.forall_mem_singleton.2 (capturesSteps_of_patternNfa hbuild)) hnumbered'
    (List.getElem?_cons_zero (a := nfa)) (fun other h => by cases h) hcourse hread
    (Scan.settled_of_stop? hstop').at_eq
  rw [hplace'] at hslots'
  have hcaptures : (set.verdict text).captures = stop.scan.slots.texts :=
    Verdict.captures_of_stop? _ (by rwa [hset, policyOf, Options.policyOr, hpolicy]) hwins.stop?_eq
  have hcaptures' : (compiled.verdict text).captures = stop'.scan.slots.texts :=
    Verdict.captures_of_stop? _ (by rwa [hcompiledPolicy, Options.policyOr, hpolicy]) hstop'
  rw [hcaptures, hcaptures', hslots.unique hslots']

/-- The second pattern wins with labels that overlap those of the first, but
begins with one of its own. -/
theorem captures_eq_alone_second :
    ∃ set : PatternSet Nat,
      compile { policy := some .longest } [("a(\\w+)", 0), ("b(\\d*)-(\\w+)", 1)] = .ok set ∧
      set.winner? "b7-ab" = some 1 ∧ (set.verdict "b7-ab").captures = ["7", "ab"] := by
  have hrun : ((compile { policy := some .longest } [("a(\\w+)", 0), ("b(\\d*)-(\\w+)", 1)]
      ).toOption.any fun set => set.winner? "b7-ab" == some 1 &&
        (Scan.stop? set.dfa set.policy "b7-ab".toList).map (·.place) ==
          some (.behind "b7-ab".toList)) = true := by
    decide +kernel
  have hrun' : ((CompiledPattern.compile { policy := some .longest } "b(\\d*)-(\\w+)").toOption.any
      fun compiled => (compiled.verdict "b7-ab").captures == ["7", "ab"] &&
        (Scan.stop? compiled.dfa compiled.policy "b7-ab".toList).map (·.place) ==
          some (.behind "b7-ab".toList)) = true := by
    decide +kernel
  have hstarts : ∀ s ∈ patternStarts { policy := some .longest } "b(\\d*)-(\\w+)",
      s ∉ patternStarts { policy := some .longest } "a(\\w+)" := by
    decide +kernel
  obtain ⟨set, hcompile, hanswer⟩ := exists_ok_of_any hrun
  obtain ⟨compiled, hcompiled, hanswer'⟩ := exists_ok_of_any hrun'
  obtain ⟨hwinner, hplace⟩ := Bool.and_eq_true_iff.1 hanswer
  obtain ⟨hcaptures, hplace'⟩ := Bool.and_eq_true_iff.1 hanswer'
  refine ⟨set, hcompile, eq_of_beq hwinner, ?_⟩
  rw [← eq_of_beq hcaptures]
  refine captures_eq_alone rfl (by decide) hcompile (p := ("b(\\d*)-(\\w+)", 1)) rfl hcompiled
    (fun j q hq hne => ?_) (eq_of_beq hwinner) ((eq_of_beq hplace).trans (eq_of_beq hplace').symm)
  match j with
  | 0 =>
    cases hq
    exact fun s hs hs' => hstarts s hs hs'
  | 1 => exact absurd rfl hne
  | j + 2 => cases hq

/-- Captures of a pattern that does not match. The second pattern wins, at the
place where it stops by itself, and its group is around `c`. The set credits it
with `a` too, which is in the group of the first. -/
theorem captures_of_loser :
    ∃ (set : PatternSet Nat) (compiled : CompiledPattern) (nfas : List Nfa),
      compile { policy := some .longest } [("(a)b", 0), ("a(c)", 1)] = .ok set ∧
      CompiledPattern.compile { policy := some .longest } "a(c)" = .ok compiled ∧
      patternNfas { policy := some .longest } ["(a)b", "a(c)"] = .ok nfas ∧
      (Nfa.merge nfas).ScalarDisjoint ∧ set.winner? "ac" = some 1 ∧
      (Scan.stop? set.dfa set.policy ['a', 'c']).map (·.place) = some (.behind ['a', 'c']) ∧
      (Scan.stop? compiled.dfa compiled.policy ['a', 'c']).map (·.place) =
        some (.behind ['a', 'c']) ∧
      (set.verdict "ac").captures = ["ac"] ∧ (compiled.verdict "ac").captures = ["c"] := by
  have hrun : ((compile (P := Nat) { policy := some .longest } [("(a)b", 0), ("a(c)", 1)]
      ).toOption.any fun set => set.winner? "ac" == some 1 &&
        ((Scan.stop? set.dfa set.policy ['a', 'c']).map (·.place) == some (.behind ['a', 'c']) &&
          (set.verdict "ac").captures == ["ac"])) = true := by
    decide +kernel
  have hrun' : ((CompiledPattern.compile { policy := some .longest } "a(c)").toOption.any
      fun compiled =>
        (Scan.stop? compiled.dfa compiled.policy ['a', 'c']).map (·.place) ==
          some (.behind ['a', 'c']) &&
        (compiled.verdict "ac").captures == ["c"]) = true := by
    decide +kernel
  have hlabels : ((patternNfas { policy := some .longest } ["(a)b", "a(c)"]).toOption.any
      fun nfas => (Nfa.merge nfas).alphabet == [.char 'a', .char 'b', .char 'c']) = true := by
    decide +kernel
  obtain ⟨set, hcompile, hanswer⟩ := exists_ok_of_any hrun
  obtain ⟨compiled, hcompiled, hanswer'⟩ := exists_ok_of_any hrun'
  obtain ⟨nfas, hnfas, halphabet⟩ := exists_ok_of_any hlabels
  obtain ⟨hwinner, hanswer⟩ := Bool.and_eq_true_iff.1 hanswer
  obtain ⟨hplace, hcaptures⟩ := Bool.and_eq_true_iff.1 hanswer
  obtain ⟨hplace', hcaptures'⟩ := Bool.and_eq_true_iff.1 hanswer'
  exact ⟨set, compiled, nfas, hcompile, hcompiled, hnfas,
    Nfa.scalarDisjoint_of_chars (by simp [eq_of_beq halphabet]), eq_of_beq hwinner,
    eq_of_beq hplace, eq_of_beq hplace', eq_of_beq hcaptures, eq_of_beq hcaptures'⟩

end PatternSet

end LinePattern
