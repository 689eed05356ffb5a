/-
What a pattern set reports.

A set scans with one automaton for all its patterns, the merge of theirs. Whether
a text matches is told by courses (`isMatch_iff`), as it is for a pattern alone
(`CompiledPattern.isMatch_iff`), so the two are compared by comparing
courses.

A winner is a pattern that accepts the course of the merge. The merge reads all
that the pattern reads, so the course is the pattern's own: `verdict_sound`
says that no pattern wins that does not match alone.

The other way a match can be lost. The merge may follow a label of another
pattern, and then the course of the first is abandoned for good: the scan does
not come back. `isMatch_of_not_overrides` says that this is the only way.
-/
import LinePattern.Matcher.Set
import LinePattern.Proofs.Dfa.Place
import LinePattern.Proofs.Matcher.Single
import LinePattern.Proofs.Nfa.Trace

namespace LinePattern

variable {options : Options} {pattern : String} {nfa : Nfa} {nfas : List Nfa}

/-! ## Patterns and their automata -/

theorem wellFormed_of_patternNfa (h : patternNfa options pattern = .ok nfa) : nfa.WellFormed := by
  obtain ⟨tokens, -, hassemble⟩ := bind_eq_ok_iff.1 h
  obtain ⟨tree, -, rfl⟩ := TokenTree.ofTokens_eq_ok_iff.1 (mapError_eq_ok_iff.1 hassemble)
  obtain ⟨stop, hfragment⟩ := TokenTree.exists_fragment options 0 tree
  exact hfragment.toWellFormed

/-- The limit on states plays no part in building an automaton. -/
theorem patternNfa_withoutLimit (options : Options) (pattern : String) :
    patternNfa { options with maxStates := none } pattern = patternNfa options pattern := by
  have hrun : ∀ (tokens : List Token) (position closed : Nat) (stack : List Nfa),
      Assemble.run { options with maxStates := none } position closed stack tokens =
        Assemble.run options position closed stack tokens := by
    intro tokens
    induction tokens with
    | nil => exact fun _ _ _ => rfl
    | cons token rest ih =>
      intro position closed stack
      have hpush : Assemble.push? { options with maxStates := none } closed token stack =
          Assemble.push? options closed token stack := rfl
      simp only [Assemble.run, hpush, ih]
  simp only [patternNfa, Nfa.ofTokens, hrun]

theorem patternNfas_eq_ok_iff {patterns : List String} : patternNfas options patterns = .ok nfas ↔
    List.Forall₂ (fun pattern nfa => patternNfa options pattern = .ok nfa) patterns nfas := by
  induction patterns generalizing nfas with
  | nil => simp [patternNfas, eq_comm]
  | cons pattern rest ih =>
    simp only [patternNfas, bind_eq_ok_iff, List.forall₂_cons_left_iff, ih, Except.ok.injEq]
    constructor
    · rintro ⟨nfa, hnfa, nfas', hnfas', rfl⟩
      exact ⟨nfa, nfas', hnfa, hnfas', rfl⟩
    · rintro ⟨nfa, nfas', hnfa, hnfas', rfl⟩
      exact ⟨nfa, hnfa, nfas', hnfas', rfl⟩

theorem exists_getElem?_of_forall₂ {α β : Type} {R : α → β → Prop} {as : List α} {bs : List β}
    {a : α} {i : Nat} (h : List.Forall₂ R as bs) (ha : as[i]? = some a) :
    ∃ b, bs[i]? = some b ∧ R a b := by
  induction h generalizing i with
  | nil => cases ha
  | cons hab _ ih =>
    cases i with
    | zero =>
      cases ha
      exact ⟨_, rfl, hab⟩
    | succ i => exact ih ha

section

variable {patterns : List String} {i : PatternId} (h : patternNfas options patterns = .ok nfas)

include h

theorem exists_getElem?_nfas (hpattern : patterns[i]? = some pattern) :
    ∃ nfa, nfas[i]? = some nfa ∧ patternNfa options pattern = .ok nfa :=
  exists_getElem?_of_forall₂ (patternNfas_eq_ok_iff.1 h) hpattern

theorem exists_getElem?_patterns (hnfa : nfas[i]? = some nfa) :
    ∃ pattern, patterns[i]? = some pattern ∧ patternNfa options pattern = .ok nfa :=
  exists_getElem?_of_forall₂ (patternNfas_eq_ok_iff.1 h).flip hnfa

theorem wellFormed_of_patternNfas : ∀ nfa ∈ nfas, nfa.WellFormed := by
  intro nfa hnfa
  obtain ⟨i, hi⟩ := List.mem_iff_getElem?.1 hnfa
  obtain ⟨pattern, -, hpattern⟩ := exists_getElem?_patterns h hi
  exact wellFormed_of_patternNfa hpattern

end

/-! ## Courses of one pattern -/

namespace Nfa

/-- The places in a list of the automata that accept a word. -/
def acceptors (nfas : List Nfa) (w : List Symbol) : Set PatternId :=
  {i | ∃ nfa, nfas[i]? = some nfa ∧ w ∈ nfa.language}

/-- The automaton accepts the word that a scan takes up to some place of the
text. -/
def ScanAccepts (nfa : Nfa) (text : List Char) : Prop :=
  ∃ place, ∃ w ∈ nfa.language, nfa.CourseTo text place w

theorem readable_merge_singleton {w : List Symbol} (hwf : nfa.WellFormed) :
    (merge [nfa]).Readable w ↔ nfa.Readable w := by
  rw [readable_merge (by simpa using hwf)]
  constructor
  · rintro (rfl | ⟨nfa', hnfa', h⟩)
    · exact readable_nil nfa
    · rwa [List.mem_singleton.1 hnfa'] at h
  · intro h
    exact .inr ⟨nfa, List.mem_singleton_self nfa, h⟩

theorem courseTo_merge_singleton {text : List Char} {place : Place} {w : List Symbol}
    (hwf : nfa.WellFormed) : (merge [nfa]).CourseTo text place w ↔ nfa.CourseTo text place w := by
  have hread {w : List Symbol} := readable_merge_singleton (w := w) hwf
  exact ⟨fun h => h.of_subset (fun _ => hread.2) (hread.1 h.readable),
    fun h => h.of_subset (fun _ => hread.1) (hread.2 h.readable)⟩

theorem scanAccepts_merge_singleton {text : List Char} (hwf : nfa.WellFormed) :
    (merge [nfa]).ScanAccepts text ↔ nfa.ScanAccepts text := by
  simp only [ScanAccepts, courseTo_merge_singleton hwf, language_merge_singleton hwf]

end Nfa

namespace CompiledPattern

variable {compiled : CompiledPattern} {text : String}

theorem exists_compile_of_patternNfa (hnfa : patternNfa options pattern = .ok nfa)
    (hlimit : options.maxStates = none) : ∃ compiled, compile options pattern = .ok compiled := by
  have hwf := Nfa.wellFormed_merge_singleton (wellFormed_of_patternNfa hnfa)
  obtain ⟨dfa, hdfa⟩ := Subset.exists_determinize_none hwf
  rw [← hlimit, ← mapError_eq_ok_iff (f := PatternError.ofSubset), ← patternsDfa_singleton hnfa]
    at hdfa
  exact ⟨_, bind_eq_ok_iff.2 ⟨dfa, hdfa, rfl⟩⟩

theorem exists_numbered (hnfa : patternNfa options pattern = .ok nfa)
    (hcompile : compile options pattern = .ok compiled) :
    ∃ sets, Subset.Numbered (Nfa.merge [nfa]) sets compiled.dfa ∧
      compiled.policy = options.policyOr .first := by
  have hwf := Nfa.wellFormed_merge_singleton (wellFormed_of_patternNfa hnfa)
  obtain ⟨sets, hnumbered⟩ :=
    Subset.numbered_of_determinize hwf (exists_determinize_of_compile hnfa hcompile)
  obtain ⟨dfa, -, heq⟩ := bind_eq_ok_iff.1 hcompile
  cases heq
  exact ⟨sets, hnumbered, rfl⟩

/-- **Matches of a pattern alone, told by courses.** -/
theorem isMatch_iff (hnfa : patternNfa options pattern = .ok nfa)
    (hcompile : compile options pattern = .ok compiled) :
    compiled.isMatch text = true ↔ nfa.ScanAccepts text.toList := by
  have hwf := wellFormed_of_patternNfa hnfa
  obtain ⟨sets, hnumbered, -⟩ := exists_numbered hnfa hcompile
  rw [← Nfa.scanAccepts_merge_singleton hwf]
  exact hnumbered.matched_iff (Nfa.wellFormed_merge_singleton hwf)

end CompiledPattern

/-! ## Courses of a set -/

namespace PatternSet

variable {P : Type} {patterns : List (String × P)} {set : PatternSet P} {text : String}

/-- The place in the list of the pattern that wins. -/
def winner? (set : PatternSet P) (text : String) : Option PatternId :=
  (set.dfa.scan set.policy text).pattern

theorem isMatch_eq (set : PatternSet P) (text : String) :
    set.isMatch text = (set.dfa.scan set.policy text).matched := rfl

/-- Each pattern of the list has its automaton at its place. -/
theorem exists_nfa {i : PatternId} {p : String × P}
    (hnfas : patternNfas options (patterns.map (·.1)) = .ok nfas) (hp : patterns[i]? = some p) :
    ∃ nfa, nfas[i]? = some nfa ∧ patternNfa options p.1 = .ok nfa := by
  have hpattern : (patterns.map (·.1))[i]? = some p.1 := by
    rw [List.getElem?_map, hp, Option.map_some]
  exact exists_getElem?_nfas hnfas hpattern

theorem exists_pattern {i : PatternId} (hnfas : patternNfas options (patterns.map (·.1)) = .ok nfas)
    (hnfa : nfas[i]? = some nfa) :
    ∃ p, patterns[i]? = some p ∧ patternNfa options p.1 = .ok nfa := by
  obtain ⟨pattern, hpattern, hbuild⟩ := exists_getElem?_patterns hnfas hnfa
  rw [List.getElem?_map] at hpattern
  obtain ⟨p, hp, rfl⟩ := Option.map_eq_some_iff.1 hpattern
  exact ⟨p, hp, hbuild⟩

/-- A compiled set scans with the automaton of the merge. The set without
patterns is no exception: nothing merged is determinised to the empty
automaton. -/
theorem exists_numbered (hcompile : compile options patterns = .ok set) :
    ∃ nfas sets, patternNfas options (patterns.map (·.1)) = .ok nfas ∧
      (Nfa.merge nfas).WellFormed ∧ Subset.Numbered (Nfa.merge nfas) sets set.dfa ∧
      set.patterns = patterns ∧ set.policy = policyOf options := by
  unfold compile at hcompile
  split at hcompile
  · next hempty =>
    obtain rfl := List.isEmpty_iff.1 hempty
    cases hcompile
    have hwf : (Nfa.merge []).WellFormed := Nfa.wellFormed_merge (by simp)
    have hdfa : (Nfa.merge []).determinize none = .ok .empty := by cbv
    obtain ⟨sets, hnumbered⟩ := Subset.numbered_of_determinize hwf hdfa
    exact ⟨[], sets, rfl, hwf, hnumbered, rfl, rfl⟩
  · obtain ⟨dfa, hdfa, heq⟩ := bind_eq_ok_iff.1 hcompile
    cases heq
    obtain ⟨nfas, hnfas, hdeterminize⟩ := bind_eq_ok_iff.1 hdfa
    have hwf := Nfa.wellFormed_merge (wellFormed_of_patternNfas hnfas)
    obtain ⟨sets, hnumbered⟩ :=
      Subset.numbered_of_determinize hwf (mapError_eq_ok_iff.1 hdeterminize)
    exact ⟨nfas, sets, hnfas, hwf, hnumbered, rfl, rfl⟩

/-- **Matches of a set, told by courses.** -/
theorem isMatch_iff (hcompile : compile options patterns = .ok set) :
    ∃ nfas, patternNfas options (patterns.map (·.1)) = .ok nfas ∧
      ∀ text, set.isMatch text = true ↔ (Nfa.merge nfas).ScanAccepts text.toList := by
  obtain ⟨nfas, sets, hnfas, hwf, hnumbered, -⟩ := exists_numbered hcompile
  exact ⟨nfas, hnfas, fun text => hnumbered.matched_iff hwf⟩

/-- Where the scan of a set stops it has taken the word `w`, and pattern `i` is
the first of those that accept it. -/
structure Wins (set : PatternSet P) (nfas : List Nfa) (text : String) (stop : Stop)
    (w : List Symbol) (i : PatternId) : Prop where
  stop?_eq : Scan.stop? set.dfa set.policy text.toList = some stop
  winner?_eq : set.winner? text = some i
  courseTo : (Nfa.merge nfas).CourseTo text.toList stop.place w
  isLeast : IsLeast (Nfa.acceptors nfas w) i

theorem exists_wins (hcompile : compile options patterns = .ok set)
    (hmatch : set.isMatch text = true) :
    ∃ nfas, patternNfas options (patterns.map (·.1)) = .ok nfas ∧
      ∃ stop w i, set.Wins nfas text stop w i := by
  classical
  obtain ⟨nfas, sets, hnfas, hwf, hnumbered, -⟩ := exists_numbered hcompile
  have hwfs := wellFormed_of_patternNfas hnfas
  obtain ⟨hmatched, hpattern⟩ := set.dfa.scan_agrees set.policy text
  rw [isMatch_eq, hmatched] at hmatch
  obtain ⟨stop, hstop⟩ := Option.isSome_iff_exists.1 hmatch
  obtain ⟨w, hw, hcourse, hchosen⟩ :=
    hnumbered.exists_word hwf (Scan.settled_of_stop? hstop).toAccepts
  have hpatterns : (Nfa.merge nfas).patterns ((Nfa.merge nfas).reach w) = Nfa.acceptors nfas w :=
    Set.ext fun i => Nfa.mem_patterns_merge hwfs
  obtain ⟨i, hleast⟩ : ∃ i, IsLeast (Nfa.acceptors nfas w) i := by
    obtain ⟨nfa, hnfa, hL⟩ := (Nfa.mem_language_merge hwfs).1 hw
    obtain ⟨j, hj⟩ := List.mem_iff_getElem?.1 hnfa
    exact ⟨_, Nat.isLeast_find (p := (· ∈ Nfa.acceptors nfas w)) ⟨j, nfa, hj, hL⟩⟩
  rw [hstop] at hpattern
  have hwinner := hpattern.trans ((hchosen i).2 (hpatterns ▸ hleast))
  exact ⟨nfas, hnfas, stop, w, i, hstop, hwinner, hcourse, hleast⟩

/-! ## No match is made up -/

theorem matched_verdict (set : PatternSet P) (text : String) :
    (set.verdict text).matched = set.isMatch text := by
  rw [isMatch_eq, verdict, Verdict.ofOutcome]
  split <;> simp_all

/-- The winner matches by itself: it accepts the course of the merge, which is
its own. -/
theorem Wins.exists_courseTo {stop : Stop} {w : List Symbol} {i : PatternId}
    (h : set.Wins nfas text stop w i) (hwfs : ∀ nfa ∈ nfas, nfa.WellFormed) :
    ∃ nfa, nfas[i]? = some nfa ∧ w ∈ nfa.language ∧ nfa.CourseTo text.toList stop.place w := by
  obtain ⟨nfa, hnfa, hL⟩ := h.isLeast.1
  have hmerge : ∀ w, nfa.Readable w → (Nfa.merge nfas).Readable w := fun w hw =>
    (Nfa.readable_merge hwfs).2 (.inr ⟨nfa, List.mem_of_getElem? hnfa, hw⟩)
  exact ⟨nfa, hnfa, hL, h.courseTo.of_subset hmerge (Nfa.readable_of_mem_language hL)⟩

/-- **No pattern is credited that does not match.** A set reports a match exactly
when it reports a payload. The payload is then that of the winning pattern in
the list, and the pattern matches the text by itself, compiled without a limit
on states. Without a match there are no captures. Whether labels overlap does
not matter. -/
theorem verdict_sound (hcompile : compile options patterns = .ok set) (text : String) :
    (set.verdict text).matched = (set.verdict text).payload.isSome ∧
      ((set.verdict text).matched = true → ∃ i p compiled,
        set.winner? text = some i ∧ i < set.size ∧ patterns[i]? = some p ∧
        (set.verdict text).payload = some p.2 ∧
        CompiledPattern.compile { options with maxStates := none } p.1 = .ok compiled ∧
        (compiled.verdict text).matched = true) ∧
      ((set.verdict text).matched = false → (set.verdict text).captures = []) := by
  cases hmatch : set.isMatch text with
  | false =>
    have hverdict : set.verdict text = ⟨text, false, [], none⟩ := by
      rw [isMatch_eq] at hmatch
      rw [verdict, Verdict.ofOutcome, hmatch]
      rfl
    rw [hverdict]
    exact ⟨rfl, fun h => absurd h Bool.false_ne_true, fun _ => rfl⟩
  | true =>
    obtain ⟨nfas, hnfas, stop, w, i, hwins⟩ := exists_wins hcompile hmatch
    obtain ⟨nfa, hnfa, hL, hcourse⟩ := hwins.exists_courseTo (wellFormed_of_patternNfas hnfas)
    obtain ⟨p, hp, hbuild⟩ := exists_pattern hnfas hnfa
    rw [← patternNfa_withoutLimit] at hbuild
    obtain ⟨compiled, hcompiled⟩ := CompiledPattern.exists_compile_of_patternNfa hbuild rfl
    have halone : (compiled.verdict text).matched = true := by
      rw [CompiledPattern.matched_verdict]
      exact (CompiledPattern.isMatch_iff hbuild hcompiled).2 ⟨stop.place, w, hL, hcourse⟩
    obtain ⟨-, -, -, -, -, hpatterns, -⟩ := exists_numbered hcompile
    have hpayload : (set.verdict text).payload = some p.2 := by
      have hwinner := hwins.winner?_eq
      rw [isMatch_eq] at hmatch
      rw [winner?] at hwinner
      rw [verdict, Verdict.ofOutcome, hmatch, if_pos rfl, hwinner, Option.bind_some, payload?,
        hpatterns, hp, Option.map_some]
    have hmatched : (set.verdict text).matched = true := by rw [matched_verdict, hmatch]
    refine ⟨by rw [hmatched, hpayload]; rfl, fun _ => ⟨i, p, compiled, hwins.winner?_eq, ?_, hp,
      hpayload, hcompiled, halone⟩, fun hfalse => ?_⟩
    · rw [size, hpatterns]
      exact (List.getElem?_eq_some_iff.1 hp).1
    · rw [hmatched] at hfalse
      cases hfalse

/-- The second pattern wins with labels that overlap those of the first. -/
theorem verdict_sound_second :
    ∃ set : PatternSet Nat, compile {} [("a+b", 3), ("\\w(\\d*)$", 5)] = .ok set ∧
      (set.verdict "b7").payload = some 5 ∧
      ∃ compiled, CompiledPattern.compile {} "\\w(\\d*)$" = .ok compiled ∧
        (compiled.verdict "b7").matched = true := by
  have hrun : ((compile {} [("a+b", 3), ("\\w(\\d*)$", 5)]).toOption.any fun set =>
      (set.verdict "b7").matched && set.winner? "b7" == some 1) = true := by
    decide +kernel
  obtain ⟨set, hcompile, hanswer⟩ := exists_ok_of_any hrun
  obtain ⟨hmatched, hwinner⟩ := Bool.and_eq_true_iff.1 hanswer
  obtain ⟨i, p, compiled, hi, -, hp, hpayload, hcompiled, halone⟩ :=
    (verdict_sound hcompile "b7").2.1 hmatched
  rw [eq_of_beq hwinner] at hi
  cases hi
  cases hp
  exact ⟨set, hcompile, hpayload, compiled, hcompiled, halone⟩

end PatternSet

/-! ## How a match is lost -/

theorem Symbol.eq_of_accepts_char {x y c : Char} (hx : (char x).accepts c = true)
    (hy : (char y).accepts c = true) : char x = char y := by
  rw [accepts, beq_iff_eq] at hx hy
  rw [hx, hy]

namespace Nfa

variable {other : Nfa} {text u : List Char} {v w : List Symbol}

/-- On the text `other` overrides `nfa`. A scan of `nfa` has taken a word that
does not accept yet, and takes a label for the next character. But `other` can
go on from the same word with a label for the character that comes before. -/
def Overrides (other nfa : Nfa) (text : List Char) : Prop :=
  ∃ u c v s t, u ++ [c] <+: text ∧ nfa.Course u v ∧ (∀ v', v' <+: v → v' ∉ nfa.language) ∧
    nfa.Takes v c s ∧ other.Readable (v ++ [t]) ∧ t.accepts c = true ∧ t.compare s = .lt

theorem not_overrides_of_subset (hsub : ∀ w, other.Readable w → nfa.Readable w) :
    ¬ other.Overrides nfa text := by
  rintro ⟨u, c, v, s, t, -, -, -, htakes, hread, haccepts, hlt⟩
  exact htakes.least t haccepts (hsub _ hread) hlt

theorem not_overrides_of_disjoint
    (hdisjoint : ∀ s ∈ nfa.alphabet, ∀ t ∈ other.alphabet, ∀ c, s.accepts c = true →
      t.accepts c = true → s = t) : ¬ other.Overrides nfa text := by
  rintro ⟨u, c, v, s, t, -, -, -, htakes, hread, haccepts, hlt⟩
  obtain rfl := hdisjoint s htakes.readable.mem_alphabet t hread.mem_alphabet c htakes.accepts
    haccepts
  rw [Symbol.compare_eq_iff.2 rfl] at hlt
  cases hlt

theorem exists_overrides_of_merge (hwfs : ∀ nfa ∈ nfas, nfa.WellFormed)
    (h : (merge nfas).Overrides nfa text) : ∃ other ∈ nfas, other.Overrides nfa text := by
  obtain ⟨u, c, v, s, t, hu, hcourse, hno, htakes, hread, hrest⟩ := h
  rcases (readable_merge hwfs).1 hread with hnil | ⟨other, hother, hread⟩
  · simp at hnil
  · exact ⟨other, hother, u, c, v, s, t, hu, hcourse, hno, htakes, hread, hrest⟩

/-- Where nothing overrides, a course is kept until it accepts. -/
theorem Course.keeps_or_accepts (hsup : ∀ w, nfa.Readable w → other.Readable w)
    (hkeep : ¬ other.Overrides nfa text) (h : nfa.Course u w) (hu : u <+: text) :
    (other.Course u w ∧ ∀ v, v <+: w → v ≠ w → v ∉ nfa.language) ∨
      ∃ u' v, u' <+: text ∧ v ∈ nfa.language ∧ other.Course u' v := by
  induction h with
  | nil => exact .inl ⟨.nil, fun v hv hne => absurd (List.prefix_nil.1 hv) hne⟩
  | @concat u w c s hcourse htakes ih =>
    have hu' : u <+: text := (List.prefix_append u [c]).trans hu
    rcases ih hu' with ⟨hother, hno⟩ | haccepts
    · by_cases hw : w ∈ nfa.language
      · exact .inr ⟨u, w, hu', hw, hother⟩
      · have hbefore : ∀ v, v <+: w → v ∉ nfa.language := fun v hv => by
          by_cases heq : v = w
          · exact heq ▸ hw
          · exact hno v hv heq
        refine .inl ⟨hother.concat ⟨htakes.accepts, hsup _ htakes.readable, ?_⟩, ?_⟩
        · intro t haccepts hread hlt
          exact hkeep ⟨u, c, w, s, t, hu, hcourse, hbefore, htakes, hread, haccepts, hlt⟩
        · intro v hv hne
          exact hbefore v ((List.prefix_concat_iff.1 hv).resolve_left hne)
    · exact .inr haccepts

/-- An automaton that reads and accepts more, and overrides nothing, accepts as
well. -/
theorem ScanAccepts.of_not_overrides (hsup : ∀ w, nfa.Readable w → other.Readable w)
    (hlanguage : ∀ w ∈ nfa.language, w ∈ other.language) (hkeep : ¬ other.Overrides nfa text)
    (h : nfa.ScanAccepts text) : other.ScanAccepts text := by
  have hearlier : (∃ u v, u <+: text ∧ v ∈ nfa.language ∧ other.Course u v) →
      other.ScanAccepts text := by
    rintro ⟨u, v, hu, hv, hcourse⟩
    exact ⟨.behind u, v, hlanguage v hv, .behind hu hcourse⟩
  obtain ⟨place, w, hw, hcourse⟩ := h
  cases hcourse with
  | behind hu hcourse =>
    rcases hcourse.keeps_or_accepts hsup hkeep hu with ⟨hother, -⟩ | haccepts
    · exact ⟨_, w, hlanguage w hw, .behind hu hother⟩
    · exact hearlier haccepts
  | atEnd hcourse hread =>
    rcases hcourse.keeps_or_accepts hsup hkeep List.prefix_rfl with ⟨hother, -⟩ | haccepts
    · exact ⟨_, _, hlanguage _ hw, .atEnd hother (hsup _ hread)⟩
    · exact hearlier haccepts

end Nfa

namespace PatternSet

variable {P : Type} {patterns : List (String × P)} {set : PatternSet P} {text : String}

/-- On the text the pattern `q` overrides the patterns `fewer`, which are scanned
together. -/
def Overrides (options : Options) (q : String) (fewer : List String) (text : String) : Prop :=
  ∃ other nfas, patternNfa options q = .ok other ∧ patternNfas options fewer = .ok nfas ∧
    other.Overrides (Nfa.merge nfas) text.toList

/-- Of two lists of patterns, all of the first in the second, the second matches
what the first does unless a pattern that is new overrides the first. -/
theorem scanAccepts_of_not_overrides {fewer patterns : List String} {nfas' : List Nfa}
    (hnfas' : patternNfas options fewer = .ok nfas') (hnfas : patternNfas options patterns = .ok nfas)
    (hsub : fewer ⊆ patterns)
    (hkeep : ∀ q ∈ patterns, q ∉ fewer → ¬ Overrides options q fewer text)
    (h : (Nfa.merge nfas').ScanAccepts text.toList) : (Nfa.merge nfas).ScanAccepts text.toList := by
  have hwfs := wellFormed_of_patternNfas hnfas
  have hwfs' := wellFormed_of_patternNfas hnfas'
  have hmem : ∀ nfa ∈ nfas', nfa ∈ nfas := by
    intro nfa hnfa
    obtain ⟨i, hi⟩ := List.mem_iff_getElem?.1 hnfa
    obtain ⟨p, hp, hbuild⟩ := exists_getElem?_patterns hnfas' hi
    obtain ⟨j, hj⟩ := List.mem_iff_getElem?.1 (hsub (List.mem_of_getElem? hp))
    obtain ⟨nfa', hnfa', hbuild'⟩ := exists_getElem?_nfas hnfas hj
    rw [hbuild] at hbuild'
    cases hbuild'
    exact List.mem_of_getElem? hnfa'
  refine h.of_not_overrides ?_ ?_ fun hoverrides => ?_
  · intro w hw
    rw [Nfa.readable_merge hwfs'] at hw
    rw [Nfa.readable_merge hwfs]
    exact hw.imp_right fun ⟨nfa, hnfa, hread⟩ => ⟨nfa, hmem nfa hnfa, hread⟩
  · intro w hw
    rw [Nfa.mem_language_merge hwfs'] at hw
    rw [Nfa.mem_language_merge hwfs]
    obtain ⟨nfa, hnfa, hL⟩ := hw
    exact ⟨nfa, hmem nfa hnfa, hL⟩
  · obtain ⟨other, hother, hoverrides⟩ := Nfa.exists_overrides_of_merge hwfs hoverrides
    obtain ⟨i, hi⟩ := List.mem_iff_getElem?.1 hother
    obtain ⟨q, hq, hbuild⟩ := exists_getElem?_patterns hnfas hi
    by_cases hfewer : q ∈ fewer
    · -- A pattern that was there reads nothing that was not read before.
      obtain ⟨j, hj⟩ := List.mem_iff_getElem?.1 hfewer
      obtain ⟨other', hother', hbuild'⟩ := exists_getElem?_nfas hnfas' hj
      rw [hbuild] at hbuild'
      cases hbuild'
      refine Nfa.not_overrides_of_subset (fun w hw => ?_) hoverrides
      exact (Nfa.readable_merge hwfs').2 (.inr ⟨other, List.mem_of_getElem? hother', hw⟩)
    · exact hkeep q (List.mem_of_getElem? hq) hfewer ⟨other, nfas', hbuild, hnfas', hoverrides⟩

/-- **A match is lost only to a pattern that overrides.** A text that a pattern
of a compiled list matches by itself is matched by the list, unless another of
its patterns overrides that one on the text. And a text that some of the
patterns match together is matched by all, unless one of the others overrides
those. -/
theorem isMatch_of_not_overrides (hcompile : compile options patterns = .ok set)
    (text : String) :
    (∀ p ∈ patterns, ∀ compiled, CompiledPattern.compile options p.1 = .ok compiled →
      (∀ q ∈ patterns, q.1 ≠ p.1 → ¬ Overrides options q.1 [p.1] text) →
      compiled.isMatch text = true → set.isMatch text = true) ∧
    ∀ (fewer : List (String × P)) (smaller : PatternSet P),
      compile options fewer = .ok smaller →
      fewer.map (·.1) ⊆ patterns.map (·.1) →
      (∀ q ∈ patterns, q.1 ∉ fewer.map (·.1) →
        ¬ Overrides options q.1 (fewer.map (·.1)) text) →
      smaller.isMatch text = true → set.isMatch text = true := by
  obtain ⟨nfas, hnfas, hmatch⟩ := isMatch_iff hcompile
  constructor
  · intro p hp compiled hcompiled hkeep hmatched
    obtain ⟨i, hi⟩ := List.mem_iff_getElem?.1 (List.mem_map_of_mem hp)
    obtain ⟨nfa, -, hbuild⟩ := exists_getElem?_nfas hnfas hi
    have hnfas' : patternNfas options [p.1] = .ok [nfa] :=
      patternNfas_eq_ok_iff.2 (.cons hbuild .nil)
    have halone := (CompiledPattern.isMatch_iff hbuild hcompiled).1 hmatched
    rw [← Nfa.scanAccepts_merge_singleton (wellFormed_of_patternNfa hbuild)] at halone
    refine (hmatch text).2 (scanAccepts_of_not_overrides hnfas' hnfas ?_ ?_ halone)
    · exact List.cons_subset.2 ⟨List.mem_map_of_mem hp, List.nil_subset _⟩
    · intro q hq hne
      obtain ⟨q', hq', rfl⟩ := List.mem_map.1 hq
      exact hkeep q' hq' (by simpa using hne)
  · intro fewer smaller hsmaller hsub hkeep hmatched
    obtain ⟨nfas', hnfas', hmatch'⟩ := isMatch_iff hsmaller
    refine (hmatch text).2
      (scanAccepts_of_not_overrides hnfas' hnfas hsub ?_ ((hmatch' text).1 hmatched))
    intro q hq hfewer
    obtain ⟨q', hq', rfl⟩ := List.mem_map.1 hq
    exact hkeep q' hq' hfewer

/-- Two patterns that begin alike, with no label that overlaps another. -/
theorem isMatch_of_not_overrides_alike :
    ∃ set : PatternSet Nat, compile {} [("ab", 0), ("ac", 1)] = .ok set ∧
      set.isMatch "ac" = true := by
  have hrun : ((compile (P := Nat) {} [("ab", 0), ("ac", 1)]).toOption.any fun _ => true) =
      true := by
    decide +kernel
  have hrun' : ((CompiledPattern.compile {} "ac").toOption.any (·.isMatch "ac")) = true := by
    decide +kernel
  have hlabels : ((patternNfas {} ["ac"]).toOption.any fun nfas =>
      (Nfa.merge nfas).alphabet == [.char 'a', .char 'c']) = true := by
    decide +kernel
  have hlabels' : ((patternNfa {} "ab").toOption.any fun nfa =>
      nfa.alphabet == [.char 'a', .char 'b']) = true := by
    decide +kernel
  obtain ⟨set, hcompile, -⟩ := exists_ok_of_any hrun
  obtain ⟨compiled, hcompiled, halone⟩ := exists_ok_of_any hrun'
  refine ⟨set, hcompile, (isMatch_of_not_overrides hcompile "ac").1 ("ac", 1) (by simp) compiled
    hcompiled (fun q hq hne => ?_) halone⟩
  obtain rfl : q = ("ab", 0) := by
    rcases List.mem_pair.1 hq with rfl | rfl
    · rfl
    · exact absurd rfl hne
  rintro ⟨other, nfas, hother, hnfas, hoverrides⟩
  rw [hnfas] at hlabels
  rw [hother] at hlabels'
  have halphabet : (Nfa.merge nfas).alphabet = [.char 'a', .char 'c'] := eq_of_beq hlabels
  have halphabet' : other.alphabet = [.char 'a', .char 'b'] := eq_of_beq hlabels'
  refine Nfa.not_overrides_of_disjoint (fun s hs t ht c hsc htc => ?_) hoverrides
  simp only [halphabet, halphabet', List.mem_cons, List.not_mem_nil, or_false] at hs ht
  rcases hs with rfl | rfl <;> rcases ht with rfl | rfl <;>
    exact Symbol.eq_of_accepts_char hsc htc

/-- A match is lost to a literal. The second pattern matches by itself; together
with the first the scan takes the label `a` and does not come back for `\w`. -/
theorem isMatch_lost_to_literal :
    ∃ (set : PatternSet Nat) (compiled : CompiledPattern),
      compile {} [("ab", 0), ("\\wc", 1)] = .ok set ∧
      CompiledPattern.compile {} "\\wc" = .ok compiled ∧
      compiled.isMatch "ac" = true ∧ set.isMatch "ac" = false := by
  have hrun : ((compile (P := Nat) {} [("ab", 0), ("\\wc", 1)]).toOption.any fun set =>
      !set.isMatch "ac") = true := by
    decide +kernel
  have hrun' : ((CompiledPattern.compile {} "\\wc").toOption.any (·.isMatch "ac")) = true := by
    decide +kernel
  obtain ⟨set, hcompile, hset⟩ := exists_ok_of_any hrun
  obtain ⟨compiled, hcompiled, halone⟩ := exists_ok_of_any hrun'
  exact ⟨set, compiled, hcompile, hcompiled, halone, by simpa using hset⟩

end PatternSet

end LinePattern
