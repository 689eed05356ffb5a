/-
A compiled pattern matches what its syntax tree stands for.

Reading, assembling, merging, determinising and scanning each keep the language
(`exists_patternNfa`, `Nfa.mem_language_merge`, `Subset.Numbered`), so a match
that is reported is one of the pattern (`matches_of_verdict`). The other way
round a scan may follow the wrong one of two labels that accept a character;
where no two do, every match is found (`isMatch_of_matches`).
-/
import LinePattern.Matcher.Single
import LinePattern.Proofs.Dfa.Scan
import LinePattern.Proofs.Nfa.Merge
import LinePattern.Proofs.Pattern.Reader

namespace LinePattern

open Computability

variable {options : Options} {pattern : String} {e : Expr} {nfa : Nfa}

theorem mapError_eq_ok_iff {α ε ε' : Type} {x : Except ε α} {f : ε → ε'} {a : α} :
    x.mapError f = .ok a ↔ x = .ok a := by
  cases x <;> simp [Except.mapError]

theorem patternNfa_eq_of_tokens {tree : TokenTree} (hparse : Expr.parse pattern = .ok e)
    (htokens : tree.tokens = e.tokens) : patternNfa options pattern = .ok (tree.nfa options 0) := by
  have htokenize : tokenize pattern = .ok tree.tokens :=
    tokenize_eq_ok_iff_parse.2 ⟨e, hparse, htokens⟩
  simp only [patternNfa, htokenize, TokenTree.ofTokens_tokens, bind, Except.bind, Except.mapError]

/-- A pattern that can be read has an automaton, and its words read the texts
that the pattern stands for. -/
theorem exists_patternNfa (options : Options) (hparse : Expr.parse pattern = .ok e) :
    ∃ nfa, patternNfa options pattern = .ok nfa ∧ nfa.WellFormed ∧
      readings nfa.language = e.language options.negation := by
  obtain ⟨tree, htokens, hread⟩ :=
    e.exists_tree options.negation 0 (Expr.valid_of_parse hparse)
  obtain ⟨stop, hfragment⟩ := TokenTree.exists_fragment options 0 tree
  refine ⟨tree.nfa options 0, patternNfa_eq_of_tokens hparse htokens, hfragment.toWellFormed, ?_⟩
  rw [TokenTree.language_nfa, hread]

theorem patternsDfa_singleton (hnfa : patternNfa options pattern = .ok nfa) :
    patternsDfa options [pattern] =
      ((Nfa.merge [nfa]).determinize options.maxStates).mapError .ofSubset := by
  simp only [patternsDfa, patternNfas, hnfa, bind, Except.bind]

theorem Nfa.wellFormed_merge_singleton (hwf : nfa.WellFormed) : (Nfa.merge [nfa]).WellFormed :=
  Nfa.wellFormed_merge (by simpa using hwf)

/-- A merge of one automaton accepts what the automaton does. -/
theorem Nfa.language_merge_singleton (hwf : nfa.WellFormed) :
    (Nfa.merge [nfa]).language = nfa.language := by
  ext w
  rw [Nfa.mem_language_merge (by simpa using hwf)]
  simp

theorem Nfa.ScalarDisjoint.merge_singleton (hwf : nfa.WellFormed) (h : nfa.ScalarDisjoint) :
    (Nfa.merge [nfa]).ScalarDisjoint := by
  have hmem : ∀ s ∈ (Nfa.merge [nfa]).alphabet, s ∈ nfa.alphabet := by
    intro s hs
    rw [Nfa.mem_alphabet_merge (by simpa using hwf)] at hs
    simpa using hs
  intro s hs t ht
  exact h s (hmem s hs) t (hmem t ht)

namespace CompiledPattern

variable {compiled : CompiledPattern} {text : String}

theorem exists_determinize_of_compile (hnfa : patternNfa options pattern = .ok nfa)
    (hcompile : compile options pattern = .ok compiled) :
    (Nfa.merge [nfa]).determinize options.maxStates = .ok compiled.dfa := by
  obtain ⟨dfa, hdfa, heq⟩ := bind_eq_ok_iff.1 hcompile
  cases heq
  rw [patternsDfa_singleton hnfa, mapError_eq_ok_iff] at hdfa
  exact hdfa

/-- Without a limit a pattern that can be read compiles. -/
theorem exists_compile (hparse : Expr.parse pattern = .ok e) (hlimit : options.maxStates = none) :
    ∃ compiled, compile options pattern = .ok compiled := by
  obtain ⟨nfa, hnfa, hwf, -⟩ := exists_patternNfa options hparse
  obtain ⟨dfa, hdfa⟩ := Subset.exists_determinize_none (Nfa.wellFormed_merge_singleton hwf)
  refine ⟨⟨pattern, dfa, options.policyOr .first⟩, ?_⟩
  have hdfas : patternsDfa options [pattern] = .ok dfa := by
    rw [patternsDfa_singleton hnfa, hlimit, mapError_eq_ok_iff]
    exact hdfa
  simp only [compile, hdfas, bind, Except.bind]

theorem exists_parse_of_compile (h : compile options pattern = .ok compiled) :
    ∃ e, Expr.parse pattern = .ok e := by
  obtain ⟨dfa, hdfa, -⟩ := bind_eq_ok_iff.1 h
  obtain ⟨nfas, hnfas, -⟩ := bind_eq_ok_iff.1 hdfa
  obtain ⟨nfa, hnfa, -⟩ := bind_eq_ok_iff.1 hnfas
  obtain ⟨tokens, htokens, -⟩ := bind_eq_ok_iff.1 hnfa
  obtain ⟨e, hparse, -⟩ := tokenize_eq_ok_iff_parse.1 (mapError_eq_ok_iff.1 htokens)
  exact ⟨e, hparse⟩

theorem matched_verdict (compiled : CompiledPattern) (text : String) :
    (compiled.verdict text).matched = (compiled.dfa.scan compiled.policy text).matched := by
  simp only [verdict, Verdict.ofOutcome]
  cases hmatched : (compiled.dfa.scan compiled.policy text).matched <;> simp

/-- Without a match a scan has no captures to withhold. -/
theorem captures_verdict (compiled : CompiledPattern) (text : String) :
    (compiled.verdict text).captures = (compiled.dfa.scan compiled.policy text).captures := by
  rw [verdict, Verdict.ofOutcome]
  cases hmatched : (compiled.dfa.scan compiled.policy text).matched with
  | true => rfl
  | false =>
    rw [if_neg Bool.false_ne_true]
    unfold Dfa.scan at hmatched ⊢
    cases hunder : Scan.under compiled.policy compiled.dfa text.toList with
    | some acceptance =>
      rw [hunder] at hmatched
      cases hmatched
    | none =>
      simp only [hunder] at hmatched ⊢
      split at hmatched
      · cases hmatched
      · next hfinal =>
        rw [if_neg hfinal]
        rfl

/-- **A reported match is a match.** Under any options, when a compiled pattern
reports a match for a text, some beginning of the text is one of the texts that
the pattern stands for, or all of it with the mark for its end is. -/
theorem matches_of_verdict (hparse : Expr.parse pattern = .ok e)
    (hcompile : compile options pattern = .ok compiled)
    (hmatched : (compiled.verdict text).matched = true) :
    Matches (e.language options.negation) text.toList := by
  obtain ⟨nfa, hnfa, hwf, hread⟩ := exists_patternNfa options hparse
  have hwf' := Nfa.wellFormed_merge_singleton hwf
  obtain ⟨sets, hnumbered⟩ :=
    Subset.numbered_of_determinize hwf' (exists_determinize_of_compile hnfa hcompile)
  rw [matched_verdict] at hmatched
  have hmatches := Subset.matches_of_matched hwf' hnumbered hmatched
  rwa [Nfa.language_merge_singleton hwf, hread] at hmatches

/-- A digit that two labels of the pattern accept. -/
theorem matches_of_verdict_digit :
    Matches (Expr.language .complement (.term (.seq
        (.mk (.charClass ⟨true, [.plain 'a']⟩) (some .star))
        (.seq (.mk (.escape 'd') none) (.factor (.mk .endOfLine none))))))
      "b7".toList := by
  have hparse : Expr.parse "[^a]*\\d$" = .ok (.term (.seq
      (.mk (.charClass ⟨true, [.plain 'a']⟩) (some .star))
      (.seq (.mk (.escape 'd') none) (.factor (.mk .endOfLine none))))) := by
    decide +kernel
  have hrun : ((compile {} "[^a]*\\d$").toOption.any fun compiled =>
      (compiled.verdict "b7").matched) = true := by
    decide +kernel
  cases hcompile : compile {} "[^a]*\\d$" with
  | error fault =>
    rw [hcompile] at hrun
    cases hrun
  | ok compiled =>
    rw [hcompile] at hrun
    exact matches_of_verdict hparse hcompile hrun

/-- **Without overlapping labels no match is missed.** Where no character is
accepted by two labels of its automaton, a pattern compiles unless there is a
limit, and then it matches every text with a beginning that the pattern stands
for, or that with the mark for its end is one of its texts. -/
theorem isMatch_of_matches (hparse : Expr.parse pattern = .ok e)
    (hnfa : patternNfa options pattern = .ok nfa) (hdisjoint : nfa.ScalarDisjoint) :
    (options.maxStates = none → ∃ compiled, compile options pattern = .ok compiled) ∧
      ∀ compiled, compile options pattern = .ok compiled → ∀ text : String,
        Matches (e.language options.negation) text.toList → compiled.isMatch text = true := by
  refine ⟨exists_compile hparse, fun compiled hcompile text hmatches => ?_⟩
  obtain ⟨nfa', hnfa', hwf, hread⟩ := exists_patternNfa options hparse
  obtain rfl : nfa = nfa' := by
    rw [hnfa] at hnfa'
    exact Except.ok.inj hnfa'
  have hwf' := Nfa.wellFormed_merge_singleton hwf
  obtain ⟨sets, hnumbered⟩ :=
    Subset.numbered_of_determinize hwf' (exists_determinize_of_compile hnfa hcompile)
  rw [← hread, ← Nfa.language_merge_singleton hwf] at hmatches
  exact Subset.matched_of_matches hwf' (hdisjoint.merge_singleton hwf) hnumbered _ hmatches

/-- A match that exists only at the end of the text. -/
theorem isMatch_of_matches_star :
    ∃ compiled, compile {} "a*$" = .ok compiled ∧ compiled.isMatch "aa" = true := by
  have hparse : Expr.parse "a*$" = .ok (.term (.seq (.mk (.literal 'a') (some .star))
      (.factor (.mk .endOfLine none)))) := by
    decide +kernel
  have hlabels : ((patternNfa {} "a*$").toOption.map Nfa.alphabet) =
      some [.char 'a', .endOfLine] := by
    decide +kernel
  cases hnfa : patternNfa {} "a*$" with
  | error fault =>
    rw [hnfa] at hlabels
    cases hlabels
  | ok nfa =>
    rw [hnfa] at hlabels
    have halphabet : nfa.alphabet = [.char 'a', .endOfLine] := Option.some.inj hlabels
    have hdisjoint : nfa.ScalarDisjoint := by
      intro s hs t ht c hsc htc
      simp only [halphabet, List.mem_cons, List.not_mem_nil, or_false] at hs ht
      rcases hs with rfl | rfl <;> rcases ht with rfl | rfl
      · rfl
      · cases htc
      · cases hsc
      · rfl
    obtain ⟨hcompile, hmatch⟩ := isMatch_of_matches hparse hnfa hdisjoint
    obtain ⟨compiled, hcompiled⟩ := hcompile rfl
    refine ⟨compiled, hcompiled, hmatch compiled hcompiled "aa" (.inr ?_)⟩
    have ha : [.char 'a'] ∈ oneChar fun c => (Symbol.char 'a').accepts c = true :=
      ⟨'a', rfl, rfl⟩
    have hstar : [[.char 'a'], [.char 'a']].flatten ∈
        (oneChar fun c => (Symbol.char 'a').accepts c = true)∗ :=
      Language.join_mem_kstar (by simpa using ha)
    exact Language.append_mem_mul hstar rfl

end CompiledPattern

end LinePattern
