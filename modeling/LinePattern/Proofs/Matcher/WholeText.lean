/-
A pattern with the end of the line behind it.

With a dollar behind it a pattern matches all of a text or nothing of it. The end of
the line accepts no character, so up to the end of the text a scan takes the labels
that it takes for the pattern alone (`course_concat_endOfLine`), and behind them it
accepts when the pattern alone has the word taken (`scanAccepts_concat_endOfLine`).
The automaton in front of the end of the line is that of the pattern alone, but for
its groups (`exists_patternNfa_anchored`). In the deterministic automaton of the
pattern this is said of states: the text leads to its end without a dead end, and to a
final state (`exists_reached?_iff`).

Labels may overlap. Where one is taken that leads nowhere, it is taken with the dollar
and without it.
-/
import LinePattern.Proofs.Dfa.Policies
import LinePattern.Proofs.Matcher.WholeGroup

namespace LinePattern

/-! ## Accepting all of a text -/

namespace Nfa

variable {nfa other left right : Nfa} {f g : StateId} {u w : List Symbol} {text : List Char}

/-- The automaton accepts the word that a scan takes for all of the text. -/
def AcceptsWhole (nfa : Nfa) (text : List Char) : Prop := ∃ w ∈ nfa.language, nfa.Course text w

/-- It depends on the words that runs read, and on those that are accepted. -/
theorem acceptsWhole_congr (hread : ∀ w, other.Readable w ↔ nfa.Readable w)
    (hlanguage : other.language = nfa.language) :
    other.AcceptsWhole text ↔ nfa.AcceptsWhole text := by
  rw [AcceptsWhole, AcceptsWhole, hlanguage]
  refine exists_congr fun w => and_congr_right fun _ => ?_
  exact ⟨fun h => h.of_subset (fun w => (hread w).2) ((hread w).1 h.readable),
    fun h => h.of_subset (fun w => (hread w).1) ((hread w).2 h.readable)⟩

theorem acceptsWhole_merge_singleton (hwf : nfa.WellFormed) :
    (merge [nfa]).AcceptsWhole text ↔ nfa.AcceptsWhole text :=
  acceptsWhole_congr (fun _ => readable_merge_singleton hwf) (language_merge_singleton hwf)

theorem step_withoutGroups {p q : StateId} {label : Option Symbol} :
    nfa.withoutGroups.Step p label q ↔ nfa.Step p label q := Iff.rfl

theorem path_withoutGroups {p q : StateId} : nfa.withoutGroups.Path p w q ↔ nfa.Path p w q :=
  ⟨fun h => h.map (f := id) step_withoutGroups.1, fun h => h.map (f := id) step_withoutGroups.2⟩

theorem acceptsWhole_withoutGroups :
    nfa.withoutGroups.AcceptsWhole text ↔ nfa.AcceptsWhole text :=
  acceptsWhole_congr (fun _ => exists_congr fun _ => path_withoutGroups)
    (Set.ext fun _ => exists_congr fun _ => and_congr_right fun _ => path_withoutGroups)

/-! ### The end of the line behind an automaton -/

theorem readable_concat (hl : left.Fragment f) (hr : right.Fragment g) :
    (left.concat right).Readable w ↔
      left.Readable w ∨ ∃ u v, w = u ++ v ∧ u ∈ left.language ∧ right.Readable v := by
  simp only [Readable, Set.Nonempty, mem_reach, initial_concat, path_concat_iff hl hr,
    hl.mem_language]
  constructor
  · rintro ⟨r, h | ⟨u, v, r', rfl, -, hu, hv⟩⟩
    · exact .inl ⟨r, h⟩
    · exact .inr ⟨u, v, rfl, hu, r', hv⟩
  · rintro (⟨r, h⟩ | ⟨u, v, rfl, hu, r, hv⟩)
    · exact ⟨r, .inl h⟩
    · exact ⟨_, .inr ⟨u, v, r, rfl, rfl, hu, hv⟩⟩

/-- For a character the end of the line behind an automaton is no way on. -/
theorem Fragment.readable_of_concat_endOfLine (hl : left.Fragment f) {s : Symbol} {c : Char}
    (hs : s.accepts c = true)
    (h : (left.concat (ofSymbol .endOfLine)).Readable (w ++ [s])) : left.Readable (w ++ [s]) := by
  rcases (readable_concat hl (fragment_ofSymbol _)).1 h with h | ⟨u, v, heq, hu, hv⟩
  · exact h
  · rcases List.eq_nil_or_concat' v with rfl | ⟨v, t, rfl⟩
    · rw [heq, List.append_nil]
      exact readable_of_mem_language hu
    · -- Behind a word only the end of the line is read, which accepts no character.
      rw [← List.append_assoc] at heq
      obtain ⟨-, hlast⟩ := List.append_inj' heq rfl
      cases hlast
      obtain ⟨p, q, hstep⟩ := mem_alphabet.1 hv.mem_alphabet
      obtain rfl := Option.some.inj (step_ofSymbol.1 hstep).2.1
      cases hs

theorem Fragment.course_concat_endOfLine (hl : left.Fragment f) (hw : left.Readable w) :
    (left.concat (ofSymbol .endOfLine)).Course text w ↔ left.Course text w := by
  have hsub : ∀ w, left.Readable w → (left.concat (ofSymbol .endOfLine)).Readable w :=
    fun w h => (readable_concat hl (fragment_ofSymbol _)).2 (.inl h)
  exact ⟨fun h => h.of_subset hsub hw,
    fun h => h.of_taken (fun v s c hs => hl.readable_of_concat_endOfLine hs) (hsub w hw)⟩

/-- With the end of the line behind it, an automaton accepts a text when it accepts
all of it. -/
theorem Fragment.scanAccepts_concat_endOfLine (hl : left.Fragment f) :
    (left.concat (ofSymbol .endOfLine)).ScanAccepts text ↔ left.AcceptsWhole text := by
  have hlanguage : ∀ v, v ∈ (left.concat (ofSymbol .endOfLine)).language ↔
      ∃ w ∈ left.language, w ++ [.endOfLine] = v := by
    intro v
    rw [language_concat hl (fragment_ofSymbol _), language_ofSymbol, Language.mem_mul]
    exact exists_congr fun w => and_congr_right fun _ => exists_eq_left
  constructor
  · rintro ⟨place, v, hv, hcourse⟩
    obtain ⟨w, hw, rfl⟩ := (hlanguage v).1 hv
    obtain ⟨-, hcourse, -⟩ := courseTo_endOfLine_iff.1 hcourse
    exact ⟨w, hw, (hl.course_concat_endOfLine (readable_of_mem_language hw)).1 hcourse⟩
  · rintro ⟨w, hw, hcourse⟩
    have hend := (hlanguage _).2 ⟨w, hw, rfl⟩
    exact ⟨.atEnd, _, hend, courseTo_endOfLine_iff.2 ⟨rfl,
      (hl.course_concat_endOfLine (readable_of_mem_language hw)).2 hcourse,
      readable_of_mem_language hend⟩⟩

end Nfa

/-! ## The states that a text leads to -/

theorem Scan.map_state_after? (dfa : Dfa) (scan : Scan) (u : List Char) :
    (scan.after? dfa u).map (·.state) = dfa.reached? scan.state u := by
  induction u generalizing scan with
  | nil => rfl
  | cons c u ih =>
    rw [after?, Dfa.reached?, Option.map_bind]
    refine congrArg _ (funext fun target => ?_)
    rw [Function.comp_apply, ih, state_move]

/-- A text leads to a final state when all of it is accepted. -/
theorem Subset.Numbered.exists_reached?_iff {nfa : Nfa} {sets : StateSets} {dfa : Dfa}
    {text : List Char} (hwf : nfa.WellFormed) (h : Numbered nfa sets dfa) :
    (∃ q, dfa.reached? dfa.initial text = some q ∧ (dfa.state q).isFinal = true) ↔
      nfa.AcceptsWhole text := by
  have hstate := Scan.map_state_after? dfa (.start dfa) text
  constructor
  · rintro ⟨q, hq, hfinal⟩
    obtain ⟨scan, hscan, rfl⟩ := Option.map_eq_some_iff.1 (hstate.trans hq)
    obtain ⟨w, set, hcourse, hset, hlists⟩ := h.exists_course hwf hscan
    exact ⟨w, (h.isFinal_iff hset hlists).1 hfinal, hcourse⟩
  · rintro ⟨w, hw, hcourse⟩
    obtain ⟨scan, set, hscan, hset, hlists⟩ := h.exists_after? hwf hcourse
    rw [hscan, Option.map_some] at hstate
    exact ⟨scan.state, hstate.symm, (h.isFinal_iff hset hlists).2 hw⟩

/-! ## The pattern with a dollar -/

/-- The derivation of a pattern in parentheses with a dollar behind it. -/
def Expr.anchored (e : Expr) : Expr :=
  .term (.seq (.mk (.group e) none) (.factor (.mk .endOfLine none)))

/-- A pattern in parentheses with a dollar behind it. -/
def anchored (pattern : String) : String := parenthesized pattern ++ "$"

section

variable {options : Options} {pattern : String} {e : Expr} {alone : Nfa}

theorem Expr.parse_anchored (h : Expr.parse pattern = .ok e) :
    Expr.parse (LinePattern.anchored pattern) = .ok e.anchored := by
  obtain ⟨hgrammatical, hchars⟩ := Expr.derives_of_parse h
  refine Expr.parse_of_derives ⟨⟨hgrammatical, trivial⟩, ?_⟩
  simp [Expr.anchored, LinePattern.anchored, LinePattern.parenthesized, Expr.chars, Term.chars,
    Factor.chars, Primary.chars, hchars]

/-- The automaton has the end of the line behind one that is that of the pattern alone,
but for its groups. -/
theorem exists_patternNfa_anchored (hparse : Expr.parse pattern = .ok e)
    (hnfa : patternNfa options pattern = .ok alone) :
    ∃ (grouped : Nfa) (stop : StateId), grouped.Fragment stop ∧
      grouped.withoutGroups = alone.withoutGroups ∧
      patternNfa options (anchored pattern) = .ok (grouped.concat (.ofSymbol .endOfLine)) := by
  have hvalid := Expr.valid_of_parse hparse
  obtain ⟨body, hbody, -⟩ := e.exists_tree options.negation 1 hvalid
  obtain ⟨tree, htree, -⟩ := e.exists_tree options.negation 0 hvalid
  obtain ⟨stop, hfragment⟩ := TokenTree.exists_fragment options 0 (.capture 0 body)
  have htokens : (TokenTree.concat (.capture 0 body) .endOfLine).tokens = e.anchored.tokens := by
    simp [TokenTree.tokens, hbody, Expr.anchored, Expr.tokens, Expr.tokensFrom, Term.tokensFrom,
      Factor.tokensFrom, Primary.tokensFrom, Token.ofQuantifier]
  refine ⟨_, stop, hfragment, ?_, patternNfa_eq_of_tokens (Expr.parse_anchored hparse) htokens⟩
  rw [patternNfa_eq_of_tokens hparse htree] at hnfa
  cases hnfa
  refine TokenTree.withoutGroups_nfa_congr rfl ?_ 0 0
  rw [TokenTree.tokens, Token.withoutGroups_append, hbody, htree,
    Expr.withoutGroups_tokensFrom 1 0]
  exact List.append_nil _

end

namespace CompiledPattern

variable {options : Options} {pattern : String} {e : Expr} {alone whole : CompiledPattern}

/-- **A dollar behind a pattern asks for all of the text.** Let a pattern be readable,
with or without dollars of its own, and put it in parentheses with a dollar behind.
Under any options both compile unless there is a limit. With the dollar a text matches
when, in the automaton of the pattern alone, the steps for its characters meet no dead
end and lead to a final state. -/
theorem isMatch_anchored (hparse : Expr.parse pattern = .ok e) :
    (options.maxStates = none →
      (∃ alone, compile options pattern = .ok alone) ∧
        ∃ whole, compile options (anchored pattern) = .ok whole) ∧
    ∀ alone whole, compile options pattern = .ok alone →
      compile options (anchored pattern) = .ok whole → ∀ text : String,
      whole.isMatch text = true ↔
        ∃ q, alone.dfa.reached? alone.dfa.initial text.toList = some q ∧
          (alone.dfa.state q).isFinal = true := by
  refine ⟨fun hlimit => ⟨exists_compile hparse hlimit,
    exists_compile (Expr.parse_anchored hparse) hlimit⟩, fun alone whole halone hwhole text => ?_⟩
  obtain ⟨nfa, hnfa, hwf, -⟩ := exists_patternNfa options hparse
  obtain ⟨grouped, stop, hfragment, hgroups, hanchored⟩ := exists_patternNfa_anchored hparse hnfa
  obtain ⟨sets, hnumbered, -⟩ := exists_numbered hnfa halone
  calc whole.isMatch text = true
    _ ↔ (grouped.concat (.ofSymbol .endOfLine)).ScanAccepts text.toList :=
      isMatch_iff hanchored hwhole
    _ ↔ grouped.AcceptsWhole text.toList := hfragment.scanAccepts_concat_endOfLine
    _ ↔ nfa.AcceptsWhole text.toList := by
      rw [← Nfa.acceptsWhole_withoutGroups, hgroups, Nfa.acceptsWhole_withoutGroups]
    _ ↔ (Nfa.merge [nfa]).AcceptsWhole text.toList :=
      (Nfa.acceptsWhole_merge_singleton hwf).symm
    _ ↔ _ := (hnumbered.exists_reached?_iff (Nfa.wellFormed_merge_singleton hwf)).symm

/-- Two labels accept the first seven. The one taken is the last of the pattern, and
there is no way on to the second. -/
theorem isMatch_anchored_overlapping : ∃ alone whole,
    compile {} "\\w+7" = .ok alone ∧ compile {} "(\\w+7)$" = .ok whole ∧
    whole.isMatch "a7" = true ∧ whole.isMatch "a77" = false := by
  have hparse : Expr.parse "\\w+7" = .ok (.term (.seq (.mk (.escape 'w') (some .plus))
      (.factor (.mk (.literal '7') none)))) := by
    decide +kernel
  have hrun : ((compile {} "\\w+7").toOption.any fun alone =>
      (alone.dfa.reached? alone.dfa.initial "a7".toList).any
          (fun q => (alone.dfa.state q).isFinal) &&
        (alone.dfa.reached? alone.dfa.initial "a77".toList).isNone) = true := by
    decide +kernel
  obtain ⟨hcompile, hmatch⟩ := @isMatch_anchored {} _ _ hparse
  obtain ⟨-, whole, hwhole⟩ := hcompile rfl
  obtain ⟨alone, halone, hstates⟩ := exists_ok_of_any hrun
  obtain ⟨hfinal, hdead⟩ := Bool.and_eq_true_iff.1 hstates
  have hstate := hmatch alone whole halone hwhole
  refine ⟨alone, whole, halone, hwhole, (hstate "a7").2 ((Option.any_eq_true _ _).1 hfinal), ?_⟩
  rw [Bool.eq_false_iff, ne_eq, hstate, Option.isNone_iff_eq_none.1 hdead]
  simp

end CompiledPattern

end LinePattern
