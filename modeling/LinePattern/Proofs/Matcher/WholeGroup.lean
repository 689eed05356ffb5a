/-
A group around a whole pattern.

In parentheses a pattern has the automaton that it has without them, and one
group that all transitions belong to (`exists_nfa_parenthesized`), so all that a
scan reads is credited to this group (`Nfa.Credits.eq_ofWhole`). Where no
character is accepted by two labels, a scan reads what the language has, and the
capture is what the match takes of the text: under the longest policy the longest
that it can take, under the first policy the shortest beginning of the text that
belongs to the language (`captures_parenthesized`).
-/
import LinePattern.Proofs.Dfa.Answers
import LinePattern.Proofs.Dfa.Prefixes
import LinePattern.Proofs.Matcher.SingleCaptures
import LinePattern.Proofs.Pattern.Groups

namespace LinePattern

open Computability

/-! ## The pattern in parentheses -/

/-- The derivation of a pattern in parentheses. -/
def Expr.parenthesized (e : Expr) : Expr := .term (.factor (.mk (.group e) none))

/-- A pattern in parentheses. -/
def parenthesized (pattern : String) : String := "(" ++ pattern ++ ")"

section

variable {options : Options} {pattern : String} {e : Expr} {nfa : Nfa} {group : Nat}

theorem Expr.parse_parenthesized (h : Expr.parse pattern = .ok e) :
    Expr.parse (LinePattern.parenthesized pattern) = .ok e.parenthesized := by
  obtain ⟨hgrammatical, hchars⟩ := Expr.derives_of_parse h
  refine Expr.parse_of_derives ⟨hgrammatical, ?_⟩
  simp [Expr.parenthesized, LinePattern.parenthesized, Expr.chars, Term.chars, Factor.chars,
    Primary.chars, hchars]

/-- All transitions belong to the group. -/
def Nfa.AllIn (nfa : Nfa) (group : Nat) : Prop := ∀ e ∈ nfa.edges, nfa.groupOf? e = some group

theorem Nfa.allIn_recordCapture (h : nfa.captures = []) :
    (nfa.recordCapture group).AllIn group := by
  intro e he
  have hmem : e ∈ nfa.edges := he
  simp [groupOf?, recordCapture, h, hmem]

theorem Expr.exists_tree_without_groups (opened : Nat) (h : e.Grammatical)
    (hgroups : e.groups = 0) :
    ∃ tree : TokenTree, tree.tokens = e.tokensFrom opened ∧ tree.groups = 0 ∧
      ∀ options closed, (tree.nfa options closed).captures = [] := by
  obtain ⟨tree, htokens, hrecords⟩ := e.exists_records opened h
  have hclosings : e.closings opened = [] := by
    rw [← List.length_eq_zero_iff, e.length_closings, hgroups]
  rw [hclosings] at hrecords
  exact ⟨tree, htokens, hrecords.groups_eq, fun options closed =>
    List.forall₂_nil_right_iff.1 (hrecords.record options closed).holds⟩

/-- Without groups of its own a pattern keeps its transitions, which all belong to
the group around it. -/
theorem exists_nfa_parenthesized (hparse : Expr.parse pattern = .ok e) (hgroups : e.groups = 0)
    (hnfa : patternNfa options pattern = .ok nfa) :
    ∃ whole, patternNfa options (parenthesized pattern) = .ok whole ∧
      whole.edges = nfa.edges ∧ whole.AllIn 0 := by
  have hgrammatical := (Expr.derives_of_parse hparse).grammatical
  obtain ⟨body, hbody, hnone, hcaptures⟩ := Expr.exists_tree_without_groups 1 hgrammatical hgroups
  obtain ⟨alone, halone, -⟩ := e.exists_tree options.negation 0 hgrammatical.valid
  have hwhole : patternNfa options (parenthesized pattern) =
      .ok ((TokenTree.capture 0 body).nfa options 0) := by
    refine patternNfa_eq_of_tokens (Expr.parse_parenthesized hparse) ?_
    rw [TokenTree.tokens, hbody]
    exact (List.append_nil _).symm
  have hedges : (body.nfa options 0).edges = nfa.edges := by
    rw [patternNfa_eq_of_tokens hparse halone] at hnfa
    cases hnfa
    refine TokenTree.edges_nfa_congr rfl ?_ 0 0
    rw [hbody, halone, Expr.withoutGroups_tokensFrom]
  -- Whichever way groups are numbered, the only one has the number 0.
  have hrecord : (TokenTree.capture 0 body).nfa options 0 =
      (body.nfa options 0).recordCapture 0 := by
    rw [TokenTree.nfa, hnone]
    cases options.numbering <;> rfl
  rw [hrecord] at hwhole
  exact ⟨_, hwhole, hedges, Nfa.allIn_recordCapture (hcaptures options 0)⟩

end

/-! ## The slot of the group -/

/-- The slots when all that is read belongs to the group `0`. There is none before
the first character. -/
def Slots.ofWhole (u : List Char) : Slots := if u = [] then [] else [u.reverse]

theorem Slots.creditTo_ofWhole (u : List Char) (c : Char) :
    (ofWhole u).creditTo (some 0) c = ofWhole (u ++ [c]) := by
  by_cases hu : u = []
  · subst hu
    rfl
  · simp [ofWhole, hu, creditTo, credit, List.rightpad]

theorem Slots.texts_ofWhole (u : List Char) :
    (ofWhole u).texts = if u = [] then [] else [String.ofList u] := by
  unfold ofWhole texts
  split <;> simp

namespace Nfa

variable {nfa : Nfa} {group : Nat} {u : List Char} {v w : List Symbol} {s : Symbol} {slots : Slots}

theorem AllIn.creditFor_eq (h : nfa.AllIn group) (hwf : nfa.WellFormed)
    (hread : nfa.Readable (v ++ [s])) : nfa.creditFor v s = some group := by
  obtain ⟨q, hq⟩ := hread
  obtain ⟨p, r, hp, hstep, -⟩ := mem_reach_concat.1 hq
  have hgroup : ∀ e, nfa.Leaves v e → nfa.groupOf? e = some group := fun e he =>
    h e (mem_edges.2 he.step)
  have hleaves : nfa.Leaves v ⟨p, s, r⟩ := ⟨hp, hstep⟩
  have hagrees : nfa.AgreesAt v s := fun e f he hf _ _ => (hgroup f hf).trans (hgroup e he).symm
  rw [Nfa.creditFor_eq hwf hagrees hleaves rfl, hgroup _ hleaves]

theorem Credits.eq_ofWhole (hwf : nfa.WellFormed) (hall : nfa.AllIn 0) (h : nfa.Credits u w slots)
    (hread : nfa.Readable w) : slots = .ofWhole u := by
  induction h with
  | nil => rfl
  | concat c s _ ih => rw [ih hread.of_append, hall.creditFor_eq hwf hread, Slots.creditTo_ofWhole]

end Nfa

/-! ## What a match takes -/

/-- What a match can take of a text: a beginning that belongs to the language, or
all of it if it belongs to it with the mark for its end. -/
def takings (L : Language Glyph) (text : List Char) : Set (List Char) :=
  beginnings L text ∪ {u | u ≠ [] ∧ u = text ∧ text.map .char ++ [.endOfText] ∈ L}

theorem prefix_of_mem_takings {L : Language Glyph} {text u : List Char}
    (h : u ∈ takings L text) : u <+: text := by
  rcases h with ⟨-, hbegins, -⟩ | ⟨-, rfl, -⟩
  · exact hbegins
  · exact List.prefix_rfl

theorem ne_nil_of_takings {L : Language Glyph} {text : List Char} (h : (takings L text).Nonempty) :
    text ≠ [] := by
  rintro rfl
  obtain ⟨u, hu⟩ := h
  have hnil := List.prefix_nil.1 (prefix_of_mem_takings hu)
  rcases hu with ⟨hne, -⟩ | ⟨hne, -⟩
  · exact hne hnil
  · exact hne hnil

/-- No text of the set is longer. -/
def IsLongest (texts : Set (List Char)) (u : List Char) : Prop :=
  u ∈ texts ∧ ∀ v ∈ texts, v.length ≤ u.length

/-- No text of the set is shorter. -/
def IsShortest (texts : Set (List Char)) (u : List Char) : Prop :=
  u ∈ texts ∧ ∀ v ∈ texts, u.length ≤ v.length

namespace CompiledPattern

variable {options : Options} {pattern : String} {e : Expr} {nfa : Nfa}
  {compiled : CompiledPattern} {text : String}

/-- How a compiled pattern follows a language, crediting all that it reads to one
group. -/
structure TakesWhole (compiled : CompiledPattern) (L : Language Glyph) (text : String) : Prop where
  mem_acceptedAfter_iff : ∀ k, k ∈ compiled.dfa.acceptedAfter text ↔
    k ≤ text.toList.length ∧ text.toList.take k ∈ beginnings L text.toList
  isSome_endState?_iff : (compiled.dfa.endState? text).isSome = true ↔
    text.toList.map .char ++ [.endOfText] ∈ L
  creditAfter_eq : ∀ k q, compiled.dfa.stateAfter? text k = some q →
    compiled.dfa.creditAfter text k = (Slots.ofWhole (text.toList.take k)).texts

/-- Behind the first characters, the slots are filled along the word that the pattern
takes for them. -/
theorem exists_credits_of_stateAfter? (hnfa : patternNfa options pattern = .ok nfa)
    (hcompile : compile options pattern = .ok compiled) {k : Nat} {q : StateId}
    (hq : compiled.dfa.stateAfter? text k = some q) :
    ∃ w slots, nfa.Course (text.toList.take k) w ∧ nfa.Credits (text.toList.take k) w slots ∧
      compiled.dfa.creditAfter text k = slots.texts := by
  have hwf := wellFormed_of_patternNfa hnfa
  obtain ⟨sets, hnumbered, -⟩ := exists_numbered hnfa hcompile
  obtain ⟨scan, hscan, -, hcredit⟩ := Scan.exists_after?_of_stateAfter? hq
  have hplace : (Place.behind (text.toList.take k)).Within text.toList := List.take_prefix k _
  obtain ⟨w, -, hcourse, -⟩ :=
    hnumbered.exists_courseTo (Nfa.wellFormed_merge_singleton hwf) hplace hscan
  have hown := (Nfa.courseTo_merge_singleton hwf).1 hcourse
  have hslots := Subset.creditsTo_merge (List.forall_mem_singleton.2 hwf)
    (List.forall_mem_singleton.2 (capturesSteps_of_patternNfa hnfa)) hnumbered
    (List.getElem?_cons_zero (a := nfa)) (fun other h => by cases h) hcourse hown.readable hscan
  cases hown with
  | behind _ hown =>
    cases hslots with
    | behind hcredits => exact ⟨w, scan.slots, hown, hcredits, hcredit⟩

/-- Where all transitions belong to the group, all that is read is credited to it. -/
theorem creditAfter_of_allIn (hnfa : patternNfa options pattern = .ok nfa) (hall : nfa.AllIn 0)
    (hcompile : compile options pattern = .ok compiled) {k : Nat} {q : StateId}
    (hq : compiled.dfa.stateAfter? text k = some q) :
    compiled.dfa.creditAfter text k = (Slots.ofWhole (text.toList.take k)).texts := by
  obtain ⟨w, slots, hcourse, hcredits, hcredit⟩ := exists_credits_of_stateAfter? hnfa hcompile hq
  rw [hcredit, hcredits.eq_ofWhole (wellFormed_of_patternNfa hnfa) hall hcourse.readable]

/-- Where labels do not overlap, a scan accepts along the language: behind the beginnings of
the text that belong to it, at the end of the line if the text belongs to it with the mark,
and initially if the empty text does. -/
theorem accepts_along_language (hparse : Expr.parse pattern = .ok e)
    (hnfa : patternNfa options pattern = .ok nfa) (hdisjoint : nfa.ScalarDisjoint)
    (hcompile : compile options pattern = .ok compiled) (text : String) :
    (∀ k, k ∈ compiled.dfa.acceptedAfter text ↔ k ≤ text.toList.length ∧
      text.toList.take k ∈ beginnings (e.language options.negation) text.toList) ∧
    ((compiled.dfa.endState? text).isSome = true ↔
      text.toList.map .char ++ [.endOfText] ∈ e.language options.negation) ∧
    ((compiled.dfa.state compiled.dfa.initial).isFinal = true ↔
      [] ∈ e.language options.negation) := by
  obtain ⟨nfa', hnfa', hwf, hread⟩ := exists_patternNfa options hparse
  rw [hnfa] at hnfa'
  cases hnfa'
  obtain ⟨sets, hnumbered, -⟩ := exists_numbered hnfa hcompile
  have hwf' := Nfa.wellFormed_merge_singleton hwf
  have hdisjoint' := hdisjoint.merge_singleton hwf
  have hlanguage : readings (Nfa.merge [nfa]).language = e.language options.negation := by
    rw [Nfa.language_merge_singleton hwf, hread]
  rw [← hlanguage, nil_mem_readings]
  refine ⟨fun k => hnumbered.mem_acceptedAfter_iff hwf' hdisjoint',
    hnumbered.isSome_endState?_iff hwf' hdisjoint', ?_⟩
  obtain ⟨set, hset, hlists⟩ := hnumbered.exists_start
  exact hnumbered.isFinal_iff hset hlists

theorem takesWhole_parenthesized (hparse : Expr.parse pattern = .ok e) (hgroups : e.groups = 0)
    (hnfa : patternNfa options pattern = .ok nfa) (hdisjoint : nfa.ScalarDisjoint)
    (hcompile : compile options (parenthesized pattern) = .ok compiled) (text : String) :
    compiled.TakesWhole (e.language options.negation) text ∧
      compiled.policy = options.policyOr .first := by
  obtain ⟨whole, hwhole, hedges, hall⟩ := exists_nfa_parenthesized hparse hgroups hnfa
  obtain ⟨-, -, hpolicy⟩ := exists_numbered hwhole hcompile
  have hdisjoint' : whole.ScalarDisjoint := by
    rwa [Nfa.ScalarDisjoint, Nfa.alphabet, hedges]
  obtain ⟨hbehind, hend, -⟩ :=
    accepts_along_language (Expr.parse_parenthesized hparse) hwhole hdisjoint' hcompile text
  exact ⟨⟨hbehind, hend, fun k q => creditAfter_of_allIn hwhole hall hcompile⟩, hpolicy⟩

namespace TakesWhole

variable {L : Language Glyph} {policy : MatchPolicy} {outcome : Outcome} {k : Nat} {q : StateId}

theorem take_mem (h : compiled.TakesWhole L text) (hk : k ∈ compiled.dfa.acceptedAfter text) :
    text.toList.take k ∈ beginnings L text.toList :=
  ((h.mem_acceptedAfter_iff k).1 hk).2

theorem length_take (h : compiled.TakesWhole L text)
    (hk : k ∈ compiled.dfa.acceptedAfter text) : (text.toList.take k).length = k := by
  rw [List.length_take, Nat.min_eq_left ((h.mem_acceptedAfter_iff k).1 hk).1]

theorem length_mem (h : compiled.TakesWhole L text) {u : List Char}
    (hu : u ∈ beginnings L text.toList) : u.length ∈ compiled.dfa.acceptedAfter text := by
  have hbegins := hu.2.1
  rw [List.prefix_iff_eq_take.1 hbegins] at hu
  exact (h.mem_acceptedAfter_iff _).2 ⟨hbegins.length_le, hu⟩

theorem beginnings_eq_empty (h : compiled.TakesWhole L text)
    (hnone : compiled.dfa.acceptedAfter text = ∅) : beginnings L text.toList = ∅ := by
  refine Set.eq_empty_of_forall_notMem fun u hu => ?_
  have hlength := h.length_mem hu
  rwa [hnone] at hlength

theorem takings_eq_beginnings (h : compiled.TakesWhole L text)
    (hend : compiled.dfa.endState? text = none) :
    takings L text.toList = beginnings L text.toList := by
  refine Set.union_eq_left.2 ?_
  rintro u ⟨-, -, hmark⟩
  rw [← h.isSome_endState?_iff, hend] at hmark
  cases hmark

theorem mem_takings_of_endState? (h : compiled.TakesWhole L text)
    (hend : compiled.dfa.endState? text = some q) (hne : text.toList ≠ []) :
    text.toList ∈ takings L text.toList :=
  .inr ⟨hne, rfl, h.isSome_endState?_iff.1 (by rw [hend, Option.isSome_some])⟩

theorem captures_behind (h : compiled.TakesWhole L text)
    (hk : k ∈ compiled.dfa.acceptedAfter text) (hq : compiled.dfa.stateAfter? text k = some q) :
    compiled.dfa.creditAfter text k = [String.ofList (text.toList.take k)] := by
  rw [h.creditAfter_eq k q hq, Slots.texts_ofWhole, if_neg (h.take_mem hk).1]

theorem captures_atEnd (h : compiled.TakesWhole L text)
    (hend : compiled.dfa.endState? text = some q) :
    compiled.dfa.creditAfter text text.toList.length =
      if text.toList = [] then [] else [text] := by
  obtain ⟨q', hq', -⟩ := Option.bind_eq_some_iff.1 (Option.filter_eq_some_iff.1 hend).1
  rw [h.creditAfter_eq _ q' hq', List.take_length, Slots.texts_ofWhole, String.ofList_toList]

/-! ### The policies -/

/-- The longest scan takes the longest that can be taken. -/
theorem captures_longest (h : compiled.TakesWhole L text)
    (hreplays : compiled.dfa.Replays text .longest outcome)
    (hne : (takings L text.toList).Nonempty) :
    ∃ u, IsLongest (takings L text.toList) u ∧ outcome.captures = [String.ofList u] := by
  cases hreplays with
  | longest_atEnd hend =>
    have htext := ne_nil_of_takings hne
    refine ⟨text.toList, ⟨h.mem_takings_of_endState? hend htext, ?_⟩, ?_⟩
    · exact fun v hv => (prefix_of_mem_takings hv).length_le
    · rw [Dfa.accept, h.captures_atEnd hend, if_neg htext, String.ofList_toList]
  | @longest_behind k q hend hk hq =>
    rw [h.takings_eq_beginnings hend]
    refine ⟨text.toList.take k, ⟨h.take_mem hk.1, fun v hv => ?_⟩, h.captures_behind hk.1 hq⟩
    rw [h.length_take hk.1]
    exact hk.2 (h.length_mem hv)
  | initially hnone hend _ | rejected hnone hend _ =>
    rw [h.takings_eq_beginnings hend, h.beginnings_eq_empty hnone] at hne
    exact absurd hne Set.not_nonempty_empty

/-- The first scan takes the shortest beginning. -/
theorem captures_first (h : compiled.TakesWhole L text)
    (hreplays : compiled.dfa.Replays text .first outcome)
    (hne : (beginnings L text.toList).Nonempty) :
    ∃ u, IsShortest (beginnings L text.toList) u ∧ outcome.captures = [String.ofList u] := by
  cases hreplays with
  | @first_behind k q hk hq =>
    refine ⟨text.toList.take k, ⟨h.take_mem hk.1, fun v hv => ?_⟩, h.captures_behind hk.1 hq⟩
    rw [h.length_take hk.1]
    exact hk.2 (h.length_mem hv)
  | first_atEnd hnone _ | initially hnone _ _ | rejected hnone _ _ =>
    rw [h.beginnings_eq_empty hnone] at hne
    exact absurd hne Set.not_nonempty_empty

theorem captures_first_atEnd (h : compiled.TakesWhole L text)
    (hreplays : compiled.dfa.Replays text .first outcome)
    (hnone : beginnings L text.toList = ∅) (hne : (takings L text.toList).Nonempty) :
    outcome.captures = [text] := by
  cases hreplays with
  | first_behind hk =>
    have hmem := h.take_mem hk.1
    rw [hnone] at hmem
    exact absurd hmem (Set.notMem_empty _)
  | first_atEnd _ hend =>
    rw [Dfa.accept, h.captures_atEnd hend, if_neg (ne_nil_of_takings hne)]
  | initially _ hend _ | rejected _ hend _ =>
    rw [h.takings_eq_beginnings hend, hnone] at hne
    exact absurd hne Set.not_nonempty_empty

/-- With nothing to take nothing is captured, under any policy. -/
theorem captures_eq_nil (h : compiled.TakesWhole L text)
    (hreplays : compiled.dfa.Replays text policy outcome)
    (hnone : takings L text.toList = ∅) : outcome.captures = [] := by
  have hbehind : ∀ {k}, k ∉ compiled.dfa.acceptedAfter text := fun {k} hk =>
    Set.eq_empty_iff_forall_notMem.1 hnone _ (.inl (h.take_mem hk))
  have hend : ∀ {q}, compiled.dfa.endState? text = some q →
      compiled.dfa.creditAfter text text.toList.length = [] := by
    intro q hend
    rw [h.captures_atEnd hend, if_pos]
    by_contra hne
    exact Set.eq_empty_iff_forall_notMem.1 hnone _ (h.mem_takings_of_endState? hend hne)
  cases hreplays with
  | first_behind hk | longest_behind _ hk => exact absurd hk.1 hbehind
  | earlyExit_behind _ hk => exact absurd hk.1.1 hbehind
  | first_atEnd _ hq | longest_atEnd hq | earlyExit_atEnd _ hq => exact hend hq
  | initially | rejected => rfl

end TakesWhole

/-- **A group around a pattern captures what a match takes.** Let a pattern have no
groups, and an automaton in which no character is accepted by two labels. In
parentheses it compiles unless there is a limit. Under the longest policy its
capture is then the longest that can be taken of a text; under the first policy it
is the shortest beginning that belongs to the language, or, if there is none, all
of the text where that can be taken. Where nothing can be taken there is no
capture. -/
theorem captures_parenthesized (hparse : Expr.parse pattern = .ok e) (hgroups : e.groups = 0)
    (hnfa : patternNfa options pattern = .ok nfa) (hdisjoint : nfa.ScalarDisjoint) :
    (options.maxStates = none →
      ∃ compiled, compile options (parenthesized pattern) = .ok compiled) ∧
    ∀ compiled, compile options (parenthesized pattern) = .ok compiled → ∀ text : String,
      (options.policyOr .first = .longest →
        (takings (e.language options.negation) text.toList).Nonempty →
        ∃ u, IsLongest (takings (e.language options.negation) text.toList) u ∧
          (compiled.verdict text).captures = [String.ofList u]) ∧
      (options.policyOr .first = .first →
        (beginnings (e.language options.negation) text.toList).Nonempty →
        ∃ u, IsShortest (beginnings (e.language options.negation) text.toList) u ∧
          (compiled.verdict text).captures = [String.ofList u]) ∧
      (options.policyOr .first = .first →
        beginnings (e.language options.negation) text.toList = ∅ →
        (takings (e.language options.negation) text.toList).Nonempty →
        (compiled.verdict text).captures = [text]) ∧
      (takings (e.language options.negation) text.toList = ∅ →
        (compiled.verdict text).captures = []) := by
  refine ⟨exists_compile (Expr.parse_parenthesized hparse), fun compiled hcompile text => ?_⟩
  obtain ⟨h, hpolicy⟩ := takesWhole_parenthesized hparse hgroups hnfa hdisjoint hcompile text
  have hreplays := compiled.dfa.replays_scan compiled.policy text
  rw [captures_verdict, ← hpolicy]
  refine ⟨fun hlongest => ?_, fun hfirst => ?_, fun hfirst => ?_, h.captures_eq_nil hreplays⟩
  · exact h.captures_longest (hlongest ▸ hreplays)
  · exact h.captures_first (hfirst ▸ hreplays)
  · exact h.captures_first_atEnd (hfirst ▸ hreplays)

/-- A text that can only be taken up to its end. -/
theorem captures_parenthesized_star :
    ∃ compiled, compile {} "(a*$)" = .ok compiled ∧ (compiled.verdict "aa").captures = ["aa"] := by
  have hparse : Expr.parse "a*$" = .ok (.term (.seq (.mk (.literal 'a') (some .star))
      (.factor (.mk .endOfLine none)))) := by
    decide +kernel
  have hlabels : ((patternNfa {} "a*$").toOption.any fun nfa =>
      nfa.alphabet == [.char 'a', .endOfLine]) = true := by
    decide +kernel
  obtain ⟨nfa, hnfa, halphabet⟩ := exists_ok_of_any hlabels
  obtain ⟨hcompile, hcaptures⟩ := captures_parenthesized hparse rfl hnfa
    (Nfa.scalarDisjoint_of_chars (by simp [eq_of_beq halphabet]))
  obtain ⟨compiled, hcompiled⟩ := hcompile rfl
  -- A beginning of the text is without the mark that all texts of the language end in.
  have hnone : ∀ u : List Char, u.map .char ∉
      Term.language .complement (.seq (.mk (.literal 'a') (some .star))
        (.factor (.mk .endOfLine none))) := by
    rintro u ⟨before, -, last, rfl, happend⟩
    have hmark : Glyph.endOfText ∈ u.map Glyph.char := happend ▸ by simp
    simp at hmark
  have ha : [.char 'a'] ∈ oneChar fun c => (Symbol.char 'a').accepts c = true := ⟨'a', rfl, rfl⟩
  have hstar : [[.char 'a'], [.char 'a']].flatten ∈
      (oneChar fun c => (Symbol.char 'a').accepts c = true)∗ :=
    Language.join_mem_kstar (by simpa using ha)
  refine ⟨compiled, hcompiled, (hcaptures compiled hcompiled "aa").2.2.1 rfl ?_ ?_⟩
  · exact Set.eq_empty_of_forall_notMem fun u hu => hnone u hu.2.2
  · exact ⟨_, .inr ⟨by simp, rfl, Language.append_mem_mul hstar rfl⟩⟩

end CompiledPattern

end LinePattern
