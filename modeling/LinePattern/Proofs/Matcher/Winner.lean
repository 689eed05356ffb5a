/-
Who wins an overlap.

Where no character is accepted by two labels, the word that a scan takes up to
a place is the only one that reads what stands before it. A pattern accepts at
the place, then, exactly when what was read belongs to its language, and the
winner is the first in the list of the patterns that do (`winner_isLeast`).

The end of the text is a place of its own. It goes before the place behind the
last character, except under the policy that stops at the first place: a pattern
that accepts at the one does not compete with a pattern that accepts at the
other (`winner_at_other_place`).
-/
import LinePattern.Proofs.Matcher.Set

namespace LinePattern

variable {options : Options} {pattern : String} {nfa : Nfa} {nfas : List Nfa}

theorem exists_parse_of_patternNfa (h : patternNfa options pattern = .ok nfa) :
    ∃ e, Expr.parse pattern = .ok e ∧ readings nfa.language = e.language options.negation := by
  obtain ⟨tokens, htokenize, -⟩ := bind_eq_ok_iff.1 h
  rw [mapError_eq_ok_iff, tokenize_eq_ok_iff_parse] at htokenize
  obtain ⟨e, hparse, -⟩ := htokenize
  obtain ⟨nfa', hnfa', -, hread⟩ := exists_patternNfa options hparse
  rw [h] at hnfa'
  cases hnfa'
  exact ⟨e, hparse, hread⟩

theorem Nfa.scalarDisjoint_of_chars
    (h : ∀ s ∈ nfa.alphabet, s = .endOfLine ∨ ∃ x, s = .char x) : nfa.ScalarDisjoint := by
  intro s hs t ht c hsc htc
  rcases h s hs with rfl | ⟨x, rfl⟩
  · cases hsc
  · rcases h t ht with rfl | ⟨y, rfl⟩
    · cases htc
    · exact Symbol.eq_of_accepts_char hsc htc

namespace PatternSet

variable {P : Type} {patterns : List (String × P)} {set : PatternSet P} {text : String}
  {stop : Stop} {w : List Symbol} {i : PatternId}

theorem exists_glyphs_of_payload {payload : P}
    (hcompile : compile options patterns = .ok set)
    (h : (set.verdict text).payload = some payload) :
    ∃ p ∈ patterns, p.2 = payload ∧ ∃ (e : Expr) (place : Place), Expr.parse p.1 = .ok e ∧
      place.Within text.toList ∧ place.glyphs text.toList ∈ e.language options.negation := by
  have hmatch : set.isMatch text = true := by
    by_contra hno
    rw [verdict, Verdict.ofOutcome, ← isMatch_eq, if_neg hno] at h
    cases h
  obtain ⟨nfas, hnfas, stop, w, i, hwins⟩ := exists_wins hcompile hmatch
  obtain ⟨nfa, hnfa, hL, hcourse⟩ := hwins.exists_courseTo (wellFormed_of_patternNfas hnfas)
  obtain ⟨p, hp, hbuild⟩ := exists_pattern hnfas hnfa
  obtain ⟨e, hparse, hread⟩ := exists_parse_of_patternNfa hbuild
  obtain ⟨-, -, -, -, -, hpatterns, -⟩ := exists_numbered hcompile
  have hpayload : p.2 = payload := by
    have hwinner := hwins.winner?_eq
    rw [winner?] at hwinner
    rw [verdict, Verdict.ofOutcome, ← isMatch_eq, if_pos hmatch, hwinner, Option.bind_some,
      payload?, hpatterns, hp, Option.map_some] at h
    exact Option.some.inj h
  exact ⟨p, List.mem_of_getElem? hp, hpayload, e, stop.place, hparse,
    (Scan.settled_of_stop? hwins.stop?_eq).within, hread ▸ ⟨w, hL, hcourse.reads⟩⟩

/-- The places in the list of the patterns whose language holds what is read up
to a place of the text. -/
def acceptorsAt (options : Options) (patterns : List (String × P)) (text : List Char)
    (place : Place) : Set PatternId :=
  {i | ∃ p e, patterns[i]? = some p ∧ Expr.parse p.1 = .ok e ∧
    place.glyphs text ∈ e.language options.negation}

section

variable (hnfas : patternNfas options (patterns.map (·.1)) = .ok nfas)

include hnfas

/-- A pattern accepts at a place when a word of its automaton reads what is read
up to there. -/
theorem mem_acceptorsAt {place : Place} : i ∈ acceptorsAt options patterns text.toList place ↔
    ∃ nfa, nfas[i]? = some nfa ∧ place.glyphs text.toList ∈ readings nfa.language := by
  constructor
  · rintro ⟨p, e, hp, hparse, hglyphs⟩
    obtain ⟨nfa, hnfa, hbuild⟩ := exists_nfa hnfas hp
    obtain ⟨e', hparse', hread⟩ := exists_parse_of_patternNfa hbuild
    rw [hparse] at hparse'
    cases hparse'
    exact ⟨nfa, hnfa, hread ▸ hglyphs⟩
  · rintro ⟨nfa, hnfa, hglyphs⟩
    obtain ⟨p, hp, hbuild⟩ := exists_pattern hnfas hnfa
    obtain ⟨e, hparse, hread⟩ := exists_parse_of_patternNfa hbuild
    exact ⟨p, e, hp, hparse, hread ▸ hglyphs⟩

theorem readable_merge_of_mem {v : List Symbol} (hnfa : nfas[i]? = some nfa)
    (hv : v ∈ nfa.language) : (Nfa.merge nfas).Readable v :=
  (Nfa.readable_merge (wellFormed_of_patternNfas hnfas)).2
    (.inr ⟨nfa, List.mem_of_getElem? hnfa, Nfa.readable_of_mem_language hv⟩)

variable (hdisjoint : (Nfa.merge nfas).ScalarDisjoint)

include hdisjoint

/-- Without overlapping labels the patterns that accept the course are those
whose language holds what was read. -/
theorem acceptors_eq_acceptorsAt {place : Place}
    (hcourse : (Nfa.merge nfas).CourseTo text.toList place w) :
    Nfa.acceptors nfas w = acceptorsAt options patterns text.toList place := by
  ext i
  rw [mem_acceptorsAt hnfas]
  constructor
  · rintro ⟨nfa, hnfa, hL⟩
    exact ⟨nfa, hnfa, w, hL, hcourse.reads⟩
  · rintro ⟨nfa, hnfa, v, hL, hreads⟩
    have hv := readable_merge_of_mem hnfas hnfa hL
    rw [← hcourse.eq_of_reads hdisjoint hv hreads]
    exact ⟨nfa, hnfa, hL⟩

/-- Where the scan stops behind the last character, no pattern accepts at the
end, unless the policy stops at the first place. -/
theorem acceptorsAt_atEnd_eq_empty (hcompile : compile options patterns = .ok set)
    (hstop : Scan.stop? set.dfa set.policy text.toList = some stop)
    (hcourse : (Nfa.merge nfas).CourseTo text.toList stop.place w)
    (hplace : stop.place = .behind text.toList) (hpolicy : set.policy ≠ .first ∨ text = "") :
    acceptorsAt options patterns text.toList .atEnd = ∅ := by
  obtain ⟨nfas', sets, hnfas', hwf, hnumbered, -⟩ := exists_numbered hcompile
  rw [hnfas] at hnfas'
  cases hnfas'
  have hlate : set.policy ≠ .first ∨ text.toList = [] := by simpa using hpolicy
  have hno := (Scan.settled_of_stop? hstop).not_accepts_atEnd hlate hplace
  rw [hplace] at hcourse
  cases hcourse with
  | behind _ hcourse =>
    rw [Set.eq_empty_iff_forall_notMem]
    intro i hi
    obtain ⟨nfa, hnfa, v, hL, hreads⟩ := (mem_acceptorsAt hnfas).1 hi
    obtain ⟨v', s, rfl, hbefore, hs⟩ := Symbol.forall₂_reads_concat.1 hreads
    obtain rfl := Symbol.reads_endOfText.1 hs
    have hv := readable_merge_of_mem hnfas hnfa hL
    obtain rfl := hcourse.eq_of_reads hdisjoint hv.of_append hbefore
    have hmerge := (Nfa.mem_language_merge (wellFormed_of_patternNfas hnfas)).2
      ⟨nfa, List.mem_of_getElem? hnfa, hL⟩
    obtain ⟨next, haccepts⟩ := hnumbered.exists_accepts hwf (.atEnd hcourse hv) hmerge
    exact hno next haccepts

end

/-- **The pattern that stands first wins.** Where no two labels of the patterns
accept one character, a match has a place at which the scan stops, and the
winner is the first pattern in the list whose language holds what is read up to
there. When that is behind the last character, no pattern accepts at the end of
the text, unless the policy stops at the first place. -/
theorem winner_isLeast (hcompile : compile options patterns = .ok set)
    (hnfas : patternNfas options (patterns.map (·.1)) = .ok nfas)
    (hdisjoint : (Nfa.merge nfas).ScalarDisjoint) (text : String)
    (hmatched : (set.verdict text).matched = true) :
    ∃ stop i, Scan.stop? set.dfa set.policy text.toList = some stop ∧
      stop.place.Within text.toList ∧ set.winner? text = some i ∧
      IsLeast (acceptorsAt options patterns text.toList stop.place) i ∧
      (stop.place = .behind text.toList → set.policy ≠ .first ∨ text = "" →
        acceptorsAt options patterns text.toList .atEnd = ∅) := by
  rw [matched_verdict] at hmatched
  obtain ⟨nfas', hnfas', stop, w, i, hwins⟩ := exists_wins hcompile hmatched
  rw [hnfas] at hnfas'
  cases hnfas'
  have hleast := hwins.isLeast
  rw [acceptors_eq_acceptorsAt hnfas hdisjoint hwins.courseTo] at hleast
  exact ⟨stop, i, hwins.stop?_eq, (Scan.settled_of_stop? hwins.stop?_eq).within, hwins.winner?_eq,
    hleast, acceptorsAt_atEnd_eq_empty hnfas hdisjoint hcompile hwins.stop?_eq hwins.courseTo⟩

/-- Three patterns that begin alike; two of them accept at the same place. -/
theorem winner_isLeast_alike :
    IsLeast (acceptorsAt { policy := some .longest } [("a", 5), ("ab", 3), ("a(b)", 4)]
      ['a', 'b'] (.behind ['a', 'b'])) 1 := by
  have hrun : ((compile { policy := some .longest } [("a", 5), ("ab", 3), ("a(b)", 4)]).toOption.any
      fun set => (set.verdict "ab").matched &&
        ((Scan.stop? set.dfa set.policy "ab".toList).map (·.place) == some (.behind ['a', 'b']) &&
          set.winner? "ab" == some 1)) = true := by
    decide +kernel
  have hlabels : ((patternNfas { policy := some .longest } ["a", "ab", "a(b)"]).toOption.any
      fun nfas => (Nfa.merge nfas).alphabet == [.char 'a', .char 'b']) = true := by
    decide +kernel
  obtain ⟨set, hcompile, hanswer⟩ := exists_ok_of_any hrun
  obtain ⟨nfas, hnfas, halphabet⟩ := exists_ok_of_any hlabels
  obtain ⟨hmatched, hanswer⟩ := Bool.and_eq_true_iff.1 hanswer
  obtain ⟨hplace, hwinner⟩ := Bool.and_eq_true_iff.1 hanswer
  have hdisjoint : (Nfa.merge nfas).ScalarDisjoint :=
    Nfa.scalarDisjoint_of_chars (by simp [eq_of_beq halphabet])
  obtain ⟨stop, i, hstop, -, hi, hleast, -⟩ :=
    winner_isLeast hcompile hnfas hdisjoint "ab" hmatched
  rw [hstop] at hplace
  rw [eq_of_beq hwinner] at hi
  cases hi
  have hbehind : stop.place = .behind ['a', 'b'] := Option.some.inj (eq_of_beq hplace)
  rw [hbehind] at hleast
  exact hleast

/-- The end of the text does not compete with the place behind its last
character. First the end wins, for the second pattern, though the first accepts
behind the character. Then, under the policy that stops at the first place, the
second pattern wins there, though the first accepts at the end. -/
theorem winner_at_other_place :
    (∃ (set : PatternSet Nat) (nfas : List Nfa),
      compile {} [("a", 0), ("a$", 1)] = .ok set ∧
      patternNfas {} ["a", "a$"] = .ok nfas ∧ (Nfa.merge nfas).ScalarDisjoint ∧
      (Scan.stop? set.dfa set.policy ['a']).map (·.place) = some .atEnd ∧
      set.winner? "a" = some 1 ∧
      0 ∈ acceptorsAt {} [("a", 0), ("a$", 1)] ['a'] (.behind ['a'])) ∧
    ∃ (set : PatternSet Nat) (nfas : List Nfa),
      compile { policy := some .first } [("a$", 0), ("a", 1)] = .ok set ∧
      patternNfas { policy := some .first } ["a$", "a"] = .ok nfas ∧
      (Nfa.merge nfas).ScalarDisjoint ∧
      (Scan.stop? set.dfa set.policy ['a']).map (·.place) = some (.behind ['a']) ∧
      set.winner? "a" = some 1 ∧
      0 ∈ acceptorsAt { policy := some .first } [("a$", 0), ("a", 1)] ['a'] .atEnd := by
  have ha : [.char 'a'] ∈ oneChar fun c => (Symbol.char 'a').accepts c = true := ⟨'a', rfl, rfl⟩
  constructor
  · have hrun : ((compile (P := Nat) {} [("a", 0), ("a$", 1)]).toOption.any fun set =>
        (Scan.stop? set.dfa set.policy ['a']).map (·.place) == some .atEnd &&
          set.winner? "a" == some 1) = true := by
      decide +kernel
    have hlabels : ((patternNfas {} ["a", "a$"]).toOption.any fun nfas =>
        (Nfa.merge nfas).alphabet == [.char 'a', .endOfLine]) = true := by
      decide +kernel
    have hparse : Expr.parse "a" = .ok (.term (.factor (.mk (.literal 'a') none))) := by
      decide +kernel
    obtain ⟨set, hcompile, hanswer⟩ := exists_ok_of_any hrun
    obtain ⟨nfas, hnfas, halphabet⟩ := exists_ok_of_any hlabels
    obtain ⟨hplace, hwinner⟩ := Bool.and_eq_true_iff.1 hanswer
    exact ⟨set, nfas, hcompile, hnfas,
      Nfa.scalarDisjoint_of_chars (by simp [eq_of_beq halphabet]), eq_of_beq hplace,
      eq_of_beq hwinner, ("a", 0), _, rfl, hparse, ha⟩
  · have hrun : ((compile (P := Nat) { policy := some .first } [("a$", 0), ("a", 1)]).toOption.any
        fun set => (Scan.stop? set.dfa set.policy ['a']).map (·.place) == some (.behind ['a']) &&
          set.winner? "a" == some 1) = true := by
      decide +kernel
    have hlabels : ((patternNfas { policy := some .first } ["a$", "a"]).toOption.any fun nfas =>
        (Nfa.merge nfas).alphabet == [.char 'a', .endOfLine]) = true := by
      decide +kernel
    have hparse : Expr.parse "a$" = .ok (.term (.seq (.mk (.literal 'a') none)
        (.factor (.mk .endOfLine none)))) := by
      decide +kernel
    obtain ⟨set, hcompile, hanswer⟩ := exists_ok_of_any hrun
    obtain ⟨nfas, hnfas, halphabet⟩ := exists_ok_of_any hlabels
    obtain ⟨hplace, hwinner⟩ := Bool.and_eq_true_iff.1 hanswer
    exact ⟨set, nfas, hcompile, hnfas,
      Nfa.scalarDisjoint_of_chars (by simp [eq_of_beq halphabet]), eq_of_beq hplace,
      eq_of_beq hwinner, ("a$", 0), _, rfl, hparse, Language.append_mem_mul ha rfl⟩

end PatternSet

end LinePattern
