/-
Why a list of patterns does not compile.

A pattern that can be read always describes an automaton, so only two errors
are left (`patternNfas_eq_error_iff`, `determinize_eq_error_iff`). The texts are
read in order before anything is determinised: the error of the first text that
cannot be read goes before a limit that is exceeded. When neither is the case
there is a set of all the patterns (`PatternSet.compile_classified`).
-/
import LinePattern.Proofs.Matcher.FewerPatterns

namespace LinePattern

variable {options : Options} {text : String} {texts : List String} {nfa : Nfa} {nfas : List Nfa}

theorem bind_eq_error_iff {α β ε : Type} {x : Except ε α} {f : α → Except ε β} {e : ε} :
    x >>= f = .error e ↔ x = .error e ∨ ∃ a, x = .ok a ∧ f a = .error e := by
  cases x <;> simp [bind, Except.bind]

theorem mapError_eq_error_iff {α ε ε' : Type} {x : Except ε α} {f : ε → ε'} {e' : ε'} :
    x.mapError f = .error e' ↔ ∃ e, x = .error e ∧ f e = e' := by
  cases x <;> simp [Except.mapError]

/-! ## The first text that cannot be read -/

/-- The pattern text can be read. -/
def IsPattern (text : String) : Prop := ∃ tokens, tokenize text = .ok tokens

theorem isPattern_iff : IsPattern text ↔ (tokenize text).isOk = true := by
  unfold IsPattern
  cases tokenize text <;> simp [Except.isOk, Except.toBool]

instance : Decidable (IsPattern text) := decidable_of_iff _ isPattern_iff.symm

/-- The error is that of the first of the texts that cannot be read. -/
def FirstUnreadable (texts : List String) (error : SyntaxError) : Prop :=
  ∃ before text behind, texts = before ++ text :: behind ∧ (∀ t ∈ before, IsPattern t) ∧
    tokenize text = .error error

theorem not_isPattern_iff : ¬ IsPattern text ↔ ∃ error, tokenize text = .error error := by
  unfold IsPattern
  cases tokenize text <;> simp

theorem not_firstUnreadable_nil (error : SyntaxError) : ¬ FirstUnreadable [] error := by
  rintro ⟨before, text, behind, h, -⟩
  simp at h

theorem firstUnreadable_cons {error : SyntaxError} : FirstUnreadable (text :: texts) error ↔
    tokenize text = .error error ∨ IsPattern text ∧ FirstUnreadable texts error := by
  constructor
  · rintro ⟨before, t, behind, hsplit, hbefore, herror⟩
    rcases List.cons_eq_append_iff.1 hsplit with ⟨rfl, heq⟩ | ⟨before, rfl, rfl⟩
    · cases heq
      exact .inl herror
    · obtain ⟨htext, hbefore⟩ := List.forall_mem_cons.1 hbefore
      exact .inr ⟨htext, before, t, behind, rfl, hbefore, herror⟩
  · rintro (herror | ⟨htext, before, t, behind, rfl, hbefore, herror⟩)
    · exact ⟨[], text, texts, rfl, by simp, herror⟩
    · exact ⟨text :: before, t, behind, rfl, List.forall_mem_cons.2 ⟨htext, hbefore⟩, herror⟩

theorem exists_firstUnreadable_iff :
    (∃ error, FirstUnreadable texts error) ↔ ∃ text ∈ texts, ¬ IsPattern text := by
  induction texts with
  | nil => simp [not_firstUnreadable_nil]
  | cons text texts ih =>
    simp only [firstUnreadable_cons, exists_or, exists_and_left, ih, ← not_isPattern_iff,
      List.exists_mem_cons_iff]
    by_cases htext : IsPattern text <;> simp [htext]

/-! ## Errors of the steps -/

theorem exists_patternNfa_of_isPattern (options : Options) (h : IsPattern text) :
    ∃ nfa, patternNfa options text = .ok nfa := by
  obtain ⟨tokens, htokens⟩ := h
  obtain ⟨e, hparse, -⟩ := tokenize_eq_ok_iff_parse.1 htokens
  obtain ⟨nfa, hnfa, -⟩ := exists_patternNfa options hparse
  exact ⟨nfa, hnfa⟩

theorem isPattern_of_patternNfa (h : patternNfa options text = .ok nfa) : IsPattern text := by
  obtain ⟨tokens, htokens, -⟩ := bind_eq_ok_iff.1 h
  exact ⟨tokens, mapError_eq_ok_iff.1 htokens⟩

/-- The only reason that a pattern text has no automaton is that it cannot be
read: the token stream of a pattern is never malformed. -/
theorem patternNfa_eq_error_iff {fault : PatternError} : patternNfa options text = .error fault ↔
    ∃ error, tokenize text = .error error ∧ .unreadable error = fault := by
  by_cases hread : IsPattern text
  · obtain ⟨nfa, hnfa⟩ := exists_patternNfa_of_isPattern options hread
    obtain ⟨tokens, htokens⟩ := hread
    simp [hnfa, htokens]
  · obtain ⟨error, herror⟩ := not_isPattern_iff.1 hread
    simp [patternNfa, herror, Except.mapError, bind, Except.bind]

theorem patternNfas_eq_error_iff {fault : PatternError} :
    patternNfas options texts = .error fault ↔
      ∃ error, FirstUnreadable texts error ∧ .unreadable error = fault := by
  induction texts with
  | nil => simp [patternNfas, not_firstUnreadable_nil]
  | cons text texts ih =>
    simp only [patternNfas, bind_eq_error_iff, patternNfa_eq_error_iff, ih, firstUnreadable_cons,
      reduceCtorEq, and_false, exists_false, or_false]
    constructor
    · rintro (⟨error, herror, heq⟩ | ⟨nfa, hnfa, error, herror, heq⟩)
      · exact ⟨error, .inl herror, heq⟩
      · exact ⟨error, .inr ⟨isPattern_of_patternNfa hnfa, herror⟩, heq⟩
    · rintro ⟨error, herror | ⟨htext, herror⟩, heq⟩
      · exact .inl ⟨error, herror, heq⟩
      · obtain ⟨nfa, hnfa⟩ := exists_patternNfa_of_isPattern options htext
        exact .inr ⟨nfa, hnfa, error, herror, heq⟩

theorem exists_patternNfas_iff :
    (∃ nfas, patternNfas options texts = .ok nfas) ↔ ∀ text ∈ texts, IsPattern text := by
  constructor
  · rintro ⟨nfas, hnfas⟩ text htext
    obtain ⟨i, hi⟩ := List.mem_iff_getElem?.1 htext
    obtain ⟨nfa, -, hnfa⟩ := exists_getElem?_nfas hnfas hi
    exact isPattern_of_patternNfa hnfa
  · intro h
    cases hnfas : patternNfas options texts with
    | ok nfas => exact ⟨nfas, rfl⟩
    | error fault =>
      obtain ⟨error, herror, -⟩ := patternNfas_eq_error_iff.1 hnfas
      obtain ⟨text, htext, hread⟩ := exists_firstUnreadable_iff.1 ⟨error, herror⟩
      exact absurd (h text htext) hread

/-- A well-formed automaton fails to determinise only for a limit that is too
small for the automaton made without one. -/
theorem Subset.determinize_eq_error_iff {limit : Option Nat} {whole : Dfa} {error : SubsetError}
    (hwf : nfa.WellFormed) (h : nfa.determinize none = .ok whole) :
    nfa.determinize limit = .error error ↔
      ∃ l, limit = some l ∧ l < whole.size ∧ .stateLimit l = error := by
  cases limit with
  | none => simp [h]
  | some l =>
    rw [determinize_limit hwf h l]
    by_cases hroom : whole.size ≤ l
    · simp [hroom, Nat.not_lt.2 hroom]
    · simp [hroom, Nat.lt_of_not_le hroom]

/-! ## Sets -/

namespace PatternSet

variable {P : Type} {patterns : List (String × P)}

theorem compile_eq_error_iff (hne : patterns ≠ []) {fault : PatternError} :
    compile options patterns = .error fault ↔
      patternsDfa options (patterns.map (·.1)) = .error fault := by
  have hempty : patterns.isEmpty = false := by simpa using hne
  simp [compile, hempty, bind_eq_error_iff]

/-- A syntax error of a list is that of its first text that cannot be read. -/
theorem compile_eq_unreadable_iff (hne : patterns ≠ []) {error : SyntaxError} :
    compile options patterns = .error (.unreadable error) ↔
      FirstUnreadable (patterns.map (·.1)) error := by
  rw [compile_eq_error_iff hne, patternsDfa, bind_eq_error_iff, patternNfas_eq_error_iff]
  constructor
  · rintro (⟨error', herror, heq⟩ | ⟨nfas, -, hdfa⟩)
    · cases heq
      exact herror
    · obtain ⟨fault, -, heq⟩ := mapError_eq_error_iff.1 hdfa
      cases fault <;> cases heq
  · exact fun herror => .inl ⟨error, herror, rfl⟩

/-- When the texts can be read, only the limit can be in the way. -/
theorem compile_eq_tooManyStates_iff (hne : patterns ≠ []) {limit : Nat} {whole : Dfa}
    (hnfas : patternNfas options (patterns.map (·.1)) = .ok nfas)
    (hwhole : (Nfa.merge nfas).determinize none = .ok whole) :
    compile options patterns = .error (.tooManyStates limit) ↔
      options.maxStates = some limit ∧ limit < whole.size := by
  have hwf := Nfa.wellFormed_merge (wellFormed_of_patternNfas hnfas)
  rw [compile_eq_error_iff hne, patternsDfa, hnfas, Subset.ok_bind, mapError_eq_error_iff]
  simp only [Subset.determinize_eq_error_iff hwf hwhole]
  constructor
  · rintro ⟨fault, ⟨l, hlimit, hlt, rfl⟩, heq⟩
    cases heq
    exact ⟨hlimit, hlt⟩
  · rintro ⟨hlimit, hlt⟩
    exact ⟨.stateLimit limit, ⟨limit, hlimit, hlt, rfl⟩, rfl⟩

/-- **How a list of patterns compiles.** No patterns always make the empty set.
Otherwise the error of the first text that cannot be read is the answer. When
all can be read, the list fails under a limit that the merged automaton,
determinised without one, exceeds; and else it is a set of all the patterns. -/
theorem compile_classified (options : Options) (patterns : List (String × P)) :
    (patterns = [] → compile options patterns = .ok (empty options)) ∧
    (patterns ≠ [] →
      ((∃ error, compile options patterns = .error (.unreadable error)) ↔
        ∃ text ∈ patterns.map (·.1), ¬ IsPattern text) ∧
      (∀ error, compile options patterns = .error (.unreadable error) ↔
        FirstUnreadable (patterns.map (·.1)) error) ∧
      ((∀ text ∈ patterns.map (·.1), IsPattern text) →
        ∃ nfas whole, patternNfas options (patterns.map (·.1)) = .ok nfas ∧
          (Nfa.merge nfas).determinize none = .ok whole ∧
          (∀ limit, compile options patterns = .error (.tooManyStates limit) ↔
            options.maxStates = some limit ∧ limit < whole.size) ∧
          ((∀ limit, options.maxStates = some limit → whole.size ≤ limit) →
            ∃ set, compile options patterns = .ok set ∧ set.size = patterns.length ∧
              set.patterns = patterns ∧ set.dfa = whole))) := by
  refine ⟨fun hnil => hnil ▸ compile_nil options, fun hne => ⟨?_, fun error => ?_, fun hread => ?_⟩⟩
  · simp only [compile_eq_unreadable_iff hne, exists_firstUnreadable_iff]
  · exact compile_eq_unreadable_iff hne
  · obtain ⟨nfas, hnfas⟩ := exists_patternNfas_iff.2 hread
    have hwf := Nfa.wellFormed_merge (wellFormed_of_patternNfas hnfas)
    obtain ⟨whole, hwhole⟩ := Subset.exists_determinize_none hwf
    refine ⟨nfas, whole, hnfas, hwhole, fun limit => compile_eq_tooManyStates_iff hne hnfas hwhole,
      fun hroom => ?_⟩
    have hdfa : (Nfa.merge nfas).determinize options.maxStates = .ok whole :=
      (Subset.determinize_eq_ok_iff hwf).2 ⟨hwhole, hroom⟩
    refine ⟨⟨patterns, whole, policyOf options⟩, ?_, rfl, rfl, rfl⟩
    exact (compile_eq_ok_iff hne).2 ⟨whole, patternsDfa_eq_ok_iff.2 ⟨nfas, hnfas, hdfa⟩, rfl⟩

/-- A text in the middle that cannot be read; and two patterns whose automaton
has four states, under a limit below that number and at it. -/
theorem compile_classified_ab_ac :
    (∃ error, tokenize "(b" = .error error ∧
      compile { maxStates := some 0 } [("ab", 0), ("(b", 1), ("*", 2)] =
        .error (.unreadable error)) ∧
    compile { maxStates := some 3 } [("ab", 0), ("ac", 1)] = .error (.tooManyStates 3) ∧
    ∃ set, compile { maxStates := some 4 } [("ab", 0), ("ac", 1)] = .ok set ∧ set.size = 2 := by
  have hread : ∀ text ∈ ["ab", "ac"], IsPattern text := by decide +kernel
  have hunread : ¬ IsPattern "(b" := by decide +kernel
  have hsize : ∀ limit ∈ [3, 4], ∀ nfas whole,
      patternNfas { maxStates := some limit } ["ab", "ac"] = .ok nfas →
      (Nfa.merge nfas).determinize none = .ok whole → whole.size = 4 := by
    intro limit hlimit nfas whole hnfas hwhole
    have hrun : ∀ limit ∈ [3, 4],
        ((patternNfas { maxStates := some limit } ["ab", "ac"]).toOption.any fun nfas =>
          ((Nfa.merge nfas).determinize none).toOption.any (·.size == 4)) = true := by
      decide +kernel
    have hsize := hrun limit hlimit
    rw [hnfas, Except.toOption, Option.any_some, hwhole] at hsize
    exact eq_of_beq hsize
  refine ⟨?_, ?_, ?_⟩
  · obtain ⟨error, herror⟩ := not_isPattern_iff.1 hunread
    refine ⟨error, herror, ?_⟩
    obtain ⟨-, hfirst, -⟩ := (compile_classified { maxStates := some 0 }
      [("ab", 0), ("(b", 1), ("*", 2)]).2 (by simp)
    exact (hfirst error).2 ⟨["ab"], "(b", ["*"], rfl, by decide +kernel, herror⟩
  · obtain ⟨-, -, hall⟩ := (compile_classified { maxStates := some 3 }
      [("ab", 0), ("ac", 1)]).2 (by simp)
    obtain ⟨nfas, whole, hnfas, hwhole, hlimit, -⟩ := hall hread
    refine (hlimit 3).2 ⟨rfl, ?_⟩
    rw [hsize 3 (by simp) nfas whole hnfas hwhole]
    decide
  · obtain ⟨-, -, hall⟩ := (compile_classified { maxStates := some 4 }
      [("ab", 0), ("ac", 1)]).2 (by simp)
    obtain ⟨nfas, whole, hnfas, hwhole, -, hroom⟩ := hall hread
    obtain ⟨set, hset, hlength, -⟩ := hroom fun limit heq => by
      cases heq
      rw [hsize 4 (by simp) nfas whole hnfas hwhole]
    exact ⟨set, hset, hlength⟩

end PatternSet

end LinePattern
