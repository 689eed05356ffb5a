/-
A class and its negation, each as a whole pattern.

Both match by the first character of the text. What a class matches starts with a
character that a member accepts (`isMatch_class_iff`), what its negation matches with
one that none does (`isMatch_negatedClass_iff`), whatever the negation stands for. As
a complement it is one label. As any character it keeps the labels of the members,
which lead nowhere; but they go before it, so a scan that meets a character of the
class takes one of them, and ends there (`takes_any_iff`).
-/
import LinePattern.Proofs.Matcher.Set
import LinePattern.Proofs.Pattern.Parse

namespace LinePattern

/-! ## Automata that accept one symbol -/

namespace Nfa

variable {nfa : Nfa} {v : List Symbol} {c : Char} {s : Symbol} {text u : List Char}
  {members : List Symbol}

theorem exists_takes (hs : s.accepts c = true) (hread : nfa.Readable (v ++ [s])) :
    ∃ t, nfa.Takes v c t := by
  classical
  let follows (t : Symbol) : Bool := t.accepts c && decide (nfa.Readable (v ++ [t]))
  have hfollows : ∀ t, follows t = true ↔ t.accepts c = true ∧ nfa.Readable (v ++ [t]) := by
    simp [follows]
  cases hfind : nfa.alphabet.find? follows with
  | none =>
    have hnot := List.find?_eq_none.1 hfind s hread.mem_alphabet
    exact absurd ((hfollows s).2 ⟨hs, hread⟩) hnot
  | some t =>
    obtain ⟨ht, before, behind, halphabet, hbefore⟩ := List.find?_eq_some_iff_append.1 hfind
    obtain ⟨haccepts, hreadable⟩ := (hfollows t).1 ht
    refine ⟨t, haccepts, hreadable, fun r hr hreadr hlt => ?_⟩
    have hsorted := Symbol.pairwise_sortedSet (nfa.edges.map (·.symbol))
    rw [← alphabet, halphabet] at hsorted
    have hmem := hreadr.mem_alphabet
    rw [halphabet, List.mem_append, List.mem_cons] at hmem
    rcases hmem with hmem | rfl | hmem
    · have hnot := hbefore r hmem
      rw [(hfollows r).2 ⟨hr, hreadr⟩] at hnot
      cases hnot
    · rw [Symbol.compare_eq_iff.2 rfl] at hlt
      cases hlt
    · have hgt := (List.pairwise_cons.1 (List.pairwise_append.1 hsorted).2.1).1 r hmem
      rw [← Symbol.compare_swap, hlt] at hgt
      cases hgt

theorem course_singleton_iff : nfa.Course u [s] ↔ ∃ c, u = [c] ∧ nfa.Takes [] c s := by
  rw [← List.nil_append [s], course_concat_iff]
  constructor
  · rintro ⟨u', c, rfl, hcourse, htakes⟩
    obtain rfl := List.map_eq_nil_iff.1 (List.forall₂_nil_left_iff.1 hcourse.reads)
    exact ⟨c, rfl, htakes⟩
  · rintro ⟨c, rfl, htakes⟩
    exact ⟨[], c, rfl, .nil, htakes⟩

theorem scanAccepts_iff_takes (h : ∀ w ∈ nfa.language, ∃ s, w = [s] ∧ s ≠ .endOfLine) :
    nfa.ScanAccepts text ↔ ∃ c ∈ text.head?, ∃ s, [s] ∈ nfa.language ∧ nfa.Takes [] c s := by
  constructor
  · rintro ⟨place, w, hw, hcourse⟩
    obtain ⟨s, rfl, hne⟩ := h w hw
    generalize hv : [s] = v at hcourse
    cases hcourse with
    | behind hu hcourse =>
      subst hv
      obtain ⟨c, rfl, htakes⟩ := course_singleton_iff.1 hcourse
      obtain ⟨rest, rfl⟩ := hu
      exact ⟨c, rfl, s, hw, htakes⟩
    | atEnd =>
      exact absurd (by simpa using congrArg List.getLast? hv) hne
  · rintro ⟨c, hc, s, hs, htakes⟩
    obtain ⟨rest, rfl⟩ := List.head?_eq_some_iff.1 hc
    exact ⟨.behind [c], [s], hs, .behind (by simp) (course_singleton_iff.2 ⟨c, rfl, htakes⟩)⟩

/-- Where every label is a word, a text is accepted when some label accepts its first
character. -/
theorem scanAccepts_iff_accepts (hlanguage : ∀ w, w ∈ nfa.language ↔ ∃ s ∈ members, w = [s])
    (halphabet : ∀ s ∈ nfa.alphabet, s ∈ members) (hne : .endOfLine ∉ members) :
    nfa.ScanAccepts text ↔ ∃ c ∈ text.head?, ∃ s ∈ members, s.accepts c = true := by
  have hword : ∀ s ∈ members, [s] ∈ nfa.language := fun s hs => (hlanguage [s]).2 ⟨s, hs, rfl⟩
  rw [scanAccepts_iff_takes fun w hw => ?_]
  · refine exists_congr fun c => and_congr_right fun hc => ?_
    constructor
    · rintro ⟨s, hs, htakes⟩
      exact ⟨s, halphabet s (htakes.readable.mem_alphabet), htakes.accepts⟩
    · rintro ⟨s, hs, haccepts⟩
      obtain ⟨t, ht⟩ := exists_takes (v := []) haccepts (readable_of_mem_language (hword s hs))
      exact ⟨t, hword t (halphabet t ht.readable.mem_alphabet), ht⟩
  · obtain ⟨s, hs, rfl⟩ := (hlanguage w).1 hw
    exact ⟨s, rfl, fun heq => hne (heq ▸ hs)⟩

end Nfa

/-! ## The automata of a class and of its negation -/

namespace TokenTree

variable {options : Options} {first : Symbol} {rest : List Symbol} {c : Char} {text : List Char}

theorem scanAccepts_anyOf (hmembers : ∀ s ∈ first :: rest, s.isClassMember = true) :
    ((anyOf first rest).nfa options 0).ScanAccepts text ↔
      ∃ c ∈ text.head?, ∃ s ∈ first :: rest, s.accepts c = true := by
  refine Nfa.scanAccepts_iff_accepts (fun w => ?_) (fun s hs => ?_) fun hend => ?_
  · rw [language_nfa, mem_language_anyOf]
  · rwa [Nfa.mem_alphabet, ← mem_labels, mem_labels_anyOf] at hs
  · cases hmembers _ hend

/-- Any character is taken for what no member accepts. A member goes before it. -/
theorem takes_any_iff (hmode : options.negation = .anyCharacter)
    (hmembers : ∀ s ∈ first :: rest, s.isClassMember = true) :
    ((negate (anyOf first rest)).nfa options 0).Takes [] c .any ↔
      ∀ s ∈ first :: rest, s.accepts c = false := by
  obtain ⟨stop, hfragment⟩ := exists_fragment options 0 (anyOf first rest)
  have hnegate : (negate (anyOf first rest)).nfa options 0 =
      ((anyOf first rest).nfa options 0).negate .anyCharacter := by rw [nfa, hmode]
  rw [hnegate]
  constructor
  · intro htakes s hs
    by_contra haccepts
    have hword : [s] ∈ ((anyOf first rest).nfa options 0).language := by
      rw [language_nfa]
      exact mem_language_anyOf.2 ⟨s, hs, rfl⟩
    obtain ⟨q, hq⟩ := Nfa.readable_of_mem_language hword
    have hread : (((anyOf first rest).nfa options 0).negate .anyCharacter).Readable ([] ++ [s]) :=
      ⟨q, Nfa.Path.map (f := id)
        (fun h => (Nfa.step_negate_anyCharacter hfragment).2 (.inl h)) hq⟩
    refine htakes.least s (by simpa using haccepts) hread ?_
    have hmember := hmembers s hs
    cases s with
    | char | digit | word => rfl
    | noneOf | any | endOfLine => cases hmember
  · intro hnone
    have hword : [Symbol.any] ∈
        (((anyOf first rest).nfa options 0).negate .anyCharacter).language := by
      rw [Nfa.language_negate_anyCharacter hfragment]
      rfl
    refine ⟨rfl, Nfa.readable_of_mem_language hword, fun t ht hread => ?_⟩
    obtain ⟨p, q, hstep⟩ := Nfa.mem_alphabet.1 hread.mem_alphabet
    rcases (Nfa.step_negate_anyCharacter hfragment).1 hstep with hstep | ⟨hany, -, -⟩
    · rw [hnone t (mem_labels_anyOf.1 ((mem_labels 0).2 ⟨p, q, hstep⟩))] at ht
      cases ht
    · obtain rfl := Option.some.inj hany
      rw [Symbol.compare_eq_iff.2 rfl]
      decide

/-- Whatever the negation of a class stands for, it matches a text with a first
character that no member accepts. -/
theorem scanAccepts_negate_anyOf (hmembers : ∀ s ∈ first :: rest, s.isClassMember = true) :
    ((negate (anyOf first rest)).nfa options 0).ScanAccepts text ↔
      ∃ c ∈ text.head?, ∀ s ∈ first :: rest, s.accepts c = false := by
  cases hmode : options.negation with
  | complement =>
    let complement := Symbol.excluding (first :: rest)
    have hlabels : Symbol.excluding ((anyOf first rest).labels .complement) = complement :=
      Symbol.excluding_congr fun s => mem_labels_anyOf
    rw [@Nfa.scanAccepts_iff_accepts _ _ [complement]]
    · simp only [List.mem_singleton, exists_eq_left, complement, Symbol.accepts_excluding hmembers]
    · intro w
      rw [language_nfa, hmode, language, hlabels]
      simp only [List.mem_singleton, exists_eq_left]
      rfl
    · intro s hs
      rwa [Nfa.mem_alphabet, ← mem_labels, hmode, labels, hlabels] at hs
    · simp [complement, Symbol.excluding]
  | anyCharacter =>
    have hword : ∀ w, w ∈ ((negate (anyOf first rest)).nfa options 0).language ↔
        w = [Symbol.any] := by
      intro w
      rw [language_nfa, hmode, language]
      rfl
    rw [Nfa.scanAccepts_iff_takes fun w hw => ⟨.any, (hword w).1 hw, by simp⟩]
    refine exists_congr fun c => and_congr_right fun _ => ?_
    rw [← takes_any_iff hmode hmembers]
    constructor
    · rintro ⟨s, hs, htakes⟩
      obtain rfl : s = .any := by simpa using (hword [s]).1 hs
      exact htakes
    · exact fun htakes => ⟨.any, (hword _).2 rfl, htakes⟩

end TokenTree

/-! ## The patterns -/

/-- A pattern that is a class with the given body. -/
def classPattern (body : String) : String := "[" ++ body ++ "]"

/-- A pattern that is the negation of a class with the given body. -/
def negatedClassPattern (body : String) : String := "[^" ++ body ++ "]"

/-- The derivation of a pattern that is a class. -/
def Expr.ofClass (cls : CharClass) : Expr := .term (.factor (.mk (.charClass cls) none))

section

variable {options : Options} {body : String} {cls : CharClass}

theorem Expr.chars_ofClass (cls : CharClass) : (Expr.ofClass cls).chars = cls.chars := by
  simp [ofClass, Expr.chars, Term.chars, Factor.chars, Primary.chars]

theorem Expr.tokens_ofClass (cls : CharClass) : (Expr.ofClass cls).tokens = Token.ofClass cls := by
  simp [ofClass, tokens, Expr.tokensFrom, Term.tokensFrom, Factor.tokensFrom, Primary.tokensFrom,
    Token.ofQuantifier]

theorem Expr.parse_negatedClassPattern
    (hparse : Expr.parse (classPattern body) = .ok (.ofClass cls))
    (hcaret : body.toList.head? ≠ some '^') :
    cls.negated = false ∧
      Expr.parse (negatedClassPattern body) = .ok (.ofClass ⟨true, cls.parts⟩) := by
  obtain ⟨⟨hwritten, hmembers⟩, hchars⟩ := Expr.derives_of_parse hparse
  have hbody : cls.chars = '[' :: body.toList ++ [']'] := by
    simpa [classPattern, Expr.chars_ofClass] using hchars
  have hnegated : cls.negated = false := by
    by_contra hneg
    rw [CharClass.chars, CharClass.opening, if_pos (by simpa using hneg)] at hbody
    cases hlist : body.toList with
    | nil => simp [hlist] at hbody
    | cons c rest =>
      simp only [hlist, List.cons_append, List.cons.injEq, List.head?_cons] at hbody hcaret
      exact hcaret (congrArg some hbody.2.1.symm)
  have hparts : cls.parts.flatMap ClassPart.chars = body.toList := by
    simpa [CharClass.chars, CharClass.opening, hnegated] using hbody
  refine ⟨hnegated, Expr.parse_of_derives ⟨⟨⟨hwritten.plain, by simp⟩, hmembers⟩, ?_⟩⟩
  simp [negatedClassPattern, Expr.chars_ofClass, CharClass.chars, CharClass.opening, hparts]

theorem exists_patternNfa_class (hparse : Expr.parse (classPattern body) = .ok (.ofClass cls))
    (hcaret : body.toList.head? ≠ some '^') :
    ∃ first rest, cls.members = first :: rest ∧
      patternNfa options (classPattern body) = .ok ((TokenTree.anyOf first rest).nfa options 0) ∧
      patternNfa options (negatedClassPattern body) =
        .ok ((TokenTree.negate (.anyOf first rest)).nfa options 0) := by
  obtain ⟨hnegated, hnegation⟩ := Expr.parse_negatedClassPattern hparse hcaret
  have hvalid : cls.members ≠ [] := Expr.valid_of_parse hparse
  obtain ⟨first, rest, hmembers⟩ := List.exists_cons_of_ne_nil hvalid
  have hmembers' : (CharClass.mk true cls.parts).members = first :: rest := hmembers
  refine ⟨first, rest, hmembers, patternNfa_eq_of_tokens hparse ?_,
    patternNfa_eq_of_tokens hnegation ?_⟩
  · rw [TokenTree.tokens_anyOf, ← hmembers]
    simp [Expr.tokens_ofClass, Token.ofClass, hnegated]
  · rw [TokenTree.tokens, TokenTree.tokens_anyOf, ← hmembers']
    simp [Expr.tokens_ofClass, Token.ofClass]

end

namespace CompiledPattern

variable {options : Options} {body : String} {cls : CharClass} {plain negated : CompiledPattern}
  {text : String}

/-- A class matches a text with a first character that a member accepts. -/
theorem isMatch_class_iff (hparse : Expr.parse (classPattern body) = .ok (.ofClass cls))
    (hcaret : body.toList.head? ≠ some '^')
    (hplain : compile options (classPattern body) = .ok plain) :
    plain.isMatch text = true ↔
      ∃ c ∈ text.toList.head?, ∃ s ∈ cls.members, s.accepts c = true := by
  obtain ⟨first, rest, hmembers, hnfa, -⟩ := exists_patternNfa_class hparse hcaret
  rw [isMatch_iff hnfa hplain, hmembers]
  exact TokenTree.scanAccepts_anyOf fun s hs => CharClass.isClassMember_of_mem (hmembers ▸ hs)

theorem isMatch_negatedClass_iff (hparse : Expr.parse (classPattern body) = .ok (.ofClass cls))
    (hcaret : body.toList.head? ≠ some '^')
    (hnegated : compile options (negatedClassPattern body) = .ok negated) :
    negated.isMatch text = true ↔
      ∃ c ∈ text.toList.head?, ∀ s ∈ cls.members, s.accepts c = false := by
  obtain ⟨first, rest, hmembers, -, hnfa⟩ := exists_patternNfa_class hparse hcaret
  rw [isMatch_iff hnfa hnegated, hmembers]
  exact TokenTree.scanAccepts_negate_anyOf fun s hs =>
    CharClass.isClassMember_of_mem (hmembers ▸ hs)

/-- **The negation of a class is its complement.** Let a body that does not start with
a caret make a class in brackets. Under any options, the class and its negation, each
as a whole pattern, compile unless there is a limit. Neither matches the empty text,
of other texts the negation matches those that the class does not, and both tell texts
apart by their first characters alone. -/
theorem isMatch_negatedClass (hparse : Expr.parse (classPattern body) = .ok (.ofClass cls))
    (hcaret : body.toList.head? ≠ some '^') :
    (options.maxStates = none →
      (∃ plain, compile options (classPattern body) = .ok plain) ∧
        ∃ negated, compile options (negatedClassPattern body) = .ok negated) ∧
    ∀ plain negated, compile options (classPattern body) = .ok plain →
      compile options (negatedClassPattern body) = .ok negated →
      plain.isMatch "" = false ∧ negated.isMatch "" = false ∧
      (∀ text, text ≠ "" → negated.isMatch text = !plain.isMatch text) ∧
      ∀ text text' : String, text.toList.head? = text'.toList.head? →
        plain.isMatch text = plain.isMatch text' ∧
          negated.isMatch text = negated.isMatch text' := by
  obtain ⟨-, hnegation⟩ := Expr.parse_negatedClassPattern hparse hcaret
  refine ⟨fun hlimit => ⟨exists_compile hparse hlimit, exists_compile hnegation hlimit⟩,
    fun plain negated hplain hnegated => ?_⟩
  have hclass (text : String) : plain.isMatch text = true ↔
      ∃ c ∈ text.toList.head?, ∃ s ∈ cls.members, s.accepts c = true :=
    isMatch_class_iff hparse hcaret hplain
  have hcomplement (text : String) : negated.isMatch text = true ↔
      ∃ c ∈ text.toList.head?, ∀ s ∈ cls.members, s.accepts c = false :=
    isMatch_negatedClass_iff hparse hcaret hnegated
  refine ⟨?_, ?_, fun text hne => ?_, fun text text' hhead => ⟨?_, ?_⟩⟩
  · rw [Bool.eq_false_iff, ne_eq, hclass]
    simp
  · rw [Bool.eq_false_iff, ne_eq, hcomplement]
    simp
  · obtain ⟨c, rest, htext⟩ := List.exists_cons_of_ne_nil (mt String.toList_eq_nil_iff.1 hne)
    rw [Bool.eq_iff_iff, Bool.not_eq_true', Bool.eq_false_iff, ne_eq, hcomplement, hclass, htext]
    simp
  · rw [Bool.eq_iff_iff, hclass, hclass, hhead]
  · rw [Bool.eq_iff_iff, hcomplement, hcomplement, hhead]

/-- Two members accept the first character, and any character would. -/
theorem isMatch_negatedClass_overlapping : ∃ plain negated,
    compile { negation := .anyCharacter } "[a-c\\w]" = .ok plain ∧
    compile { negation := .anyCharacter } "[^a-c\\w]" = .ok negated ∧
    plain.isMatch "b!" = true ∧ negated.isMatch "b!" = false := by
  have hparse : Expr.parse (classPattern "a-c\\w") =
      .ok (.ofClass ⟨false, [.plain 'a', .dash, .plain 'c', .escaped 'w']⟩) := by
    decide +kernel
  have hrun : ((compile { negation := .anyCharacter } "[a-c\\w]").toOption.any
      (·.isMatch "b!")) = true := by
    decide +kernel
  obtain ⟨hcompile, hmatch⟩ :=
    @isMatch_negatedClass { negation := .anyCharacter } _ _ hparse (by decide +kernel)
  obtain ⟨-, negated, hnegated⟩ := hcompile rfl
  obtain ⟨plain, hplain, hb⟩ := exists_ok_of_any hrun
  obtain ⟨-, -, hcomplement, -⟩ := hmatch plain negated hplain hnegated
  have hnot := hcomplement "b!" (by decide)
  rw [hb] at hnot
  exact ⟨plain, negated, hplain, hnegated, hb, hnot⟩

end CompiledPattern

end LinePattern
