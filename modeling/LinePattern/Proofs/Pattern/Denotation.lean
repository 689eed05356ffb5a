/-
The languages of token streams.

A tree denotes a language of words of symbols: its operators are those of
regular expressions, and a negated class is one symbol that depends on the
labels of its operand. `language_nfa` says that the automaton of a tree accepts
what the tree denotes.

Labels are not the symbols of the language. Where a negated class stands for
any character, its members still label transitions, and a negation around it
would list them.
-/
import LinePattern.Proofs.Nfa.Fragment
import LinePattern.Proofs.Pattern.TokenTree

namespace LinePattern

open Computability

namespace Symbol

theorem eq_of_pairwise_compare {as bs : List Symbol}
    (ha : as.Pairwise fun a b => a.compare b = .lt) (hb : bs.Pairwise fun a b => a.compare b = .lt)
    (h : ∀ s, s ∈ as ↔ s ∈ bs) : as = bs := by
  have hne : ∀ {a b : Symbol}, a.compare b = .lt → a ≠ b := by
    rintro a _ hab rfl
    rw [compare_eq_iff.2 rfl] at hab
    cases hab
  have hperm : as.Perm bs := (List.perm_ext_iff_of_nodup (ha.imp hne) (hb.imp hne)).2 h
  refine hperm.eq_of_pairwise (fun a b _ _ hab hba => ?_) ha hb
  rw [← compare_swap, hab] at hba
  cases hba

theorem sortedSet_congr {as bs : List Symbol} (h : ∀ s, s ∈ as ↔ s ∈ bs) :
    sortedSet as = sortedSet bs :=
  eq_of_pairwise_compare (pairwise_sortedSet as) (pairwise_sortedSet bs) fun s => by
    rw [mem_sortedSet, mem_sortedSet, h]

theorem excluding_congr {as bs : List Symbol} (h : ∀ s, s ∈ as ↔ s ∈ bs) :
    excluding as = excluding bs := by
  rw [excluding, excluding, sortedSet_congr]
  intro s
  rw [List.mem_filter, List.mem_filter, h]

end Symbol

namespace TokenTree

/-- The labels of the transitions that the tree builds. -/
def labels (mode : NegationMode) : TokenTree → List Symbol
  | literal symbol => [symbol]
  | any => [.any]
  | endOfLine => [.endOfLine]
  | concat left right | alt left right => left.labels mode ++ right.labels mode
  | star body | plus body | optional body | capture _ body => body.labels mode
  | negate body =>
    match mode with
    | .complement => [.excluding (body.labels mode)]
    | .anyCharacter => .any :: body.labels mode

/-- The words of symbols that the tree denotes. -/
def language (mode : NegationMode) : TokenTree → Language Symbol
  | literal symbol => {[symbol]}
  | any => {[.any]}
  | endOfLine => {[.endOfLine]}
  | concat left right => left.language mode * right.language mode
  | alt left right => left.language mode + right.language mode
  | star body => (body.language mode)∗
  | plus body => body.language mode * (body.language mode)∗
  | optional body => 1 + body.language mode
  | negate body =>
    match mode with
    | .complement => {[.excluding (body.labels mode)]}
    | .anyCharacter => {[.any]}
  | capture _ body => body.language mode

variable {options : Options}

theorem exists_fragment (options : Options) (closed : Nat) (tree : TokenTree) :
    ∃ stop, (tree.nfa options closed).Fragment stop := by
  induction tree generalizing closed with
  | literal symbol => exact ⟨1, Nfa.fragment_ofSymbol symbol⟩
  | any => exact ⟨1, Nfa.fragment_ofSymbol .any⟩
  | endOfLine => exact ⟨1, Nfa.fragment_ofSymbol .endOfLine⟩
  | concat left right ihl ihr =>
    obtain ⟨f, hl⟩ := ihl closed
    obtain ⟨g, hr⟩ := ihr (closed + left.groups)
    exact ⟨_, Nfa.fragment_concat hl hr⟩
  | alt left right ihl ihr =>
    obtain ⟨f, hl⟩ := ihl closed
    obtain ⟨g, hr⟩ := ihr (closed + left.groups)
    exact ⟨_, Nfa.fragment_alt hl hr⟩
  | star body ih =>
    obtain ⟨f, h⟩ := ih closed
    exact ⟨_, Nfa.fragment_star h⟩
  | plus body ih =>
    obtain ⟨f, h⟩ := ih closed
    exact ⟨_, Nfa.fragment_plus h⟩
  | optional body ih =>
    obtain ⟨f, h⟩ := ih closed
    exact ⟨_, Nfa.fragment_optional h⟩
  | negate body ih =>
    obtain ⟨f, h⟩ := ih closed
    cases hmode : options.negation with
    | complement =>
      rw [nfa, hmode]
      exact ⟨1, Nfa.fragment_ofSymbol _⟩
    | anyCharacter =>
      rw [nfa, hmode]
      exact ⟨_, Nfa.fragment_negate_anyCharacter h⟩
  | capture group body ih =>
    obtain ⟨f, h⟩ := ih closed
    exact ⟨f, Nfa.fragment_recordCapture h _⟩

/-- The labels of a tree are those of its automaton. -/
theorem mem_labels (closed : Nat) {tree : TokenTree} {s : Symbol} :
    s ∈ tree.labels options.negation ↔ ∃ p q, (tree.nfa options closed).Step p (some s) q := by
  induction tree generalizing closed s with
  | literal | any | endOfLine => simp [labels, nfa, Nfa.step_ofSymbol]
  | concat left right ihl ihr =>
    obtain ⟨f, hl⟩ := exists_fragment options closed left
    rw [labels, List.mem_append, ihl closed, ihr (closed + left.groups), nfa]
    exact (Nfa.exists_labelled_iff (fun p label q => Nfa.step_concat hl)
      fun p q h => by cases h.2.1).symm
  | alt left right ihl ihr =>
    obtain ⟨f, hl⟩ := exists_fragment options closed left
    obtain ⟨g, hr⟩ := exists_fragment options (closed + left.groups) right
    rw [labels, List.mem_append, ihl closed, ihr (closed + left.groups), nfa]
    exact (Nfa.exists_labelled_iff (fun p label q => Nfa.step_alt hl hr)
      fun p q h => by cases h.1).symm
  | star body ih =>
    obtain ⟨f, h⟩ := exists_fragment options closed body
    simp [labels, nfa, ih closed, Nfa.star_eq_optional_plus,
      Nfa.step_optional (Nfa.fragment_plus h), Nfa.step_plus h]
  | plus body ih =>
    obtain ⟨f, h⟩ := exists_fragment options closed body
    simp [labels, nfa, ih closed, Nfa.step_plus h]
  | optional body ih =>
    obtain ⟨f, h⟩ := exists_fragment options closed body
    simp [labels, nfa, ih closed, Nfa.step_optional h]
  | negate body ih =>
    obtain ⟨f, h⟩ := exists_fragment options closed body
    cases hmode : options.negation with
    | complement =>
      have hlabels := Symbol.excluding_congr fun s =>
        Nfa.mem_edges_symbol.trans (ih closed (s := s)).symm
      simp [labels, nfa, hmode, Nfa.negate, hlabels, Nfa.step_ofSymbol]
    | anyCharacter =>
      rw [hmode] at ih
      simp only [labels, nfa, hmode, Nfa.step_negate_anyCharacter h, List.mem_cons,
        ih closed]
      constructor
      · rintro (rfl | ⟨p, q, hs⟩)
        · exact ⟨_, _, .inr ⟨rfl, rfl, rfl⟩⟩
        · exact ⟨p, q, .inl hs⟩
      · rintro ⟨p, q, hs | ⟨hany, -, -⟩⟩
        · exact .inr ⟨p, q, hs⟩
        · exact .inl (Option.some.inj hany)
  | capture group body ih =>
    simp only [labels, nfa, Nfa.step_recordCapture, ih closed]

/-- **Composition is sound and complete.** The automaton of a tree accepts the
words that the tree denotes. -/
theorem language_nfa (options : Options) (closed : Nat) (tree : TokenTree) :
    (tree.nfa options closed).language = tree.language options.negation := by
  induction tree generalizing closed with
  | literal | any | endOfLine => exact Nfa.language_ofSymbol _
  | concat left right ihl ihr =>
    obtain ⟨f, hl⟩ := exists_fragment options closed left
    obtain ⟨g, hr⟩ := exists_fragment options (closed + left.groups) right
    rw [nfa, language, Nfa.language_concat hl hr, ihl, ihr]
  | alt left right ihl ihr =>
    obtain ⟨f, hl⟩ := exists_fragment options closed left
    obtain ⟨g, hr⟩ := exists_fragment options (closed + left.groups) right
    rw [nfa, language, Nfa.language_alt hl hr, ihl, ihr]
  | star body ih =>
    obtain ⟨f, h⟩ := exists_fragment options closed body
    rw [nfa, language, Nfa.language_star h, ih]
  | plus body ih =>
    obtain ⟨f, h⟩ := exists_fragment options closed body
    rw [nfa, language, Nfa.language_plus h, ih]
  | optional body ih =>
    obtain ⟨f, h⟩ := exists_fragment options closed body
    rw [nfa, language, Nfa.language_optional h, ih]
  | negate body ih =>
    obtain ⟨f, h⟩ := exists_fragment options closed body
    cases hmode : options.negation with
    | complement =>
      have hlabels : Symbol.excluding ((body.nfa options closed).edges.map (·.symbol)) =
          Symbol.excluding (body.labels options.negation) :=
        Symbol.excluding_congr fun s => Nfa.mem_edges_symbol.trans (mem_labels closed).symm
      rw [hmode] at hlabels
      rw [nfa, hmode, language, ← hlabels]
      exact Nfa.language_ofSymbol _
    | anyCharacter =>
      rw [nfa, hmode, language]
      exact Nfa.language_negate_anyCharacter h
  | capture group body ih =>
    obtain ⟨f, h⟩ := exists_fragment options closed body
    rw [nfa, language, Nfa.language_recordCapture h, ih]

/-- **The language of a token stream.** A stream that describes an automaton
writes exactly one tree, and the automaton accepts what the tree denotes. -/
theorem language_ofTokens (options : Options) {tokens : List Token} {automaton : Nfa}
    (h : Nfa.ofTokens options tokens = .ok automaton) :
    (∃! tree : TokenTree, tree.tokens = tokens) ∧
      ∀ tree : TokenTree, tree.tokens = tokens →
        automaton.language = tree.language options.negation := by
  obtain ⟨tree, rfl, rfl⟩ := ofTokens_eq_ok_iff.1 h
  refine ⟨⟨tree, rfl, fun _ => tokens_injective⟩, fun other hother => ?_⟩
  rw [tokens_injective hother, language_nfa]

/-- A nullable body under two quantifiers, behind a negated class. -/
theorem language_ofTokens_nested_star :
    Nfa.ofTokens {} [.literal (.char 'a'), .negate, .literal .digit, .optional, .star, .concat] =
        .ok (((Nfa.ofSymbol (.char 'a')).negate .complement).concat
          (Nfa.ofSymbol .digit).optional.star) ∧
      (((Nfa.ofSymbol (.char 'a')).negate .complement).concat
          (Nfa.ofSymbol .digit).optional.star).language =
        (concat (negate (literal (.char 'a'))) (star (optional (literal .digit)))).language
          .complement :=
  ⟨rfl, (language_ofTokens {} rfl).2 _ rfl⟩

end TokenTree

end LinePattern
