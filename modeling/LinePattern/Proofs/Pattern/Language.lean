/-
The language of a pattern.

`Expr.language` gives the texts that a pattern stands for along its syntax
tree, without automata or tokens. `Expr.exists_tree` ties it to them: the
token stream of a pattern writes a tree of symbols, and the texts that the
words of that tree read are those of the pattern.

A class needs a member for its tokens to write anything. `Expr.Valid` asks for
that; the reader refuses patterns without it.
-/
import LinePattern.Pattern.Tree
import LinePattern.Proofs.Pattern.Denotation
import LinePattern.Proofs.Symbol.Reading

namespace LinePattern

open Computability

/-! ## The texts of a pattern -/

/-- The texts of one character that has the property. -/
def oneChar (P : Char → Prop) : Language Glyph := {w | ∃ c, P c ∧ w = [.char c]}

theorem mem_oneChar {P : Char → Prop} {w : List Glyph} :
    w ∈ oneChar P ↔ ∃ c, P c ∧ w = [.char c] := Iff.rfl

theorem oneChar_congr {P Q : Char → Prop} (h : ∀ c, P c ↔ Q c) : oneChar P = oneChar Q := by
  have hPQ : P = Q := funext fun c => propext (h c)
  rw [hPQ]

/-- The symbols that a backslash and a character stand for outside a class. -/
def escaped : Char → List Symbol
  | 'd' => [.digit]
  | 'w' => [.word]
  | 's' => [.char ' ', .char '\t']
  | c => [.char c]

/-- Whether a class matches a character. -/
def CharClass.Admits (cls : CharClass) (mode : NegationMode) (c : Char) : Prop :=
  if cls.negated then
    match mode with
    | .complement => ∀ s ∈ cls.members, s.accepts c = false
    | .anyCharacter => True
  else ∃ s ∈ cls.members, s.accepts c = true

/-- The texts that a quantifier makes of those of its operand. -/
def quantify (L : Language Glyph) : Option Quantifier → Language Glyph
  | none => L
  | some .star => L∗
  | some .plus => L * L∗
  | some .optional => 1 + L

theorem mem_kstar_oneChar {P : Char → Prop} {w : List Glyph} :
    w ∈ (oneChar P)∗ ↔ ∃ u : List Char, (∀ c ∈ u, P c) ∧ w = u.map .char := by
  constructor
  · intro h
    obtain ⟨parts, rfl, hparts⟩ := Language.mem_kstar.1 h
    clear h
    induction parts with
    | nil => exact ⟨[], nofun, rfl⟩
    | cons part parts ih =>
      obtain ⟨⟨c, hc, rfl⟩, hrest⟩ := List.forall_mem_cons.1 hparts
      obtain ⟨u, hu, heq⟩ := ih hrest
      exact ⟨c :: u, List.forall_mem_cons.2 ⟨hc, hu⟩, by rw [List.flatten_cons, heq]; rfl⟩
  · rintro ⟨u, hu, rfl⟩
    refine Language.mem_kstar.2 ⟨u.map fun c => [.char c], ?_, ?_⟩
    · induction u with
      | nil => rfl
      | cons c u ih => simpa using ih (List.forall_mem_cons.1 hu).2
    · intro part hpart
      obtain ⟨c, hc, rfl⟩ := List.mem_map.1 hpart
      exact ⟨c, hu c hc, rfl⟩

theorem mem_star_oneChar {P : Char → Prop} {w : List Glyph} :
    w ∈ quantify (oneChar P) (some .star) ↔ ∃ u : List Char, (∀ c ∈ u, P c) ∧ w = u.map .char :=
  mem_kstar_oneChar

theorem mem_plus_oneChar {P : Char → Prop} {w : List Glyph} :
    w ∈ quantify (oneChar P) (some .plus) ↔
      ∃ u : List Char, u ≠ [] ∧ (∀ c ∈ u, P c) ∧ w = u.map .char := by
  rw [quantify, Language.mem_mul]
  constructor
  · rintro ⟨_, ⟨c, hc, rfl⟩, _, hrest, rfl⟩
    obtain ⟨u, hu, rfl⟩ := mem_kstar_oneChar.1 hrest
    exact ⟨c :: u, List.cons_ne_nil c u, List.forall_mem_cons.2 ⟨hc, hu⟩, rfl⟩
  · rintro ⟨u, hne, hu, rfl⟩
    obtain ⟨c, u, rfl⟩ := List.exists_cons_of_ne_nil hne
    obtain ⟨hc, hu⟩ := List.forall_mem_cons.1 hu
    exact ⟨[.char c], ⟨c, hc, rfl⟩, u.map .char, mem_kstar_oneChar.2 ⟨u, hu, rfl⟩, rfl⟩

mutual

/-- The texts that an expression stands for. -/
def Expr.language (mode : NegationMode) : Expr → Language Glyph
  | .term t => t.language mode
  | .alt t rest => t.language mode + rest.language mode

def Term.language (mode : NegationMode) : Term → Language Glyph
  | .factor f => f.language mode
  | .seq f rest => f.language mode * rest.language mode

def Factor.language (mode : NegationMode) : Factor → Language Glyph
  | .mk p quantifier => quantify (p.language mode) quantifier

def Primary.language (mode : NegationMode) : Primary → Language Glyph
  | .literal c => oneChar fun x => (Symbol.char c).accepts x = true
  | .escape c => oneChar fun x => ∃ s ∈ escaped c, s.accepts x = true
  | .any => oneChar fun _ => True
  | .endOfLine => {[.endOfText]}
  | .charClass cls => oneChar (cls.Admits mode)
  | .group body => body.language mode

end

mutual

/-- Every class in the expression has a member. -/
def Expr.Valid : Expr → Prop
  | .term t => t.Valid
  | .alt t rest => t.Valid ∧ rest.Valid

def Term.Valid : Term → Prop
  | .factor f => f.Valid
  | .seq f rest => f.Valid ∧ rest.Valid

def Factor.Valid : Factor → Prop
  | .mk p _ => p.Valid

def Primary.Valid : Primary → Prop
  | .charClass cls => cls.members ≠ []
  | .group body => body.Valid
  | .literal _ | .escape _ | .any | .endOfLine => True

end

/-! ## The members of a class -/

/-- A shorthand in a body stands for characters directly. -/
def ClassItem.Direct : ClassItem → Prop
  | shorthand symbol => symbol.isClassMember = true
  | scalar _ | dash => True

theorem ClassPart.direct_of_mem_items {part : ClassPart} {item : ClassItem}
    (h : item ∈ part.items) : item.Direct := by
  unfold ClassPart.items at h
  split at h <;> simp only [List.mem_cons, List.not_mem_nil, or_false] at h
  · subst h
    trivial
  · subst h
    trivial
  · subst h
    rfl
  · subst h
    rfl
  · rcases h with rfl | rfl <;> trivial
  · subst h
    trivial

theorem ClassItem.isClassMember_of_expandFrom {members members' : List Symbol}
    {low : Option Char} {items : List ClassItem}
    (h : expandFrom members low items = .ok members')
    (hmembers : ∀ s ∈ members, s.isClassMember = true) (hitems : ∀ item ∈ items, item.Direct) :
    ∀ s ∈ members', s.isClassMember = true := by
  fun_induction expandFrom members low items with
  | case1 members =>
    cases h
    intro s hs
    exact hmembers s (List.mem_reverse.1 hs)
  | case2 members low =>
    cases h
    have hboth : ∀ s ∈ .char '-' :: .char low :: members, s.isClassMember = true :=
      List.forall_mem_cons.2 ⟨rfl, List.forall_mem_cons.2 ⟨rfl, hmembers⟩⟩
    intro s hs
    exact hboth s (List.mem_reverse.1 hs)
  | case3 members c items ih =>
    rw [List.forall_mem_cons] at hitems
    exact ih h (List.forall_mem_cons.2 ⟨rfl, hmembers⟩) hitems.2
  | case4 members symbol items ih =>
    rw [List.forall_mem_cons] at hitems
    exact ih h (List.forall_mem_cons.2 ⟨hitems.1, hmembers⟩) hitems.2
  | case5 items low earlier ih =>
    rw [List.forall_mem_cons] at hitems hmembers
    exact ih h hmembers.2 hitems.2
  | case6 members items _ ih =>
    rw [List.forall_mem_cons] at hitems
    exact ih h (List.forall_mem_cons.2 ⟨rfl, hmembers⟩) hitems.2
  | case7 => cases h
  | case8 => cases h
  | case9 => cases h
  | case10 members low item items high _ _ _ ih =>
    rw [List.forall_mem_cons] at hitems
    refine ih h (fun s hs => ?_) hitems.2
    rcases List.mem_append.1 hs with hs | hs
    · obtain ⟨c, -, rfl⟩ := List.mem_map.1 (List.mem_reverse.1 hs)
      rfl
    · exact hmembers s hs

theorem CharClass.isClassMember_of_mem {cls : CharClass} {s : Symbol} (h : s ∈ cls.members) :
    s.isClassMember = true := by
  unfold CharClass.members at h
  split at h
  · next members hexpand =>
    refine ClassItem.isClassMember_of_expandFrom hexpand (by simp) (fun item hitem => ?_) s h
    obtain ⟨part, -, hpart⟩ := List.mem_flatMap.1 hitem
    exact ClassPart.direct_of_mem_items hpart
  · cases h

theorem Symbol.ne_endOfLine_of_isClassMember {s : Symbol} (h : s.isClassMember = true) :
    s ≠ .endOfLine := by
  rintro rfl
  cases h

theorem escaped_ne_nil (c : Char) : escaped c ≠ [] := by
  unfold escaped
  split <;> exact List.cons_ne_nil _ _

theorem isClassMember_of_mem_escaped {c : Char} {s : Symbol} (h : s ∈ escaped c) :
    s.isClassMember = true := by
  unfold escaped at h
  split at h <;> simp only [List.mem_cons, List.not_mem_nil, or_false] at h
  · subst h
    rfl
  · subst h
    rfl
  · rcases h with rfl | rfl <;> rfl
  · subst h
    rfl

/-- Outside a class the members are joined like those of a class. -/
theorem Token.ofEscape_eq (c : Char) : Token.ofEscape c = Token.anyOf (escaped c) := by
  unfold Token.ofEscape
  split
  · rfl
  · rfl
  · rfl
  · next hd hw hs =>
    unfold escaped
    split
    · exact (hd rfl).elim
    · exact (hw rfl).elim
    · exact (hs rfl).elim
    · rfl

/-! ## Trees of symbols -/

namespace TokenTree

variable {mode : NegationMode} {first s : Symbol} {rest members : List Symbol}

/-- The alternation of symbols, each after the ones before it. -/
def anyOf (first : Symbol) (rest : List Symbol) : TokenTree :=
  rest.foldl (fun tree s => .alt tree (.literal s)) (.literal first)

theorem anyOf_concat (first : Symbol) (rest : List Symbol) (s : Symbol) :
    anyOf first (rest ++ [s]) = .alt (anyOf first rest) (.literal s) := by
  rw [anyOf, List.foldl_append]
  rfl

theorem tokens_anyOf (first : Symbol) (rest : List Symbol) :
    (anyOf first rest).tokens = Token.anyOf (first :: rest) := by
  induction rest using List.reverseRecOn with
  | nil => rfl
  | append_singleton rest s ih => simp [anyOf_concat, tokens, ih, Token.anyOf]

theorem mem_labels_anyOf : s ∈ (anyOf first rest).labels mode ↔ s ∈ first :: rest := by
  induction rest using List.reverseRecOn with
  | nil => simp [anyOf, labels]
  | append_singleton rest t ih => simp [anyOf_concat, labels, ih, or_assoc]

theorem mem_language_anyOf {w : List Symbol} :
    w ∈ (anyOf first rest).language mode ↔ ∃ s ∈ first :: rest, w = [s] := by
  induction rest using List.reverseRecOn with
  | nil =>
    simp only [List.mem_singleton, exists_eq_left]
    rfl
  | append_singleton rest t ih =>
    have hlast : w ∈ (literal t).language mode ↔ w = [t] := Iff.rfl
    rw [anyOf_concat, language, Language.mem_add, ih, hlast, ← List.cons_append]
    simp only [List.mem_append, List.mem_singleton, or_and_right, exists_or, exists_eq_left]

/-- An alternation of class members reads the characters they accept. -/
theorem readings_anyOf (hmembers : ∀ s ∈ first :: rest, s.isClassMember = true) :
    readings ((anyOf first rest).language mode) =
      oneChar fun c => ∃ s ∈ first :: rest, s.accepts c = true := by
  ext w
  rw [mem_oneChar, mem_readings]
  constructor
  · intro h
    obtain ⟨v, hv, hread⟩ := h
    obtain ⟨s, hs, rfl⟩ := mem_language_anyOf.1 hv
    obtain ⟨g, hg, rfl⟩ := mem_readings_singleton.1 ⟨[s], rfl, hread⟩
    cases g with
    | char c => exact ⟨c, ⟨s, hs, hg⟩, rfl⟩
    | endOfText => exact absurd hg (Symbol.ne_endOfLine_of_isClassMember (hmembers s hs))
  · intro h
    obtain ⟨c, ⟨s, hs, hc⟩, rfl⟩ := h
    exact ⟨[s], mem_language_anyOf.2 ⟨s, hs, rfl⟩, .cons hc .nil⟩

end TokenTree

/-! ## Symbols that read one character -/

theorem readings_singleton {s : Symbol} (h : s ≠ .endOfLine) :
    readings {[s]} = oneChar fun c => s.accepts c = true := by
  ext w
  rw [mem_readings_singleton, mem_oneChar]
  constructor
  · intro h'
    obtain ⟨g, hg, rfl⟩ := h'
    cases g with
    | char c => exact ⟨c, hg, rfl⟩
    | endOfText => exact absurd hg h
  · intro h'
    obtain ⟨c, hc, rfl⟩ := h'
    exact ⟨.char c, hc, rfl⟩

theorem readings_endOfLine : readings {[.endOfLine]} = {[.endOfText]} := by
  ext w
  rw [mem_readings_singleton]
  constructor
  · intro h
    obtain ⟨g, hg, rfl⟩ := h
    cases g with
    | char c => cases hg
    | endOfText => rfl
  · intro h
    exact ⟨.endOfText, rfl, h⟩

/-- The complement of a class accepts what no member does. -/
theorem Symbol.accepts_excluding {members : List Symbol} {c : Char}
    (h : ∀ s ∈ members, s.isClassMember = true) :
    (excluding members).accepts c = true ↔ ∀ s ∈ members, s.accepts c = false := by
  rw [excluding, accepts_noneOf, Bool.not_eq_true', List.any_eq_false]
  constructor
  · intro hnone s hs
    have hmem : s ∈ sortedSet (members.filter isClassMember) := by
      rw [mem_sortedSet, List.mem_filter]
      exact ⟨hs, h s hs⟩
    simpa using hnone s hmem
  · intro hnone s hs
    rw [mem_sortedSet, List.mem_filter] at hs
    simp [hnone s hs.1]

theorem exists_tree_ofClass (mode : NegationMode) {cls : CharClass} (h : cls.members ≠ []) :
    ∃ tree : TokenTree, tree.tokens = Token.ofClass cls ∧
      readings (tree.language mode) = oneChar (cls.Admits mode) := by
  obtain ⟨first, rest, hmembers⟩ := List.exists_cons_of_ne_nil h
  have hdirect : ∀ s ∈ first :: rest, s.isClassMember = true := fun s hs =>
    CharClass.isClassMember_of_mem (hmembers ▸ hs)
  have htokens := TokenTree.tokens_anyOf first rest
  cases hneg : cls.negated with
  | false =>
    refine ⟨.anyOf first rest, ?_, ?_⟩
    · simp [Token.ofClass, hneg, hmembers, htokens]
    · rw [TokenTree.readings_anyOf hdirect]
      exact oneChar_congr fun c => by simp [CharClass.Admits, hneg, hmembers]
  | true =>
    refine ⟨.negate (.anyOf first rest), ?_, ?_⟩
    · simp [Token.ofClass, hneg, hmembers, TokenTree.tokens, htokens]
    · cases mode with
      | complement =>
        have hlabels : Symbol.excluding ((TokenTree.anyOf first rest).labels .complement) =
            Symbol.excluding (first :: rest) :=
          Symbol.excluding_congr fun s => TokenTree.mem_labels_anyOf
        have hne : Symbol.excluding (first :: rest) ≠ .endOfLine := by simp [Symbol.excluding]
        rw [TokenTree.language, hlabels, readings_singleton hne]
        refine oneChar_congr fun c => ?_
        rw [Symbol.accepts_excluding hdirect, CharClass.Admits, if_pos hneg, hmembers]
      | anyCharacter =>
        have hne : Symbol.any ≠ .endOfLine := by simp
        rw [TokenTree.language, readings_singleton hne]
        exact oneChar_congr fun c => by simp [CharClass.Admits, hneg, Symbol.accepts]

/-! ## The tree of a pattern -/

theorem exists_tree_quantify (mode : NegationMode) (quantifier : Option Quantifier)
    (tree : TokenTree) :
    ∃ tree' : TokenTree, tree'.tokens = tree.tokens ++ Token.ofQuantifier quantifier ∧
      readings (tree'.language mode) = quantify (readings (tree.language mode)) quantifier := by
  cases quantifier with
  | none => exact ⟨tree, (List.append_nil _).symm, rfl⟩
  | some q =>
    cases q with
    | star =>
      refine ⟨.star tree, rfl, ?_⟩
      rw [TokenTree.language, readings_kstar, quantify]
    | plus =>
      refine ⟨.plus tree, rfl, ?_⟩
      rw [TokenTree.language, readings_mul, readings_kstar, quantify]
    | optional =>
      refine ⟨.optional tree, rfl, ?_⟩
      rw [TokenTree.language, readings_add, readings_one, quantify]

mutual

/-- **The tokens of a pattern mean what the pattern means.** They write a tree
of symbols, and its words read the texts that the pattern stands for. -/
theorem Expr.exists_tree (mode : NegationMode) (opened : Nat) :
    ∀ e : Expr, e.Valid → ∃ tree : TokenTree, tree.tokens = e.tokensFrom opened ∧
      readings (tree.language mode) = e.language mode
  | .term t, h => t.exists_tree mode opened h
  | .alt t rest, h => by
    obtain ⟨left, hleft, hl⟩ := t.exists_tree mode opened h.1
    obtain ⟨right, hright, hr⟩ := rest.exists_tree mode (opened + t.groups) h.2
    refine ⟨.alt left right, ?_, ?_⟩
    · rw [TokenTree.tokens, hleft, hright, Expr.tokensFrom]
    · rw [TokenTree.language, readings_add, hl, hr, Expr.language]

theorem Term.exists_tree (mode : NegationMode) (opened : Nat) :
    ∀ t : Term, t.Valid → ∃ tree : TokenTree, tree.tokens = t.tokensFrom opened ∧
      readings (tree.language mode) = t.language mode
  | .factor f, h => f.exists_tree mode opened h
  | .seq f rest, h => by
    obtain ⟨left, hleft, hl⟩ := f.exists_tree mode opened h.1
    obtain ⟨right, hright, hr⟩ := rest.exists_tree mode (opened + f.groups) h.2
    refine ⟨.concat left right, ?_, ?_⟩
    · rw [TokenTree.tokens, hleft, hright, Term.tokensFrom]
    · rw [TokenTree.language, readings_mul, hl, hr, Term.language]

theorem Factor.exists_tree (mode : NegationMode) (opened : Nat) :
    ∀ f : Factor, f.Valid → ∃ tree : TokenTree, tree.tokens = f.tokensFrom opened ∧
      readings (tree.language mode) = f.language mode
  | .mk p quantifier, h => by
    obtain ⟨operand, hoperand, hp⟩ := p.exists_tree mode opened h
    obtain ⟨tree, htree, hq⟩ := exists_tree_quantify mode quantifier operand
    refine ⟨tree, ?_, ?_⟩
    · rw [htree, hoperand, Factor.tokensFrom]
    · rw [hq, hp, Factor.language]

theorem Primary.exists_tree (mode : NegationMode) (opened : Nat) :
    ∀ p : Primary, p.Valid → ∃ tree : TokenTree, tree.tokens = p.tokensFrom opened ∧
      readings (tree.language mode) = p.language mode
  | .literal c, _ => ⟨.literal (.char c), rfl, readings_singleton (by simp)⟩
  | .escape c, _ => by
    obtain ⟨first, rest, hescaped⟩ := List.exists_cons_of_ne_nil (escaped_ne_nil c)
    refine ⟨.anyOf first rest, ?_, ?_⟩
    · rw [TokenTree.tokens_anyOf, ← hescaped, Primary.tokensFrom, Token.ofEscape_eq]
    · rw [TokenTree.readings_anyOf, ← hescaped, Primary.language]
      intro s hs
      exact isClassMember_of_mem_escaped (hescaped ▸ hs)
  | .any, _ => by
    refine ⟨.any, rfl, ?_⟩
    rw [TokenTree.language, readings_singleton (by simp), Primary.language]
    exact oneChar_congr fun c => by simp [Symbol.accepts]
  | .endOfLine, _ => ⟨.endOfLine, rfl, readings_endOfLine⟩
  | .charClass _, h => exists_tree_ofClass mode h
  | .group body, h => by
    obtain ⟨tree, htree, hbody⟩ := body.exists_tree mode (opened + 1) h
    refine ⟨.capture opened tree, ?_, ?_⟩
    · rw [TokenTree.tokens, htree, Primary.tokensFrom]
    · rw [TokenTree.language, hbody, Primary.language]

end

end LinePattern
