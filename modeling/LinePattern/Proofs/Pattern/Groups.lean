/-
The groups of a pattern, and the capture sets of its automaton.

Which groups a pattern has, and in which order they close, is told from its
characters alone: `closings` goes through them with a stack of the parentheses
that are open. The automaton of a pattern has one capture set for each of these
groups, in this order (`TokenTree.Records`). The number of the set is as the
options say, and its edges are those of the pattern between the parentheses,
built on its own and put at some place in the whole.

The automaton of a negated class can lose the groups of its operand. In a
pattern the operand of a negation is a class, which has none.
-/
import LinePattern.Proofs.Pattern.Parse
import LinePattern.Proofs.Pattern.WithoutGroups

namespace LinePattern

/-! ## Where groups close -/

/-- A group of a pattern. -/
structure Group where
  /-- The number of groups opened before it. -/
  index : Nat
  /-- The text between its parentheses. -/
  body : List Char
deriving DecidableEq

namespace LexMode

/-- The groups that a text closes, in that order, when `opened` groups were
opened before it. Of those that are still open, the innermost first, the index
is given and the text from the opening on. -/
def closings : LexMode → Nat → List (Nat × List Char) → List Char → List Group
  | _, _, _, [] => []
  | mode, opened, around, c :: rest =>
    if mode = outside ∧ c = '(' then
      (mode.next c).closings (opened + 1) ((opened, rest) :: around) rest
    else if mode = outside ∧ c = ')' then
      (around.head?.map fun (index, inside) =>
          ⟨index, inside.take (inside.length - (c :: rest).length)⟩).toList ++
        (mode.next c).closings opened around.tail rest
    else (mode.next c).closings opened around rest

end LexMode

/-- The groups of a pattern in the order in which they close. -/
def closings (text : List Char) : List Group := LexMode.outside.closings 0 [] text

/-! ## The groups of a derivation -/

mutual

/-- The groups of an expression before which `opened` groups were opened, in
the order in which they close. -/
def Expr.closings (opened : Nat) : Expr → List Group
  | .term t => t.closings opened
  | .alt t rest => t.closings opened ++ rest.closings (opened + t.groups)

def Term.closings (opened : Nat) : Term → List Group
  | .factor f => f.closings opened
  | .seq f rest => f.closings opened ++ rest.closings (opened + f.groups)

def Factor.closings (opened : Nat) : Factor → List Group
  | .mk p _ => p.closings opened

def Primary.closings (opened : Nat) : Primary → List Group
  | .group body => body.closings (opened + 1) ++ [⟨opened, body.chars⟩]
  | .literal _ | .escape _ | .any | .endOfLine | .charClass _ => []

end

theorem perm_range'_succ {indices : List Nat} {first count : Nat}
    (h : indices.Perm (List.range' (first + 1) count)) :
    (indices ++ [first]).Perm (List.range' first (count + 1)) := by
  rw [List.range'_succ]
  exact (List.perm_append_singleton _ _).trans (h.cons _)

theorem perm_range'_append {indices more : List Nat} {first count next : Nat}
    (h : indices.Perm (List.range' first count))
    (hmore : more.Perm (List.range' (first + count) next)) :
    (indices ++ more).Perm (List.range' first (count + next)) := by
  have happend := h.append hmore
  rwa [List.range'_append_1] at happend

mutual

theorem Expr.perm_closings : ∀ (e : Expr) (opened : Nat),
    ((e.closings opened).map (·.index)).Perm (List.range' opened e.groups)
  | .term t, opened => t.perm_closings opened
  | .alt t rest, opened => by
    rw [Expr.closings, List.map_append, Expr.groups]
    exact perm_range'_append (t.perm_closings opened) (rest.perm_closings _)

theorem Term.perm_closings : ∀ (t : Term) (opened : Nat),
    ((t.closings opened).map (·.index)).Perm (List.range' opened t.groups)
  | .factor f, opened => f.perm_closings opened
  | .seq f rest, opened => by
    rw [Term.closings, List.map_append, Term.groups]
    exact perm_range'_append (f.perm_closings opened) (rest.perm_closings _)

theorem Factor.perm_closings : ∀ (f : Factor) (opened : Nat),
    ((f.closings opened).map (·.index)).Perm (List.range' opened f.groups)
  | .mk p _, opened => p.perm_closings opened

theorem Primary.perm_closings : ∀ (p : Primary) (opened : Nat),
    ((p.closings opened).map (·.index)).Perm (List.range' opened p.groups)
  | .group body, opened => by
    rw [Primary.closings, List.map_append, Primary.groups]
    exact perm_range'_succ (body.perm_closings _)
  | .literal _, _ | .escape _, _ | .any, _ | .endOfLine, _ | .charClass _, _ => .refl _

end

theorem Expr.length_closings (e : Expr) (opened : Nat) : (e.closings opened).length = e.groups := by
  simpa using (e.perm_closings opened).length_eq

/-! ## Reading the groups off the text -/

namespace LexMode

variable {mode middle last : LexMode} {text rest : List Char} {opened between after : Nat}
  {groups more : List Group}

/-- Where `opened` groups were opened before it, the text leads from one mode to
another, closes the given groups and no group around it, and opens others up to
`after`. -/
def Closes (mode : LexMode) (opened : Nat) (text : List Char) (groups : List Group) (after : Nat)
    (last : LexMode) : Prop :=
  ∀ around rest, mode.closings opened around (text ++ rest) =
    groups ++ last.closings after around rest

theorem closes_nil (mode : LexMode) (opened : Nat) : mode.Closes opened [] [] opened mode :=
  fun _ _ => rfl

theorem Closes.append (h : mode.Closes opened text groups between middle)
    (hrest : middle.Closes between rest more after last) :
    mode.Closes opened (text ++ rest) (groups ++ more) after last := by
  intro around tail
  rw [List.append_assoc, h, hrest, List.append_assoc]

theorem closes_singleton {c : Char} (hnext : mode.next c = last)
    (hc : mode = outside → c ≠ '(' ∧ c ≠ ')') : mode.Closes opened [c] [] opened last := by
  intro around tail
  have hopen : ¬ (mode = outside ∧ c = '(') := fun h => (hc h.1).1 h.2
  have hclose : ¬ (mode = outside ∧ c = ')') := fun h => (hc h.1).2 h.2
  rw [List.singleton_append, closings, if_neg hopen, if_neg hclose, hnext, List.nil_append]

theorem Closes.bar (h : outside.Closes opened rest groups after last) :
    outside.Closes opened ('|' :: rest) groups after last := by
  have hbar : outside.Closes opened ['|'] [] opened outside := closes_singleton rfl (by simp)
  exact hbar.append h

/-- The parentheses around a text close a group behind those of the text. -/
theorem Closes.group (h : outside.Closes (opened + 1) text groups after outside) :
    outside.Closes opened ('(' :: text ++ [')']) (groups ++ [⟨opened, text⟩]) after outside := by
  intro around tail
  rw [List.cons_append, List.cons_append, List.append_assoc, closings, if_pos ⟨rfl, rfl⟩]
  change outside.closings _ _ (text ++ ')' :: tail) = _
  rw [h, closings, if_neg (by simp), if_pos ⟨rfl, rfl⟩]
  simp [LexMode.next]

end LexMode

open LexMode

theorem ClassPart.closes_chars {part : ClassPart} {opened : Nat}
    (h : ∀ c, part = .plain c → c ∉ CharClass.metacharacters) :
    LexMode.charClass.Closes opened part.chars [] opened .charClass := by
  cases part with
  | plain c => exact closes_singleton (next_charClass (h c rfl)) (by simp)
  | dash => exact closes_singleton rfl (by simp)
  | escaped c =>
    have hslash : LexMode.charClass.Closes opened ['\\'] [] opened .classEscape :=
      closes_singleton rfl (by simp)
    exact hslash.append (closes_singleton rfl (by simp))

theorem CharClass.closes_chars {cls : CharClass} {opened : Nat} (h : cls.Written) :
    outside.Closes opened cls.chars [] opened outside := by
  have hopening : outside.Closes opened (opening cls.negated) [] opened .charClass := by
    have hbracket : outside.Closes opened ['['] [] opened .charClass :=
      closes_singleton rfl (by simp)
    cases cls.negated with
    | true => exact hbracket.append (closes_singleton rfl (by simp))
    | false => exact hbracket
  have hparts : ∀ parts : List ClassPart, (∀ c, .plain c ∈ parts → c ∉ metacharacters) →
      LexMode.charClass.Closes opened (parts.flatMap ClassPart.chars) [] opened .charClass := by
    intro parts
    induction parts with
    | nil => exact fun _ => closes_nil _ _
    | cons part parts ih =>
      intro h
      have hpart : LexMode.charClass.Closes opened part.chars [] opened .charClass :=
        ClassPart.closes_chars fun c hc => h c (hc ▸ List.mem_cons_self)
      exact hpart.append (ih fun c hc => h c (List.mem_cons_of_mem _ hc))
  exact (hopening.append (hparts cls.parts h.plain)).append (closes_singleton rfl (by simp))

mutual

/-- The text of a derivation closes the groups of the derivation. -/
theorem Expr.Grammatical.closes : ∀ {e : Expr} {opened : Nat}, e.Grammatical →
    outside.Closes opened e.chars (e.closings opened) (opened + e.groups) outside
  | .term _, _, h => Term.Grammatical.closes h
  | .alt t rest, opened, ⟨ht, hrest⟩ => by
    rw [Expr.groups, ← Nat.add_assoc]
    exact ht.closes.append hrest.closes.bar

theorem Term.Grammatical.closes : ∀ {t : Term} {opened : Nat}, t.Grammatical →
    outside.Closes opened t.chars (t.closings opened) (opened + t.groups) outside
  | .factor _, _, h => Factor.Grammatical.closes h
  | .seq f rest, opened, ⟨hf, hrest⟩ => by
    rw [Term.groups, ← Nat.add_assoc]
    exact hf.closes.append hrest.closes

theorem Factor.Grammatical.closes : ∀ {f : Factor} {opened : Nat}, f.Grammatical →
    outside.Closes opened f.chars (f.closings opened) (opened + f.groups) outside
  | .mk p quantifier, opened, h => by
    have hquantifier : outside.Closes (opened + p.groups) (quantifier.map Quantifier.char).toList []
        (opened + p.groups) outside := by
      rcases quantifier with _ | _ | _ | _
      · exact closes_nil _ _
      · exact closes_singleton rfl (by simp [Quantifier.char])
      · exact closes_singleton rfl (by simp [Quantifier.char])
      · exact closes_singleton rfl (by simp [Quantifier.char])
    have hfactor := (Primary.Grammatical.closes (p := p) h).append hquantifier
    rwa [List.append_nil] at hfactor

theorem Primary.Grammatical.closes : ∀ {p : Primary} {opened : Nat}, p.Grammatical →
    outside.Closes opened p.chars (p.closings opened) (opened + p.groups) outside
  | .literal c, _, h => by
    have hopen : c ≠ '(' := fun hc => h (hc ▸ by decide)
    have hclose : c ≠ ')' := fun hc => h (hc ▸ by decide)
    exact closes_singleton (next_outside h) fun _ => ⟨hopen, hclose⟩
  | .escape c, opened, _ => by
    have hslash : outside.Closes opened ['\\'] [] opened .escape := closes_singleton rfl (by simp)
    exact hslash.append (closes_singleton rfl (by simp))
  | .any, _, _ => closes_singleton rfl (by simp)
  | .endOfLine, _, _ => closes_singleton rfl (by simp)
  | .charClass _, _, ⟨hwritten, _⟩ => CharClass.closes_chars hwritten
  | .group body, opened, h => by
    have hbody : outside.Closes (opened + 1) body.chars (body.closings (opened + 1))
        (opened + (body.groups + 1)) outside := by
      rw [← Nat.add_assoc, Nat.add_right_comm]
      exact Expr.Grammatical.closes h
    exact hbody.group

end

/-- The groups that are read off a text are those of its derivation. -/
theorem Expr.Derives.closings_eq {e : Expr} {text : List Char} (h : e.Derives text) :
    LinePattern.closings text = e.closings 0 := by
  have hcloses : outside.Closes 0 e.chars (e.closings 0) (0 + e.groups) outside :=
    h.grammatical.closes
  have hall := hcloses [] []
  rw [List.append_nil, h.chars_eq] at hall
  rw [LinePattern.closings, hall, LexMode.closings, List.append_nil]

/-! ## Capture sets -/

theorem Edge.shift_shift (first second : Nat) (e : Edge) :
    (e.shift first).shift second = e.shift (first + second) := by
  simp [shift, Nat.add_assoc]

namespace CaptureSet

variable {options : Options} {set : CaptureSet} {sets more : List CaptureSet}
  {groups others : List Group} {body : List Char} {closed : Nat}

/-- The edges of the set are those of the pattern that the body is, built on its
own and put behind other states. -/
def Holds (options : Options) (set : CaptureSet) (body : List Char) : Prop :=
  ∃ tokens inner offset, tokenize (String.ofList body) = .ok tokens ∧
    Nfa.ofTokens options tokens = .ok inner ∧ set.edges = inner.edges.map (·.shift offset)

theorem Holds.shift (h : set.Holds options body) (offset : Nat) :
    (set.shift offset).Holds options body := by
  obtain ⟨tokens, inner, before, htokens, hinner, hedges⟩ := h
  refine ⟨tokens, inner, before + offset, htokens, hinner, ?_⟩
  simp [CaptureSet.shift, hedges, Edge.shift_shift]

/-- The numbers of groups that close one after the other, behind `closed`
others. -/
def numbers (options : Options) (closed : Nat) (groups : List Group) : List Nat :=
  match options.numbering with
  | .byOpening => groups.map (·.index)
  | .byClosing => List.range' closed groups.length

theorem numbers_append (options : Options) (closed : Nat) (groups others : List Group) :
    numbers options closed (groups ++ others) =
      numbers options closed groups ++ numbers options (closed + groups.length) others := by
  unfold numbers
  split
  · exact List.map_append
  · rw [List.length_append, List.range'_append_1]

/-- The sets are those of groups that close one after the other, behind `closed`
others. -/
structure Record (options : Options) (closed : Nat) (sets : List CaptureSet)
    (groups : List Group) : Prop where
  numbers_eq : sets.map (·.group) = numbers options closed groups
  holds : List.Forall₂ (fun set group => set.Holds options group.body) sets groups

theorem record_nil (options : Options) (closed : Nat) : Record options closed [] [] where
  numbers_eq := by
    unfold numbers
    split <;> rfl
  holds := .nil

theorem Record.append (h : Record options closed sets groups)
    (hmore : Record options (closed + groups.length) more others) (offset : Nat) :
    Record options closed (sets ++ more.map (·.shift offset)) (groups ++ others) where
  numbers_eq := by
    rw [numbers_append, List.map_append, h.numbers_eq, ← hmore.numbers_eq, List.map_map]
    rfl
  holds := by
    refine List.rel_append h.holds (List.forall₂_map_left_iff.2 ?_)
    exact hmore.holds.imp fun _ _ hholds => hholds.shift offset

/-- One more group, which closes last. -/
theorem Record.concat {group : Group} (h : Record options closed sets groups)
    (hnumber : set.group = match options.numbering with
      | .byOpening => group.index
      | .byClosing => closed + groups.length)
    (hholds : set.Holds options group.body) :
    Record options closed (sets ++ [set]) (groups ++ [group]) where
  numbers_eq := by
    rw [numbers_append, List.map_append, h.numbers_eq, List.map_singleton, hnumber]
    unfold numbers
    split <;> rfl
  holds := List.rel_append h.holds (.cons hholds .nil)

end CaptureSet

namespace Nfa

variable {nfa left right : Nfa}

@[simp] theorem captures_addEpsilons (nfa : Nfa) (steps : List (StateId × StateId)) :
    (nfa.addEpsilons steps).captures = nfa.captures := by
  rw [addEpsilons_eq]

theorem captures_concat : (left.concat right).captures =
    left.captures ++ right.captures.map (·.shift left.size) :=
  captures_addEpsilons (left.absorb right) _

theorem captures_alt : (left.alt right).captures =
    left.captures ++ right.captures.map (·.shift left.size) :=
  captures_addEpsilons ((left.absorb right).addState.addState) _

theorem captures_plus : nfa.plus.captures = nfa.captures :=
  captures_addEpsilons nfa.addState.addState _

theorem captures_star : nfa.star.captures = nfa.captures := captures_plus

theorem captures_optional : nfa.optional.captures = nfa.captures := captures_addEpsilons _ _

/-- Negation keeps no group that was not there. -/
theorem captures_negate (mode : NegationMode) (h : nfa.captures = []) :
    (nfa.negate mode).captures = [] := by
  cases mode with
  | complement => rfl
  | anyCharacter => exact h

end Nfa

/-! ## The capture sets of a pattern -/

open CaptureSet

namespace TokenTree

variable {tree left right body : TokenTree} {groups more : List Group}

/-- Wherever the tree stands, its automaton has the sets of the groups. -/
structure Records (tree : TokenTree) (groups : List Group) : Prop where
  groups_eq : tree.groups = groups.length
  record : ∀ options closed, Record options closed (tree.nfa options closed).captures groups

theorem records_anyOf (first : Symbol) (rest : List Symbol) : (anyOf first rest).Records [] := by
  induction rest using List.reverseRecOn with
  | nil => exact ⟨rfl, fun options closed => record_nil options closed⟩
  | append_singleton rest s ih =>
    rw [anyOf_concat]
    refine ⟨ih.groups_eq, fun options closed => ?_⟩
    rw [nfa, Nfa.captures_alt]
    exact (ih.record options closed).append (record_nil options _) _

theorem Records.concat (hl : left.Records groups) (hr : right.Records more) :
    (concat left right).Records (groups ++ more) where
  groups_eq := by rw [TokenTree.groups, hl.groups_eq, hr.groups_eq, List.length_append]
  record options closed := by
    rw [nfa, Nfa.captures_concat, hl.groups_eq]
    exact (hl.record options closed).append (hr.record options _) _

theorem Records.alt (hl : left.Records groups) (hr : right.Records more) :
    (alt left right).Records (groups ++ more) where
  groups_eq := by rw [TokenTree.groups, hl.groups_eq, hr.groups_eq, List.length_append]
  record options closed := by
    rw [nfa, Nfa.captures_alt, hl.groups_eq]
    exact (hl.record options closed).append (hr.record options _) _

theorem Records.exists_quantify (h : tree.Records groups) (quantifier : Option Quantifier) :
    ∃ tree' : TokenTree, tree'.tokens = tree.tokens ++ Token.ofQuantifier quantifier ∧
      tree'.Records groups := by
  rcases quantifier with _ | _ | _ | _
  · exact ⟨tree, (List.append_nil _).symm, h⟩
  · refine ⟨.star tree, rfl, h.groups_eq, fun options closed => ?_⟩
    rw [nfa, Nfa.captures_star]
    exact h.record options closed
  · refine ⟨.plus tree, rfl, h.groups_eq, fun options closed => ?_⟩
    rw [nfa, Nfa.captures_plus]
    exact h.record options closed
  · refine ⟨.optional tree, rfl, h.groups_eq, fun options closed => ?_⟩
    rw [nfa, Nfa.captures_optional]
    exact h.record options closed

theorem exists_records_ofClass {cls : CharClass} (h : cls.members ≠ []) :
    ∃ tree : TokenTree, tree.tokens = Token.ofClass cls ∧ tree.Records [] := by
  obtain ⟨first, rest, hmembers⟩ := List.exists_cons_of_ne_nil h
  have htokens := tokens_anyOf first rest
  have hanyOf := records_anyOf first rest
  cases hneg : cls.negated with
  | false => exact ⟨.anyOf first rest, by simp [Token.ofClass, hneg, hmembers, htokens], hanyOf⟩
  | true =>
    refine ⟨.negate (.anyOf first rest), ?_, hanyOf.groups_eq, fun options closed => ?_⟩
    · simp [Token.ofClass, hneg, hmembers, tokens, htokens]
    · have hnone : ((anyOf first rest).nfa options closed).captures = [] :=
        List.forall₂_nil_right_iff.1 (hanyOf.record options closed).holds
      rw [nfa, Nfa.captures_negate _ hnone]
      exact record_nil options closed

end TokenTree

mutual

/-- Without capture tokens a stream does not depend on the groups before it. -/
theorem Expr.withoutGroups_tokensFrom (opened opened' : Nat) : ∀ e : Expr,
    Token.withoutGroups (e.tokensFrom opened) = Token.withoutGroups (e.tokensFrom opened')
  | .term t => t.withoutGroups_tokensFrom opened opened'
  | .alt t rest => by
    simp only [Expr.tokensFrom, Token.withoutGroups_append,
      t.withoutGroups_tokensFrom opened opened',
      rest.withoutGroups_tokensFrom (opened + t.groups) (opened' + t.groups)]

theorem Term.withoutGroups_tokensFrom (opened opened' : Nat) : ∀ t : Term,
    Token.withoutGroups (t.tokensFrom opened) = Token.withoutGroups (t.tokensFrom opened')
  | .factor f => f.withoutGroups_tokensFrom opened opened'
  | .seq f rest => by
    simp only [Term.tokensFrom, Token.withoutGroups_append,
      f.withoutGroups_tokensFrom opened opened',
      rest.withoutGroups_tokensFrom (opened + f.groups) (opened' + f.groups)]

theorem Factor.withoutGroups_tokensFrom (opened opened' : Nat) : ∀ f : Factor,
    Token.withoutGroups (f.tokensFrom opened) = Token.withoutGroups (f.tokensFrom opened')
  | .mk p _ => by
    simp only [Factor.tokensFrom, Token.withoutGroups_append,
      p.withoutGroups_tokensFrom opened opened']

theorem Primary.withoutGroups_tokensFrom (opened opened' : Nat) : ∀ p : Primary,
    Token.withoutGroups (p.tokensFrom opened) = Token.withoutGroups (p.tokensFrom opened')
  | .group body => by
    simp only [Primary.tokensFrom, Token.withoutGroups_append,
      body.withoutGroups_tokensFrom (opened + 1) (opened' + 1)]
    rfl
  | .literal _ | .escape _ | .any | .endOfLine | .charClass _ => rfl

end

/-- The tree of a group records one set more, that of its body. -/
theorem TokenTree.Records.capture {body : Expr} {tree : TokenTree} {groups : List Group}
    {opened : Nat} (hbody : body.Grammatical) (htokens : tree.tokens = body.tokensFrom (opened + 1))
    (h : tree.Records groups) :
    (TokenTree.capture opened tree).Records (groups ++ [⟨opened, body.chars⟩]) where
  groups_eq := by rw [TokenTree.groups, h.groups_eq, List.length_append, List.length_singleton]
  record options closed := by
    obtain ⟨alone, halone, -⟩ := Expr.exists_tree options.negation 0 body hbody.valid
    have hsame : Token.withoutGroups tree.tokens = Token.withoutGroups alone.tokens := by
      rw [htokens, halone, Expr.withoutGroups_tokensFrom]
    have hread : tokenize (String.ofList body.chars) = .ok alone.tokens := by
      have hderives : body.Derives (String.ofList body.chars).toList :=
        ⟨hbody, String.toList_ofList.symm⟩
      exact tokenize_eq_ok_iff_parse.2 ⟨body, Expr.parse_of_derives hderives, halone⟩
    refine (h.record options closed).concat ?_
      ⟨alone.tokens, _, 0, hread, TokenTree.ofTokens_tokens options alone, ?_⟩
    · cases options.numbering with
      | byOpening => rfl
      | byClosing => exact congrArg (closed + ·) h.groups_eq
    · rw [TokenTree.edges_nfa_congr rfl hsame 0 closed]
      exact (List.map_id _).symm

mutual

/-- The tree of an expression records its groups in the order they close. -/
theorem Expr.exists_records (opened : Nat) : ∀ e : Expr, e.Grammatical →
    ∃ tree : TokenTree, tree.tokens = e.tokensFrom opened ∧ tree.Records (e.closings opened)
  | .term t, h => t.exists_records opened h
  | .alt t rest, ⟨ht, hrest⟩ => by
    obtain ⟨left, hleft, hl⟩ := t.exists_records opened ht
    obtain ⟨right, hright, hr⟩ := rest.exists_records (opened + t.groups) hrest
    exact ⟨.alt left right, by rw [TokenTree.tokens, hleft, hright, Expr.tokensFrom], hl.alt hr⟩

theorem Term.exists_records (opened : Nat) : ∀ t : Term, t.Grammatical →
    ∃ tree : TokenTree, tree.tokens = t.tokensFrom opened ∧ tree.Records (t.closings opened)
  | .factor f, h => f.exists_records opened h
  | .seq f rest, ⟨hf, hrest⟩ => by
    obtain ⟨left, hleft, hl⟩ := f.exists_records opened hf
    obtain ⟨right, hright, hr⟩ := rest.exists_records (opened + f.groups) hrest
    exact ⟨.concat left right, by rw [TokenTree.tokens, hleft, hright, Term.tokensFrom],
      hl.concat hr⟩

theorem Factor.exists_records (opened : Nat) : ∀ f : Factor, f.Grammatical →
    ∃ tree : TokenTree, tree.tokens = f.tokensFrom opened ∧ tree.Records (f.closings opened)
  | .mk p quantifier, h => by
    obtain ⟨operand, hoperand, hp⟩ := p.exists_records opened h
    obtain ⟨tree, htree, hrecords⟩ := hp.exists_quantify quantifier
    exact ⟨tree, by rw [htree, hoperand, Factor.tokensFrom], hrecords⟩

theorem Primary.exists_records (opened : Nat) : ∀ p : Primary, p.Grammatical →
    ∃ tree : TokenTree, tree.tokens = p.tokensFrom opened ∧ tree.Records (p.closings opened)
  | .literal c, _ => ⟨.literal (.char c), rfl, TokenTree.records_anyOf _ []⟩
  | .escape c, _ => by
    obtain ⟨first, rest, hescaped⟩ := List.exists_cons_of_ne_nil (escaped_ne_nil c)
    refine ⟨.anyOf first rest, ?_, TokenTree.records_anyOf first rest⟩
    rw [TokenTree.tokens_anyOf, ← hescaped, Primary.tokensFrom, Token.ofEscape_eq]
  | .any, _ => ⟨.any, rfl, rfl, record_nil⟩
  | .endOfLine, _ => ⟨.endOfLine, rfl, rfl, record_nil⟩
  | .charClass _, ⟨_, hmembers⟩ =>
    TokenTree.exists_records_ofClass (CharClass.members_ne_nil_iff.2 hmembers)
  | .group body, h => by
    obtain ⟨tree, htree, hrecords⟩ := Expr.exists_records (opened + 1) body h
    refine ⟨.capture opened tree, ?_, hrecords.capture h htree⟩
    rw [TokenTree.tokens, htree, Primary.tokensFrom]

end

/-- **The capture sets of a pattern.** The tokens of a pattern that is read are
always assembled. The automaton has one capture set for each group of the
pattern, in the order in which the groups close, with the edges that the text
between the parentheses builds. Numbered by their opening parentheses the sets
are a permutation of the numbers below that of the groups, and numbered as they
close they are these numbers in order. -/
theorem Nfa.captures_of_tokenize (options : Options) {pattern : String} {tokens : List Token}
    (h : tokenize pattern = .ok tokens) :
    ∃ nfa, Nfa.ofTokens options tokens = .ok nfa ∧
      List.Forall₂ (fun set group => set.Holds options group.body) nfa.captures
        (closings pattern.toList) ∧
      (options.numbering = .byOpening →
        nfa.captures.map (·.group) = (closings pattern.toList).map (·.index) ∧
        (nfa.captures.map (·.group)).Perm (List.range (openings pattern.toList))) ∧
      (options.numbering = .byClosing →
        nfa.captures.map (·.group) = List.range (openings pattern.toList)) := by
  obtain ⟨e, hparse, rfl⟩ := tokenize_eq_ok_iff_parse.1 h
  have hderives := Expr.derives_of_parse hparse
  obtain ⟨tree, htree, hrecords⟩ := Expr.exists_records 0 e hderives.grammatical
  have hrecord := hrecords.record options 0
  have hnumbers := hrecord.numbers_eq
  have hopenings : openings pattern.toList = e.groups := by
    rw [← hderives.chars_eq]
    exact hderives.grammatical.leads.openings_eq
  unfold numbers at hnumbers
  rw [Expr.tokens, ← htree, hderives.closings_eq, hopenings, List.range_eq_range']
  refine ⟨_, TokenTree.ofTokens_tokens options tree, hrecord.holds, fun hmode => ?_, fun hmode => ?_⟩
  · rw [hmode] at hnumbers
    exact ⟨hnumbers, hnumbers ▸ e.perm_closings 0⟩
  · rw [hmode] at hnumbers
    rw [hnumbers, e.length_closings]

/-- Two groups, one in the other, and a third. The parentheses of the class and
the escaped one count for nothing. -/
theorem Nfa.captures_of_tokenize_nested : ∃ nfa,
    Nfa.ofTokens {} [.literal (.char 'a'), .literal (.char 'b'), .capture 1, .star, .concat,
      .capture 0, .literal (.char '('), .literal (.char ')'), .alt, .literal (.char '('),
      .literal (.char 'c'), .concat, .capture 2, .concat, .concat] = .ok nfa ∧
    nfa.captures.map (·.group) = [1, 0, 2] ∧
    (nfa.captures.map (·.group)).Perm (List.range (openings "(a(b)*)[()](\\(c)".toList)) := by
  have hread : tokenize "(a(b)*)[()](\\(c)" = .ok [.literal (.char 'a'), .literal (.char 'b'),
      .capture 1, .star, .concat, .capture 0, .literal (.char '('), .literal (.char ')'), .alt,
      .literal (.char '('), .literal (.char 'c'), .concat, .capture 2, .concat, .concat] := by
    decide +kernel
  have hclosings : (closings "(a(b)*)[()](\\(c)".toList).map (·.index) = [1, 0, 2] := by
    decide +kernel
  obtain ⟨nfa, hnfa, -, hgroups, -⟩ := Nfa.captures_of_tokenize {} hread
  obtain ⟨hindices, hperm⟩ := hgroups rfl
  exact ⟨nfa, hnfa, hindices.trans hclosings, hperm⟩

end LinePattern
