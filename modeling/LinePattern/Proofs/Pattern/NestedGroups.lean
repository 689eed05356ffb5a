/-
Groups lie within each other or apart, and the inner ones come first.

A group is recorded with all transitions there are when it closes, among them those of the
groups recorded before. No operator takes a transition from under a group: a complement drops
both. Two operands have their groups apart. So of two capture sets the first is within the
second, or shares nothing with it (`TokenTree.nested`), and the first set with a transition is
the smallest (`Nfa.Nested.exists_smallest`).

Which parentheses are the innermost around a literal is told by going down the tree with
the number of those passed last (`TokenTree.creations`). Each literal creates one transition,
and the first set with that transition has this number (`TokenTree.makes_creations`). A merge
has the transitions of its members, each with the group it has there
(`TokenTree.makes_mergeFrom`).
-/
import LinePattern.Proofs.Nfa.Member
import LinePattern.Proofs.Pattern.Denotation
import LinePattern.Proofs.Pattern.Groups

namespace LinePattern

namespace Nfa

variable {nfa left right whole : Nfa} {e : Edge} {group base : Nat} {around : Option Nat}
  {created more : List (Edge × Option Nat)}

/-! ## Nested sets -/

/-- Of two capture sets the one recorded first is within the other, or apart from it. -/
def Nested (nfa : Nfa) : Prop :=
  nfa.captures.Pairwise fun first later =>
    first.edges.Disjoint later.edges ∨ first.edges ⊆ later.edges

/-- The set has the edge, and is within every other capture set that has it. -/
structure Smallest (nfa : Nfa) (e : Edge) (set : CaptureSet) : Prop where
  mem_captures : set ∈ nfa.captures
  mem_edges : e ∈ set.edges
  subset : ∀ other ∈ nfa.captures, e ∈ other.edges → set.edges ⊆ other.edges

/-- The group of an edge is that of the smallest set that has it. -/
theorem Nested.exists_smallest (h : nfa.Nested) (hgroup : nfa.groupOf? e = some group) :
    ∃ set, nfa.Smallest e set ∧ set.group = group := by
  obtain ⟨set, hfind, hset⟩ := Option.map_eq_some_iff.1 hgroup
  obtain ⟨hmem, before, after, hcaptures, hbefore⟩ := List.find?_eq_some_iff_append.1 hfind
  have he : e ∈ set.edges := List.contains_iff_mem.1 hmem
  have hin : set ∈ nfa.captures := by simp [hcaptures]
  refine ⟨set, ⟨hin, he, ?_⟩, hset⟩
  intro other hother heother
  rw [hcaptures, List.mem_append, List.mem_cons] at hother
  rcases hother with hother | rfl | hother
  · have hnot := hbefore other hother
    rw [List.contains_iff_mem.2 heother] at hnot
    cases hnot
  · exact List.Subset.refl _
  · rw [Nested, hcaptures, List.pairwise_append, List.pairwise_cons] at h
    rcases h.2.1.1 other hother with hapart | hwithin
    · exact absurd heother (hapart he)
    · exact hwithin

theorem groupOf?_eq_none_iff : nfa.groupOf? e = none ↔ ∀ set ∈ nfa.captures, e ∉ set.edges := by
  simp [groupOf?]

theorem Nested.of_captures_eq (h : nfa.Nested) (hcaptures : whole.captures = nfa.captures) :
    whole.Nested := by
  rw [Nested, hcaptures]
  exact h

/-- A group that closes now has within it all that closed before. -/
theorem Nested.recordCapture (h : nfa.Nested) (hsteps : nfa.CapturesSteps) (group : Nat) :
    (nfa.recordCapture group).Nested := by
  rw [Nested, Nfa.recordCapture, List.pairwise_append]
  refine ⟨h, List.pairwise_singleton _ _, ?_⟩
  intro first hfirst later hlater
  obtain rfl := List.mem_singleton.1 hlater
  exact .inr fun e he => mem_edges.2 (hsteps first hfirst e he)

theorem Nested.negate (h : nfa.Nested) (mode : NegationMode) : (nfa.negate mode).Nested := by
  cases mode with
  | complement => exact .nil
  | anyCharacter => exact h.of_captures_eq rfl

/-! ## Two automata beside each other -/

theorem mem_edges_absorb : e ∈ (left.absorb right).edges ↔
    e ∈ left.edges ∨ ∃ e' ∈ right.edges, e = e'.shift left.size := by
  rw [mem_edges, step_absorb, mem_edges]
  refine or_congr_right ?_
  constructor
  · rintro ⟨p, q, hp, hq, h⟩
    obtain ⟨source, symbol, target⟩ := e
    obtain rfl : source = _ := hp
    obtain rfl : target = _ := hq
    exact ⟨⟨p, symbol, q⟩, mem_edges.2 h, rfl⟩
  · rintro ⟨e', he', rfl⟩
    exact ⟨_, _, rfl, rfl, mem_edges.1 he'⟩

theorem mem_edges_addEpsilons {steps : List (StateId × StateId)} :
    e ∈ (nfa.addEpsilons steps).edges ↔ e ∈ nfa.edges := by
  rw [mem_edges, step_addEpsilons, mem_edges]
  simp

theorem mem_edges_addState : e ∈ nfa.addState.edges ↔ e ∈ nfa.edges := by
  rw [mem_edges, step_addState, mem_edges]

theorem mem_edges_plus : e ∈ nfa.plus.edges ↔ e ∈ nfa.edges := by
  change e ∈ (nfa.addState.addState.addEpsilons _).edges ↔ _
  rw [mem_edges_addEpsilons, mem_edges_addState, mem_edges_addState]

theorem mem_edges_star : e ∈ nfa.star.edges ↔ e ∈ nfa.edges := by
  rw [star_eq_optional_plus, optional, mem_edges_addEpsilons, mem_edges_plus]

/-- The transitions and the groups of the whole are those of the left part, and those of
the right part under the numbers behind it. -/
structure Beside (whole left right : Nfa) : Prop where
  mem_edges_iff : ∀ e, e ∈ whole.edges ↔
    e ∈ left.edges ∨ ∃ e' ∈ right.edges, e = e'.shift left.size
  captures_eq : whole.captures = left.captures ++ right.captures.map (·.shift left.size)

theorem beside_concat (left right : Nfa) : (left.concat right).Beside left right where
  mem_edges_iff _ := by
    change _ ∈ ((left.absorb right).addEpsilons _).edges ↔ _
    rw [mem_edges_addEpsilons, mem_edges_absorb]
  captures_eq := captures_concat

theorem beside_alt (left right : Nfa) : (left.alt right).Beside left right where
  mem_edges_iff _ := by
    change _ ∈ ((left.absorb right).addState.addState.addEpsilons _).edges ↔ _
    rw [mem_edges_addEpsilons, mem_edges_addState, mem_edges_addState, mem_edges_absorb]
  captures_eq := captures_alt

theorem beside_addMember (merged nfa : Nfa) (i : PatternId) :
    (merged.addMember i nfa).Beside merged nfa where
  mem_edges_iff e := by
    change e ∈ ((merged.absorb (nfa.stamp i)).addEpsilons
      [(merged.initial, nfa.initial + merged.size)]).edges ↔ _
    rw [mem_edges_addEpsilons, mem_edges_absorb]
    rfl
  captures_eq := captures_addMember merged nfa i

/-- The sets of two parts keep apart from each other. -/
theorem Beside.nested (h : whole.Beside left right) (hl : left.Nested) (hr : right.Nested)
    (hsteps : left.CapturesSteps) : whole.Nested := by
  rw [Nested, h.captures_eq, List.pairwise_append]
  refine ⟨hl, ?_, ?_⟩
  · rw [List.pairwise_map]
    refine List.Pairwise.imp ?_ hr
    intro first later h
    rcases h with hapart | hwithin
    · refine .inl fun e hfirst hlater => ?_
      obtain ⟨e₁, h₁, rfl⟩ := List.mem_map.1 hfirst
      obtain ⟨e₂, h₂, heq⟩ := List.mem_map.1 hlater
      obtain rfl := Edge.shift_injective left.size heq
      exact hapart h₁ h₂
    · exact .inr (List.map_subset _ hwithin)
  · intro first hfirst later hlater
    refine .inl fun e he he' => ?_
    have hlt := (hsteps first hfirst e he).lt_size
    obtain ⟨set, -, rfl⟩ := List.mem_map.1 hlater
    obtain ⟨e', -, rfl⟩ := List.mem_map.1 he'
    exact absurd hlt (Nat.not_lt.2 (Nat.le_add_left _ _))

/-! ## Transitions, and the groups around them -/

/-- The list has each transition of the automaton once, put behind `base` other states, with
its group, or that around the automaton if it is in none. -/
structure Makes (nfa : Nfa) (base : Nat) (around : Option Nat)
    (created : List (Edge × Option Nat)) : Prop where
  mem_iff : ∀ e credit, (e, credit) ∈ created ↔
    ∃ e' ∈ nfa.edges, e = e'.shift base ∧ credit = (nfa.groupOf? e').or around
  nodup : (created.map (·.1)).Nodup

theorem Makes.exists_edge (h : nfa.Makes base around created) (he : e ∈ created.map (·.1)) :
    ∃ e' ∈ nfa.edges, e = e'.shift base := by
  obtain ⟨⟨_, credit⟩, hmem, rfl⟩ := List.mem_map.1 he
  obtain ⟨e', he', heq, -⟩ := (h.mem_iff _ _).1 hmem
  exact ⟨e', he', heq⟩

theorem makes_ofSymbol (symbol : Symbol) (base : Nat) (around : Option Nat) :
    (ofSymbol symbol).Makes base around [((⟨0, symbol, 1⟩ : Edge).shift base, around)] where
  mem_iff e credit := by simp [edges, ofSymbol, groupOf?]
  nodup := List.nodup_singleton _

theorem Makes.congr (h : nfa.Makes base around created)
    (hedges : ∀ e, e ∈ whole.edges ↔ e ∈ nfa.edges) (hcaptures : whole.captures = nfa.captures) :
    whole.Makes base around created where
  mem_iff e credit := by simp only [h.mem_iff, hedges, groupOf?, hcaptures]
  nodup := h.nodup

/-- The right part is put behind the left one, and both behind `base` other states. -/
theorem Makes.append (hl : left.Makes base around created)
    (hr : right.Makes (left.size + base) around more) (h : whole.Beside left right)
    (hsteps : left.CapturesSteps) : whole.Makes base around (created ++ more) where
  mem_iff e credit := by
    rw [List.mem_append, hl.mem_iff, hr.mem_iff]
    constructor
    · rintro (⟨e', he', rfl, rfl⟩ | ⟨e', he', rfl, rfl⟩)
      · refine ⟨e', (h.mem_edges_iff e').2 (.inl he'), rfl, ?_⟩
        rw [groupOf?_of_lt h.captures_eq (mem_edges.1 he').lt_size]
      · refine ⟨_, (h.mem_edges_iff _).2 (.inr ⟨e', he', rfl⟩), (e'.shift_shift _ _).symm, ?_⟩
        rw [groupOf?_shift h.captures_eq hsteps]
    · rintro ⟨e', he', rfl, rfl⟩
      rcases (h.mem_edges_iff e').1 he' with hleft | ⟨e'', hright, rfl⟩
      · refine .inl ⟨e', hleft, rfl, ?_⟩
        rw [groupOf?_of_lt h.captures_eq (mem_edges.1 hleft).lt_size]
      · refine .inr ⟨e'', hright, e''.shift_shift _ _, ?_⟩
        rw [groupOf?_shift h.captures_eq hsteps]
  nodup := by
    rw [List.map_append]
    refine hl.nodup.append hr.nodup fun e he he' => ?_
    obtain ⟨e₁, h₁, rfl⟩ := hl.exists_edge he
    obtain ⟨e₂, h₂, heq⟩ := hr.exists_edge he'
    have hsource : e₁.source + base = e₂.source + (left.size + base) :=
      congrArg Edge.source heq
    have hlt := (mem_edges.1 h₁).lt_size
    lia

theorem groupOf?_recordCapture (he : e ∈ nfa.edges) :
    (nfa.recordCapture group).groupOf? e = (nfa.groupOf? e).or (some group) := by
  simp only [groupOf?, recordCapture, List.find?_append, List.find?_singleton,
    List.contains_iff_mem.2 he]
  cases nfa.captures.find? (·.edges.contains e) with
  | none => rfl
  | some set => rfl

/-- Recorded is what was made with the new group around it. -/
theorem Makes.recordCapture (h : nfa.Makes base (some group) created) (around : Option Nat) :
    (nfa.recordCapture group).Makes base around created where
  mem_iff e credit := by
    have hgroup : ∀ e' ∈ nfa.edges, ((nfa.recordCapture group).groupOf? e').or around =
        (nfa.groupOf? e').or (some group) := by
      intro e' he'
      rw [groupOf?_recordCapture he', Option.or_assoc]
      rfl
    rw [h.mem_iff]
    exact exists_congr fun e' => and_congr_right fun he' => by rw [hgroup e' he']
  nodup := h.nodup

theorem mem_edges_negate {stop : StateId} (h : nfa.Fragment stop) :
    e ∈ (nfa.negate .anyCharacter).edges ↔ e ∈ nfa.edges ∨ e = ⟨nfa.initial, .any, nfa.size⟩ := by
  obtain ⟨source, symbol, target⟩ := e
  rw [mem_edges, step_negate_anyCharacter h, mem_edges, Edge.mk.injEq, Option.some_inj,
    and_left_comm]

/-- The new transition of a negation is in no group that was recorded. -/
theorem Makes.negate {stop : StateId} (h : nfa.Makes base around created) (hf : nfa.Fragment stop)
    (hsteps : nfa.CapturesSteps) : (nfa.negate .anyCharacter).Makes base around
      (created ++ [((⟨nfa.initial, .any, nfa.size⟩ : Edge).shift base, around)]) where
  mem_iff e credit := by
    have hnew : nfa.groupOf? ⟨nfa.initial, .any, nfa.size⟩ = none := by
      refine groupOf?_eq_none_iff.2 fun set hset hmem => ?_
      exact Nat.lt_irrefl _ (hf.target_lt (hsteps set hset _ hmem))
    have hold : ∀ e', (nfa.negate .anyCharacter).groupOf? e' = nfa.groupOf? e' := fun _ => rfl
    simp only [List.mem_append, List.mem_singleton, h.mem_iff, mem_edges_negate hf, hold,
      or_and_right, exists_or, exists_eq_left, hnew, Option.none_or, Prod.mk.injEq]
  nodup := by
    rw [List.map_append, List.map_singleton]
    refine h.nodup.append (List.nodup_singleton _) fun e he he' => ?_
    obtain ⟨e', hmem, rfl⟩ := h.exists_edge he
    have hsame : e' = ⟨nfa.initial, .any, nfa.size⟩ :=
      Edge.shift_injective base (List.mem_singleton.1 he')
    have hlt := hf.target_lt (mem_edges.1 hmem)
    rw [hsame] at hlt
    exact Nat.lt_irrefl _ hlt

end Nfa

/-! ## The groups of a tree -/

namespace TokenTree

variable {options : Options}

/-- Two groups of a tree are nested or apart. -/
theorem nested (options : Options) (closed : Nat) (tree : TokenTree) :
    (tree.nfa options closed).Nested := by
  induction tree generalizing closed with
  | literal | any | endOfLine => exact .nil
  | concat left right ihl ihr =>
    exact (Nfa.beside_concat _ _).nested (ihl _) (ihr _) (left.capturesSteps _ _)
  | alt left right ihl ihr =>
    exact (Nfa.beside_alt _ _).nested (ihl _) (ihr _) (left.capturesSteps _ _)
  | star body ih => exact (ih _).of_captures_eq Nfa.captures_star
  | plus body ih => exact (ih _).of_captures_eq Nfa.captures_plus
  | optional body ih => exact (ih _).of_captures_eq Nfa.captures_optional
  | negate body ih => exact (ih _).negate _
  | capture group body ih => exact (ih _).recordCapture (body.capturesSteps _ _) _

/-- The transitions that the literals of the tree create, when its automaton is put behind
`base` other states. With each the number of the innermost parentheses around the literal:
those passed last on the way down to it, or `around` if there were none. -/
def creations (options : Options) (closed base : Nat) (around : Option Nat) :
    TokenTree → List (Edge × Option Nat)
  | literal symbol => [((⟨0, symbol, 1⟩ : Edge).shift base, around)]
  | any => [((⟨0, .any, 1⟩ : Edge).shift base, around)]
  | endOfLine => [((⟨0, .endOfLine, 1⟩ : Edge).shift base, around)]
  | concat left right | alt left right =>
    left.creations options closed base around ++
      right.creations options (closed + left.groups) ((left.nfa options closed).size + base) around
  | star body | plus body | optional body => body.creations options closed base around
  | negate body =>
    let inner := body.nfa options closed
    match options.negation with
    -- the class itself is the literal, and nothing that its members created is left
    | .complement =>
      [((⟨0, .excluding (inner.edges.map (·.symbol)), 1⟩ : Edge).shift base, around)]
    | .anyCharacter =>
      body.creations options closed base around ++
        [((⟨inner.initial, .any, inner.size⟩ : Edge).shift base, around)]
  | capture group body => body.creations options closed base (some (match options.numbering with
      | .byOpening => group
      | .byClosing => closed + body.groups))

/-- Each transition was created by one literal, and has the group that was around it. -/
theorem makes_creations (closed base : Nat) (around : Option Nat) (tree : TokenTree) :
    (tree.nfa options closed).Makes base around (tree.creations options closed base around) := by
  induction tree generalizing closed base around with
  | literal symbol => exact Nfa.makes_ofSymbol symbol base around
  | any => exact Nfa.makes_ofSymbol .any base around
  | endOfLine => exact Nfa.makes_ofSymbol .endOfLine base around
  | concat left right ihl ihr =>
    exact (ihl _ _ _).append (ihr _ _ _) (Nfa.beside_concat _ _) (left.capturesSteps _ _)
  | alt left right ihl ihr =>
    exact (ihl _ _ _).append (ihr _ _ _) (Nfa.beside_alt _ _) (left.capturesSteps _ _)
  | star body ih => exact (ih _ _ _).congr (fun _ => Nfa.mem_edges_star) Nfa.captures_star
  | plus body ih => exact (ih _ _ _).congr (fun _ => Nfa.mem_edges_plus) Nfa.captures_plus
  | optional body ih =>
    exact (ih _ _ _).congr (fun _ => Nfa.mem_edges_addEpsilons) Nfa.captures_optional
  | negate body ih =>
    cases hmode : options.negation with
    | complement =>
      simp only [nfa, creations, hmode]
      exact Nfa.makes_ofSymbol _ base around
    | anyCharacter =>
      obtain ⟨stop, hf⟩ := exists_fragment options closed body
      simp only [nfa, creations, hmode]
      exact (ih _ _ _).negate hf (body.capturesSteps _ _)
  | capture group body ih => exact (ih _ _ _).recordCapture around

/-! ## The groups of a merge -/

/-- The stream that writes a tree, with the options it is assembled with. -/
def streamOf (plan : Options × TokenTree) : Options × List Token := (plan.1, plan.2.tokens)

/-- The automaton that a tree is assembled to. -/
def nfaOf (plan : Options × TokenTree) : Nfa := plan.2.nfa plan.1 0

/-- The transitions that the literals of several trees create, when the automata are merged
behind `base` other states. -/
def creationsFrom (base : Nat) : List (Options × TokenTree) → List (Edge × Option Nat)
  | [] => []
  | plan :: rest =>
    plan.2.creations plan.1 0 base none ++ creationsFrom (base + (nfaOf plan).size) rest

theorem streamOf_injective : Function.Injective streamOf := by
  intro plan other h
  obtain ⟨hoptions, htokens⟩ := Prod.mk.inj h
  exact Prod.ext hoptions (tokens_injective htokens)

theorem exists_plans {streams : List (Options × List Token)} {nfas : List Nfa}
    (h : List.Forall₂ (fun stream nfa => Nfa.ofTokens stream.1 stream.2 = .ok nfa) streams nfas) :
    ∃ plans : List (Options × TokenTree),
      plans.map streamOf = streams ∧ plans.map nfaOf = nfas := by
  induction h with
  | nil => exact ⟨[], rfl, rfl⟩
  | @cons stream _ _ _ hstream _ ih =>
    obtain ⟨tree, htokens, rfl⟩ := ofTokens_eq_ok_iff.1 hstream
    obtain ⟨plans, rfl, rfl⟩ := ih
    refine ⟨(stream.1, tree) :: plans, ?_, rfl⟩
    rw [List.map_cons, streamOf, htokens]

theorem nested_mergeFrom {merged : Nfa} (h : merged.Nested) (hsteps : merged.CapturesSteps)
    (i : PatternId) (plans : List (Options × TokenTree)) :
    (merged.mergeFrom i (plans.map nfaOf)).Nested := by
  induction plans generalizing merged i with
  | nil => exact h
  | cons plan rest ih =>
    have hadded : (merged.addMember i (nfaOf plan)).Nested :=
      (Nfa.beside_addMember _ _ i).nested h (plan.2.nested plan.1 0) hsteps
    exact ih hadded (hsteps.addMember (plan.2.capturesSteps plan.1 0) i) (i + 1)

theorem makes_mergeFrom {merged : Nfa} {created : List (Edge × Option Nat)}
    (h : merged.Makes 0 none created) (hsteps : merged.CapturesSteps) (i : PatternId)
    (plans : List (Options × TokenTree)) :
    (merged.mergeFrom i (plans.map nfaOf)).Makes 0 none
      (created ++ creationsFrom merged.size plans) := by
  induction plans generalizing merged created i with
  | nil => simpa [creationsFrom, Nfa.mergeFrom] using h
  | cons plan rest ih =>
    have hadded : (merged.addMember i (nfaOf plan)).Makes 0 none
        (created ++ plan.2.creations plan.1 0 merged.size none) :=
      h.append (plan.2.makes_creations 0 _ none) (Nfa.beside_addMember _ _ i) hsteps
    have hall := ih hadded (hsteps.addMember (plan.2.capturesSteps plan.1 0) i) (i + 1)
    rw [Nfa.size_addMember, List.append_assoc] at hall
    exact hall

end TokenTree

open TokenTree

/-- The groups of the automaton are nested. Its transitions are those listed, each created
once. The group of a transition is the one listed with it, and that of the smallest capture
set that has it; it has none if no set has it. -/
structure Nfa.CreditsInnermost (nfa : Nfa) (created : List (Edge × Option Nat)) : Prop where
  nested : nfa.Nested
  mem_edges_iff : ∀ e, e ∈ nfa.edges ↔ e ∈ created.map (·.1)
  nodup : (created.map (·.1)).Nodup
  groupOf?_eq : ∀ e credit, (e, credit) ∈ created → nfa.groupOf? e = credit
  exists_smallest : ∀ e group, nfa.groupOf? e = some group →
    ∃ set, nfa.Smallest e set ∧ set.group = group
  eq_none_iff : ∀ e, nfa.groupOf? e = none ↔ ∀ set ∈ nfa.captures, e ∉ set.edges

theorem Nfa.Nested.creditsInnermost {nfa : Nfa} {created : List (Edge × Option Nat)}
    (h : nfa.Nested) (hmakes : nfa.Makes 0 none created) : nfa.CreditsInnermost created where
  nested := h
  mem_edges_iff e := by
    constructor
    · intro he
      exact List.mem_map.2 ⟨(e, _), (hmakes.mem_iff _ _).2 ⟨e, he, rfl, rfl⟩, rfl⟩
    · intro he
      obtain ⟨e', he', rfl⟩ := hmakes.exists_edge he
      exact he'
  nodup := hmakes.nodup
  groupOf?_eq e credit hmem := by
    obtain ⟨e', -, rfl, rfl⟩ := (hmakes.mem_iff _ _).1 hmem
    exact Option.or_none.symm
  exists_smallest _ _ := h.exists_smallest
  eq_none_iff _ := groupOf?_eq_none_iff

/-- **Inner groups come first.** Streams that are assembled are written by one list of trees.
In each automaton, and in the merge of all, of two capture sets the one recorded first is
within the other or apart from it. So the first set that has a transition is the smallest,
and its number is that of the innermost parentheses around the literal that created the
transition. -/
theorem Nfa.creditsInnermost_of_tokens {streams : List (Options × List Token)} {nfas : List Nfa}
    (h : List.Forall₂ (fun stream nfa => Nfa.ofTokens stream.1 stream.2 = .ok nfa) streams nfas) :
    ∃ plans : List (Options × TokenTree), (∀ other, other.map streamOf = streams ↔ other = plans) ∧
      List.Forall₂ (fun plan nfa => nfa.CreditsInnermost (plan.2.creations plan.1 0 0 none))
        plans nfas ∧
      (merge nfas).CreditsInnermost (creationsFrom 1 plans) := by
  obtain ⟨plans, rfl, rfl⟩ := exists_plans h
  refine ⟨plans, fun other => ?_, ?_, ?_⟩
  · exact (List.map_injective_iff.2 streamOf_injective).eq_iff
  · rw [List.forall₂_map_right_iff, List.forall₂_same]
    intro plan _
    exact (plan.2.nested plan.1 0).creditsInnermost (plan.2.makes_creations 0 0 none)
  · have hblank : blank.Makes 0 none [] := ⟨by simp [edges, blank], List.nodup_nil⟩
    have hsteps : blank.CapturesSteps := fun _ hset => by cases hset
    have hnested : blank.Nested := .nil
    exact (nested_mergeFrom hnested hsteps 0 plans).creditsInnermost
      (makes_mergeFrom hblank hsteps 0 plans)

/-- A group in a group, and one in a negation that stands for any character. -/
theorem Nfa.creditsInnermost_of_tokens_merge : ∃ first second : Nfa,
    ofTokens {} [.literal (.char 'a'), .literal (.char 'b'), .literal (.char 'c'), .capture 1,
      .concat, .capture 0, .concat] = .ok first ∧
    ofTokens { negation := .anyCharacter } [.literal (.char 'x'), .capture 1, .negate,
      .capture 0] = .ok second ∧
    (merge [first, second]).Nested ∧
    (merge [first, second]).groupOf? ⟨1, .char 'a', 2⟩ = none ∧
    (merge [first, second]).groupOf? ⟨3, .char 'b', 4⟩ = some 0 ∧
    (merge [first, second]).groupOf? ⟨5, .char 'c', 6⟩ = some 1 ∧
    (merge [first, second]).groupOf? ⟨7, .char 'x', 8⟩ = some 1 ∧
    (merge [first, second]).groupOf? ⟨7, .any, 9⟩ = some 0 := by
  let first : TokenTree := .concat (.literal (.char 'a'))
    (.capture 0 (.concat (.literal (.char 'b')) (.capture 1 (.literal (.char 'c')))))
  let second : TokenTree := .capture 0 (.negate (.capture 1 (.literal (.char 'x'))))
  have hfirst := ofTokens_tokens {} first
  have hsecond := ofTokens_tokens { negation := .anyCharacter } second
  have hstreams : List.Forall₂ (fun stream nfa => ofTokens stream.1 stream.2 = .ok nfa)
      [({}, first.tokens), ({ negation := .anyCharacter }, second.tokens)] _ :=
    .cons hfirst (.cons hsecond .nil)
  obtain ⟨plans, hplans, -, hmerge⟩ := creditsInnermost_of_tokens hstreams
  obtain rfl := (hplans [({}, first), ({ negation := .anyCharacter }, second)]).1 rfl
  refine ⟨_, _, hfirst, hsecond, hmerge.nested, ?_, ?_, ?_, ?_, ?_⟩
  · exact hmerge.groupOf?_eq _ _ (by decide +kernel)
  · exact hmerge.groupOf?_eq _ _ (by decide +kernel)
  · exact hmerge.groupOf?_eq _ _ (by decide +kernel)
  · exact hmerge.groupOf?_eq _ _ (by decide +kernel)
  · exact hmerge.groupOf?_eq _ _ (by decide +kernel)

end LinePattern
