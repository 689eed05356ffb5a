/-
Loops that read nothing, and the transitions that lead into them.

A quantifier can put the targets of two transitions on a loop that reads
nothing: in `((a)?b?)*` both characters lead to the end of a round, and from
there round again. In the automaton of a pattern this takes a group around the
two (`LoopsGrouped`): what a quantifier is put on is a group, or a part whose
transitions all lead to different states, into which nothing else leads
(`Plain`). Parts in sequence, in a choice or in a merge are never on one loop,
since what joins them leads one way (`Joins`).
-/
import LinePattern.Proofs.Nfa.Member
import LinePattern.Proofs.Pattern.Groups

namespace LinePattern

namespace Nfa

variable {nfa left right whole merged : Nfa} {nfas : List Nfa} {f g p q r : StateId}
  {label : Option Symbol} {s : Symbol} {order : StateId → Nat}

/-- The edge belongs to a group. -/
def Grouped (nfa : Nfa) (e : Edge) : Prop := ∃ set ∈ nfa.captures, e ∈ set.edges

theorem isSome_groupOf?_iff {e : Edge} : (nfa.groupOf? e).isSome = true ↔ nfa.Grouped e := by
  simp [groupOf?, Grouped, List.find?_isSome]

/-- Two transitions whose targets lead to each other along nothing belong to
groups. -/
def LoopsGrouped (nfa : Nfa) : Prop :=
  ∀ e ∈ nfa.edges, ∀ e' ∈ nfa.edges, e ≠ e' → nfa.Path e.target [] e'.target →
    nfa.Path e'.target [] e.target → nfa.Grouped e

/-! ## What is put together -/

/-- The whole has the steps of two parts, the right one behind the left. What
else there is leads along nothing, from a state to one that comes later in the
order, in which each part has one place. -/
structure Joins (whole left right : Nfa) (order : StateId → Nat) : Prop where
  of_step : ∀ {p label q}, whole.Step p label q → left.Step p label q ∨
    (∃ p' q', p = p' + left.size ∧ q = q' + left.size ∧ right.Step p' label q') ∨
      label = none ∧ order p < order q
  captures_eq : whole.captures = left.captures ++ right.captures.map (·.shift left.size)
  order_left : ∀ {p q}, p < left.size → q < left.size → order p = order q
  order_right : ∀ {p q}, p < right.size → q < right.size →
    order (p + left.size) = order (q + left.size)
  order_ne : ∀ {p q}, p < left.size → q < right.size → order p ≠ order (q + left.size)

namespace Joins

variable (h : whole.Joins left right order) (hl : left.WellFormed) (hr : right.WellFormed)

include h hl hr

theorem order_le_of_step (hstep : whole.Step p none q) : order p ≤ order q := by
  rcases h.of_step hstep with hs | ⟨p', q', rfl, rfl, hs⟩ | ⟨-, hlt⟩
  · exact (h.order_left hs.lt_size (hl.target_lt hs)).le
  · exact (h.order_right hs.lt_size (hr.target_lt hs)).le
  · exact hlt.le

theorem order_le (hpath : whole.Path p [] q) : order p ≤ order q :=
  hpath.keep (P := fun r => order p ≤ order r)
    (fun hle hs => hle.trans (h.order_le_of_step hl hr hs)) le_rfl

/-- A path that reads nothing and comes back to the left part never left it. -/
theorem path_left (hp : p < left.size) (hpath : whole.Path p [] q) (hq : order q ≤ order p) :
    left.Path p [] q := by
  refine hpath.backwards (P := fun p => p < left.size → order q ≤ order p → left.Path p [] q)
    (fun _ _ => .refl q) (fun {p r} hstep hpath ih hp hq => ?_) hp hq
  rcases h.of_step hstep with hs | ⟨p', r', rfl, -, -⟩ | ⟨-, hlt⟩
  · have hr := hl.target_lt hs
    exact .epsilon hs (ih hr (hq.trans (h.order_left hp hr).le))
  · lia
  · exact absurd (h.order_le hl hr hpath) (by lia)

/-- A path that reads nothing and comes back to the right part never left it. -/
theorem path_right (hp : p < right.size) (hpath : whole.Path (p + left.size) [] (q + left.size))
    (hq : order (q + left.size) ≤ order (p + left.size)) : right.Path p [] q := by
  refine hpath.backwards (P := fun x => ∀ p, x = p + left.size → p < right.size →
      order (q + left.size) ≤ order x → right.Path p [] q)
    (fun p hp _ _ => Nat.add_right_cancel hp ▸ .refl _)
    (fun {x y} hstep hpath ih p hx hp hq => ?_) p rfl hp hq
  subst hx
  rcases h.of_step hstep with hs | ⟨p', r, hp', rfl, hs⟩ | ⟨-, hlt⟩
  · have hlt := hs.lt_size
    lia
  · obtain rfl := Nat.add_right_cancel hp'
    have hr' := hr.target_lt hs
    exact .epsilon hs (ih r rfl hr' (hq.trans (h.order_right hp hr').le))
  · exact absurd (h.order_le hl hr hpath) (by lia)

/-- Parts that are joined are not on one loop. -/
theorem loopsGrouped (hleft : left.LoopsGrouped) (hright : right.LoopsGrouped) :
    whole.LoopsGrouped := by
  intro e he e' he' hne hto hback
  have horder : order e.target = order e'.target :=
    (h.order_le hl hr hto).antisymm (h.order_le hl hr hback)
  obtain ⟨p, s, q⟩ := e
  obtain ⟨p', s', q'⟩ := e'
  rcases h.of_step (mem_edges.1 he) with hs | ⟨p, q, rfl, rfl, hs⟩ | ⟨hnone, -⟩
  · rcases h.of_step (mem_edges.1 he') with hs' | ⟨p', q', rfl, rfl, hs'⟩ | ⟨hnone, -⟩
    · obtain ⟨set, hset, hmem⟩ := hleft _ (mem_edges.2 hs) _ (mem_edges.2 hs') hne
        (h.path_left hl hr (hl.target_lt hs) hto horder.ge)
        (h.path_left hl hr (hl.target_lt hs') hback horder.le)
      exact ⟨set, h.captures_eq ▸ List.mem_append_left _ hset, hmem⟩
    · exact absurd horder (h.order_ne (hl.target_lt hs) (hr.target_lt hs'))
    · cases hnone
  · rcases h.of_step (mem_edges.1 he') with hs' | ⟨p', q', rfl, rfl, hs'⟩ | ⟨hnone, -⟩
    · exact absurd horder.symm (h.order_ne (hl.target_lt hs') (hr.target_lt hs))
    · have hne' : (⟨p, s, q⟩ : Edge) ≠ ⟨p', s', q'⟩ := fun heq => hne (by cases heq; rfl)
      obtain ⟨set, hset, hmem⟩ := hright _ (mem_edges.2 hs) _ (mem_edges.2 hs') hne'
        (h.path_right hl hr (hr.target_lt hs) hto horder.ge)
        (h.path_right hl hr (hr.target_lt hs') hback horder.le)
      refine ⟨set.shift left.size, h.captures_eq ▸ List.mem_append_right _ ?_, ?_⟩
      · exact List.mem_map_of_mem hset
      · exact List.mem_map_of_mem (f := (·.shift left.size)) hmem
    · cases hnone
  · cases hnone

end Joins

theorem joins_concat (hl : left.Fragment f) :
    (left.concat right).Joins left right fun q => if q < left.size then 0 else 1 where
  of_step hs := by
    have hf := hl.stop_lt
    rcases (step_concat hl).1 hs with hs | hs | ⟨rfl, rfl, rfl⟩
    · exact .inl hs
    · exact .inr (.inl hs)
    · exact .inr (.inr ⟨rfl, by simp [hf]⟩)
  captures_eq := captures_concat
  order_left hp hq := by simp [hp, hq]
  order_right _ _ := by simp
  order_ne hp _ := by simp [hp]

theorem joins_alt (hl : left.Fragment f) (hr : right.Fragment g) :
    (left.alt right).Joins left right fun q =>
      if q < left.size then 1 else if q < left.size + right.size then 2
      else if q = left.size + right.size then 0 else 3 where
  of_step hs := by
    have hf := hl.stop_lt
    have hg := hr.stop_lt
    have hli := hl.initial_lt
    have hri := hr.initial_lt
    rcases (step_alt hl hr).1 hs with hs | hs | ⟨rfl, hs⟩
    · exact .inl hs
    · exact .inr (.inl hs)
    · refine .inr (.inr ⟨rfl, ?_⟩)
      split_ifs <;> lia
  captures_eq := captures_alt
  order_left hp hq := by simp [hp, hq]
  order_right hp hq := by
    split_ifs <;> lia
  order_ne hp hq := by
    split_ifs <;> lia

theorem joins_addMember (hm : merged.Hub) (i : PatternId) :
    (merged.addMember i nfa).Joins merged nfa fun q => if q < merged.size then 0 else 1 where
  of_step hs := by
    have hi := hm.initial_lt
    rcases (step_addMember hm).1 hs with hs | hs | ⟨rfl, rfl, rfl⟩
    · exact .inl hs
    · exact .inr (.inl hs)
    · exact .inr (.inr ⟨rfl, by simp [hi]⟩)
  captures_eq := captures_addMember merged nfa i
  order_left hp hq := by simp [hp, hq]
  order_right _ _ := by simp
  order_ne hp _ := by simp [hp]

/-- A merge has no loop through two of its members. -/
theorem loopsGrouped_merge (hwf : ∀ nfa ∈ nfas, nfa.WellFormed)
    (h : ∀ nfa ∈ nfas, nfa.LoopsGrouped) : (merge nfas).LoopsGrouped := by
  have hfrom : ∀ (merged : Nfa) (i : PatternId), merged.Hub → merged.LoopsGrouped →
      (mergeFrom merged i nfas).LoopsGrouped := by
    induction nfas with
    | nil => exact fun _ _ _ hmerged => hmerged
    | cons nfa rest ih =>
      intro merged i hm hmerged
      have hnfa := hwf nfa List.mem_cons_self
      refine ih (fun nfa h => hwf nfa (List.mem_cons_of_mem _ h))
        (fun nfa hmem => h nfa (List.mem_cons_of_mem _ hmem)) _ _ (hm.addMember hnfa i) ?_
      exact (joins_addMember hm i).loopsGrouped hm.toWellFormed hnfa hmerged
        (h nfa List.mem_cons_self)
  exact hfrom blank 0 hub_blank fun e he => absurd (mem_edges.1 he) not_step_blank

/-! ## Labelled steps -/

theorem step_alt_some (hl : left.Fragment f) (hr : right.Fragment g) :
    (left.alt right).Step p (some s) q ↔ left.Step p (some s) q ∨
      ∃ p' q', p = p' + left.size ∧ q = q' + left.size ∧ right.Step p' (some s) q' := by
  simp [step_alt hl hr]

theorem step_plus_some (hf : nfa.Fragment f) :
    nfa.plus.Step p (some s) q ↔ nfa.Step p (some s) q := by
  simp [step_plus hf]

theorem step_optional_some (hf : nfa.Fragment f) :
    nfa.optional.Step p (some s) q ↔ nfa.Step p (some s) q := by
  simp [step_optional hf]

/-! ## What a quantifier is put on -/

/-- Every transition belongs to a group. -/
def AllGrouped (nfa : Nfa) : Prop := ∀ e ∈ nfa.edges, nfa.Grouped e

/-- The transitions lead to different states, and nothing else leads there. -/
structure Plain (nfa : Nfa) : Prop where
  not_step : ∀ {p p' q : StateId} {s : Symbol}, nfa.Step p (some s) q → ¬ nfa.Step p' none q
  target_injective : ∀ {p p' q : StateId} {s s' : Symbol}, nfa.Step p (some s) q →
    nfa.Step p' (some s') q → p = p' ∧ s = s'

/-- An automaton that a quantifier can be put on. -/
def Repeatable (nfa : Nfa) : Prop := nfa.Plain ∨ nfa.AllGrouped

theorem plain_ofSymbol (symbol : Symbol) : (ofSymbol symbol).Plain where
  not_step _ hs := by cases (step_ofSymbol.1 hs).2.1
  target_injective hs hs' := by
    obtain ⟨rfl, hlabel, -⟩ := step_ofSymbol.1 hs
    obtain ⟨rfl, hlabel', -⟩ := step_ofSymbol.1 hs'
    exact ⟨rfl, Option.some.inj (hlabel.trans hlabel'.symm)⟩

theorem Plain.alt (hl : left.Fragment f) (hr : right.Fragment g) (hleft : left.Plain)
    (hright : right.Plain) : (left.alt right).Plain where
  not_step {p p' q s} hstep hstep' := by
    rcases (step_alt_some hl hr).1 hstep with hs | ⟨p, q, rfl, rfl, hs⟩
    · have hq := hl.target_lt hs
      rcases (step_alt hl hr).1 hstep' with hs' | ⟨p', q', rfl, rfl, hs'⟩ | ⟨-, hs'⟩
      · exact hleft.not_step hs hs'
      · lia
      · obtain rfl : q = left.initial := by lia
        exact hl.not_step_initial hs
    · have hq := hr.target_lt hs
      rcases (step_alt hl hr).1 hstep' with hs' | ⟨p', q', rfl, hq', hs'⟩ | ⟨-, hs'⟩
      · have hlt := hl.target_lt hs'
        lia
      · obtain rfl := Nat.add_right_cancel hq'
        exact hright.not_step hs hs'
      · have hli := hl.initial_lt
        obtain rfl : q = right.initial := by lia
        exact hr.not_step_initial hs
  target_injective {p p' q s s'} hstep hstep' := by
    rcases (step_alt_some hl hr).1 hstep with hs | ⟨p, q, rfl, rfl, hs⟩ <;>
      rcases (step_alt_some hl hr).1 hstep' with hs' | ⟨p', q', rfl, hq', hs'⟩
    · exact hleft.target_injective hs hs'
    · have hlt := hl.target_lt hs
      lia
    · have hlt := hl.target_lt hs'
      lia
    · obtain rfl := Nat.add_right_cancel hq'
      obtain ⟨rfl, rfl⟩ := hright.target_injective hs hs'
      exact ⟨rfl, rfl⟩

theorem Plain.negate (hf : nfa.Fragment f) (h : nfa.Plain) (mode : NegationMode) :
    (nfa.negate mode).Plain := by
  cases mode with
  | complement => exact plain_ofSymbol _
  | anyCharacter =>
    refine ⟨fun {p p' q s} hs hs' => ?_, fun {p p' q s s'} hs hs' => ?_⟩
    · rcases (step_negate_anyCharacter hf).1 hs' with hs' | ⟨hnone, -⟩
      · rcases (step_negate_anyCharacter hf).1 hs with hs | ⟨-, -, rfl⟩
        · exact h.not_step hs hs'
        · exact absurd (hf.target_lt hs') (Nat.lt_irrefl _)
      · cases hnone
    · rcases (step_negate_anyCharacter hf).1 hs with hs | ⟨hany, rfl, rfl⟩
      · rcases (step_negate_anyCharacter hf).1 hs' with hs' | ⟨-, -, rfl⟩
        · exact h.target_injective hs hs'
        · exact absurd (hf.target_lt hs) (Nat.lt_irrefl _)
      · rcases (step_negate_anyCharacter hf).1 hs' with hs' | ⟨hany', rfl, -⟩
        · exact absurd (hf.target_lt hs') (Nat.lt_irrefl _)
        · exact ⟨rfl, Option.some.inj (hany.trans hany'.symm)⟩

theorem Plain.plus (hf : nfa.Fragment f) (h : nfa.Plain) : nfa.plus.Plain where
  not_step {p p' q s} hs hs' := by
    rw [step_plus_some hf] at hs
    have hlt := hf.target_lt hs
    rcases (step_plus hf).1 hs' with hs' | ⟨-, hs'⟩
    · exact h.not_step hs hs'
    · obtain rfl : q = nfa.initial := by lia
      exact hf.not_step_initial hs
  target_injective hs hs' :=
    h.target_injective ((step_plus_some hf).1 hs) ((step_plus_some hf).1 hs')

/-- The one way into a target may also be from the initial state, which nothing
leads back to. -/
theorem loopsGrouped_of_initial (hf : nfa.Fragment f)
    (hinitial : ∀ {p p' q s}, nfa.Step p (some s) q → nfa.Step p' none q → p' = nfa.initial)
    (hinjective : ∀ {p p' q s s'}, nfa.Step p (some s) q → nfa.Step p' (some s') q →
      p = p' ∧ s = s') : nfa.LoopsGrouped := by
  have hback : ∀ {p q r s}, nfa.Step q (some s) r → nfa.Path p [] r →
      p = r ∨ p = nfa.initial := by
    intro p q r s hs hpath
    refine hpath.backwards (P := fun p => p = r ∨ p = nfa.initial) (.inl rfl)
      fun hstep _ ih => ?_
    rcases ih with rfl | rfl
    · exact .inr (hinitial hs hstep)
    · exact absurd hstep hf.not_step_initial
  rintro ⟨p, s, q⟩ he ⟨p', s', q'⟩ he' hne hto -
  have hs := mem_edges.1 he
  have hs' := mem_edges.1 he'
  rcases hback hs' hto with heq | heq
  · subst heq
    obtain ⟨rfl, rfl⟩ := hinjective hs hs'
    exact absurd rfl hne
  · subst heq
    exact absurd hs hf.not_step_initial

theorem Plain.loopsGrouped (hf : nfa.Fragment f) (h : nfa.Plain) : nfa.LoopsGrouped :=
  loopsGrouped_of_initial hf (fun hs hs' => absurd hs' (h.not_step hs)) h.target_injective

theorem Plain.optional (hf : nfa.Fragment f) (h : nfa.Plain) : nfa.optional.LoopsGrouped := by
  refine loopsGrouped_of_initial (fragment_optional hf) (fun hs hs' => ?_) fun hs hs' => ?_
  · rw [step_optional_some hf] at hs
    rcases (step_optional hf).1 hs' with hs' | ⟨-, rfl, -⟩
    · exact absurd hs' (h.not_step hs)
    · exact initial_optional.symm
  · exact h.target_injective ((step_optional_some hf).1 hs) ((step_optional_some hf).1 hs')

theorem allGrouped_recordCapture (nfa : Nfa) (group : Nat) : (nfa.recordCapture group).AllGrouped :=
  fun _ he => ⟨⟨group, nfa.edges⟩, List.mem_append_right _ List.mem_cons_self, he⟩

theorem AllGrouped.loopsGrouped (h : nfa.AllGrouped) : nfa.LoopsGrouped :=
  fun e he _ _ _ _ _ => h e he

theorem AllGrouped.plus (hf : nfa.Fragment f) (h : nfa.AllGrouped) : nfa.plus.AllGrouped := by
  intro e he
  rw [Grouped, captures_plus]
  exact h e (mem_edges.2 ((step_plus_some hf).1 (mem_edges.1 he)))

theorem AllGrouped.optional (hf : nfa.Fragment f) (h : nfa.AllGrouped) :
    nfa.optional.AllGrouped := by
  intro e he
  rw [Grouped, captures_optional]
  exact h e (mem_edges.2 ((step_optional_some hf).1 (mem_edges.1 he)))

theorem Repeatable.loopsGrouped (hf : nfa.Fragment f) (h : nfa.Repeatable) : nfa.LoopsGrouped :=
  h.elim (·.loopsGrouped hf) (·.loopsGrouped)

theorem Repeatable.plus (hf : nfa.Fragment f) (h : nfa.Repeatable) : nfa.plus.Repeatable :=
  h.imp (·.plus hf) (·.plus hf)

theorem Repeatable.optional (hf : nfa.Fragment f) (h : nfa.Repeatable) :
    nfa.optional.LoopsGrouped :=
  h.elim (·.optional hf) fun h => (h.optional hf).loopsGrouped

end Nfa

/-! ## Trees -/

namespace TokenTree

variable {options : Options} {tree left right : TokenTree}

/-- Wherever the tree stands, its loops lie in groups. -/
def LoopsGrouped (options : Options) (tree : TokenTree) : Prop :=
  ∀ closed, (tree.nfa options closed).LoopsGrouped

/-- Wherever the tree stands, a quantifier can be put on it. -/
def Repeatable (options : Options) (tree : TokenTree) : Prop :=
  ∀ closed, (tree.nfa options closed).Repeatable

theorem LoopsGrouped.concat (hl : left.LoopsGrouped options) (hr : right.LoopsGrouped options) :
    (concat left right).LoopsGrouped options := by
  intro closed
  obtain ⟨f, hf⟩ := exists_fragment options closed left
  obtain ⟨g, hg⟩ := exists_fragment options (closed + left.groups) right
  exact (Nfa.joins_concat hf).loopsGrouped hf.toWellFormed hg.toWellFormed (hl _) (hr _)

theorem LoopsGrouped.alt (hl : left.LoopsGrouped options) (hr : right.LoopsGrouped options) :
    (alt left right).LoopsGrouped options := by
  intro closed
  obtain ⟨f, hf⟩ := exists_fragment options closed left
  obtain ⟨g, hg⟩ := exists_fragment options (closed + left.groups) right
  exact (Nfa.joins_alt hf hg).loopsGrouped hf.toWellFormed hg.toWellFormed (hl _) (hr _)

theorem Repeatable.exists_quantify (h : tree.Repeatable options) (quantifier : Option Quantifier) :
    ∃ tree' : TokenTree, tree'.tokens = tree.tokens ++ Token.ofQuantifier quantifier ∧
      tree'.LoopsGrouped options := by
  have hfragment := fun closed => exists_fragment options closed tree
  rcases quantifier with _ | _ | _ | _
  · refine ⟨tree, (List.append_nil _).symm, fun closed => ?_⟩
    obtain ⟨f, hf⟩ := hfragment closed
    exact (h closed).loopsGrouped hf
  · refine ⟨.star tree, rfl, fun closed => ?_⟩
    obtain ⟨f, hf⟩ := hfragment closed
    rw [nfa, Nfa.star_eq_optional_plus]
    exact ((h closed).plus hf).optional (Nfa.fragment_plus hf)
  · refine ⟨.plus tree, rfl, fun closed => ?_⟩
    obtain ⟨f, hf⟩ := hfragment closed
    exact ((h closed).plus hf).loopsGrouped (Nfa.fragment_plus hf)
  · refine ⟨.optional tree, rfl, fun closed => ?_⟩
    obtain ⟨f, hf⟩ := hfragment closed
    exact (h closed).optional hf

theorem plain_anyOf (closed : Nat) (first : Symbol) (rest : List Symbol) :
    ((anyOf first rest).nfa options closed).Plain := by
  induction rest using List.reverseRecOn with
  | nil => exact Nfa.plain_ofSymbol first
  | append_singleton rest s ih =>
    obtain ⟨f, hf⟩ := exists_fragment options closed (anyOf first rest)
    rw [anyOf_concat, nfa]
    exact ih.alt hf (Nfa.fragment_ofSymbol s) (Nfa.plain_ofSymbol s)

theorem exists_repeatable_ofClass {cls : CharClass} (h : cls.members ≠ []) :
    ∃ tree : TokenTree, tree.tokens = Token.ofClass cls ∧ tree.Repeatable options := by
  obtain ⟨first, rest, hmembers⟩ := List.exists_cons_of_ne_nil h
  have htokens := tokens_anyOf first rest
  cases hneg : cls.negated with
  | false =>
    exact ⟨.anyOf first rest, by simp [Token.ofClass, hneg, hmembers, htokens],
      fun closed => .inl (plain_anyOf closed first rest)⟩
  | true =>
    refine ⟨.negate (.anyOf first rest), ?_, fun closed => ?_⟩
    · simp [Token.ofClass, hneg, hmembers, tokens, htokens]
    · obtain ⟨f, hf⟩ := exists_fragment options closed (anyOf first rest)
      exact .inl ((plain_anyOf closed first rest).negate hf _)

end TokenTree

/-! ## Patterns -/

mutual

/-- The tree of an expression has its loops in groups. -/
theorem Expr.exists_loopsGrouped (options : Options) (opened : Nat) : ∀ e : Expr, e.Valid →
    ∃ tree : TokenTree, tree.tokens = e.tokensFrom opened ∧ tree.LoopsGrouped options
  | .term t, h => t.exists_loopsGrouped options opened h
  | .alt t rest, ⟨ht, hrest⟩ => by
    obtain ⟨left, hleft, hl⟩ := t.exists_loopsGrouped options opened ht
    obtain ⟨right, hright, hr⟩ := rest.exists_loopsGrouped options (opened + t.groups) hrest
    exact ⟨.alt left right, by rw [TokenTree.tokens, hleft, hright, Expr.tokensFrom], hl.alt hr⟩

theorem Term.exists_loopsGrouped (options : Options) (opened : Nat) : ∀ t : Term, t.Valid →
    ∃ tree : TokenTree, tree.tokens = t.tokensFrom opened ∧ tree.LoopsGrouped options
  | .factor f, h => f.exists_loopsGrouped options opened h
  | .seq f rest, ⟨hf, hrest⟩ => by
    obtain ⟨left, hleft, hl⟩ := f.exists_loopsGrouped options opened hf
    obtain ⟨right, hright, hr⟩ := rest.exists_loopsGrouped options (opened + f.groups) hrest
    exact ⟨.concat left right, by rw [TokenTree.tokens, hleft, hright, Term.tokensFrom],
      hl.concat hr⟩

theorem Factor.exists_loopsGrouped (options : Options) (opened : Nat) : ∀ f : Factor, f.Valid →
    ∃ tree : TokenTree, tree.tokens = f.tokensFrom opened ∧ tree.LoopsGrouped options
  | .mk p quantifier, h => by
    obtain ⟨operand, hoperand, hp⟩ := p.exists_repeatable options opened h
    obtain ⟨tree, htree, hloops⟩ := hp.exists_quantify quantifier
    exact ⟨tree, by rw [htree, hoperand, Factor.tokensFrom], hloops⟩

theorem Primary.exists_repeatable (options : Options) (opened : Nat) : ∀ p : Primary, p.Valid →
    ∃ tree : TokenTree, tree.tokens = p.tokensFrom opened ∧ tree.Repeatable options
  | .literal c, _ => ⟨.literal (.char c), rfl, fun _ => .inl (Nfa.plain_ofSymbol _)⟩
  | .escape c, _ => by
    obtain ⟨first, rest, hescaped⟩ := List.exists_cons_of_ne_nil (escaped_ne_nil c)
    refine ⟨.anyOf first rest, ?_, fun closed => .inl (TokenTree.plain_anyOf closed first rest)⟩
    rw [TokenTree.tokens_anyOf, ← hescaped, Primary.tokensFrom, Token.ofEscape_eq]
  | .any, _ => ⟨.any, rfl, fun _ => .inl (Nfa.plain_ofSymbol _)⟩
  | .endOfLine, _ => ⟨.endOfLine, rfl, fun _ => .inl (Nfa.plain_ofSymbol _)⟩
  | .charClass _, h => TokenTree.exists_repeatable_ofClass h
  | .group body, h => by
    -- Whatever the loops of the body, the group is around all of them.
    obtain ⟨tree, htree, -⟩ := Expr.exists_loopsGrouped options (opened + 1) body h
    refine ⟨.capture opened tree, ?_, fun _ => .inr (Nfa.allGrouped_recordCapture _ _)⟩
    rw [TokenTree.tokens, htree, Primary.tokensFrom]

end

end LinePattern
