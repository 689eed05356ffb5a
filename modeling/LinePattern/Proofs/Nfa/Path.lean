/-
Runs of a nondeterministic automaton, and the language they accept.

`Nfa.Step` is one move, along a symbol or along nothing, and `Nfa.Path` a run
of moves with the word of symbols it reads. Whatever is added to an automaton
shows in its steps alone (`step_addEpsilons`, `step_absorb`), so what an
operator does to the language is found by following paths through its steps.

`Path.map` carries a path into an automaton that has the same steps under
other numbers. `Path.stay` brings it back from a part that no step leaves, and
`Path.leave` cuts it where it leaves a part with one way out.
-/
import Mathlib.Computability.Language
import LinePattern.Nfa.Operators

namespace LinePattern

/-- Where a state leads along a symbol, or along nothing. -/
def NfaState.Leads (s : NfaState) : Option Symbol → StateId → Prop
  | some symbol, target => (symbol, target) ∈ s.transitions
  | none, target => target ∈ s.epsilons

namespace NfaState

variable {s : NfaState} {label : Option Symbol} {target : StateId}

@[simp] theorem leads_empty : ¬ ({} : NfaState).Leads label target := by
  cases label <;> simp [Leads]

theorem leads_addTransition {symbol : Symbol} {q : StateId} :
    (s.addTransition symbol q).Leads label target ↔
      s.Leads label target ∨ label = some symbol ∧ target = q := by
  unfold addTransition
  split
  · next hmem =>
    refine ⟨.inl, fun h => h.elim (fun h => h) ?_⟩
    rintro ⟨rfl, rfl⟩
    exact hmem
  · cases label <;> simp [Leads]

theorem leads_addEpsilon {q : StateId} :
    (s.addEpsilon q).Leads label target ↔ s.Leads label target ∨ label = none ∧ target = q := by
  unfold addEpsilon
  split
  · next hmem =>
    refine ⟨.inl, fun h => h.elim (fun h => h) ?_⟩
    rintro ⟨rfl, rfl⟩
    exact hmem
  · cases label <;> simp [Leads]

theorem leads_shift {offset : Nat} :
    (s.shift offset).Leads label target ↔ ∃ q, target = q + offset ∧ s.Leads label q := by
  cases label with
  | none => simp [Leads, shift, and_comm, eq_comm]
  | some symbol => simp [Leads, shift, and_comm, eq_comm]

end NfaState

namespace Nfa

variable {nfa other : Nfa} {p q r : StateId} {label : Option Symbol} {u v w : List Symbol}

/-- A move from `p` to `q` along a symbol, or along nothing. -/
def Step (nfa : Nfa) (p : StateId) (label : Option Symbol) (q : StateId) : Prop :=
  (nfa.state p).Leads label q

/-! ## The steps of an automaton that grows -/

theorem Step.lt_size (h : nfa.Step p label q) : p < nfa.size := by
  by_contra hp
  have hs : nfa.state p = {} := by
    simp only [state, Array.getD, size] at hp ⊢
    rw [dif_neg hp]
  rw [Step, hs] at h
  exact NfaState.leads_empty h

@[simp] theorem state_addState (nfa : Nfa) (p : StateId) : nfa.addState.state p = nfa.state p := by
  simp only [state, addState, Array.getD_eq_getD_getElem?, Array.getElem?_push]
  split
  · next hp =>
    rw [hp, Array.getElem?_eq_none (Nat.le_refl _)]
    rfl
  · rfl

theorem step_addState : nfa.addState.Step p label q ↔ nfa.Step p label q := by
  rw [Step, Step, state_addState]

theorem state_modify (nfa : Nfa) (source : StateId) (f : NfaState → NfaState) (p : StateId) :
    ({ nfa with states := nfa.states.modify source f } : Nfa).state p =
      if p = source ∧ p < nfa.size then f (nfa.state p) else nfa.state p := by
  simp only [state, size, Array.getD_eq_getD_getElem?, Array.getElem?_modify]
  by_cases hsource : source = p
  · subst hsource
    by_cases hp : source < nfa.states.size
    · simp [hp]
    · simp [hp]
  · simp [hsource, Ne.symm hsource]

theorem step_modify {source : StateId} {f : NfaState → NfaState} :
    ({ nfa with states := nfa.states.modify source f } : Nfa).Step p label q ↔
      if p = source ∧ p < nfa.size then (f (nfa.state p)).Leads label q
      else nfa.Step p label q := by
  rw [Step, state_modify]
  split
  · rfl
  · rfl

theorem step_addTransition {source target : StateId} {symbol : Symbol} :
    (nfa.addTransition source target symbol).Step p label q ↔
      nfa.Step p label q ∨
        p < nfa.size ∧ p = source ∧ label = some symbol ∧ q = target := by
  rw [addTransition, step_modify]
  split
  · next h => simp [Step, NfaState.leads_addTransition, h.1, h.1 ▸ h.2]
  · next h =>
    refine ⟨.inl, fun hs => hs.elim (fun hs => hs) ?_⟩
    rintro ⟨hlt, hp, -⟩
    exact absurd ⟨hp, hlt⟩ h

theorem step_addTransition_of_lt {source target : StateId} {symbol : Symbol}
    (hsource : source < nfa.size) :
    (nfa.addTransition source target symbol).Step p label q ↔
      nfa.Step p label q ∨ p = source ∧ label = some symbol ∧ q = target := by
  rw [step_addTransition]
  exact or_congr_right ⟨fun h => h.2, fun h => ⟨h.1 ▸ hsource, h⟩⟩

theorem step_addEpsilon {source target : StateId} :
    (nfa.addEpsilon source target).Step p label q ↔
      nfa.Step p label q ∨ p < nfa.size ∧ label = none ∧ (p, q) = (source, target) := by
  rw [addEpsilon, step_modify]
  split
  · next h => simp [Step, NfaState.leads_addEpsilon, h.1, h.1 ▸ h.2]
  · next h =>
    refine ⟨.inl, fun hs => hs.elim (fun hs => hs) ?_⟩
    rintro ⟨hlt, -, hpair⟩
    cases hpair
    exact absurd ⟨rfl, hlt⟩ h

theorem step_addEpsilon_of_lt {source target : StateId} (hsource : source < nfa.size) :
    (nfa.addEpsilon source target).Step p label q ↔
      nfa.Step p label q ∨ p = source ∧ label = none ∧ q = target := by
  rw [step_addEpsilon, Prod.mk.injEq, and_left_comm (a := label = none)]
  exact or_congr_right ⟨fun h => h.2, fun h => ⟨h.1 ▸ hsource, h⟩⟩

theorem step_addEpsilons {steps : List (StateId × StateId)} :
    (nfa.addEpsilons steps).Step p label q ↔
      nfa.Step p label q ∨ p < nfa.size ∧ label = none ∧ (p, q) ∈ steps := by
  induction steps generalizing nfa with
  | nil => simp [addEpsilons]
  | cons step rest ih =>
    obtain ⟨source, target⟩ := step
    rw [addEpsilons, ih, step_addEpsilon, size_addEpsilon, List.mem_cons, or_assoc,
      ← and_or_left, ← and_or_left]

theorem step_addEpsilons_of_lt {steps : List (StateId × StateId)}
    (hsteps : ∀ step ∈ steps, step.1 < nfa.size) :
    (nfa.addEpsilons steps).Step p label q ↔
      nfa.Step p label q ∨ label = none ∧ (p, q) ∈ steps := by
  rw [step_addEpsilons]
  exact or_congr_right ⟨fun h => h.2, fun h => ⟨hsteps (p, q) h.2, h⟩⟩

@[simp] theorem initial_addEpsilons (steps : List (StateId × StateId)) :
    (nfa.addEpsilons steps).initial = nfa.initial := by
  rw [addEpsilons_eq]

theorem state_absorb_of_lt (hp : p < nfa.size) : (nfa.absorb other).state p = nfa.state p := by
  simp only [state, absorb, Array.getD_eq_getD_getElem?]
  rw [Array.getElem?_append_left hp]

theorem state_absorb_add (nfa other : Nfa) (p : StateId) :
    (nfa.absorb other).state (p + nfa.size) = (other.state p).shift nfa.size := by
  have hge : ¬ p + nfa.size < nfa.states.size := Nat.not_lt.2 (Nat.le_add_left _ _)
  simp only [state, absorb, Array.getD_eq_getD_getElem?, Array.getElem?_append]
  rw [if_neg hge, show p + nfa.size - nfa.states.size = p from Nat.add_sub_cancel ..,
    Array.getElem?_map]
  cases other.states[p]? <;> rfl

theorem step_absorb :
    (nfa.absorb other).Step p label q ↔
      nfa.Step p label q ∨
        ∃ p' q', p = p' + nfa.size ∧ q = q' + nfa.size ∧ other.Step p' label q' := by
  by_cases hp : p < nfa.size
  · rw [Step, state_absorb_of_lt hp]
    refine ⟨.inl, ?_⟩
    rintro (h | ⟨p', q', rfl, -⟩)
    · exact h
    · lia
  · obtain ⟨p', rfl⟩ : ∃ p', p = p' + nfa.size :=
      ⟨p - nfa.size, (Nat.sub_add_cancel (Nat.le_of_not_lt hp)).symm⟩
    rw [Step, state_absorb_add, NfaState.leads_shift]
    constructor
    · rintro ⟨q', rfl, h⟩
      exact .inr ⟨p', q', rfl, rfl, h⟩
    · rintro (h | ⟨p'', q', hp', rfl, h⟩)
      · exact absurd h.lt_size hp
      · obtain rfl := Nat.add_right_cancel hp'
        exact ⟨q', rfl, h⟩

@[simp] theorem not_step_blank : ¬ blank.Step p label q := by
  intro h
  have hp := h.lt_size
  rw [size_blank, Nat.lt_one_iff] at hp
  subst hp
  exact NfaState.leads_empty h

theorem step_ofSymbol {symbol : Symbol} :
    (ofSymbol symbol).Step p label q ↔ p = 0 ∧ label = some symbol ∧ q = 1 := by
  match p with
  | 0 => cases label <;> simp [Step, state, ofSymbol, NfaState.Leads]
  | 1 => simp [Step, state, ofSymbol]
  | p + 2 => simp [Step, state, ofSymbol]

theorem mem_edges {e : Edge} : e ∈ nfa.edges ↔ nfa.Step e.source (some e.symbol) e.target := by
  obtain ⟨source, symbol, target⟩ := e
  simp only [edges, Step, state, NfaState.Leads, List.mem_flatMap, List.mem_map, Prod.exists,
    List.mem_zipIdx_iff_getElem?, Array.getElem?_toList, Array.getD_eq_getD_getElem?, Edge.mk.injEq]
  constructor
  · rintro ⟨s, id, hs, symbol', target', h, rfl, rfl, rfl⟩
    rwa [hs]
  · intro h
    cases hs : nfa.states[source]? with
    | none => simp [hs] at h
    | some s => exact ⟨s, source, hs, symbol, target, by simpa [hs] using h, rfl, rfl, rfl⟩

theorem mem_edges_symbol {symbol : Symbol} :
    symbol ∈ nfa.edges.map (·.symbol) ↔ ∃ p q, nfa.Step p (some symbol) q := by
  rw [List.mem_map]
  constructor
  · rintro ⟨e, he, rfl⟩
    exact ⟨_, _, mem_edges.1 he⟩
  · rintro ⟨p, q, h⟩
    exact ⟨⟨p, symbol, q⟩, mem_edges.2 h, rfl⟩

/-- The labels of an automaton put together of two are those of both, when all
else in it moves along nothing. -/
theorem exists_labelled_iff {left right : Nfa} {offset : Nat} {symbol : Symbol}
    {E : StateId → Option Symbol → StateId → Prop}
    (hstep : ∀ p label q, nfa.Step p label q ↔ left.Step p label q ∨
      (∃ p' q', p = p' + offset ∧ q = q' + offset ∧ right.Step p' label q') ∨ E p label q)
    (hE : ∀ p q, ¬ E p (some symbol) q) :
    (∃ p q, nfa.Step p (some symbol) q) ↔
      (∃ p q, left.Step p (some symbol) q) ∨ ∃ p q, right.Step p (some symbol) q := by
  constructor
  · rintro ⟨p, q, h⟩
    rcases (hstep p _ q).1 h with h | ⟨p', q', -, -, h⟩ | h
    · exact .inl ⟨p, q, h⟩
    · exact .inr ⟨p', q', h⟩
    · exact absurd h (hE p q)
  · rintro (⟨p, q, h⟩ | ⟨p, q, h⟩)
    · exact ⟨p, q, (hstep p _ q).2 (.inl h)⟩
    · exact ⟨_, _, (hstep _ _ _).2 (.inr (.inl ⟨p, q, rfl, rfl, h⟩))⟩

theorem mem_alphabet {symbol : Symbol} :
    symbol ∈ nfa.alphabet ↔ ∃ p q, nfa.Step p (some symbol) q := by
  rw [alphabet, Symbol.mem_sortedSet, mem_edges_symbol]

/-! ## Well-formed automata -/

/-- Every name in the automaton is that of one of its states. -/
structure WellFormed (nfa : Nfa) : Prop where
  initial_lt : nfa.initial < nfa.size
  final_lt : ∀ f ∈ nfa.finals, f < nfa.size
  target_lt : ∀ {p label q}, nfa.Step p label q → q < nfa.size

theorem wellFormed_iff : nfa.WellFormed ↔
    nfa.initial < nfa.size ∧ (∀ f ∈ nfa.finals, f < nfa.size) ∧
      ∀ s ∈ nfa.states, (∀ t ∈ s.transitions, t.2 < nfa.size) ∧ ∀ q ∈ s.epsilons, q < nfa.size := by
  constructor
  · intro h
    refine ⟨h.initial_lt, h.final_lt, fun s hs => ?_⟩
    obtain ⟨p, hp⟩ := Array.mem_iff_getElem?.1 hs
    have hstate : nfa.state p = s := by
      rw [state, Array.getD_eq_getD_getElem?, hp, Option.getD_some]
    have hlt : ∀ {label q}, s.Leads label q → q < nfa.size := fun hq =>
      h.target_lt (hstate ▸ hq : nfa.Step p _ _)
    exact ⟨fun t ht => @hlt (some t.1) t.2 ht, fun q hq => @hlt none q hq⟩
  · rintro ⟨hinitial, hfinal, hstates⟩
    refine ⟨hinitial, hfinal, fun {p label q} hs => ?_⟩
    have hp : nfa.states[p]? = some (nfa.state p) := by
      rw [state, Array.getD_eq_getD_getElem?, Array.getElem?_eq_getElem hs.lt_size,
        Option.getD_some]
    obtain ⟨htransitions, hepsilons⟩ := hstates _ (Array.mem_of_getElem? hp)
    match label with
    | none => exact hepsilons q hs
    | some symbol => exact htransitions (symbol, q) hs

instance (nfa : Nfa) : Decidable nfa.WellFormed := decidable_of_iff _ wellFormed_iff.symm

/-! ## Paths -/

/-- A run from `p` to `q` that reads the word. -/
inductive Path (nfa : Nfa) : StateId → List Symbol → StateId → Prop
  | refl (p : StateId) : Path nfa p [] p
  | step {p q r : StateId} {label : Option Symbol} {w : List Symbol} :
    nfa.Step p label q → Path nfa q w r → Path nfa p (label.toList ++ w) r

/-- The words that runs from the initial to a final state read. -/
def language (nfa : Nfa) : Language Symbol := {w | ∃ f ∈ nfa.finals, nfa.Path nfa.initial w f}

theorem mem_language : w ∈ nfa.language ↔ ∃ f ∈ nfa.finals, nfa.Path nfa.initial w f := Iff.rfl

namespace Path

theorem single (h : nfa.Step p label q) : nfa.Path p label.toList q := by
  simpa using Path.step h (.refl q)

theorem skip (h : nfa.Step p none q) : nfa.Path p [] q := single h

theorem epsilon (h : nfa.Step p none q) (hw : nfa.Path q w r) : nfa.Path p w r := .step h hw

theorem symbol {s : Symbol} (h : nfa.Step p (some s) q) (hw : nfa.Path q w r) :
    nfa.Path p (s :: w) r := .step h hw

theorem trans (hu : nfa.Path p u q) (hv : nfa.Path q v r) : nfa.Path p (u ++ v) r := by
  induction hu with
  | refl => exact hv
  | step h _ ih =>
    rw [List.append_assoc]
    exact .step h (ih hv)

/-- A path through one automaton is one through another that has its steps
under the numbers that `f` gives them. -/
theorem map {f : StateId → StateId}
    (hf : ∀ {p label q}, nfa.Step p label q → other.Step (f p) label (f q))
    (h : nfa.Path p w q) : other.Path (f p) w (f q) := by
  induction h with
  | refl => exact .refl _
  | step h _ ih => exact .step (hf h) ih

theorem lt_size (hwf : nfa.WellFormed) (hp : p < nfa.size) (h : nfa.Path p w r) : r < nfa.size := by
  induction h with
  | refl => exact hp
  | step h _ ih => exact ih (hwf.target_lt h)

/-- A path that starts among the states numbered by `f` stays there or leaves
them, if the only way out is from the state `x` along nothing. -/
theorem leave (hwf : other.WellFormed) {f : StateId → StateId} {x : StateId}
    {E : StateId → Prop}
    (hf : ∀ {p label q}, p < other.size → nfa.Step (f p) label q →
      (∃ q', q = f q' ∧ other.Step p label q') ∨ p = x ∧ label = none ∧ E q)
    (hp : p < other.size) (h : nfa.Path (f p) w r) :
    (∃ r', r = f r' ∧ other.Path p w r') ∨
      ∃ u v q, w = u ++ v ∧ other.Path p u x ∧ E q ∧ nfa.Path q v r := by
  generalize ha : f p = a at h
  induction h generalizing p with
  | refl => exact .inl ⟨p, ha.symm, .refl p⟩
  | @step _ q _ label w h hw ih =>
    subst ha
    rcases hf hp h with ⟨q', rfl, h'⟩ | ⟨rfl, rfl, hq⟩
    · rcases ih (hwf.target_lt h') rfl with ⟨r', rfl, hr⟩ | ⟨u, v, q, rfl, hu, hq, hv⟩
      · exact .inl ⟨r', rfl, .step h' hr⟩
      · exact .inr ⟨_, v, q, (List.append_assoc ..).symm, .step h' hu, hq, hv⟩
    · exact .inr ⟨[], w, q, rfl, .refl p, hq, hw⟩

/-- A path that starts among the states numbered by `f` stays there, if no
step leaves them. -/
theorem stay (hwf : other.WellFormed) {f : StateId → StateId}
    (hf : ∀ {p label q}, p < other.size → nfa.Step (f p) label q →
      ∃ q', q = f q' ∧ other.Step p label q')
    (hp : p < other.size) (h : nfa.Path (f p) w r) : ∃ r', r = f r' ∧ other.Path p w r' := by
  rcases leave (x := 0) (E := fun _ => False) hwf (fun hp h => .inl (hf hp h)) hp h with
    hr | ⟨_, _, _, _, _, hfalse, _⟩
  · exact hr
  · exact hfalse.elim

/-- A path that ends outside of the states numbered by `f` leaves them. -/
theorem exit (hwf : other.WellFormed) {f : StateId → StateId} {x : StateId}
    {E : StateId → Prop}
    (hf : ∀ {p label q}, p < other.size → nfa.Step (f p) label q →
      (∃ q', q = f q' ∧ other.Step p label q') ∨ p = x ∧ label = none ∧ E q)
    (hp : p < other.size) (hr : ∀ r' < other.size, r ≠ f r') (h : nfa.Path (f p) w r) :
    ∃ u v q, w = u ++ v ∧ other.Path p u x ∧ E q ∧ nfa.Path q v r := by
  rcases h.leave hwf hf hp with ⟨r', hr', h⟩ | h
  · exact absurd hr' (hr r' (h.lt_size hwf hp))
  · exact h

theorem exists_step (hne : p ≠ r) (h : nfa.Path p w r) :
    ∃ label q v, w = label.toList ++ v ∧ nfa.Step p label q ∧ nfa.Path q v r := by
  cases h with
  | refl => exact absurd rfl hne
  | step hs hw => exact ⟨_, _, _, rfl, hs, hw⟩

theorem eq_of_dead (hp : ∀ {label q}, ¬ nfa.Step p label q) (h : nfa.Path p w r) :
    w = [] ∧ r = p := by
  cases h with
  | refl => exact ⟨rfl, rfl⟩
  | step h _ => exact absurd h hp

theorem eq_of_source (hr : ∀ {q label}, ¬ nfa.Step q label r) (h : nfa.Path p w r) :
    w = [] ∧ p = r := by
  induction h with
  | refl => exact ⟨rfl, rfl⟩
  | step hs _ ih =>
    obtain ⟨-, rfl⟩ := ih hr
    exact absurd hs hr

/-- What moves along nothing keep, paths that read nothing keep. -/
theorem keep {P : StateId → Prop} (hP : ∀ {p q}, P p → nfa.Step p none q → P q)
    (h : nfa.Path p [] r) (hp : P p) : P r := by
  generalize hw : [] = w at h
  induction h with
  | refl => exact hp
  | @step p q r label w hs _ ih =>
    cases label with
    | none => exact ih (hP hp hs) hw
    | some s => cases hw

/-- What holds of the end of a path that reads nothing, and backwards along moves
along nothing, holds of its start. -/
theorem backwards {P : StateId → Prop} (h : nfa.Path p [] r) (hr : P r)
    (hP : ∀ {p q}, nfa.Step p none q → nfa.Path q [] r → P q → P p) : P p := by
  generalize hw : [] = w at h
  induction h with
  | refl => exact hr
  | @step p q r label w hs hpath ih =>
    cases label with
    | none =>
      obtain rfl : [] = w := hw
      exact hP hs hpath (ih hr hP rfl)
    | some s => cases hw

/-- A path that reads two words in turn passes a state between them. -/
theorem split (h : nfa.Path p (u ++ v) r) : ∃ q, nfa.Path p u q ∧ nfa.Path q v r := by
  generalize hw : u ++ v = w at h
  induction h generalizing u with
  | refl =>
    obtain ⟨rfl, rfl⟩ := List.append_eq_nil_iff.1 hw
    exact ⟨_, .refl _, .refl _⟩
  | @step p q r label w h hw' ih =>
    match label, u with
    | none, u =>
      obtain ⟨q', hu, hv⟩ := ih hw
      exact ⟨q', .epsilon h hu, hv⟩
    | some s, [] => exact ⟨p, .refl p, (show v = _ from hw) ▸ .symbol h hw'⟩
    | some s, t :: u =>
      obtain ⟨rfl, htail⟩ := List.cons_eq_cons.1 hw
      obtain ⟨q', hu, hv⟩ := ih htail
      exact ⟨q', .symbol h hu, hv⟩

theorem append_iff : nfa.Path p (u ++ v) r ↔ ∃ q, nfa.Path p u q ∧ nfa.Path q v r :=
  ⟨split, fun ⟨_, hu, hv⟩ => hu.trans hv⟩

theorem singleton_iff {s : Symbol} :
    nfa.Path p [s] r ↔
      ∃ q q', nfa.Path p [] q ∧ nfa.Step q (some s) q' ∧ nfa.Path q' [] r := by
  constructor
  · intro h
    generalize hw : [s] = w at h
    induction h with
    | refl => simp at hw
    | @step p q r label w h hw' ih =>
      cases label with
      | none =>
        obtain ⟨q₁, q₂, h₁, h₂, h₃⟩ := ih hw
        exact ⟨q₁, q₂, .epsilon h h₁, h₂, h₃⟩
      | some t =>
        obtain ⟨rfl, rfl⟩ := List.cons_eq_cons.1 hw
        exact ⟨p, q, .refl p, h, hw'⟩
  · rintro ⟨q, q', h₁, h₂, h₃⟩
    exact h₁.trans (.symbol h₂ h₃)

end Path

/-! ## The states a word leads to -/

/-- The states that a word leads to from the initial state. -/
def reach (nfa : Nfa) (w : List Symbol) : Set StateId := {q | nfa.Path nfa.initial w q}

theorem mem_reach : q ∈ nfa.reach w ↔ nfa.Path nfa.initial w q := Iff.rfl

theorem WellFormed.lt_of_mem_reach (hwf : nfa.WellFormed) (h : q ∈ nfa.reach w) : q < nfa.size :=
  Path.lt_size hwf hwf.initial_lt h

end Nfa

end LinePattern
