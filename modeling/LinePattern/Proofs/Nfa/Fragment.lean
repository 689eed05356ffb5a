/-
The languages of composed automata.

Composition starts from single symbols, and what it makes is always a
`Fragment`: nothing leads back to the initial state, and nothing leads on from
the one final state. Optional repetition and negation add steps out of these
states and rely on it: without it a run could come back to such a step, or go
on behind it.

For each operator there is a lemma for its steps, one that it makes a fragment
of fragments, and one for its language.
-/
import LinePattern.Proofs.Nfa.Path

namespace LinePattern.Nfa

open Computability

variable {nfa other left right : Nfa} {f g p q r : StateId} {label : Option Symbol}
  {u v w : List Symbol}

/-- An automaton that is entered at its initial state alone, and left at its
one final state `stop` alone. -/
structure Fragment (nfa : Nfa) (stop : StateId) : Prop extends nfa.WellFormed where
  finals_eq : nfa.finals = [stop]
  initial_ne_stop : nfa.initial ≠ stop
  not_step_initial : ∀ {p label}, ¬ nfa.Step p label nfa.initial
  not_step_stop : ∀ {label q}, ¬ nfa.Step stop label q

namespace Fragment

theorem mem_language (h : nfa.Fragment f) : w ∈ nfa.language ↔ nfa.Path nfa.initial w f := by
  simp [Nfa.mem_language, h.finals_eq]

theorem stop_lt (h : nfa.Fragment f) : f < nfa.size :=
  h.final_lt f (by simp [h.finals_eq])

end Fragment

/-! ## One symbol -/

theorem fragment_ofSymbol (symbol : Symbol) : (ofSymbol symbol).Fragment 1 where
  initial_lt := Nat.zero_lt_two
  final_lt := by simp [ofSymbol, size]
  target_lt h := (step_ofSymbol.1 h).2.2 ▸ Nat.one_lt_two
  finals_eq := rfl
  initial_ne_stop := Nat.zero_ne_one
  not_step_initial h := Nat.zero_ne_one (step_ofSymbol.1 h).2.2
  not_step_stop h := Nat.one_ne_zero (step_ofSymbol.1 h).1

theorem language_ofSymbol (symbol : Symbol) : (ofSymbol symbol).language = {[symbol]} := by
  ext w
  rw [(fragment_ofSymbol symbol).mem_language]
  constructor
  · intro h
    obtain ⟨label, q, v, rfl, hs, hv⟩ := h.exists_step (fragment_ofSymbol symbol).initial_ne_stop
    obtain ⟨-, rfl, rfl⟩ := step_ofSymbol.1 hs
    obtain ⟨rfl, -⟩ := hv.eq_of_dead (fragment_ofSymbol symbol).not_step_stop
    rfl
  · rintro rfl
    exact .single (step_ofSymbol.2 ⟨rfl, rfl, rfl⟩)

/-! ## Sequence -/

@[simp] theorem initial_concat : (left.concat right).initial = left.initial :=
  initial_addEpsilons _

theorem step_concat (hl : left.Fragment f) :
    (left.concat right).Step p label q ↔
      left.Step p label q ∨
        (∃ p' q', p = p' + left.size ∧ q = q' + left.size ∧ right.Step p' label q') ∨
          p = f ∧ label = none ∧ q = right.initial + left.size := by
  have hlt : f < (left.absorb right).size := by
    rw [size_absorb]
    exact Nat.lt_of_lt_of_le hl.stop_lt (Nat.le_add_right _ _)
  change ((left.absorb right).addEpsilons _).Step p label q ↔ _
  rw [hl.finals_eq, List.map_singleton,
    step_addEpsilons_of_lt (List.forall_mem_singleton.2 hlt), step_absorb, or_assoc]
  simp only [List.mem_singleton, Prod.mk.injEq, and_left_comm]

theorem fragment_concat (hl : left.Fragment f) (hr : right.Fragment g) :
    (left.concat right).Fragment (g + left.size) where
  initial_lt := by
    rw [initial_concat, size_concat]
    exact Nat.lt_add_right _ hl.initial_lt
  final_lt := by
    have hg := hr.stop_lt
    rw [size_concat]
    simp only [concat, hr.finals_eq, List.map_cons, List.map_nil, List.mem_singleton]
    rintro _ rfl
    lia
  target_lt h := by
    have hi := hr.initial_lt
    rw [size_concat]
    rcases (step_concat hl).1 h with hs | ⟨p', q', rfl, rfl, hs⟩ | ⟨rfl, rfl, rfl⟩
    · exact Nat.lt_add_right _ (hl.target_lt hs)
    · have hq := hr.target_lt hs
      lia
    · lia
  finals_eq := by simp [concat, hr.finals_eq]
  initial_ne_stop h := by
    have hi := hl.initial_lt
    rw [initial_concat] at h
    lia
  not_step_initial h := by
    have hi := hl.initial_lt
    rw [initial_concat] at h
    rcases (step_concat hl).1 h with hs | ⟨p', q', rfl, hq, hs⟩ | ⟨rfl, rfl, hq⟩
    · exact hl.not_step_initial hs
    · lia
    · lia
  not_step_stop h := by
    rcases (step_concat hl).1 h with hs | ⟨p', q', hp, rfl, hs⟩ | ⟨hp, rfl, rfl⟩
    · have hlt := hs.lt_size
      lia
    · obtain rfl := Nat.add_right_cancel hp
      exact hr.not_step_stop hs
    · have hlt := hl.stop_lt
      lia

/-- A step out of the left operand stays there, or leaves its end. -/
theorem step_concat_left (hl : left.Fragment f) (hp : p < left.size)
    (h : (left.concat right).Step p label q) :
    left.Step p label q ∨ p = f ∧ label = none ∧ q = right.initial + left.size := by
  rcases (step_concat hl).1 h with hs | ⟨p', q', rfl, -, -⟩ | hs
  · exact .inl hs
  · lia
  · exact .inr hs

/-- A step out of the right operand stays there. -/
theorem step_concat_right (hl : left.Fragment f)
    (h : (left.concat right).Step (p + left.size) label q) :
    ∃ q', q = q' + left.size ∧ right.Step p label q' := by
  rcases (step_concat hl).1 h with hs | ⟨p', q', hp', rfl, hs⟩ | ⟨hp', -, -⟩
  · have hlt := hs.lt_size
    lia
  · exact ⟨q', rfl, Nat.add_right_cancel hp' ▸ hs⟩
  · have hlt := hl.stop_lt
    lia

/-- A run stays in the left operand, or leaves it at its end and then stays in the
right one. -/
theorem path_concat_iff (hl : left.Fragment f) (hr : right.Fragment g) :
    (left.concat right).Path left.initial w r ↔
      left.Path left.initial w r ∨
        ∃ u v r', w = u ++ v ∧ r = r' + left.size ∧
          left.Path left.initial u f ∧ right.Path right.initial v r' := by
  have hleft : ∀ {u q}, left.Path left.initial u q → (left.concat right).Path left.initial u q :=
    fun hu => hu.map (f := id) fun h => (step_concat hl).2 (.inl h)
  constructor
  · intro h
    rcases h.leave hl.toWellFormed (f := id) (fun hp h => (step_concat_left hl hp h).imp_left
      fun hs => ⟨_, rfl, hs⟩) hl.initial_lt with ⟨_, rfl, h⟩ | ⟨u, v, _, rfl, hu, rfl, hv⟩
    · exact .inl h
    · obtain ⟨r', rfl, hright⟩ :=
        hv.stay hr.toWellFormed (fun _ => step_concat_right hl) hr.initial_lt
      exact .inr ⟨u, v, r', rfl, rfl, hu, hright⟩
  · rintro (h | ⟨u, v, r', rfl, rfl, hu, hv⟩)
    · exact hleft h
    · have hv : (left.concat right).Path (right.initial + left.size) v (r' + left.size) :=
        hv.map (f := (· + left.size)) fun h => (step_concat hl).2 (.inr (.inl ⟨_, _, rfl, rfl, h⟩))
      exact (hleft hu).trans (.epsilon ((step_concat hl).2 (.inr (.inr ⟨rfl, rfl, rfl⟩))) hv)

theorem language_concat (hl : left.Fragment f) (hr : right.Fragment g) :
    (left.concat right).language = left.language * right.language := by
  ext w
  rw [(fragment_concat hl hr).mem_language, Language.mem_mul, initial_concat,
    path_concat_iff hl hr]
  simp only [hl.mem_language, hr.mem_language]
  constructor
  · rintro (h | ⟨u, v, g', rfl, hg, hu, hv⟩)
    · have hlt := h.lt_size hl.toWellFormed hl.initial_lt
      lia
    · obtain rfl := Nat.add_right_cancel hg
      exact ⟨u, hu, v, hv, rfl⟩
  · rintro ⟨u, hu, v, hv, rfl⟩
    exact .inr ⟨u, v, g, rfl, rfl, hu, hv⟩

/-! ## Choice -/

theorem step_alt (hl : left.Fragment f) (hr : right.Fragment g) :
    (left.alt right).Step p label q ↔
      left.Step p label q ∨
        (∃ p' q', p = p' + left.size ∧ q = q' + left.size ∧ right.Step p' label q') ∨
          label = none ∧
            (p = left.size + right.size ∧ (q = left.initial ∨ q = right.initial + left.size) ∨
              (p = f ∨ p = g + left.size) ∧ q = left.size + right.size + 1) := by
  have hlt := hl.stop_lt
  have hrt := hr.stop_lt
  change ((left.absorb right).addState.addState.addEpsilons _).Step p label q ↔ _
  rw [step_addEpsilons_of_lt, step_addState, step_addState, step_absorb, or_assoc,
    hl.finals_eq, hr.finals_eq]
  · simp only [List.map_cons, List.map_nil, List.cons_append, List.nil_append, List.mem_cons,
      List.not_mem_nil, or_false, Prod.mk.injEq, and_or_left, or_and_right, or_assoc]
  · rw [hl.finals_eq, hr.finals_eq, size_addState, size_addState, size_absorb]
    intro step hstep
    simp only [List.map_cons, List.map_nil, List.cons_append, List.nil_append, List.mem_cons,
      List.not_mem_nil, or_false] at hstep
    rcases hstep with rfl | rfl | rfl | rfl <;> lia

theorem fragment_alt (hl : left.Fragment f) (hr : right.Fragment g) :
    (left.alt right).Fragment (left.size + right.size + 1) where
  initial_lt := by
    rw [size_alt]
    exact Nat.lt_add_of_pos_right Nat.two_pos
  final_lt := by
    rw [size_alt]
    intro f hf
    exact List.mem_singleton.1 hf ▸ Nat.lt_succ_self _
  target_lt h := by
    have hli := hl.initial_lt
    have hri := hr.initial_lt
    rw [size_alt]
    rcases (step_alt hl hr).1 h with hs | ⟨p', q', rfl, rfl, hs⟩ | ⟨rfl, hs⟩
    · have hq := hl.target_lt hs
      lia
    · have hq := hr.target_lt hs
      lia
    · lia
  finals_eq := rfl
  initial_ne_stop h := Nat.succ_ne_self _ h.symm
  not_step_initial h := by
    have hli := hl.initial_lt
    have hri := hr.initial_lt
    change (left.alt right).Step _ _ (left.size + right.size) at h
    rcases (step_alt hl hr).1 h with hs | ⟨p', q', rfl, hq, hs⟩ | ⟨rfl, hs⟩
    · have hq := hl.target_lt hs
      lia
    · have hq' := hr.target_lt hs
      lia
    · lia
  not_step_stop h := by
    have hlt := hl.stop_lt
    have hrt := hr.stop_lt
    rcases (step_alt hl hr).1 h with hs | ⟨p', q', hp, rfl, hs⟩ | ⟨rfl, hs⟩
    · have hp := hs.lt_size
      lia
    · have hp' := hs.lt_size
      lia
    · lia

/-- A run through a choice goes through one of the operands. -/
theorem path_alt (hl : left.Fragment f) (hr : right.Fragment g)
    (h : (left.alt right).Path (left.size + right.size) w (left.size + right.size + 1)) :
    left.Path left.initial w f ∨ right.Path right.initial w g := by
  have hlt := hl.stop_lt
  have hrt := hr.stop_lt
  have hleft : ∀ {p label q}, p < left.size → (left.alt right).Step (id p) label q →
      (∃ q', q = id q' ∧ left.Step p label q') ∨
        p = f ∧ label = none ∧ q = left.size + right.size + 1 := by
    intro p label q hp h
    rcases (step_alt hl hr).1 h with hs | ⟨p', q', hp', -, -⟩ | ⟨rfl, hs⟩
    · exact .inl ⟨q, rfl, hs⟩
    · rw [id] at hp'
      lia
    · rw [id] at hs
      exact .inr (by lia)
  have hright : ∀ {p label q}, p < right.size →
      (left.alt right).Step (p + left.size) label q →
      (∃ q', q = q' + left.size ∧ right.Step p label q') ∨
        p = g ∧ label = none ∧ q = left.size + right.size + 1 := by
    intro p label q hp h
    rcases (step_alt hl hr).1 h with hs | ⟨p', q', hp', rfl, hs⟩ | ⟨rfl, hs⟩
    · have hlt := hs.lt_size
      lia
    · exact .inl ⟨q', rfl, Nat.add_right_cancel hp' ▸ hs⟩
    · exact .inr (by lia)
  obtain ⟨label, q, v, rfl, hs, hv⟩ := h.exists_step (fragment_alt hl hr).initial_ne_stop
  change (left.alt right).Step (left.size + right.size) label q at hs
  rcases (step_alt hl hr).1 hs with hs | ⟨p', q', hp, -, hs⟩ | ⟨rfl, hs⟩
  · have hp := hs.lt_size
    lia
  · have hp' := hs.lt_size
    lia
  · obtain rfl | rfl : q = left.initial ∨ q = right.initial + left.size := by lia
    · obtain ⟨u, v, _, rfl, hu, rfl, hv⟩ := hv.exit hl.toWellFormed hleft hl.initial_lt
        fun r' hr' => by rw [id]; lia
      obtain ⟨rfl, -⟩ := hv.eq_of_dead fun h => (fragment_alt hl hr).not_step_stop h
      exact .inl (by simpa using hu)
    · obtain ⟨u, v, _, rfl, hu, rfl, hv⟩ := hv.exit hr.toWellFormed hright hr.initial_lt
        fun r' hr' => by lia
      obtain ⟨rfl, -⟩ := hv.eq_of_dead fun h => (fragment_alt hl hr).not_step_stop h
      exact .inr (by simpa using hu)

theorem language_alt (hl : left.Fragment f) (hr : right.Fragment g) :
    (left.alt right).language = left.language + right.language := by
  ext w
  rw [(fragment_alt hl hr).mem_language, Language.mem_add, hl.mem_language, hr.mem_language]
  refine ⟨path_alt hl hr, ?_⟩
  have henter : ∀ q, q = left.initial ∨ q = right.initial + left.size →
      (left.alt right).Step (left.size + right.size) none q := fun q hq =>
    (step_alt hl hr).2 (.inr (.inr ⟨rfl, .inl ⟨rfl, hq⟩⟩))
  have hleave : ∀ p, p = f ∨ p = g + left.size →
      (left.alt right).Path p [] (left.size + right.size + 1) := fun p hp =>
    .skip ((step_alt hl hr).2 (.inr (.inr ⟨rfl, .inr ⟨hp, rfl⟩⟩)))
  rintro (h | h)
  · have h : (left.alt right).Path left.initial w f :=
      h.map (f := id) fun h => (step_alt hl hr).2 (.inl h)
    exact .epsilon (henter _ (.inl rfl)) (by simpa using h.trans (hleave _ (.inl rfl)))
  · have h : (left.alt right).Path (right.initial + left.size) w (g + left.size) :=
      h.map (f := (· + left.size)) fun h => (step_alt hl hr).2 (.inr (.inl ⟨_, _, rfl, rfl, h⟩))
    exact .epsilon (henter _ (.inr rfl)) (by simpa using h.trans (hleave _ (.inr rfl)))

/-! ## Repetition -/

theorem step_plus (h : nfa.Fragment f) :
    nfa.plus.Step p label q ↔
      nfa.Step p label q ∨
        label = none ∧
          (p = nfa.size ∧ q = nfa.initial ∨ p = f ∧ (q = nfa.size + 1 ∨ q = nfa.initial)) := by
  have hlt := h.stop_lt
  change (nfa.addState.addState.addEpsilons _).Step p label q ↔ _
  rw [step_addEpsilons_of_lt, step_addState, step_addState, h.finals_eq]
  · simp only [List.flatMap_cons, List.flatMap_nil, List.cons_append, List.nil_append,
      List.mem_cons, List.not_mem_nil, or_false, Prod.mk.injEq, and_or_left]
  · rw [h.finals_eq, size_addState, size_addState]
    intro step hstep
    simp only [List.flatMap_cons, List.flatMap_nil, List.cons_append, List.nil_append,
      List.mem_cons, List.not_mem_nil, or_false] at hstep
    rcases hstep with rfl | rfl | rfl <;> lia

theorem fragment_plus (h : nfa.Fragment f) : nfa.plus.Fragment (nfa.size + 1) where
  initial_lt := by
    rw [size_plus]
    exact Nat.lt_add_of_pos_right Nat.two_pos
  final_lt := by
    rw [size_plus]
    intro f hf
    exact List.mem_singleton.1 hf ▸ Nat.lt_succ_self _
  target_lt hs := by
    have hi := h.initial_lt
    rw [size_plus]
    rcases (step_plus h).1 hs with hs | ⟨rfl, hs⟩
    · have hq := h.target_lt hs
      lia
    · lia
  finals_eq := rfl
  initial_ne_stop h := Nat.succ_ne_self _ h.symm
  not_step_initial hs := by
    have hi := h.initial_lt
    change nfa.plus.Step _ _ nfa.size at hs
    rcases (step_plus h).1 hs with hs | ⟨rfl, hs⟩
    · have hq := h.target_lt hs
      lia
    · lia
  not_step_stop hs := by
    have hlt := h.stop_lt
    rcases (step_plus h).1 hs with hs | ⟨rfl, hs⟩
    · have hp := hs.lt_size
      lia
    · lia

/-- A run from inside a repetition ends the current round and then makes any
number of rounds. -/
theorem path_plus (h : nfa.Fragment f) (hp : p < nfa.size)
    (hw : nfa.plus.Path p w (nfa.size + 1)) :
    ∃ u v, w = u ++ v ∧ nfa.Path p u f ∧ v ∈ nfa.language∗ := by
  generalize hr : nfa.size + 1 = r at hw
  induction hw with
  | refl => lia
  | @step p q r label w hs hw ih =>
    subst hr
    rcases (step_plus h).1 hs with hs | ⟨rfl, ⟨rfl, -⟩ | ⟨rfl, rfl | rfl⟩⟩
    · obtain ⟨u, v, rfl, hu, hv⟩ := ih (h.target_lt hs) rfl
      exact ⟨_, v, (List.append_assoc ..).symm, .step hs hu, hv⟩
    · lia
    · obtain ⟨rfl, -⟩ := hw.eq_of_dead fun hs => (fragment_plus h).not_step_stop hs
      exact ⟨[], [], rfl, .refl p, Language.nil_mem_kstar _⟩
    · obtain ⟨u, v, rfl, hu, hv⟩ := ih h.initial_lt rfl
      refine ⟨[], u ++ v, rfl, .refl p, ?_⟩
      rw [← Language.one_add_self_mul_kstar_eq_kstar]
      exact .inr (Language.append_mem_mul (h.mem_language.2 hu) hv)

/-- Rounds in turn make a run from the first to the last of them. -/
theorem path_plus_flatten (h : nfa.Fragment f) {rounds : List (List Symbol)}
    (hu : u ∈ nfa.language) (hrounds : ∀ v ∈ rounds, v ∈ nfa.language) :
    nfa.plus.Path nfa.initial (u ++ rounds.flatten) (nfa.size + 1) := by
  have hround : ∀ v ∈ nfa.language, nfa.plus.Path nfa.initial v f := fun v hv =>
    (h.mem_language.1 hv).map (f := id) fun hs => (step_plus h).2 (.inl hs)
  induction rounds generalizing u with
  | nil =>
    exact (hround u hu).trans (.skip ((step_plus h).2 (.inr ⟨rfl, .inr ⟨rfl, .inl rfl⟩⟩)))
  | cons v rounds ih =>
    have hv := ih (hrounds v List.mem_cons_self) fun x hx => hrounds x (List.mem_cons_of_mem _ hx)
    exact (hround u hu).trans (.epsilon ((step_plus h).2 (.inr ⟨rfl, .inr ⟨rfl, .inr rfl⟩⟩)) hv)

theorem language_plus (h : nfa.Fragment f) :
    nfa.plus.language = nfa.language * nfa.language∗ := by
  ext w
  rw [(fragment_plus h).mem_language, Language.mem_mul]
  constructor
  · intro hw
    have hlt := h.stop_lt
    obtain ⟨label, q, v, rfl, hs, hv⟩ := hw.exists_step (fragment_plus h).initial_ne_stop
    change nfa.plus.Step nfa.size _ _ at hs
    rcases (step_plus h).1 hs with hs | ⟨rfl, ⟨-, rfl⟩ | ⟨rfl, -⟩⟩
    · have hp := hs.lt_size
      lia
    · obtain ⟨u, v, rfl, hu, hv⟩ := path_plus h h.initial_lt hv
      exact ⟨u, h.mem_language.2 hu, v, hv, rfl⟩
    · lia
  · rintro ⟨u, hu, v, hv, rfl⟩
    obtain ⟨rounds, rfl, hrounds⟩ := Language.mem_kstar.1 hv
    exact .epsilon ((step_plus h).2 (.inr ⟨rfl, .inl ⟨rfl, rfl⟩⟩))
      (path_plus_flatten h hu hrounds)

/-! ## Optional repetition -/

@[simp] theorem initial_optional : nfa.optional.initial = nfa.initial := initial_addEpsilons _

@[simp] theorem finals_optional : nfa.optional.finals = nfa.finals := by
  rw [optional, addEpsilons_eq]

theorem step_optional (h : nfa.Fragment f) :
    nfa.optional.Step p label q ↔
      nfa.Step p label q ∨ label = none ∧ p = nfa.initial ∧ q = f := by
  rw [optional, h.finals_eq, List.map_singleton,
    step_addEpsilons_of_lt (List.forall_mem_singleton.2 h.initial_lt), List.mem_singleton,
    Prod.mk.injEq]

theorem fragment_optional (h : nfa.Fragment f) : nfa.optional.Fragment f where
  initial_lt := by
    rw [initial_optional, size_optional]
    exact h.initial_lt
  final_lt := by
    rw [finals_optional, size_optional]
    exact h.final_lt
  target_lt hs := by
    rw [size_optional]
    rcases (step_optional h).1 hs with hs | ⟨-, -, rfl⟩
    · exact h.target_lt hs
    · exact h.stop_lt
  finals_eq := finals_optional.trans h.finals_eq
  initial_ne_stop := by
    rw [initial_optional]
    exact h.initial_ne_stop
  not_step_initial hs := by
    rw [initial_optional] at hs
    rcases (step_optional h).1 hs with hs | ⟨-, -, hf⟩
    · exact h.not_step_initial hs
    · exact h.initial_ne_stop hf
  not_step_stop hs := by
    rcases (step_optional h).1 hs with hs | ⟨-, hf, -⟩
    · exact h.not_step_stop hs
    · exact h.initial_ne_stop hf.symm

/-- The new step leads from the initial state, so a run takes it at once or
never. -/
theorem path_optional (h : nfa.Fragment f) (hp : p ≠ nfa.initial) (hw : nfa.optional.Path p w q) :
    nfa.Path p w q := by
  induction hw with
  | refl => exact .refl _
  | step hs _ ih =>
    rcases (step_optional h).1 hs with hs | ⟨-, hi, -⟩
    · exact .step hs (ih fun hq => h.not_step_initial (hq ▸ hs))
    · exact absurd hi hp

theorem language_optional (h : nfa.Fragment f) : nfa.optional.language = 1 + nfa.language := by
  ext w
  rw [(fragment_optional h).mem_language, Language.mem_add, Language.mem_one, h.mem_language,
    initial_optional]
  constructor
  · intro hw
    obtain ⟨label, q, v, rfl, hs, hv⟩ := hw.exists_step h.initial_ne_stop
    rcases (step_optional h).1 hs with hs | ⟨rfl, -, rfl⟩
    · exact .inr (.step hs (path_optional h (fun hq => h.not_step_initial (hq ▸ hs)) hv))
    · obtain ⟨rfl, -⟩ := hv.eq_of_dead fun hs => (fragment_optional h).not_step_stop hs
      exact .inl rfl
  · rintro (rfl | hw)
    · exact .skip ((step_optional h).2 (.inr ⟨rfl, rfl, rfl⟩))
    · exact hw.map (f := id) fun hs => (step_optional h).2 (.inl hs)

theorem star_eq_optional_plus (nfa : Nfa) : nfa.star = nfa.plus.optional := rfl

theorem fragment_star (h : nfa.Fragment f) : nfa.star.Fragment (nfa.size + 1) :=
  fragment_optional (fragment_plus h)

theorem language_star (h : nfa.Fragment f) : nfa.star.language = nfa.language∗ := by
  rw [star_eq_optional_plus, language_optional (fragment_plus h), language_plus h,
    Language.one_add_self_mul_kstar_eq_kstar]

/-! ## Negation -/

theorem step_negate_anyCharacter (h : nfa.Fragment f) :
    (nfa.negate .anyCharacter).Step p label q ↔
      nfa.Step p label q ∨ label = some .any ∧ p = nfa.initial ∧ q = nfa.size := by
  have hlt : nfa.initial < nfa.addState.size := by
    rw [size_addState]
    exact Nat.lt_succ_of_lt h.initial_lt
  change (nfa.addState.addTransition _ _ _).Step p label q ↔ _
  rw [step_addTransition_of_lt hlt, step_addState, and_left_comm]

theorem fragment_negate_anyCharacter (h : nfa.Fragment f) :
    (nfa.negate .anyCharacter).Fragment nfa.size where
  initial_lt := by
    have hi := h.initial_lt
    change nfa.initial < (nfa.addState.addTransition _ _ _).size
    rw [size_addTransition, size_addState]
    lia
  final_lt := by
    change ∀ f ∈ [nfa.size], f < (nfa.addState.addTransition _ _ _).size
    simp
  target_lt hs := by
    change _ < (nfa.addState.addTransition _ _ _).size
    rw [size_addTransition, size_addState]
    rcases (step_negate_anyCharacter h).1 hs with hs | ⟨-, -, rfl⟩
    · exact Nat.lt_succ_of_lt (h.target_lt hs)
    · exact Nat.lt_succ_self _
  finals_eq := rfl
  initial_ne_stop := Nat.ne_of_lt h.initial_lt
  not_step_initial hs := by
    rcases (step_negate_anyCharacter h).1 hs with hs | ⟨-, -, hq⟩
    · exact h.not_step_initial hs
    · exact Nat.ne_of_lt h.initial_lt hq
  not_step_stop hs := by
    rcases (step_negate_anyCharacter h).1 hs with hs | ⟨-, hp, -⟩
    · exact Nat.lt_irrefl _ hs.lt_size
    · exact Nat.ne_of_lt h.initial_lt hp.symm

/-- Behind the initial state the steps of the members lead to dead ends. -/
theorem not_path_negate (h : nfa.Fragment f) (hp : p ≠ nfa.initial) (hlt : p < nfa.size) :
    ¬ (nfa.negate .anyCharacter).Path p w nfa.size := by
  intro hw
  generalize hr : nfa.size = r at hw
  induction hw with
  | refl => lia
  | step hs _ ih =>
    subst hr
    rcases (step_negate_anyCharacter h).1 hs with hs | ⟨-, hi, -⟩
    · exact ih (fun hq => h.not_step_initial (hq ▸ hs)) (h.target_lt hs) rfl
    · exact hp hi

theorem language_negate_anyCharacter (h : nfa.Fragment f) :
    (nfa.negate .anyCharacter).language = {[.any]} := by
  ext w
  rw [(fragment_negate_anyCharacter h).mem_language]
  change (nfa.negate .anyCharacter).Path nfa.initial w nfa.size ↔ w = [.any]
  constructor
  · intro hw
    obtain ⟨label, q, v, rfl, hs, hv⟩ := hw.exists_step (Nat.ne_of_lt h.initial_lt)
    rcases (step_negate_anyCharacter h).1 hs with hs | ⟨rfl, -, rfl⟩
    · exact absurd hv
        (not_path_negate h (fun hq => h.not_step_initial (hq ▸ hs)) (h.target_lt hs))
    · obtain ⟨rfl, -⟩ := hv.eq_of_dead fun hs =>
        (fragment_negate_anyCharacter h).not_step_stop hs
      rfl
  · rintro rfl
    exact .single ((step_negate_anyCharacter h).2 (.inr ⟨rfl, rfl, rfl⟩))

/-! ## Groups -/

theorem step_recordCapture {group : Nat} :
    (nfa.recordCapture group).Step p label q ↔ nfa.Step p label q := Iff.rfl

theorem fragment_recordCapture (h : nfa.Fragment f) (group : Nat) :
    (nfa.recordCapture group).Fragment f where
  initial_lt := h.initial_lt
  final_lt := h.final_lt
  target_lt := h.target_lt
  finals_eq := h.finals_eq
  initial_ne_stop := h.initial_ne_stop
  not_step_initial := h.not_step_initial
  not_step_stop := h.not_step_stop

theorem language_recordCapture (h : nfa.Fragment f) (group : Nat) :
    (nfa.recordCapture group).language = nfa.language := by
  ext w
  rw [(fragment_recordCapture h group).mem_language, h.mem_language]
  exact ⟨fun hw => hw.map (f := id) step_recordCapture.1,
    fun hw => hw.map (f := id) step_recordCapture.2⟩

end LinePattern.Nfa
