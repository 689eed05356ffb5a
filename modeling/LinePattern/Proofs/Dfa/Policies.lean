/-
What the policies have in common.

A policy decides where a scan stops, and with that how much of the text is
credited to groups. Whether there is a match is decided by the states that the
text leads to (`Dfa.Accepts`), whatever the policy (`Dfa.matched_iff_accepts`).
-/
import LinePattern.Proofs.Dfa.Scan

namespace LinePattern

/-! ## Acceptance -/

namespace Dfa

variable {dfa : Dfa} {id q : StateId} {text : List Char}

/-- The state that a text leads to, each character along the step that a scan
takes for it. -/
def reached? (dfa : Dfa) (id : StateId) : List Char → Option StateId
  | [] => some id
  | c :: rest => (dfa.findNext id c).bind (dfa.reached? · rest)

/-- When a text matches. -/
inductive Accepts (dfa : Dfa) (text : List Char) : Prop where
  | initially (hfinal : (dfa.state dfa.initial).isFinal = true)
  | behind {u : List Char} {q : StateId} (hu : u <+: text) (hne : u ≠ [])
    (hreached : dfa.reached? dfa.initial u = some q) (hfinal : (dfa.state q).isFinal = true)
  | atEnd {q target : StateId} (hreached : dfa.reached? dfa.initial text = some q)
    (hend : (dfa.state q).next? .endOfLine = some target)
    (hfinal : (dfa.state target).isFinal = true)

theorem acceptsAtEnd_eq_true : dfa.acceptsAtEnd id = true ↔
    ∃ target, (dfa.state id).next? .endOfLine = some target ∧
      (dfa.state target).isFinal = true := by
  unfold acceptsAtEnd
  cases (dfa.state id).next? .endOfLine with
  | none => simp
  | some target => simp

/-- Following a text step by step, told by its prefixes. -/
theorem accepts_eq_true : dfa.accepts id text = true ↔
    (∃ u q, u <+: text ∧ u ≠ [] ∧ dfa.reached? id u = some q ∧ (dfa.state q).isFinal = true) ∨
      ∃ q, dfa.reached? id text = some q ∧ dfa.acceptsAtEnd q = true := by
  induction text generalizing id with
  | nil => simp [accepts, reached?]
  | cons c rest ih =>
    cases hnext : dfa.findNext id c with
    | none =>
      have hnone : ∀ u q, u <+: c :: rest → u ≠ [] → dfa.reached? id u ≠ some q := by
        intro u q hu hne
        obtain ⟨u, rfl⟩ : ∃ v, u = c :: v := by
          cases u with
          | nil => exact absurd rfl hne
          | cons d u => exact ⟨u, by rw [(List.cons_prefix_cons.1 hu).1]⟩
        simp [reached?, hnext]
      simp only [accepts, hnext, Bool.false_eq_true, false_iff]
      rintro (⟨u, q, hu, hne, hq, -⟩ | ⟨q, hq, -⟩)
      · exact hnone u q hu hne hq
      · exact hnone _ q List.prefix_rfl (List.cons_ne_nil _ _) hq
    | some target =>
      have hcons : ∀ u, dfa.reached? id (c :: u) = dfa.reached? target u := fun u => by
        rw [reached?, hnext, Option.bind_some]
      simp only [accepts, hnext, Bool.or_eq_true, ih, hcons]
      constructor
      · rintro (hfinal | ⟨u, q, hu, hne, hq⟩ | hend)
        · exact .inl ⟨[c], target, by simp, List.cons_ne_nil _ _, hcons [], hfinal⟩
        · exact .inl ⟨c :: u, q, List.cons_prefix_cons.2 ⟨rfl, hu⟩, List.cons_ne_nil _ _,
            (hcons u).trans hq.1, hq.2⟩
        · exact .inr hend
      · rintro (⟨u, q, hu, hne, hq, hfinal⟩ | hend)
        · cases u with
          | nil => exact absurd rfl hne
          | cons d u =>
            obtain ⟨rfl, hrest⟩ := List.cons_prefix_cons.1 hu
            rw [hcons] at hq
            by_cases hnil : u = []
            · subst hnil
              cases hq
              exact .inl hfinal
            · exact .inr (.inl ⟨u, q, hrest, hnil, hq, hfinal⟩)
        · exact .inr (.inr hend)

/-- Whether a scan accepts is told by the states alone. -/
theorem matched_scan_iff (dfa : Dfa) (policy : MatchPolicy) (text : String) :
    (dfa.scan policy text).matched = true ↔ dfa.Accepts text.toList := by
  rw [matched_scan, Bool.or_eq_true, accepts_eq_true]
  simp only [acceptsAtEnd_eq_true]
  constructor
  · rintro (hfinal | ⟨u, q, hu, hne, hq, hfinal⟩ | ⟨q, hq, target, hend, hfinal⟩)
    · exact .initially hfinal
    · exact .behind hu hne hq hfinal
    · exact .atEnd hq hend hfinal
  · rintro (hfinal | ⟨hu, hne, hq, hfinal⟩ | ⟨hq, hend, hfinal⟩)
    · exact .inl hfinal
    · exact .inr (.inl ⟨_, _, hu, hne, hq, hfinal⟩)
    · exact .inr (.inr ⟨_, hq, _, hend, hfinal⟩)

/-- No state has a step along the end of the line. -/
def WithoutEnd (dfa : Dfa) : Prop :=
  ∀ s ∈ dfa.states, ∀ step ∈ s.steps, step.symbol ≠ .endOfLine

/-- Without steps along the end of the line a match is not lost in a longer
text. -/
theorem Accepts.append (h : dfa.Accepts text) (hend : dfa.WithoutEnd) (suffix : List Char) :
    dfa.Accepts (text ++ suffix) := by
  cases h with
  | initially hfinal => exact .initially hfinal
  | behind hu hne hq hfinal => exact .behind (hu.trans (List.prefix_append _ _)) hne hq hfinal
  | @atEnd q target hq hnext hfinal =>
    obtain ⟨step, hstep, hsymbol, -⟩ := DfaState.exists_step_of_next? hnext
    exact absurd hsymbol (hend _ (state_mem_of_mem_steps hstep) step hstep)

end Dfa

/-! ## One answer for all policies -/

namespace Dfa

/-- **The policy never changes whether a text matches.** Under every policy a scan
finds a match exactly where the initial state accepts, or the text leads to an
accepting state behind some of its characters, or behind all of them and a step along
the end of the line. So all policies agree. Without steps along the end of the line a
match of a text is one of every longer text, under every policy. -/
theorem matched_iff_accepts (dfa : Dfa) :
    (∀ policy text, (dfa.scan policy text).matched = true ↔ dfa.Accepts text.toList) ∧
    (∀ policy policy' text,
      (dfa.scan policy text).matched = (dfa.scan policy' text).matched) ∧
    (dfa.WithoutEnd → ∀ policy policy' text suffix, (dfa.scan policy text).matched = true →
      (dfa.scan policy' (text ++ suffix)).matched = true) := by
  refine ⟨dfa.matched_scan_iff, ?_, ?_⟩
  · intro policy policy' text
    rw [Bool.eq_iff_iff, matched_scan_iff, matched_scan_iff]
  · intro hend policy policy' text suffix hmatched
    have haccepts := (dfa.matched_scan_iff policy text).1 hmatched
    rw [matched_scan_iff, String.toList_append]
    exact haccepts.append hend suffix.toList

/-- After the first character, every longer text matches under every policy. -/
theorem matched_iff_accepts_after_one : ∃ dfa,
    ((Nfa.ofSymbol (.char 'a')).concat
      ((Nfa.ofSymbol .digit).recordCapture 0).optional).determinize none = .ok dfa ∧
      dfa.WithoutEnd ∧ (dfa.scan .first "a").matched = true ∧
      ∀ policy suffix, (dfa.scan policy ("a" ++ suffix)).matched = true := by
  have hrun : (match ((Nfa.ofSymbol (.char 'a')).concat
      ((Nfa.ofSymbol .digit).recordCapture 0).optional).determinize none with
    | .error _ => false
    | .ok dfa => (dfa.scan .first "a").matched &&
        dfa.states.all fun s => s.steps.all fun step => step.symbol ≠ .endOfLine) = true := by
    decide +kernel
  split at hrun
  · cases hrun
  · next dfa hdfa =>
    obtain ⟨hfirst, hsteps⟩ := Bool.and_eq_true_iff.1 hrun
    have hend : dfa.WithoutEnd := by
      intro s hs step hstep
      have hall := Array.all_eq_true_iff_forall_mem.1 hsteps s hs
      simpa using List.all_eq_true.1 hall step hstep
    obtain ⟨-, -, happend⟩ := dfa.matched_iff_accepts
    refine ⟨dfa, hdfa, hend, hfirst, ?_⟩
    intro policy suffix
    exact happend hend .first policy "a" suffix hfirst

end Dfa

end LinePattern
