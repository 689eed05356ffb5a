/-
Where a pattern that cannot be read goes wrong.

A reader refuses a character that may not stand where it does, or the bracket that
closes a class; or something is open at the end of the pattern. What it refuses depends
on the characters up to there alone (`run_of_refused`), so the error stays whatever
follows. What it read before can be gone on with: outside of classes a letter may always
follow, and behind it the groups that are open can be closed (`exists_read_completion`).
So a character that is named stands behind the longest beginning that some pattern has,
and an error that asks for more goes away with more characters (`tokenize_error`).
-/
import LinePattern.Proofs.Pattern.Parse

namespace LinePattern

/-! ## Messages -/

namespace SyntaxFault

/-- How the message begins. This much of it tells the faults apart. -/
def lead : SyntaxFault → String
  | emptyPattern => "empty patter"
  | unexpectedEnd => "unexpected e"
  | unexpected _ => "unexpected '"
  | unmatchedClose => "unmatched ')"
  | missingClose => "missing ')'"
  | trailingBackslash => "trailing '\\'"
  | unterminatedClass => "unterminated"
  | emptyClass => "empty charac"
  | badRange (.noEnd _) => "range starti"
  | badRange .notAscii => "range endpoi"
  | badRange (.inverted _ _) => "inverted ran"

theorem take_append {s t : String} (h : 12 ≤ s.toList.length) :
    (s ++ t).toList.take 12 = s.toList.take 12 := by
  rw [String.toList_append, List.take_append_of_le_length h]

theorem take_reason (fault : SyntaxFault) : fault.reason.toList.take 12 = fault.lead.toList := by
  cases fault with
  | unexpected c =>
    change ("unexpected '" ++ c.toString ++ "'").toList.take 12 = "unexpected '".toList
    rw [String.append_assoc, take_append (by decide +kernel)]
    decide +kernel
  | badRange error =>
    cases error with
    | noEnd low =>
      change ("range starting at '" ++ low.toString ++ "' must end with a character").toList.take 12
        = "range starti".toList
      rw [String.append_assoc, take_append (by decide +kernel)]
      decide +kernel
    | notAscii => decide +kernel
    | inverted low high =>
      change ("inverted range '" ++ low.toString ++ "-" ++ high.toString ++ "'").toList.take 12 =
        "inverted ran".toList
      rw [String.append_assoc, String.append_assoc, String.append_assoc,
        take_append (by decide +kernel)]
      decide +kernel
  | _ => decide +kernel

theorem lead_eq {fault other : SyntaxFault} (h : fault.reason = other.reason) :
    fault.lead = other.lead := by
  rw [← String.toList_inj, ← take_reason, ← take_reason, h]

theorem reason_unexpected {c d : Char} (h : (unexpected c).reason = (unexpected d).reason) :
    c = d := by
  have hchars : ("unexpected '" ++ c.toString ++ "'").toList =
      ("unexpected '" ++ d.toString ++ "'").toList := congrArg String.toList h
  simpa only [String.toList_append, List.append_assoc, List.append_cancel_left_eq,
    Char.toString_eq_singleton, String.toList_singleton, List.cons_append, List.cons.injEq,
    and_true] using hchars

theorem eq_of_reason {fault : SyntaxFault} (other : SyntaxFault)
    (hother : ∀ e, other ≠ .badRange e) (h : fault.reason = other.reason) : fault = other := by
  have hlead := lead_eq h
  cases other with
  | badRange error => exact absurd rfl (hother error)
  | unexpected d =>
    cases fault with
    | unexpected c => rw [reason_unexpected h]
    | badRange error => cases error <;> simp [lead] at hlead
    | _ => simp [lead] at hlead
  | _ =>
    cases fault with
    | badRange error => cases error <;> simp [lead] at hlead
    | _ => first | rfl | simp [lead] at hlead

end SyntaxFault

namespace Reader

variable {st middle next : State} {c : Char} {offset length start : Nat} {negated : Bool}
  {parts : List ClassPart} {text before rest : List Char} {last : Factor} {refusal : Refusal}

/-- The place of the class that is being read. -/
@[simp] def Mode.classStart? : Mode → Option Nat
  | .classOpen start | .classBody start _ _ | .classEscape start _ _ => some start
  | .operand | .primary _ | .quantified _ | .escape _ => none

/-! ## What is refused -/

/-- A character that is refused: outside of classes it is the character that is wrong, in
a class it is the body that it closes. -/
inductive Refused (st : State) (offset : Nat) (c : Char) : Refusal → Prop
  | unexpected (hmode : st.mode.classStart? = none) : Refused st offset c (.unexpected c, offset)
  | unmatched (hmode : st.mode.classStart? = none) (hc : c = ')') :
    Refused st offset c (.unmatchedClose, offset)
  | emptyClass {start : Nat} (hmode : st.mode.classStart? = some start) :
    Refused st offset c (.emptyClass, start)
  | badRange {start : Nat} (error : RangeError) (hmode : st.mode.classStart? = some start) :
    Refused st offset c (.badRange error, start)

theorem operandStep_error (h : operandStep st offset c = .error refusal) :
    refusal = (.unexpected c, offset) := by
  unfold operandStep at h
  split at h <;> cases h <;> rfl

theorem factorStep_error (h : factorStep st last offset c = .error refusal) :
    refusal = (.unexpected c, offset) ∨ c = ')' ∧ refusal = (.unmatchedClose, offset) := by
  unfold factorStep at h
  split at h
  · cases h
  · split at h <;> cases h
    exact .inr ⟨rfl, rfl⟩
  · exact .inl (operandStep_error h)

theorem classStep_error (h : classStep st start negated parts c = .error refusal) :
    refusal = (.emptyClass, start) ∨ ∃ error, refusal = (.badRange error, start) := by
  unfold classStep at h
  split at h
  · simp only [closeClass] at h
    split at h <;> cases h
    · exact .inr ⟨_, rfl⟩
    · exact .inl rfl
  all_goals cases h

theorem refused_of_step (h : step st offset c = .error refusal) : Refused st offset c refusal := by
  have hfactor {last : Factor} (hmode : st.mode.classStart? = none)
      (hstep : factorStep st last offset c = .error refusal) : Refused st offset c refusal := by
    obtain rfl | ⟨hc, rfl⟩ := factorStep_error hstep
    · exact .unexpected hmode
    · exact .unmatched hmode hc
  have hclass {start : Nat} {negated : Bool} {parts : List ClassPart}
      (hmode : st.mode.classStart? = some start)
      (hstep : classStep st start negated parts c = .error refusal) :
      Refused st offset c refusal := by
    obtain rfl | ⟨error, rfl⟩ := classStep_error hstep
    · exact .emptyClass hmode
    · exact .badRange error hmode
  unfold step at h
  split at h
  · next hmode =>
    rw [operandStep_error h]
    exact .unexpected (by rw [hmode]; rfl)
  · next hmode =>
    split at h
    · cases h
    · exact hfactor (by rw [hmode]; rfl) h
  · next hmode => exact hfactor (by rw [hmode]; rfl) h
  · cases h
  · next hmode =>
    split at h
    · cases h
    · exact hclass (by rw [hmode]; rfl) h
  · next hmode => exact hclass (by rw [hmode]; rfl) h
  · cases h

/-- What is open at the end of a pattern. -/
inductive Open (st : State) (length : Nat) : Refusal → Prop
  | emptyPattern (hmode : st.mode.classStart? = none) : Open st length (.emptyPattern, length)
  | unexpectedEnd (hmode : st.mode.classStart? = none) : Open st length (.unexpectedEnd, length)
  | missingClose (hmode : st.mode.classStart? = none) :
    Open st length (.missingClose, st.level.start)
  | trailingBackslash {start : Nat} (hmode : st.mode = .escape start) :
    Open st length (.trailingBackslash, start)
  | unterminatedClass {start : Nat} (hmode : st.mode.classStart? = some start) :
    Open st length (.unterminatedClass, start)

theorem open_of_finish (h : finish st length = .error refusal) : Open st length refusal := by
  have hclose {last : Factor} (hmode : st.mode.classStart? = none)
      (hend : close st last = .error refusal) : Open st length refusal := by
    unfold close at hend
    split at hend <;> cases hend
    exact .missingClose hmode
  unfold finish at h
  split at h
  · next hmode =>
    cases h
    split
    · exact .emptyPattern (by rw [hmode]; rfl)
    · exact .unexpectedEnd (by rw [hmode]; rfl)
  · next hmode => exact hclose (by rw [hmode]; rfl) h
  · next hmode => exact hclose (by rw [hmode]; rfl) h
  · next hmode =>
    cases h
    exact .trailingBackslash hmode
  all_goals
    next hmode =>
    cases h
    exact .unterminatedClass (by rw [hmode]; rfl)

/-! ## The places of what is open -/

/-- All that is open was opened before a place. -/
structure State.OpenedBefore (st : State) (offset : Nat) : Prop where
  level : st.level.start ≤ offset
  outer : ∀ level ∈ st.outer, level.start ≤ offset
  escape : ∀ start, st.mode = .escape start → start ≤ offset
  classStart : ∀ start, st.mode.classStart? = some start → start ≤ offset

theorem openedBefore_initial : State.initial.OpenedBefore 0 where
  level := Nat.le_refl 0
  outer := nofun
  escape := nofun
  classStart := nofun

theorem State.OpenedBefore.setMode {mode : Mode} (h : st.OpenedBefore offset)
    (hescape : ∀ start, mode = .escape start → start ≤ offset)
    (hclass : ∀ start, mode.classStart? = some start → start ≤ offset) :
    State.OpenedBefore { st with mode := mode } (offset + 1) where
  level := Nat.le_succ_of_le h.level
  outer level hlevel := Nat.le_succ_of_le (h.outer level hlevel)
  escape start hstart := Nat.le_succ_of_le (hescape start hstart)
  classStart start hstart := Nat.le_succ_of_le (hclass start hstart)

theorem openedBefore_operandStep (h : st.OpenedBefore offset)
    (hstep : operandStep st offset c = .ok next) : next.OpenedBefore (offset + 1) := by
  unfold operandStep at hstep
  split at hstep <;> cases hstep
  · refine ⟨Nat.le_succ offset, ?_, by simp, by simp⟩
    exact List.forall_mem_cons.2 ⟨Nat.le_succ_of_le h.level,
      fun level hlevel => Nat.le_succ_of_le (h.outer level hlevel)⟩
  all_goals exact h.setMode (by simp) (by simp)

theorem openedBefore_factorStep (h : st.OpenedBefore offset)
    (hstep : factorStep st last offset c = .ok next) : next.OpenedBefore (offset + 1) := by
  unfold factorStep at hstep
  split at hstep
  · cases hstep
    have hterms : State.OpenedBefore
        { st with level := ⟨st.level.start, st.level.term last :: st.level.terms, []⟩ } offset :=
      ⟨h.level, h.outer, h.escape, h.classStart⟩
    exact hterms.setMode nofun nofun
  · split at hstep
    · cases hstep
    · next level outer houter =>
      cases hstep
      have hgroups : ∀ l ∈ level :: outer, l.start ≤ offset := houter ▸ h.outer
      rw [List.forall_mem_cons] at hgroups
      exact ⟨Nat.le_succ_of_le hgroups.1, fun l hl => Nat.le_succ_of_le (hgroups.2 l hl),
        nofun, nofun⟩
  · have hfactors : State.OpenedBefore
        { st with level.factors := last :: st.level.factors } offset :=
      ⟨h.level, h.outer, h.escape, h.classStart⟩
    exact openedBefore_operandStep hfactors hstep

theorem openedBefore_classStep (h : st.OpenedBefore offset) (hstart : start ≤ offset)
    (hstep : classStep st start negated parts c = .ok next) : next.OpenedBefore (offset + 1) := by
  unfold classStep at hstep
  split at hstep
  · simp only [closeClass] at hstep
    split at hstep <;> cases hstep
    exact h.setMode (by simp) (by simp)
  all_goals
    cases hstep
    exact h.setMode (by simp) (by simpa using hstart)

theorem openedBefore_step (h : st.OpenedBefore offset) (hstep : step st offset c = .ok next) :
    next.OpenedBefore (offset + 1) := by
  unfold step at hstep
  split at hstep
  · exact openedBefore_operandStep h hstep
  · split at hstep
    · cases hstep
      exact h.setMode nofun nofun
    · exact openedBefore_factorStep h hstep
  · exact openedBefore_factorStep h hstep
  · cases hstep
    exact h.setMode nofun nofun
  · next start hmode =>
    have hstart : start ≤ offset := h.classStart start (by rw [hmode]; rfl)
    split at hstep
    · cases hstep
      exact h.setMode nofun (by simpa using hstart)
    · exact openedBefore_classStep h hstart hstep
  · next start _ _ hmode =>
    exact openedBefore_classStep h (h.classStart start (by rw [hmode]; rfl)) hstep
  · next start _ _ hmode =>
    have hstart : start ≤ offset := h.classStart start (by rw [hmode]; rfl)
    cases hstep
    exact h.setMode nofun (by simpa using hstart)

theorem openedBefore_run (h : st.OpenedBefore offset) (hrun : run st offset text = .ok next) :
    next.OpenedBefore (offset + text.length) := by
  induction text generalizing st offset with
  | nil =>
    cases hrun
    exact h
  | cons c text ih =>
    unfold run at hrun
    split at hrun
    · next middle hmiddle =>
      rw [List.length_cons, Nat.add_comm text.length, ← Nat.add_assoc]
      exact ih (openedBefore_step h hmiddle) hrun
    · cases hrun

theorem Refused.le (h : Refused st offset c refusal) (hopened : st.OpenedBefore offset) :
    refusal.2 ≤ offset := by
  cases h with
  | unexpected | unmatched => exact Nat.le_refl offset
  | emptyClass hmode | badRange _ hmode => exact hopened.classStart _ hmode

theorem Open.le (h : Open st length refusal) (hopened : st.OpenedBefore length) :
    refusal.2 ≤ length := by
  cases h with
  | emptyPattern | unexpectedEnd => exact Nat.le_refl length
  | missingClose => exact hopened.level
  | trailingBackslash hmode => exact hopened.escape _ hmode
  | unterminatedClass hmode => exact hopened.classStart _ hmode

/-! ## Whole patterns -/

/-- A run that stops, stops at one character. -/
theorem exists_refused (h : run st offset text = .error refusal) :
    ∃ before c rest middle, text = before ++ c :: rest ∧ run st offset before = .ok middle ∧
      step middle (offset + before.length) c = .error refusal := by
  induction text generalizing st offset with
  | nil => cases h
  | cons c text ih =>
    unfold run at h
    split at h
    · next after hafter =>
      obtain ⟨before, d, rest, middle, rfl, hbefore, hstep⟩ := ih h
      refine ⟨c :: before, d, rest, middle, rfl, by rw [run_cons hafter, hbefore], ?_⟩
      rwa [List.length_cons, Nat.add_comm before.length, ← Nat.add_assoc]
    · next hstep =>
      cases h
      exact ⟨[], c, text, st, rfl, rfl, hstep⟩

/-- It stops there whatever follows. -/
theorem run_of_refused (hbefore : run st offset before = .ok middle)
    (hstep : step middle (offset + before.length) c = .error refusal) (rest : List Char) :
    run st offset (before ++ c :: rest) = .error refusal := by
  rw [run_append hbefore, run, hstep]

/-- A pattern that is not read: a character is refused, or something is open at its end. -/
theorem read_error (h : read text = .error refusal) :
    (∃ before c rest middle, text = before ++ c :: rest ∧ run .initial 0 before = .ok middle ∧
      step middle before.length c = .error refusal ∧ Refused middle before.length c refusal) ∨
    ∃ middle, run .initial 0 text = .ok middle ∧ Open middle text.length refusal := by
  unfold read at h
  split at h
  · next middle hmiddle => exact .inr ⟨middle, hmiddle, open_of_finish h⟩
  · next hrun =>
    cases h
    obtain ⟨before, c, rest, middle, htext, hbefore, hstep⟩ := exists_refused hrun
    rw [Nat.zero_add] at hstep
    exact .inl ⟨before, c, rest, middle, htext, hbefore, hstep, refused_of_step hstep⟩

theorem le_of_read_error (h : read text = .error refusal) : refusal.2 ≤ text.length := by
  obtain ⟨before, c, rest, middle, rfl, hbefore, -, hrefused⟩ | ⟨middle, hrun, hopen⟩ :=
    read_error h
  · have hle := hrefused.le (by simpa using openedBefore_run openedBefore_initial hbefore)
    rw [List.length_append]
    omega
  · exact hopen.le (by simpa using openedBefore_run openedBefore_initial hrun)

/-! ## Completions -/

theorem exists_step_letter (offset : Nat) (hmode : st.mode.classStart? = none) :
    ∃ level p, step st offset 'a' = .ok ⟨level, st.outer, .primary p⟩ := by
  obtain ⟨level, outer, mode⟩ := st
  cases mode with
  | operand => exact ⟨level, .literal 'a', rfl⟩
  | primary p => exact ⟨{ level with factors := .mk p none :: level.factors }, .literal 'a', rfl⟩
  | quantified f => exact ⟨{ level with factors := f :: level.factors }, .literal 'a', rfl⟩
  | escape start => exact ⟨level, .escape 'a', rfl⟩
  | classOpen | classBody | classEscape => cases hmode

/-- Behind a primary, all groups can be closed. -/
theorem exists_run_closing (outer : List Level) (level : Level) (p : Primary) (offset : Nat) :
    ∃ level' p', run ⟨level, outer, .primary p⟩ offset (List.replicate outer.length ')') =
      .ok ⟨level', [], .primary p'⟩ := by
  induction outer generalizing level p offset with
  | nil => exact ⟨level, p, rfl⟩
  | cons around outer ih =>
    obtain ⟨level', p', hrun⟩ := ih around (.group (level.expr (.mk p none))) (offset + 1)
    refine ⟨level', p', ?_⟩
    rw [List.length_cons, List.replicate_succ, ← hrun]
    exact run_cons rfl

/-- What was read outside of classes is the beginning of a pattern. -/
theorem exists_read_completion (hrun : run .initial 0 text = .ok st)
    (hmode : st.mode.classStart? = none) : ∃ rest e, read (text ++ rest) = .ok e := by
  obtain ⟨level, p, hletter⟩ := exists_step_letter (0 + text.length) hmode
  obtain ⟨level', p', hclosing⟩ :=
    exists_run_closing st.outer level p (0 + text.length + 1)
  refine ⟨'a' :: List.replicate st.outer.length ')', level'.expr (.mk p' none), ?_⟩
  rw [read, run_append hrun, run_cons hletter, hclosing]
  rfl

end Reader

/-! ## Errors of patterns -/

section Errors

open Reader

variable {pattern text : String} {error : SyntaxError} {refusal : Refusal}

theorem tokenize_eq_error_iff : tokenize pattern = .error error ↔
    read pattern.toList = .error (error.fault, error.offset) ∧ error.pattern = pattern := by
  obtain ⟨fault, offset, origin⟩ := error
  rw [tokenize, Expr.parse]
  cases read pattern.toList with
  | ok e => simp [Except.map]
  | error refusal => simp [Except.map, Prod.ext_iff, and_assoc, eq_comm]

theorem exists_tokenize_of_read {e : Expr} (h : read text.toList = .ok e) :
    ∃ tokens, tokenize text = .ok tokens :=
  ⟨e.tokens, by rw [tokenize, Expr.parse, h]; rfl⟩

theorem exists_tokenize_extension {before : List Char} {st : State}
    (hrun : run .initial 0 before = .ok st) (hmode : st.mode.classStart? = none) :
    ∃ text tokens, before <+: text.toList ∧ tokenize text = .ok tokens := by
  obtain ⟨rest, e, hread⟩ := exists_read_completion hrun hmode
  rw [← String.toList_ofList (l := before ++ rest)] at hread
  obtain ⟨tokens, htokens⟩ := exists_tokenize_of_read hread
  exact ⟨_, tokens, by simp, htokens⟩

/-- The character that an error names has no business behind what stands before it. -/
theorem tokenize_error_misplaced (h : tokenize pattern = .error error)
    (hfault : (∃ c, error.fault = .unexpected c) ∨ error.fault = .unmatchedClose) :
    (∃ text tokens, pattern.toList.take error.offset <+: text.toList ∧
      tokenize text = .ok tokens) ∧
    ∀ text : String, pattern.toList.take (error.offset + 1) <+: text.toList →
      tokenize text = .error { error with pattern := text } := by
  obtain ⟨hread, -⟩ := tokenize_eq_error_iff.1 h
  obtain ⟨fault, offset, origin⟩ := error
  obtain ⟨before, c, rest, middle, htext, hbefore, hstep, hrefused⟩ | ⟨middle, hrun, hopen⟩ :=
    read_error hread
  · have ⟨hoffset, hmode⟩ : offset = before.length ∧ middle.mode.classStart? = none := by
      cases hrefused with
      | unexpected hmode | unmatched hmode => exact ⟨rfl, hmode⟩
      | emptyClass | badRange => simp at hfault
    subst hoffset
    have htake : pattern.toList.take (before.length + 1) = before ++ [c] := by
      rw [htext, List.take_length_add_append, List.take_succ_cons, List.take_zero]
    refine ⟨?_, fun text hprefix => tokenize_eq_error_iff.2 ⟨?_, rfl⟩⟩
    · rw [show pattern.toList.take before.length = before by simp [htext]]
      exact exists_tokenize_extension hbefore hmode
    · obtain ⟨more, hmore⟩ := htake ▸ hprefix
      have hrun : run .initial 0 (before ++ c :: more) = .error (fault, before.length) :=
        run_of_refused hbefore (by rwa [Nat.zero_add]) more
      rw [Reader.read, ← hmore, List.append_assoc, List.singleton_append, hrun]
  · exfalso
    cases hopen <;> simp at hfault

/-- An error that asks for more goes away when more follows. -/
theorem tokenize_error_unfinished (h : tokenize pattern = .error error)
    (hfault : error.fault ∈ [SyntaxFault.emptyPattern, .unexpectedEnd, .missingClose,
      .trailingBackslash]) :
    ∃ text tokens, pattern.toList <+: text.toList ∧ tokenize text = .ok tokens := by
  obtain ⟨hread, -⟩ := tokenize_eq_error_iff.1 h
  obtain ⟨fault, offset, origin⟩ := error
  obtain ⟨before, c, rest, middle, htext, hbefore, hstep, hrefused⟩ | ⟨middle, hrun, hopen⟩ :=
    read_error hread
  · exfalso
    cases hrefused <;> simp at hfault
  · refine exists_tokenize_extension hrun ?_
    cases hopen with
    | emptyPattern hmode | unexpectedEnd hmode | missingClose hmode => exact hmode
    | trailingBackslash hmode => rw [hmode]; rfl
    | unterminatedClass => simp at hfault

/-- **A syntax error is where the pattern goes wrong.** It holds the pattern, a place in it
and the text from there on. What stands before a character that the message calls
unexpected or unmatched is the beginning of a pattern, and with that character every text
has the same error. A pattern that the message finds unfinished can be finished. -/
theorem tokenize_error (h : tokenize pattern = .error error) :
    error.pattern = pattern ∧ error.offset ≤ pattern.toList.length ∧
    error.fragment = String.ofList (pattern.toList.drop error.offset) ∧
    ((∃ c : Char, error.fault.reason = "unexpected '" ++ c.toString ++ "'") ∨
        error.fault.reason = "unmatched ')'" →
      (∃ text tokens, pattern.toList.take error.offset <+: text.toList ∧
        tokenize text = .ok tokens) ∧
      ∀ text : String, pattern.toList.take (error.offset + 1) <+: text.toList →
        ∃ again, tokenize text = .error again ∧ again.fault.reason = error.fault.reason ∧
          again.offset = error.offset) ∧
    (error.fault.reason ∈
        ["empty pattern", "unexpected end of pattern", "missing ')'", "trailing '\\'"] →
      ∃ text tokens, pattern.toList <+: text.toList ∧ tokenize text = .ok tokens) := by
  have ⟨hread, hpattern⟩ := tokenize_eq_error_iff.1 h
  refine ⟨hpattern, le_of_read_error hread, by rw [SyntaxError.fragment, hpattern], ?_, ?_⟩
  · intro hreason
    have hfault : (∃ c, error.fault = .unexpected c) ∨ error.fault = .unmatchedClose := by
      obtain ⟨c, hc⟩ | hc := hreason
      · exact .inl ⟨c, SyntaxFault.eq_of_reason (.unexpected c) nofun hc⟩
      · exact .inr (SyntaxFault.eq_of_reason .unmatchedClose nofun hc)
    obtain ⟨hextends, hstays⟩ := tokenize_error_misplaced h hfault
    exact ⟨hextends, fun text htext => ⟨_, hstays text htext, rfl, rfl⟩⟩
  · intro hreason
    have hfault : error.fault ∈ [SyntaxFault.emptyPattern, .unexpectedEnd, .missingClose,
        .trailingBackslash] := by
      have hmem : error.fault.reason ∈ [SyntaxFault.emptyPattern, .unexpectedEnd, .missingClose,
          .trailingBackslash].map SyntaxFault.reason := hreason
      obtain ⟨fault, hfault, heq⟩ := List.mem_map.1 hmem
      rwa [SyntaxFault.eq_of_reason _ (by rintro _ rfl; simp at hfault) heq.symm]
    exact tokenize_error_unfinished h hfault

/-- A quantifier behind a quantifier, in a group behind a class that holds parentheses. -/
theorem tokenize_error_doubled_star :
    tokenize "[()](a|b**" = .error ⟨.unexpected '*', 9, "[()](a|b**"⟩ ∧
    (∃ text tokens, "[()](a|b*".toList <+: text.toList ∧ tokenize text = .ok tokens) ∧
    ∃ again, tokenize "[()](a|b**)" = .error again ∧ again.fault.reason = "unexpected '*'" ∧
      again.offset = 9 := by
  have h : tokenize "[()](a|b**" = .error ⟨.unexpected '*', 9, "[()](a|b**"⟩ := by decide +kernel
  obtain ⟨-, -, -, hmisplaced, -⟩ := tokenize_error h
  obtain ⟨hextends, hstays⟩ := hmisplaced (.inl ⟨'*', rfl⟩)
  exact ⟨h, hextends, hstays "[()](a|b**)" (by decide +kernel)⟩

end Errors

end LinePattern
