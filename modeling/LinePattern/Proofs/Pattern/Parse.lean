/-
The reader accepts what the grammar derives.

Where a factor has to follow, a reader takes the characters of a derivation as
they come: those of a primary lead to the mode that holds it, those of a term
or an expression to a level that holds its parts (`run_expr`). It has no choice
on the way, so a text has one derivation, and the token stream of a pattern is
that of its derivation.
-/
import LinePattern.Proofs.Pattern.Reader

namespace LinePattern

namespace Reader

variable {st middle next : State} {c : Char} {offset start : Nat} {negated : Bool}
  {parts : List ClassPart} {text rest : List Char} {last : Factor} {mode : Mode}

theorem run_append (h : run st offset text = .ok middle) :
    run st offset (text ++ rest) = run middle (offset + text.length) rest := by
  induction text generalizing st offset with
  | nil =>
    cases h
    rfl
  | cons c text ih =>
    rw [List.cons_append, run]
    unfold run at h
    split at h
    · next after hafter =>
      rw [List.length_cons, Nat.add_comm text.length, ← Nat.add_assoc]
      simpa only [hafter] using ih h
    · cases h

theorem run_cons (h : step st offset c = .ok middle) :
    run st offset (c :: rest) = run middle (offset + 1) rest := by
  rw [run, h]

/-! ## Classes -/

theorem run_part {part : ClassPart} (hmode : st.mode = .classBody start negated parts)
    (hplain : ∀ c, part = .plain c → c ∉ CharClass.metacharacters) :
    run st offset part.chars =
      .ok { st with mode := .classBody start negated (part :: parts) } := by
  cases part with
  | plain c =>
    have hc := hplain c rfl
    simp only [CharClass.metacharacters, List.mem_cons, List.not_mem_nil, or_false, not_or] at hc
    simp [ClassPart.chars, run, step, hmode, classStep, hc]
  | dash => simp [ClassPart.chars, run, step, hmode, classStep]
  | escaped c => simp [ClassPart.chars, run, step, hmode, classStep]

theorem run_parts {more : List ClassPart} (hmode : st.mode = .classBody start negated parts)
    (hplain : ∀ c, .plain c ∈ more → c ∉ CharClass.metacharacters) :
    run st offset (more.flatMap ClassPart.chars) =
      .ok { st with mode := .classBody start negated (more.reverse ++ parts) } := by
  induction more generalizing st offset parts with
  | nil => simp [run, ← hmode]
  | cons part more ih =>
    have hpart : run st offset part.chars =
        .ok { st with mode := .classBody start negated (part :: parts) } :=
      run_part hmode fun c hc => hplain c (hc ▸ List.mem_cons_self)
    rw [List.flatMap_cons, run_append hpart, ih rfl fun c hc => hplain c (.tail _ hc)]
    simp

theorem run_opening (offset : Nat) (rest : List Char) (hmode : st.mode = .operand)
    (hcaret : negated = false → c ≠ '^') :
    ∃ opened, run st offset (CharClass.opening negated ++ c :: rest) =
      run { st with mode := .classBody offset negated [] } opened (c :: rest) := by
  cases negated with
  | true => exact ⟨offset + 2, by simp [CharClass.opening, run, step, hmode, operandStep]⟩
  | false =>
    refine ⟨offset + 1, ?_⟩
    simp [CharClass.opening, run, step, hmode, operandStep, hcaret rfl, classStep, closeClass]

theorem exists_body {cls : CharClass} (h : cls.Written) :
    ∃ c rest, cls.parts.flatMap ClassPart.chars ++ [']'] = c :: rest ∧
      (cls.negated = false → c ≠ '^') := by
  obtain ⟨negated, parts⟩ := cls
  obtain ⟨-, hhead⟩ := h
  cases parts with
  | nil => exact ⟨']', [], rfl, by simp⟩
  | cons part parts =>
    cases part with
    | plain c => exact ⟨c, _, rfl, by simpa using hhead⟩
    | dash => exact ⟨'-', _, rfl, by simp⟩
    | escaped c => exact ⟨'\\', _, rfl, by simp⟩

theorem step_close {cls : CharClass} {members : List Symbol}
    (hmode : st.mode = .classBody start cls.negated cls.parts.reverse)
    (hexpand : cls.expand = .ok members) (hne : members ≠ []) :
    step st offset ']' = .ok { st with mode := .primary (.charClass cls) } := by
  obtain ⟨first, others, rfl⟩ := List.exists_cons_of_ne_nil hne
  simp [step, hmode, classStep, closeClass, hexpand]

theorem run_class {cls : CharClass} {members : List Symbol} (hmode : st.mode = .operand)
    (hwritten : cls.Written) (hexpand : cls.expand = .ok members) (hne : members ≠ []) :
    run st offset cls.chars = .ok { st with mode := .primary (.charClass cls) } := by
  obtain ⟨c, rest, hbody, hcaret⟩ := exists_body hwritten
  obtain ⟨opened, hopening⟩ := run_opening offset rest hmode hcaret
  have hparts : run { st with mode := .classBody offset cls.negated [] } opened
      (cls.parts.flatMap ClassPart.chars) =
        .ok { st with mode := .classBody offset cls.negated (cls.parts.reverse ++ []) } :=
    run_parts rfl hwritten.plain
  rw [List.append_nil] at hparts
  rw [CharClass.chars, List.append_assoc, hbody, hopening, ← hbody, run_append hparts,
    run_cons (step_close rfl hexpand hne), run]

/-! ## Factors -/

/-- The mode behind a factor. -/
def Mode.ofFactor : Factor → Mode
  | .mk p none => .primary p
  | .mk p (some q) => .quantified (.mk p (some q))

theorem step_ofFactor (hmode : st.mode = .ofFactor last) (hc : quantifier? c = none) :
    step st offset c = factorStep st last offset c := by
  obtain ⟨p, _ | q⟩ := last
  · simp [step, hmode, Mode.ofFactor, hc]
  · simp [step, hmode, Mode.ofFactor]

theorem finish_ofFactor {length : Nat} (hmode : st.mode = .ofFactor last) :
    finish st length = close st last := by
  obtain ⟨p, _ | q⟩ := last
  · simp [finish, hmode, Mode.ofFactor]
  · simp [finish, hmode, Mode.ofFactor]

theorem operandStep_setMode (st : State) (mode : Mode) (offset : Nat) (c : Char) :
    operandStep { st with mode := mode } offset c = operandStep st offset c := by
  unfold operandStep
  split <;> rfl

/-- The characters that go on with a factor, or end its term. -/
def factorEnds : List Char := [')', '|', '*', '+', '?']

theorem run_next (hmode : st.mode = .ofFactor last) (hc : c ∉ factorEnds) :
    run st offset (c :: rest) =
      run ⟨{ st.level with factors := last :: st.level.factors }, st.outer, .operand⟩ offset
        (c :: rest) := by
  simp only [factorEnds, List.mem_cons, List.not_mem_nil, or_false, not_or] at hc
  obtain ⟨hclose, hbar, hquantifier⟩ := hc
  have hstep : step st offset c =
      operandStep { st with level.factors := last :: st.level.factors } offset c := by
    rw [step_ofFactor hmode (by simp [quantifier?, hquantifier])]
    unfold factorStep
    split <;> simp_all
  rw [run, run, hstep, ← operandStep_setMode _ .operand]
  rfl

theorem exists_chars_primary {p : Primary} (h : p.Grammatical) :
    ∃ c rest, p.chars = c :: rest ∧ c ∉ factorEnds := by
  cases p with
  | literal c =>
    have hmeta : factorEnds ⊆ metacharacters := by decide
    exact ⟨c, [], rfl, fun hc => h (hmeta hc)⟩
  | escape c => exact ⟨'\\', _, rfl, by decide⟩
  | any => exact ⟨'.', _, rfl, by decide⟩
  | endOfLine => exact ⟨'$', _, rfl, by decide⟩
  | charClass cls =>
    obtain ⟨_ | _, parts⟩ := cls
    · exact ⟨'[', _, rfl, by decide⟩
    · exact ⟨'[', _, rfl, by decide⟩
  | group body => exact ⟨'(', _, rfl, by decide⟩

theorem exists_chars_factor {f : Factor} (h : f.Grammatical) :
    ∃ c rest, f.chars = c :: rest ∧ c ∉ factorEnds := by
  obtain ⟨p, quantifier⟩ := f
  obtain ⟨c, rest, hchars, hc⟩ := exists_chars_primary (p := p) h
  exact ⟨c, rest ++ _, by rw [Factor.chars, hchars, List.cons_append], hc⟩

theorem exists_chars_term {t : Term} (h : t.Grammatical) :
    ∃ c rest, t.chars = c :: rest ∧ c ∉ factorEnds := by
  cases t with
  | factor f => exact exists_chars_factor (f := f) h
  | seq f others =>
    obtain ⟨c, rest, hchars, hc⟩ := exists_chars_factor h.1
    exact ⟨c, rest ++ _, by rw [Term.chars, hchars, List.cons_append], hc⟩

/-! ## Derivations -/

-- By induction on the derivation, one case for each rule of the grammar. What the
-- level held before stays in front: a term goes on from its factors, an expression
-- from its terms.
mutual

theorem run_expr : ∀ {e : Expr}, e.Grammatical → ∀ (st : State) (offset : Nat),
    st.mode = .operand → st.level.factors = [] →
      ∃ level last, run st offset e.chars = .ok ⟨level, st.outer, .ofFactor last⟩ ∧
        level.expr last = st.level.terms.foldl (fun e t => .alt t e) e
  | .term t, h, st, offset, hmode, hfactors => by
    obtain ⟨level, last, hrun, hterms, hterm⟩ := run_term h st offset hmode
    refine ⟨level, last, hrun, ?_⟩
    rw [Level.expr, hterms, hterm, hfactors]
    rfl
  | .alt t rest, ⟨ht, hrest⟩, st, offset, hmode, hfactors => by
    obtain ⟨level, last, hrun, hterms, hterm⟩ := run_term ht st offset hmode
    have hbar : step ⟨level, st.outer, .ofFactor last⟩ (offset + t.chars.length) '|' =
        .ok ⟨⟨level.start, level.term last :: level.terms, []⟩, st.outer, .operand⟩ :=
      step_ofFactor rfl rfl
    obtain ⟨level', last', hrun', hexpr⟩ :=
      run_expr hrest ⟨⟨level.start, level.term last :: level.terms, []⟩, st.outer, .operand⟩
        (offset + t.chars.length + 1) rfl rfl
    refine ⟨level', last', ?_, ?_⟩
    · rw [Expr.chars, run_append hrun, run_cons hbar, hrun']
    · rw [hexpr, hterm, hterms, hfactors]
      rfl

theorem run_term : ∀ {t : Term}, t.Grammatical → ∀ (st : State) (offset : Nat),
    st.mode = .operand →
      ∃ level last, run st offset t.chars = .ok ⟨level, st.outer, .ofFactor last⟩ ∧
        level.terms = st.level.terms ∧
        level.term last = st.level.factors.foldl (fun t f => .seq f t) t
  | .factor f, h, st, offset, hmode =>
    ⟨st.level, f, run_factor h st offset hmode, rfl, rfl⟩
  | .seq f rest, ⟨hf, hrest⟩, st, offset, hmode => by
    obtain ⟨c, cs, hchars, hc⟩ := exists_chars_term hrest
    rw [Term.chars, run_append (run_factor hf st offset hmode), hchars, run_next rfl hc, ← hchars]
    exact run_term hrest ⟨_, _, _⟩ _ rfl

theorem run_factor : ∀ {f : Factor}, f.Grammatical → ∀ (st : State) (offset : Nat),
    st.mode = .operand → run st offset f.chars = .ok { st with mode := .ofFactor f }
  | .mk p none, h, st, offset, hmode => by
    rw [Factor.chars, Option.map_none, Option.toList_none, List.append_nil]
    exact run_primary h st offset hmode
  | .mk p (some q), h, st, offset, hmode => by
    rw [Factor.chars, run_append (run_primary h st offset hmode)]
    cases q <;> rfl

theorem run_primary : ∀ {p : Primary}, p.Grammatical → ∀ (st : State) (offset : Nat),
    st.mode = .operand → run st offset p.chars = .ok { st with mode := .primary p }
  | .literal c, h, st, offset, hmode => by
    simp only [Primary.Grammatical, metacharacters, List.mem_cons, List.not_mem_nil, or_false,
      not_or] at h
    simp [Primary.chars, run, step, hmode, operandStep, h]
  | .escape c, _, st, offset, hmode => by simp [Primary.chars, run, step, hmode, operandStep]
  | .any, _, st, offset, hmode => by simp [Primary.chars, run, step, hmode, operandStep]
  | .endOfLine, _, st, offset, hmode => by simp [Primary.chars, run, step, hmode, operandStep]
  | .charClass cls, ⟨hwritten, _, hexpand, hne⟩, st, offset, hmode =>
    run_class hmode hwritten hexpand hne
  | .group body, h, st, offset, hmode => by
    have hopen : step st offset '(' = .ok ⟨⟨offset, [], []⟩, st.level :: st.outer, .operand⟩ := by
      simp [step, hmode, operandStep]
    obtain ⟨level, last, hrun, hexpr⟩ :=
      run_expr h ⟨⟨offset, [], []⟩, st.level :: st.outer, .operand⟩ (offset + 1) rfl rfl
    have hclose : step ⟨level, st.level :: st.outer, .ofFactor last⟩
        (offset + 1 + body.chars.length) ')' =
          .ok ⟨st.level, st.outer, .primary (.group (level.expr last))⟩ :=
      step_ofFactor rfl rfl
    rw [Primary.chars, List.cons_append, run_cons hopen, run_append hrun, run_cons hclose, run, hexpr]
    rfl

end

end Reader

/-- A derivation of a pattern is what the reader makes of it. -/
theorem Expr.parse_of_derives {pattern : String} {e : Expr} (h : e.Derives pattern.toList) :
    Expr.parse pattern = .ok e := by
  obtain ⟨level, last, hrun, hexpr⟩ := Reader.run_expr h.grammatical .initial 0 rfl rfl
  have hread : Reader.read e.chars = .ok e := by
    rw [Reader.read, hrun]
    change Reader.finish _ _ = _
    rw [Reader.finish_ofFactor rfl, Reader.close]
    exact congrArg Except.ok hexpr
  rw [Expr.parse, ← h.chars_eq, hread]

theorem Expr.parse_eq_ok_iff {pattern : String} {e : Expr} :
    Expr.parse pattern = .ok e ↔ e.Derives pattern.toList :=
  ⟨Expr.derives_of_parse, Expr.parse_of_derives⟩

/-- A text has one derivation. -/
theorem Expr.Derives.unique {e e' : Expr} {text : List Char} (h : e.Derives text)
    (h' : e'.Derives text) : e = e' := by
  rw [← String.toList_ofList (l := text)] at h h'
  have hparse := Expr.parse_of_derives h
  rw [Expr.parse_of_derives h'] at hparse
  exact (Except.ok.inj hparse).symm

/-- **A pattern is read exactly where the grammar derives it**, all of it. It
then has one derivation, and its tokens are the stream of that derivation. -/
theorem tokenize_eq_ok_iff (pattern : String) :
    (∀ tokens, tokenize pattern = .ok tokens ↔
      ∃ e : Expr, e.Derives pattern.toList ∧ tokens = e.stream) ∧
    ∀ e e' : Expr, e.Derives pattern.toList → e'.Derives pattern.toList → e = e' := by
  refine ⟨fun tokens => ?_, fun e e' h h' => h.unique h'⟩
  rw [tokenize_eq_ok_iff_parse]
  refine exists_congr fun e => ?_
  rw [Expr.parse_eq_ok_iff]
  refine and_congr_right fun hderives => ?_
  rw [Expr.tokens_eq_stream hderives.grammatical]

/-- Of three opening parentheses only the last opens a group. -/
theorem tokenize_eq_ok_iff_third_opens : ∃ e : Expr,
    e.Derives "\\([(](b)".toList ∧
    tokenize "\\([(](b)" = .ok [.literal (.char '('), .literal (.char '('), .literal (.char 'b'),
      .capture 0, .concat, .concat] ∧
    ∀ e' : Expr, e'.Derives "\\([(](b)".toList → e = e' := by
  have hwritten : CharClass.Written ⟨false, [.plain '(']⟩ :=
    ⟨by simp [CharClass.metacharacters], by simp⟩
  have hliteral : 'b' ∉ metacharacters := by decide
  have hderives : Expr.Derives
      (.term (.seq (.mk (.escape '(') none) (.seq (.mk (.charClass ⟨false, [.plain '(']⟩) none)
        (.factor (.mk (.group (.term (.factor (.mk (.literal 'b') none)))) none)))))
      "\\([(](b)".toList :=
    ⟨⟨trivial, ⟨hwritten, _, rfl, by simp⟩, hliteral⟩, rfl⟩
  have h := tokenize_eq_ok_iff "\\([(](b)"
  exact ⟨_, hderives, (h.1 _).2 ⟨_, hderives, by decide +kernel⟩, fun e' h' => h.2 _ e' hderives h'⟩

end LinePattern
