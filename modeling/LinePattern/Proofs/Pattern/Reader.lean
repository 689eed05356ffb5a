/-
What a reader has read.

The pieces that a reader holds are what the grammar allows, and are written
with the characters read so far (`State.Spells`). Every character keeps this
(`spells_step`), so the expression that a reader ends with is a derivation of
the pattern (`Expr.derives_of_parse`).
-/
import LinePattern.Pattern.Reader
import LinePattern.Proofs.Pattern.Grammar

namespace LinePattern

namespace Reader

variable {st next : State} {c : Char} {offset start : Nat} {negated : Bool}
  {parts : List ClassPart} {cs text : List Char} {level : Level} {last : Factor} {mode : Mode}

/-! ## The text of a state -/

/-- The terms and factors read at one level are what the grammar allows. -/
structure Level.Grammatical (level : Level) : Prop where
  terms : ∀ t ∈ level.terms, t.Grammatical
  factors : ∀ f ∈ level.factors, f.Grammatical

def Mode.Grammatical : Mode → Prop
  | .primary p => p.Grammatical
  | .quantified f => f.Grammatical
  | .classBody _ negated parts =>
    CharClass.Written ⟨negated, parts.reverse⟩ ∧ (negated = false → parts ≠ [])
  | .classEscape _ negated parts => CharClass.Written ⟨negated, parts.reverse⟩
  | .operand | .escape _ | .classOpen _ => True

/-- All that was read so far is what the grammar allows. -/
structure State.Grammatical (st : State) : Prop where
  level : st.level.Grammatical
  outer : ∀ level ∈ st.outer, level.Grammatical
  mode : st.mode.Grammatical

/-- The characters of the terms and factors before the newest factor. -/
def Level.chars (level : Level) : List Char :=
  (level.terms.reverse.flatMap fun t => t.chars ++ ['|']) ++
    level.factors.reverse.flatMap Factor.chars

/-- The characters of a class up to some place in its body. -/
def classChars (negated : Bool) (parts : List ClassPart) : List Char :=
  CharClass.opening negated ++ parts.reverse.flatMap ClassPart.chars

def Mode.chars : Mode → List Char
  | .operand => []
  | .primary p => p.chars
  | .quantified f => f.chars
  | .escape _ => ['\\']
  | .classOpen _ => ['[']
  | .classBody _ negated parts => classChars negated parts
  | .classEscape _ negated parts => classChars negated parts ++ ['\\']

/-- The characters before what was read last. -/
def State.before (st : State) : List Char :=
  (st.outer.reverse.flatMap fun level => level.chars ++ ['(']) ++ st.level.chars

def State.chars (st : State) : List Char := st.before ++ st.mode.chars

/-- The reader has read the text. -/
structure State.Spells (st : State) (text : List Char) : Prop extends st.Grammatical where
  chars_eq : st.chars = text

theorem spells_initial : State.initial.Spells [] where
  level := ⟨by simp [State.initial], by simp [State.initial]⟩
  outer := by simp [State.initial]
  mode := trivial
  chars_eq := rfl

theorem State.Grammatical.setMode (h : st.Grammatical) (hmode : mode.Grammatical)
    (hchars : st.before ++ mode.chars = text) : State.Spells { st with mode := mode } text :=
  ⟨⟨h.level, h.outer, hmode⟩, hchars⟩

/-! ## What a level becomes -/

theorem Level.Grammatical.term (h : level.Grammatical) (hlast : last.Grammatical) :
    (level.term last).Grammatical :=
  List.foldlRecOn level.factors _ hlast fun _ ht f hf => ⟨h.factors f hf, ht⟩

theorem Level.Grammatical.expr (h : level.Grammatical) (hlast : last.Grammatical) :
    (level.expr last).Grammatical :=
  List.foldlRecOn level.terms _ (h.term hlast) fun _ he t ht => ⟨h.terms t ht, he⟩

theorem Level.chars_term (level : Level) (last : Factor) :
    (level.term last).chars = level.factors.reverse.flatMap Factor.chars ++ last.chars := by
  have hfold : ∀ (factors : List Factor) (t : Term),
      (factors.foldl (fun t f => .seq f t) t).chars =
        factors.reverse.flatMap Factor.chars ++ t.chars := by
    intro factors
    induction factors with
    | nil => simp
    | cons f factors ih => simp [ih, Term.chars]
  exact hfold level.factors _

/-- The expression at a level is written with all that was read there. -/
theorem Level.chars_expr (level : Level) (last : Factor) :
    (level.expr last).chars = level.chars ++ last.chars := by
  have hfold : ∀ (terms : List Term) (e : Expr),
      (terms.foldl (fun e t => .alt t e) e).chars =
        (terms.reverse.flatMap fun t => t.chars ++ ['|']) ++ e.chars := by
    intro terms
    induction terms with
    | nil => simp
    | cons t terms ih => simp [ih, Expr.chars]
  rw [Level.expr, hfold, Expr.chars, level.chars_term, Level.chars, List.append_assoc]

/-! ## One character -/

theorem spells_operandStep (h : st.Grammatical) (hstep : operandStep st offset c = .ok next) :
    next.Spells (st.before ++ [c]) := by
  unfold operandStep at hstep
  split at hstep <;> cases hstep
  · refine ⟨⟨⟨by simp, by simp⟩, ?_, trivial⟩, ?_⟩
    · exact List.forall_mem_cons.2 ⟨h.level, h.outer⟩
    · simp [State.chars, State.before, Level.chars, Mode.chars]
  · exact h.setMode trivial rfl
  · exact h.setMode trivial rfl
  · exact h.setMode trivial rfl
  · exact h.setMode trivial rfl
  · refine h.setMode ?_ rfl
    simp_all [Mode.Grammatical, Primary.Grammatical, metacharacters]

theorem spells_factorStep (h : st.Grammatical) (hlast : last.Grammatical)
    (hstep : factorStep st last offset c = .ok next) :
    next.Spells (st.before ++ last.chars ++ [c]) := by
  unfold factorStep at hstep
  split at hstep
  · cases hstep
    refine ⟨⟨⟨?_, by simp⟩, h.outer, trivial⟩, ?_⟩
    · exact List.forall_mem_cons.2 ⟨h.level.term hlast, h.level.terms⟩
    · simp [State.chars, State.before, Level.chars, Mode.chars, Level.chars_term]
  · split at hstep
    · cases hstep
    · next level outer houter =>
      cases hstep
      have hgroups : ∀ l ∈ level :: outer, l.Grammatical := houter ▸ h.outer
      rw [List.forall_mem_cons] at hgroups
      refine ⟨⟨hgroups.1, hgroups.2, h.level.expr hlast⟩, ?_⟩
      simp [State.chars, State.before, Mode.chars, Primary.chars, Level.chars_expr, houter]
  · have hfactors : ∀ f ∈ last :: st.level.factors, f.Grammatical :=
      List.forall_mem_cons.2 ⟨hlast, h.level.factors⟩
    have hst : State.Grammatical { st with level.factors := last :: st.level.factors } :=
      ⟨⟨h.level.terms, hfactors⟩, h.outer, h.mode⟩
    have hnext := spells_operandStep hst hstep
    simpa [State.before, Level.chars] using hnext

theorem spells_closeClass (h : st.Grammatical) (hwritten : CharClass.Written ⟨negated, parts.reverse⟩)
    (hstep : closeClass st start negated parts = .ok next) :
    next.Spells (st.before ++ classChars negated parts ++ [']']) := by
  unfold closeClass at hstep
  dsimp only at hstep
  split at hstep
  · cases hstep
  · cases hstep
  · next first rest hexpand =>
    cases hstep
    refine h.setMode ⟨hwritten, _, hexpand, List.cons_ne_nil first rest⟩ ?_
    simp [Mode.chars, Primary.chars, CharClass.chars, classChars]

/-- A part at the end of a body. A caret may not come first. -/
theorem written_cons {part : ClassPart} (h : CharClass.Written ⟨negated, parts.reverse⟩)
    (hplain : ∀ c, part = .plain c → c ∉ CharClass.metacharacters)
    (hhead : negated = false → parts = [] → part ≠ .plain '^') :
    CharClass.Written ⟨negated, (part :: parts).reverse⟩ := by
  refine ⟨fun c hc => ?_, fun hnegated => ?_⟩
  · rw [List.mem_reverse, List.mem_cons] at hc
    rcases hc with hc | hc
    · exact hplain c hc.symm
    · exact h.plain c (List.mem_reverse.2 hc)
  · by_cases hparts : parts = []
    · simpa [hparts] using hhead hnegated hparts
    · obtain ⟨first, rest, hfirst⟩ :=
        List.exists_cons_of_ne_nil (mt List.reverse_eq_nil_iff.1 hparts)
      have hcaret := h.head hnegated
      rw [hfirst] at hcaret
      simpa [hfirst] using hcaret

theorem spells_classStep (h : st.Grammatical) (hwritten : CharClass.Written ⟨negated, parts.reverse⟩)
    (hcaret : negated = false → parts = [] → c ≠ '^')
    (hstep : classStep st start negated parts c = .ok next) :
    next.Spells (st.before ++ classChars negated parts ++ [c]) := by
  unfold classStep at hstep
  split at hstep
  · exact spells_closeClass h hwritten hstep
  · cases hstep
    exact h.setMode hwritten (by simp [Mode.chars])
  · cases hstep
    refine h.setMode ⟨written_cons hwritten (by simp) (by simp), by simp⟩ ?_
    simp [Mode.chars, classChars, ClassPart.chars]
  · cases hstep
    refine h.setMode ⟨written_cons hwritten ?_ ?_, by simp⟩ ?_
    · simp_all [CharClass.metacharacters]
    · simpa using hcaret
    · simp [Mode.chars, classChars, ClassPart.chars]

theorem char_of_quantifier? {q : Quantifier} (h : quantifier? c = some q) : q.char = c := by
  unfold quantifier? at h
  split at h <;> cases h <;> rfl

theorem spells_step (h : st.Grammatical) (hstep : step st offset c = .ok next) :
    next.Spells (st.chars ++ [c]) := by
  have hmode := h.mode
  rw [State.chars]
  unfold step at hstep
  split at hstep
  · next hoperand => simpa [hoperand, Mode.chars] using spells_operandStep h hstep
  · next p hp =>
    rw [hp] at hmode ⊢
    split at hstep
    · next q hq =>
      cases hstep
      have hchar : q.char = c := char_of_quantifier? hq
      refine h.setMode hmode ?_
      simp [Mode.chars, Factor.chars, hchar]
    · have hlast : (Factor.mk p none).Grammatical := hmode
      simpa [Mode.chars, Factor.chars] using spells_factorStep h hlast hstep
  · next f hf =>
    rw [hf] at hmode ⊢
    exact spells_factorStep h hmode hstep
  · next hescape =>
    cases hstep
    rw [hescape]
    exact h.setMode trivial (by simp [Mode.chars, Primary.chars])
  · next start hopen =>
    rw [hopen]
    split at hstep
    · next hcaret =>
      cases hstep
      refine h.setMode ⟨⟨by simp, by simp⟩, by simp⟩ ?_
      simp [Mode.chars, classChars, CharClass.opening, hcaret]
    · next hcaret => exact spells_classStep h ⟨by simp, by simp⟩ (fun _ _ => hcaret) hstep
  · next start negated parts hbody =>
    rw [hbody] at hmode ⊢
    obtain ⟨hwritten, hparts⟩ := hmode
    exact spells_classStep h hwritten (fun hnegated hnil => absurd hnil (hparts hnegated)) hstep
  · next start negated parts hescape =>
    rw [hescape] at hmode ⊢
    cases hstep
    refine h.setMode ⟨written_cons hmode (by simp) (by simp), by simp⟩ ?_
    simp [Mode.chars, classChars, ClassPart.chars]

/-! ## A whole pattern -/

theorem spells_run (h : st.Grammatical) (hrun : run st offset cs = .ok next) :
    next.Spells (st.chars ++ cs) := by
  induction cs generalizing st offset with
  | nil =>
    cases hrun
    exact ⟨h, (List.append_nil _).symm⟩
  | cons c rest ih =>
    unfold run at hrun
    split at hrun
    · next middle hstep =>
      have hmiddle := spells_step h hstep
      simpa [hmiddle.chars_eq] using ih hmiddle.toGrammatical hrun
    · cases hrun

theorem derives_of_close {e : Expr} (h : st.Grammatical) (hlast : last.Grammatical)
    (hclose : close st last = .ok e) : e.Derives (st.before ++ last.chars) := by
  unfold close at hclose
  split at hclose
  · next houter =>
    cases hclose
    exact ⟨h.level.expr hlast, by simp [Level.chars_expr, State.before, houter]⟩
  · cases hclose

theorem derives_of_finish {length : Nat} {e : Expr} (h : st.Grammatical)
    (hfinish : finish st length = .ok e) : e.Derives st.chars := by
  have hmode := h.mode
  rw [State.chars]
  unfold finish at hfinish
  split at hfinish
  · cases hfinish
  · next p hp =>
    rw [hp] at hmode ⊢
    have hlast : (Factor.mk p none).Grammatical := hmode
    simpa [Mode.chars, Factor.chars] using derives_of_close h hlast hfinish
  · next f hf =>
    rw [hf] at hmode ⊢
    exact derives_of_close h hmode hfinish
  · cases hfinish
  · cases hfinish
  · cases hfinish
  · cases hfinish

end Reader

/-- What the reader makes of a pattern is a derivation of it. -/
theorem Expr.derives_of_parse {pattern : String} {e : Expr} (h : Expr.parse pattern = .ok e) :
    e.Derives pattern.toList := by
  unfold Expr.parse Reader.read at h
  split at h
  · next e' hread =>
    cases h
    split at hread
    · next st hrun =>
      have hst := Reader.spells_run Reader.spells_initial.toGrammatical hrun
      have hderives := Reader.derives_of_finish hst.toGrammatical hread
      rw [hst.chars_eq] at hderives
      exact hderives
    · cases hread
  · cases h

/-- The tokens of a pattern are those of what the reader makes of it. -/
theorem tokenize_eq_ok_iff_parse {pattern : String} {tokens : List Token} :
    tokenize pattern = .ok tokens ↔ ∃ e, Expr.parse pattern = .ok e ∧ tokens = e.tokens := by
  unfold tokenize
  cases Expr.parse pattern with
  | ok e => simp [Except.map, eq_comm]
  | error fault => simp [Except.map]

theorem Expr.valid_of_parse {pattern : String} {e : Expr} (h : Expr.parse pattern = .ok e) :
    e.Valid :=
  (Expr.derives_of_parse h).grammatical.valid

end LinePattern
