/-
A dollar behind a dollar.

Behind the last character of a text there is one mark for its end, and a dollar takes
it. A pattern with a dollar behind it therefore matches only texts that the pattern
stands for without the mark (`mem_language_of_isMatch_anchored`). What has a dollar at
its end already stands for no such text, so with a second one it matches nothing
(`isMatch_anchored_twice`).
-/
import LinePattern.Proofs.Matcher.WholeText

namespace LinePattern

variable {options : Options} {pattern : String} {e : Expr}

theorem Expr.endOfText_mem_anchored {mode : NegationMode} {u : List Glyph}
    (h : u ∈ e.anchored.language mode) : .endOfText ∈ u := by
  obtain ⟨before, -, mark, rfl, rfl⟩ := Language.mem_mul.1 h
  exact List.mem_append_right before (List.mem_singleton_self _)

namespace CompiledPattern

variable {whole : CompiledPattern} {text : String}

/-- The dollar takes the mark, so the pattern has to do without. -/
theorem mem_language_of_isMatch_anchored (hparse : Expr.parse pattern = .ok e)
    (hwhole : compile options (anchored pattern) = .ok whole)
    (hmatch : whole.isMatch text = true) : text.toList.map .char ∈ e.language options.negation := by
  obtain ⟨nfa, hnfa, -, hread⟩ := exists_patternNfa options hparse
  obtain ⟨grouped, stop, hfragment, hgroups, hanchored⟩ := exists_patternNfa_anchored hparse hnfa
  have haccepts : nfa.AcceptsWhole text.toList := by
    rw [isMatch_iff hanchored hwhole, hfragment.scanAccepts_concat_endOfLine,
      ← Nfa.acceptsWhole_withoutGroups, hgroups, Nfa.acceptsWhole_withoutGroups] at hmatch
    exact hmatch
  obtain ⟨w, hw, hcourse⟩ := haccepts
  rw [← hread]
  exact ⟨w, hw, hcourse.reads⟩

/-- **With a second dollar a pattern matches nothing.** Let a pattern be readable, with or
without dollars of its own, and put it in parentheses with a dollar behind, once and
once again. Under any options both compile unless there is a limit. With two dollars no
text matches, so the two agree on just those texts that do not match with one; and with
one dollar only texts match that the pattern stands for without the mark for their end. -/
theorem isMatch_anchored_twice (hparse : Expr.parse pattern = .ok e) :
    (options.maxStates = none →
      (∃ once, compile options (anchored pattern) = .ok once) ∧
        ∃ twice, compile options (anchored (anchored pattern)) = .ok twice) ∧
    ∀ once twice, compile options (anchored pattern) = .ok once →
      compile options (anchored (anchored pattern)) = .ok twice → ∀ text : String,
      twice.isMatch text = false ∧
        (twice.isMatch text = once.isMatch text ↔ once.isMatch text = false) ∧
        (once.isMatch text = true → text.toList.map .char ∈ e.language options.negation) := by
  have hparse_once := Expr.parse_anchored hparse
  refine ⟨fun hlimit => ⟨exists_compile hparse_once hlimit,
    exists_compile (Expr.parse_anchored hparse_once) hlimit⟩,
    fun once twice honce htwice text => ?_⟩
  have hnever : twice.isMatch text = false := by
    by_contra hmatch
    have hmem := mem_language_of_isMatch_anchored hparse_once htwice (Bool.of_not_eq_false hmatch)
    have hmark : Glyph.endOfText ∈ text.toList.map Glyph.char := Expr.endOfText_mem_anchored hmem
    simp at hmark
  refine ⟨hnever, ?_, mem_language_of_isMatch_anchored hparse honce⟩
  rw [hnever, eq_comm]

/-- The second alternative has a dollar of its own, the first has none. -/
theorem isMatch_anchored_twice_alternatives : ∃ once twice,
    compile {} "(a*|b$)$" = .ok once ∧ compile {} "((a*|b$)$)$" = .ok twice ∧
    once.isMatch "aa" = true ∧ twice.isMatch "aa" = false ∧ twice.isMatch "b" = false := by
  have hparse : Expr.parse "a*|b$" = .ok (.alt (.factor (.mk (.literal 'a') (some .star)))
      (.term (.seq (.mk (.literal 'b') none) (.factor (.mk .endOfLine none))))) := by
    decide +kernel
  have honce : ((compile {} "(a*|b$)$").toOption.any fun once => once.isMatch "aa") = true := by
    decide +kernel
  obtain ⟨once, honce, hmatch⟩ := exists_ok_of_any honce
  obtain ⟨hcompile, hnever⟩ := @isMatch_anchored_twice {} _ _ hparse
  obtain ⟨-, twice, htwice⟩ := hcompile rfl
  have hnever := hnever once twice honce htwice
  exact ⟨once, twice, honce, htwice, hmatch, (hnever "aa").1, (hnever "b").1⟩

/-- The second dollar changes what matches. -/
theorem isMatch_anchored_not_idempotent : ¬ ∀ (options : Options) (pattern : String) (e : Expr)
    (once twice : CompiledPattern), Expr.parse pattern = .ok e →
      compile options (anchored pattern) = .ok once →
      compile options (anchored (anchored pattern)) = .ok twice → ∀ text : String,
        (once.isMatch text = true ↔ twice.isMatch text = true) := by
  intro hidempotent
  have hparse : Expr.parse "a" = .ok (.term (.factor (.mk (.literal 'a') none))) := by
    decide +kernel
  have honce : ((compile {} "(a)$").toOption.any fun once => once.isMatch "a") = true := by
    decide +kernel
  have htwice : ((compile {} "((a)$)$").toOption.any fun twice => !twice.isMatch "a") = true := by
    decide +kernel
  obtain ⟨once, honce, hmatch⟩ := exists_ok_of_any honce
  obtain ⟨twice, htwice, hnever⟩ := exists_ok_of_any htwice
  have hboth := (hidempotent {} "a" _ once twice hparse honce htwice "a").1 hmatch
  rw [hboth] at hnever
  cases hnever

end CompiledPattern

end LinePattern
