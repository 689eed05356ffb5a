/-
Lines are told apart by their forms.

The patterns of lines begin alike, and one scan follows them all. It loses no line: from
each form there is a run through the stages that ends in its kind (`exists_run`). With
`describes_of_payload`, a line is reported to be of a kind exactly when it has the form
(`lineSet_classifies`), so the forms exclude each other.

In a headline the stars are captured. In a keyword its name is, and behind the blanks what
is left of the line, when there is something left.
-/
import LinePattern.Proofs.Outline.LineForms
import LinePattern.Proofs.Outline.LineStages

namespace LinePattern.Outline

/-! ## Slots -/

theorem foldl_creditTo_last (slots : Slots) (slot u : List Char) :
    u.foldl (fun slots' c => slots'.creditTo (some slots.length) c) (slots ++ [slot]) =
      slots ++ [u.reverse ++ slot] := by
  induction u generalizing slot with
  | nil => rfl
  | cons c u ih =>
    have hcredit : (slots ++ [slot]).creditTo (some slots.length) c = slots ++ [c :: slot] :=
      Slots.credit_last slots slot c
    rw [List.foldl_cons, hcredit, ih, List.reverse_cons, List.append_assoc]
    rfl

namespace Stage

variable {stage next : Stage} {move : Move} {kind : LineKind} {slots : Slots} {group : Option Nat}
  {u rest : List Char} {c : Char}

/-! ## Moves -/

theorem run_cons (h : stage.follow? c = some move) : stage.run none slots (c :: rest) =
    move.stage.run move.stage.kind? (slots.creditTo move.group c) rest := by
  simp [run, h]

theorem follow?_of_isBlank {more : List Move} (hmoves : stage.moves = onBlanks next ++ more)
    (hc : Outline.isBlank c = true) : stage.follow? c = some ⟨.char c, next, none⟩ := by
  rw [Outline.isBlank, Bool.or_eq_true, beq_iff_eq, beq_iff_eq] at hc
  rw [follow?, hmoves]
  rcases hc with rfl | rfl <;> rfl

/-! ## Loops -/

/-- Characters that lead back to the stage. -/
theorem run_loop (hkind : stage.kind? = none)
    (hloop : ∀ c ∈ u, ∃ symbol, stage.follow? c = some ⟨symbol, stage, group⟩) :
    stage.run none slots (u ++ rest) =
      stage.run none (u.foldl (fun slots' c => slots'.creditTo group c) slots) rest := by
  induction u generalizing slots with
  | nil => rfl
  | cons c u ih =>
    obtain ⟨⟨symbol, hc⟩, hu⟩ := List.forall_mem_cons.1 hloop
    rw [List.cons_append, run_cons hc, hkind, ih hu, List.foldl_cons]

/-- Characters that fill the next slot. -/
theorem run_group (hkind : next.kind? = none)
    (hc : ∃ symbol, stage.follow? c = some ⟨symbol, next, some slots.length⟩)
    (hloop : ∀ c ∈ u, ∃ symbol, next.follow? c = some ⟨symbol, next, some slots.length⟩) :
    stage.run none slots (c :: u ++ rest) = next.run none (slots ++ [(c :: u).reverse]) rest := by
  obtain ⟨symbol, hc⟩ := hc
  have hcredit : slots.creditTo (some slots.length) c = slots ++ [[c]] :=
    Slots.credit_length slots c
  rw [List.cons_append, run_cons hc, hkind, hcredit, run_loop hkind hloop, foldl_creditTo_last,
    List.reverse_cons]

theorem run_blanks (hne : u ≠ []) (hu : ∀ c ∈ u, Outline.isBlank c = true) :
    start.run none slots (u ++ rest) = indent.run none slots rest := by
  obtain ⟨c, u, rfl⟩ := List.exists_cons_of_ne_nil hne
  obtain ⟨hc, hu⟩ := List.forall_mem_cons.1 hu
  have hloop : ∀ c ∈ u, ∃ symbol, indent.follow? c = some ⟨symbol, indent, none⟩ :=
    fun c hc => ⟨_, follow?_of_isBlank rfl (hu c hc)⟩
  have hslots : u.foldl (fun slots' c => slots'.creditTo none c) slots = slots := List.foldl_fixed ..
  rw [List.cons_append, run_cons (follow?_of_isBlank rfl hc)]
  exact (run_loop rfl hloop).trans (congrArg (indent.run none · rest) hslots)

/-- Behind blanks the line goes on as at its start. -/
theorem run_indent (hu : ∀ c ∈ u, Outline.isBlank c = true)
    (hstart : start.follow? c = some move) (hindent : indent.follow? c = some move) :
    start.run none slots (u ++ c :: rest) =
      move.stage.run move.stage.kind? (slots.creditTo move.group c) rest := by
  by_cases hne : u = []
  · rw [hne, List.nil_append, run_cons hstart]
  · rw [run_blanks hne hu, run_cons hindent]

/-! ## Behind the first place that accepts -/

theorem kind?_of_mem_moves (hkind : stage.kind? = some kind) (hmove : move ∈ stage.moves) :
    move.stage.kind? = some kind := by
  have hmoves : ∀ move ∈ stage.moves, stage.kind?.isSome → move.stage.kind? = stage.kind? := by
    cases stage <;> decide
  rw [hmoves move hmove (by rw [hkind]; rfl), hkind]

/-- What follows does not change the kind. -/
theorem exists_run_of_kind? (hkind : stage.kind? = some kind) (slots : Slots) (rest : List Char) :
    ∃ slots', stage.run (some kind) slots rest = some (slots', kind) := by
  induction rest generalizing stage slots with
  | nil =>
    refine ⟨slots, ?_⟩
    cases hend : stage.end? with
    | none => rw [run, hend]; rfl
    | some kind' =>
      obtain ⟨move, hmove, hkind'⟩ := Option.bind_eq_some_iff.1 hend
      rw [kind?_of_mem_moves hkind (List.mem_of_find?_eq_some hmove)] at hkind'
      rw [run, hend, ← hkind']
      rfl
  | cons c rest ih =>
    unfold run
    cases hmove : stage.follow? c with
    | none => exact ⟨slots, rfl⟩
    | some move =>
      have hnext := kind?_of_mem_moves hkind (List.mem_of_find?_eq_some hmove)
      simp only [hnext]
      split
      · exact ⟨slots, rfl⟩
      · exact ih hnext _

/-- Behind the blank of a headline nothing is credited. -/
theorem run_headline (rest : List Char) :
    headline.run (some .headline) slots rest = some (slots, .headline) := by
  cases rest with
  | nil => rfl
  | cons c rest =>
    have hgroup : ∀ move ∈ headline.moves, move.group = none := by decide
    unfold run
    cases hmove : headline.follow? c with
    | none => rfl
    | some move => simp [hgroup move (List.mem_of_find?_eq_some hmove)]

/-! ## Runs from the forms -/

/-- Behind the colon the value is credited, from the first character that is no blank. -/
theorem run_colon (slot behind : List Char) : colon.run none [slot] behind =
    some ([slot] ++ (keywordValue behind).map List.reverse, .keyword) := by
  induction behind with
  | nil => rfl
  | cons c rest ih =>
    by_cases hc : Outline.isBlank c = true
    · have hvalue : keywordValue (c :: rest) = keywordValue rest := by
        rw [keywordValue, List.dropWhile_cons_of_pos hc, keywordValue]
      rw [run_cons (follow?_of_isBlank rfl hc), hvalue]
      exact ih
    · have hvalue : keywordValue (c :: rest) = [c :: rest] := by
        rw [keywordValue, List.dropWhile_cons_of_neg hc]
      have hfollow : colon.follow? c = some ⟨.any, value, some 1⟩ := by
        rw [Outline.isBlank, Bool.or_eq_true, beq_iff_eq, beq_iff_eq, not_or] at hc
        simp [follow?, moves, onBlanks, Symbol.accepts, Ne.symm hc.1, Ne.symm hc.2]
      have hrun : colon.run none [slot] (c :: rest ++ []) =
          value.run none ([slot] ++ [(c :: rest).reverse]) [] :=
        run_group rfl ⟨_, hfollow⟩ fun _ _ => ⟨.any, rfl⟩
      rw [List.append_nil] at hrun
      rw [hrun, hvalue]
      rfl

section

variable {line stars indent key label behind : List Char} {blank bullet : Char}

theorem run_of_isHeadline (h : IsHeadline line stars blank rest) :
    start.run none [] line = some ([stars.reverse], .headline) := by
  obtain ⟨rfl, hne, hstars, hblank⟩ := h
  obtain ⟨c, stars, rfl⟩ := List.exists_cons_of_ne_nil hne
  obtain ⟨rfl, hmore⟩ := List.forall_mem_cons.1 hstars
  have hloop : ∀ c ∈ stars, ∃ symbol, Stage.stars.follow? c = some ⟨symbol, .stars, some 0⟩ := by
    intro c hc
    rw [hmore c hc]
    exact ⟨_, rfl⟩
  have hrun : start.run none [] ('*' :: stars ++ blank :: rest) =
      Stage.stars.run none ([] ++ [('*' :: stars).reverse]) (blank :: rest) :=
    run_group rfl ⟨_, rfl⟩ hloop
  rw [hrun, run_cons (follow?_of_isBlank rfl hblank)]
  exact run_headline rest

/-- A word is credited to the first group, up to what closes it. -/
theorem run_word {closing : Char} {behind : Stage} (hne : u ≠ [])
    (hu : ∀ c ∈ u, isWord c = true) (hstage : stage.moves = [⟨.word, next, some 0⟩])
    (hnext : next.moves = [⟨.char closing, behind, none⟩, ⟨.word, next, some 0⟩])
    (hclosing : isWord closing = false) (hkind : next.kind? = none) :
    stage.run none [] (u ++ closing :: rest) = behind.run behind.kind? [u.reverse] rest := by
  obtain ⟨c, u, rfl⟩ := List.exists_cons_of_ne_nil hne
  have henter : ∀ c, isWord c = true → stage.follow? c = some ⟨.word, next, some 0⟩ := by
    intro c hc
    simp [follow?, hstage, Symbol.accepts, hc]
  have hloop : ∀ c, isWord c = true → next.follow? c = some ⟨.word, next, some 0⟩ := by
    intro c hc
    have hne : closing ≠ c := by
      rintro rfl
      rw [hclosing] at hc
      cases hc
    simp [follow?, hnext, Symbol.accepts, hc, hne]
  have hclose : next.follow? closing = some ⟨.char closing, behind, none⟩ := by
    simp [follow?, hnext, Symbol.accepts]
  have hrun : stage.run none [] (c :: u ++ closing :: rest) =
      next.run none ([] ++ [(c :: u).reverse]) (closing :: rest) :=
    run_group hkind ⟨_, henter c (hu c List.mem_cons_self)⟩
      fun c hc => ⟨_, hloop c (hu c (List.mem_cons_of_mem _ hc))⟩
  rw [hrun, run_cons hclose]
  rfl

theorem run_of_isKeyword (h : IsKeyword line indent key behind) : start.run none [] line =
    some ((key :: keywordValue behind).map List.reverse, .keyword) := by
  obtain ⟨rfl, hindent, hne, hkey⟩ := h
  have hnext : Stage.key.moves = [⟨.char ':', colon, none⟩, ⟨.word, .key, some 0⟩] := rfl
  have hcolon : isWord ':' = false := by decide
  rw [run_indent hindent rfl rfl]
  exact (run_word hne hkey rfl hnext hcolon rfl).trans (run_colon key.reverse behind)

theorem exists_run_of_isListItem (h : IsListItem line indent bullet blank rest) :
    ∃ slots, start.run none [] line = some (slots, .listItem) := by
  obtain ⟨rfl, hindent, hbullet, hblank⟩ := h
  obtain ⟨symbol, hstart, hmove⟩ : ∃ symbol,
      start.follow? bullet = some ⟨symbol, .bullet, none⟩ ∧
        Stage.indent.follow? bullet = some ⟨symbol, .bullet, none⟩ := by
    rcases hbullet with rfl | rfl <;> exact ⟨_, rfl, rfl⟩
  have hitem : Stage.bullet.follow? blank = some ⟨.char blank, item, none⟩ :=
    follow?_of_isBlank (List.append_nil (onBlanks item)).symm hblank
  obtain ⟨slots, hrun⟩ := exists_run_of_kind? (rfl : item.kind? = some .listItem) [] rest
  refine ⟨slots, ?_⟩
  rw [run_indent hindent hstart hmove]
  exact (run_cons hitem).trans hrun

theorem exists_run_of_isFootnote (h : IsFootnote line label blank rest) :
    ∃ slots, start.run none [] line = some (slots, .footnote) := by
  obtain ⟨rfl, hne, hlabel, hblank⟩ := h
  have hnext : Stage.label.moves = [⟨.char ']', closed, none⟩, ⟨.word, .label, some 0⟩] := rfl
  have hbracket : isWord ']' = false := by decide
  have hfootnote : closed.follow? blank = some ⟨.char blank, footnote, none⟩ :=
    follow?_of_isBlank (List.append_nil (onBlanks footnote)).symm hblank
  obtain ⟨slots, hrun⟩ :=
    exists_run_of_kind? (rfl : footnote.kind? = some .footnote) [label.reverse] rest
  have hword : note.run none [] (label ++ ']' :: blank :: rest) =
      closed.run closed.kind? [label.reverse] (blank :: rest) :=
    run_word hne hlabel rfl hnext hbracket rfl
  exact ⟨slots, hword.trans ((run_cons hfootnote).trans hrun)⟩

theorem run_of_isBlank (h : ∀ c ∈ line, Outline.isBlank c = true) :
    start.run none [] line = some ([], .blank) := by
  by_cases hne : line = []
  · rw [hne]
    rfl
  · have hrun : start.run none [] (line ++ []) = indent.run none [] [] := run_blanks hne h
    rw [List.append_nil] at hrun
    rw [hrun]
    rfl

/-- **The scan does not lose a line.** -/
theorem exists_run (h : kind.Describes line) :
    ∃ slots, start.run none [] line = some (slots, kind) := by
  cases kind with
  | headline =>
    obtain ⟨stars, blank, rest, hheadline⟩ := h
    exact ⟨_, run_of_isHeadline hheadline⟩
  | keyword =>
    obtain ⟨indent, key, behind, hkeyword⟩ := h
    exact ⟨_, run_of_isKeyword hkeyword⟩
  | listItem =>
    obtain ⟨indent, bullet, blank, rest, hitem⟩ := h
    exact exists_run_of_isListItem hitem
  | footnote =>
    obtain ⟨label, blank, rest, hfootnote⟩ := h
    exact exists_run_of_isFootnote hfootnote
  | blank => exact ⟨[], run_of_isBlank h⟩

end

end Stage

/-! ## Classification -/

theorem texts_map_reverse (texts : List (List Char)) :
    Slots.texts (texts.map List.reverse) = texts.map String.ofList := by
  simp [Slots.texts]

/-- **Each line is of the kind whose form it has.** The patterns of lines compile. A
line is reported to be of a kind exactly when it has the form, and of no kind when it has
none. The captures of a headline are its stars; those of a keyword are its name and what
stands behind the blanks behind the colon, unless nothing does. -/
theorem lineSet_classifies : ∃ set, lineSet = .ok set ∧ ∀ line : String,
    (∀ kind, (set.verdict line).payload = some kind ↔ kind.Describes line.toList) ∧
    ((set.verdict line).payload = none ↔ ∀ kind : LineKind, ¬ kind.Describes line.toList) ∧
    (∀ stars blank rest, IsHeadline line.toList stars blank rest →
      (set.verdict line).captures = [String.ofList stars]) ∧
    ∀ indent key behind, IsKeyword line.toList indent key behind →
      (set.verdict line).captures =
        String.ofList key :: (keywordValue behind).map String.ofList := by
  obtain ⟨set, hset, htabulated⟩ := exists_lineSet
  refine ⟨set, hset, fun line => ?_⟩
  have hkind : ∀ kind, (set.verdict line).payload = some kind ↔ kind.Describes line.toList := by
    intro kind
    refine ⟨describes_of_payload hset, fun h => ?_⟩
    obtain ⟨slots, hrun⟩ := Stage.exists_run h
    rw [verdict_of_run htabulated hrun]
  refine ⟨hkind, ?_, fun stars blank rest h => ?_, fun indent key behind h => ?_⟩
  · simp only [Option.eq_none_iff_forall_ne_some, ne_eq, hkind]
  · rw [verdict_of_run htabulated (Stage.run_of_isHeadline h)]
    exact texts_map_reverse [stars]
  · rw [verdict_of_run htabulated (Stage.run_of_isKeyword h)]
    exact texts_map_reverse (key :: keywordValue behind)

/-- A keyword behind a blank, and its value behind two. -/
theorem lineSet_classifies_title : ∃ set, lineSet = .ok set ∧
    (set.verdict " #+title:  Notes").payload = some .keyword ∧
    (set.verdict " #+title:  Notes").captures = ["title", "Notes"] := by
  obtain ⟨set, hset, hlines⟩ := lineSet_classifies
  obtain ⟨hkind, -, -, hcaptures⟩ := hlines " #+title:  Notes"
  have hkeyword : IsKeyword " #+title:  Notes".toList [' '] "title".toList "  Notes".toList :=
    ⟨rfl, List.all_eq_true.1 rfl, by decide, List.all_eq_true.1 rfl⟩
  exact ⟨set, hset, (hkind .keyword).2 ⟨_, _, _, hkeyword⟩, hcaptures _ _ _ hkeyword⟩

end LinePattern.Outline
