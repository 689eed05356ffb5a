/-
Shorthands next to dashes.

A shorthand ends what was read before it. What follows is read as at the start of
the class, so a dash behind a shorthand stands for itself; and a shorthand ends no
range (`CharClass.expand_escaped`).

The blanks are no shorthand in this sense: they are read as the two characters
that they stand for, and a range may start or end with one of those
(`tokenize_blanks_in_range`).
-/
import LinePattern.Proofs.Pattern.ClassRanges
import LinePattern.Proofs.Pattern.Faults
import LinePattern.Proofs.Dfa.Subset

namespace LinePattern

/-! ## Reading behind what was read -/

namespace ClassItem

/-- The character from which a range waits for its end behind the items. -/
def openRange? (emitted : List Symbol) : List ClassItem → Option Char
  | [] => none
  | [item] => operator? emitted item
  | item :: next :: rest =>
    match operator? emitted item with
    | some low => openRange? (emitted ++ (Piece.range low next).members) rest
    | none => openRange? (emitted ++ [item.symbol]) (next :: rest)

section

variable {emitted emitted' : List Symbol} {low : Char} {item : ClassItem}
  {items before after rest : List ClassItem}

theorem operator?_of_ne_dash (h : item ≠ dash) : operator? emitted item = none := by
  match item with
  | scalar c | shorthand s => rfl
  | dash => exact absurd rfl h

theorem operator?_congr (h : lastChar? emitted = lastChar? emitted') :
    operator? emitted item = operator? emitted' item := by
  match item with
  | scalar c | shorthand s => rfl
  | dash => exact h

theorem lastChar?_append (h : lastChar? emitted = lastChar? emitted') (members : List Symbol) :
    lastChar? (emitted ++ members) = lastChar? (emitted' ++ members) := by
  rcases List.eq_nil_or_concat' members with rfl | ⟨front, last, rfl⟩
  · rwa [List.append_nil, List.append_nil]
  · simp [lastChar?, ← List.append_assoc]

theorem pieces_single (h : operator? emitted item = none) (rest : List ClassItem) :
    pieces emitted (item :: rest) =
      .single item.symbol :: pieces (emitted ++ [item.symbol]) rest := by
  cases rest with
  | nil => rfl
  | cons next rest => simp only [pieces, h]

theorem pieces_range {next : ClassItem} (h : operator? emitted item = some low)
    (rest : List ClassItem) :
    pieces emitted (item :: next :: rest) =
      .range low next :: pieces (emitted ++ (Piece.range low next).members) rest := by
  simp only [pieces, h]

/-- Only the last member emitted counts, and only if it is a character. -/
theorem pieces_congr (h : lastChar? emitted = lastChar? emitted') :
    pieces emitted items = pieces emitted' items := by
  fun_induction pieces emitted items generalizing emitted' with
  | case1 emitted | case2 emitted item => rfl
  | case3 emitted item next rest low hlow ih =>
    rw [operator?_congr h] at hlow
    rw [pieces_range hlow, ih (lastChar?_append h _)]
  | case4 emitted item next rest hnone ih =>
    rw [operator?_congr h] at hnone
    rw [pieces_single hnone, ih (lastChar?_append h _)]

/-- Behind items that leave no range open, reading goes on with their members. -/
theorem pieces_append_of_closed (h : openRange? emitted before = none) (item : ClassItem)
    (rest : List ClassItem) : pieces emitted (before ++ item :: rest) =
      pieces emitted before ++
        pieces (emitted ++ (pieces emitted before).flatMap Piece.members) (item :: rest) := by
  fun_induction openRange? emitted before with
  | case1 emitted => simp [pieces]
  | case2 emitted first => rw [List.singleton_append, pieces_single h]; simp [pieces, Piece.members]
  | case3 emitted first next more low hlow ih =>
    rw [List.cons_append, List.cons_append, pieces_range hlow, pieces_range hlow, ih h]
    simp
  | case4 emitted first next more hnone ih =>
    rw [List.cons_append, pieces_single hnone, pieces_single hnone, ih h]
    simp [Piece.members]

/-- A range that is open behind the items ends with the next one. -/
theorem pieces_append_of_open (h : openRange? emitted before = some low) (item : ClassItem)
    (rest : List ClassItem) : ∃ ps qs, pieces emitted before = ps ++ [.single (.char '-')] ∧
      pieces emitted (before ++ item :: rest) = ps ++ .range low item :: qs := by
  fun_induction openRange? emitted before with
  | case1 emitted => cases h
  | case2 emitted first =>
    obtain ⟨rfl, -⟩ := operator?_eq_some_iff.1 h
    exact ⟨[], _, rfl, pieces_range h rest⟩
  | case3 emitted first next more low' hlow ih =>
    obtain ⟨ps, qs, hbefore, hwhole⟩ := ih h
    refine ⟨.range low' next :: ps, qs, ?_, ?_⟩
    · rw [pieces_range hlow, hbefore, List.cons_append]
    · rw [List.cons_append, List.cons_append, pieces_range hlow, hwhole, List.cons_append]
  | case4 emitted first next more hnone ih =>
    obtain ⟨ps, qs, hbefore, hwhole⟩ := ih h
    refine ⟨.single first.symbol :: ps, qs, ?_, ?_⟩
    · rw [pieces_single hnone, hbefore, List.cons_append]
    · rw [List.cons_append, pieces_single hnone, hwhole, List.cons_append]

end

/-! ## Members -/

namespace Piece

theorem expand_append (ps qs : List Piece) : expand (ps ++ qs) =
    (expand ps).bind fun ms => (expand qs).map fun ns => ms ++ ns := by
  induction ps with
  | nil => simp only [List.nil_append]; cases expand qs <;> rfl
  | cons p ps ih =>
    rw [List.cons_append]
    cases hfault : p.fault? with
    | none =>
      rw [expand_cons_of_fault?_eq_none hfault, expand_cons_of_fault?_eq_none hfault, ih]
      cases expand ps with
      | ok ms => cases expand qs <;> simp [Except.bind, Except.map]
      | error e => rfl
    | some e =>
      rw [expand_cons_of_fault? hfault, expand_cons_of_fault? hfault]
      rfl

end Piece

section

variable {low : Char} {after : List ClassItem}

/-- An item in a class, told by what stands before it and what stands behind,
unless a range has it for an end. -/
theorem expandRanges_append (item : ClassItem) (before after : List ClassItem)
    (hbefore : openRange? [] before = none) (hitem : item ≠ dash)
    (hafter : pieces [item.symbol] after = pieces [] after) :
    expandRanges (before ++ item :: after) = (expandRanges before).bind fun ms =>
      (expandRanges after).map fun ns => ms ++ item.symbol :: ns := by
  have hlast (emitted : List Symbol) :
      lastChar? (emitted ++ [item.symbol]) = lastChar? [item.symbol] := by simp [lastChar?]
  simp only [expandRanges_eq_expand]
  rw [pieces_append_of_closed hbefore, pieces_single (operator?_of_ne_dash hitem),
    pieces_congr (hlast _), hafter, Piece.expand_append, Piece.expand_cons_of_fault?_eq_none rfl]
  cases Piece.expand (pieces [] before) with
  | ok ms => cases Piece.expand (pieces [] after) <;> rfl
  | error e => rfl

theorem expandRanges_append_of_open (s : Symbol) (before after : List ClassItem)
    (hbefore : openRange? [] before = some low) :
    expandRanges (before ++ shorthand s :: after) =
      (expandRanges before).bind fun _ => .error (.noEnd low) := by
  obtain ⟨ps, qs, hpieces, hwhole⟩ := pieces_append_of_open hbefore (shorthand s) after
  simp only [expandRanges_eq_expand]
  rw [hwhole, hpieces, Piece.expand_append, Piece.expand_append, Piece.expand_cons_of_fault? rfl]
  cases Piece.expand ps <;> rfl

theorem pieces_eq_of_not_operator (emitted : List Symbol)
    (h : ∀ next rest, after ≠ dash :: next :: rest) : pieces emitted after = pieces [] after := by
  match after with
  | [] | [_] => rfl
  | item :: next :: rest =>
    have hitem : item ≠ dash := by
      rintro rfl
      exact h next rest rfl
    have hlast : lastChar? (emitted ++ [item.symbol]) = lastChar? ([] ++ [item.symbol]) := by
      simp [lastChar?]
    rw [pieces_single (operator?_of_ne_dash hitem), pieces_single (operator?_of_ne_dash hitem),
      pieces_congr hlast]

end

end ClassItem

/-! ## Patterns that are a class -/

namespace Reader

theorem run_class_error {st : State} {offset : Nat} {cls : CharClass} {e : RangeError}
    (hmode : st.mode = .operand) (hwritten : cls.Written) (hexpand : cls.expand = .error e) :
    run st offset cls.chars = .error (.badRange e, offset) := by
  obtain ⟨c, rest, hbody, hcaret⟩ := exists_body hwritten
  obtain ⟨opened, hopening⟩ := run_opening offset rest hmode hcaret
  have hparts : run { st with mode := .classBody offset cls.negated [] } opened
      (cls.parts.flatMap ClassPart.chars) =
        .ok { st with mode := .classBody offset cls.negated (cls.parts.reverse ++ []) } :=
    run_parts rfl hwritten.plain
  have hclose : CharClass.expand ⟨cls.negated, cls.parts⟩ = .error e := hexpand
  rw [List.append_nil] at hparts
  rw [CharClass.chars, List.append_assoc, hbody, hopening, ← hbody, run_append hparts]
  simp [run, step, classStep, closeClass, hclose]

end Reader

namespace CharClass

theorem tokenize_of_expand_eq_error {cls : CharClass} {e : RangeError} (hwritten : cls.Written)
    (hexpand : cls.expand = .error e) :
    tokenize (String.ofList cls.chars) = .error ⟨.badRange e, 0, String.ofList cls.chars⟩ := by
  rw [tokenize_eq_error_iff]
  refine ⟨?_, rfl⟩
  rw [String.toList_ofList, Reader.read, Reader.run_class_error rfl hwritten hexpand]

/-! ## Shorthands in a class -/

/-- The character from which a range waits for its end behind the parts of a class. -/
def openRange? (parts : List ClassPart) : Option Char :=
  ClassItem.openRange? [] (parts.flatMap ClassPart.items)

section

variable {negated : Bool} {before after : List ClassPart} {x : Char}

theorem exists_items_shorthand (hx : x ∈ ['d', 'w']) :
    ∃ s, (ClassPart.escaped x).items = [.shorthand s] ∧ escaped x = [s] ∧
      ClassItem.lastChar? [s] = none := by
  simp only [List.mem_cons, List.not_mem_nil, or_false] at hx
  rcases hx with rfl | rfl
  · exact ⟨.digit, rfl, rfl, rfl⟩
  · exact ⟨.word, rfl, rfl, rfl⟩

/-- What stands before a shorthand and what stands behind it are read apart. -/
theorem expand_shorthand (hx : x ∈ ['d', 'w']) (hbefore : openRange? before = none) :
    expand ⟨negated, before ++ .escaped x :: after⟩ = (expand ⟨negated, before⟩).bind fun ms =>
      (expand ⟨negated, after⟩).map fun ns => ms ++ escaped x ++ ns := by
  obtain ⟨s, hitems, hescaped, hlast⟩ := exists_items_shorthand hx
  have hafter : ClassItem.pieces [s] (after.flatMap ClassPart.items) =
      ClassItem.pieces [] (after.flatMap ClassPart.items) := ClassItem.pieces_congr hlast
  have h := ClassItem.expandRanges_append (.shorthand s) _ _ hbefore nofun hafter
  simpa [expand, hitems, hescaped, ClassItem.symbol] using h

/-- A shorthand ends no range. -/
theorem expand_shorthand_of_open {low : Char} (hx : x ∈ ['d', 'w'])
    (hbefore : openRange? before = some low) :
    expand ⟨negated, before ++ .escaped x :: after⟩ =
      (expand ⟨negated, before⟩).bind fun _ => .error (.noEnd low) := by
  obtain ⟨s, hitems, -, -⟩ := exists_items_shorthand hx
  have h := ClassItem.expandRanges_append_of_open s _ (after.flatMap ClassPart.items) hbefore
  simpa [expand, hitems] using h

theorem exists_items_escaped (c : Char) :
    ∃ item more, (ClassPart.escaped c).items = item :: more ∧ item ≠ .dash := by
  rw [ClassPart.items.eq_def]
  split <;> simp_all

theorem items_ne_operator (h : ∀ part rest, after ≠ .dash :: part :: rest) (next : ClassItem)
    (rest : List ClassItem) : after.flatMap ClassPart.items ≠ .dash :: next :: rest := by
  intro heq
  match after with
  | [] => cases heq
  | .plain c :: more =>
    injection heq with hfirst
    cases hfirst
  | .escaped c :: more =>
    obtain ⟨item, items, hitems, hne⟩ := exists_items_escaped c
    rw [List.flatMap_cons, hitems, List.cons_append] at heq
    injection heq with hfirst
    exact hne hfirst
  | [.dash] => cases heq
  | .dash :: part :: more => exact h part more rfl

/-- Where no dash makes a range with them, the blanks are read as shorthands are. -/
theorem expand_blanks (hbefore : openRange? before = none)
    (hafter : ∀ part rest, after ≠ .dash :: part :: rest) :
    expand ⟨negated, before ++ .escaped 's' :: after⟩ = (expand ⟨negated, before⟩).bind fun ms =>
      (expand ⟨negated, after⟩).map fun ns => ms ++ escaped 's' ++ ns := by
  have hrest := ClassItem.pieces_eq_of_not_operator [.char '\t'] (items_ne_operator hafter)
  have htab := ClassItem.expandRanges_append (.scalar '\t') [] _ rfl nofun hrest
  have hblank := ClassItem.expandRanges_append (.scalar ' ') _
    (.scalar '\t' :: after.flatMap ClassPart.items) hbefore nofun
    (ClassItem.pieces_eq_of_not_operator _ nofun)
  rw [List.nil_append] at htab
  rw [htab] at hblank
  have hitems : (before ++ .escaped 's' :: after).flatMap ClassPart.items =
      before.flatMap ClassPart.items ++ .scalar ' ' :: .scalar '\t' ::
        after.flatMap ClassPart.items := by
    rw [List.flatMap_append, List.flatMap_cons]
    rfl
  simp only [expand, hitems, hblank]
  cases ClassItem.expandRanges (before.flatMap ClassPart.items) with
  | ok ms =>
    cases ClassItem.expandRanges (after.flatMap ClassPart.items) with
    | ok ns => simp [Except.bind, Except.map, ClassItem.symbol, escaped, ClassItem.expandRanges,
        ClassItem.expandFrom]
    | error e => rfl
  | error e => rfl

theorem head?_of_expand_dash {members : List Symbol}
    (h : expand ⟨negated, .dash :: after⟩ = .ok members) : members.head? = some (.char '-') := by
  have hpieces : ClassItem.pieces [] (.dash :: after.flatMap ClassPart.items) =
      .single (.char '-') :: _ := ClassItem.pieces_single rfl _
  have hmembers : ClassItem.Piece.expand
      (ClassItem.pieces [] (.dash :: after.flatMap ClassPart.items)) = .ok members := by
    rw [← ClassItem.expandRanges_eq_expand]
    exact h
  rw [hpieces] at hmembers
  rw [(ClassItem.Piece.expand_eq_ok_iff.1 hmembers).2]
  rfl

end

/-- **A digit or word shorthand is no end of a range.** Behind parts that leave no
range open it adds itself, and what follows is read as at the start of the class,
where a dash stands for itself. Behind parts that leave a range open there is no
reading, and no pattern. The same holds of the blanks where no dash makes a range
with them; there they are read as a blank and a tab in their place. -/
theorem expand_escaped (negated : Bool) (before after : List ClassPart) :
    (∀ x ∈ ['d', 'w'],
      (openRange? before = none → expand ⟨negated, before ++ .escaped x :: after⟩ =
        (expand ⟨negated, before⟩).bind fun ms =>
          (expand ⟨negated, after⟩).map fun ns => ms ++ escaped x ++ ns) ∧
      ∀ low, openRange? before = some low →
        expand ⟨negated, before ++ .escaped x :: after⟩ =
            ((expand ⟨negated, before⟩).bind fun _ => .error (.noEnd low)) ∧
          ∀ cls : CharClass, cls = ⟨negated, before ++ .escaped x :: after⟩ → cls.Written →
            ∃ e, tokenize (String.ofList cls.chars) =
              .error ⟨.badRange e, 0, String.ofList cls.chars⟩) ∧
    (∀ members, expand ⟨negated, .dash :: after⟩ = .ok members →
      members.head? = some (.char '-')) ∧
    (openRange? before = none → (∀ part rest, after ≠ .dash :: part :: rest) →
      expand ⟨negated, before ++ .escaped 's' :: after⟩ =
        (expand ⟨negated, before⟩).bind fun ms =>
          (expand ⟨negated, after⟩).map fun ns => ms ++ escaped 's' ++ ns) ∧
    expand ⟨negated, before ++ .escaped 's' :: after⟩ =
      expand ⟨negated, before ++ .plain ' ' :: .plain '\t' :: after⟩ := by
  refine ⟨fun x hx => ⟨expand_shorthand hx, fun low hlow => ?_⟩, fun _ => head?_of_expand_dash,
    expand_blanks, ?_⟩
  · have hexpand : expand ⟨negated, before ++ .escaped x :: after⟩ =
        (expand ⟨negated, before⟩).bind fun _ => .error (.noEnd low) :=
      expand_shorthand_of_open hx hlow
    refine ⟨hexpand, ?_⟩
    rintro cls rfl hwritten
    obtain ⟨e, he⟩ : ∃ e, expand ⟨negated, before ++ .escaped x :: after⟩ = .error e := by
      rw [hexpand]
      cases expand ⟨negated, before⟩ with
      | ok ms => exact ⟨_, rfl⟩
      | error e => exact ⟨e, rfl⟩
    exact ⟨e, tokenize_of_expand_eq_error hwritten he⟩
  · simp [expand, ClassPart.items]

/-- Shorthands behind a range, behind a dash, and around one. -/
theorem expand_escaped_after_range :
    expand ⟨true, [.plain 'a', .dash, .plain 'c', .escaped 'd', .dash, .escaped 'w']⟩ =
      .ok [.char 'a', .char 'b', .char 'c', .digit, .char '-', .word] := by
  obtain ⟨hbefore, -⟩ := (expand_escaped true [.plain 'a', .dash, .plain 'c']
    [.dash, .escaped 'w']).1 'd' (by decide)
  exact hbefore rfl

/-- A dash behind the blanks, which do not come last, starts a range from the tab;
and a range may end with the blank. -/
theorem tokenize_blanks_in_range :
    (∃ tokens, tokenize "[\\s-a]" = .ok tokens ∧ .literal (.char 'A') ∈ tokens) ∧
      ∃ tokens, tokenize "[\x01-\\s]" = .ok tokens := by
  have hstart : ((tokenize "[\\s-a]").toOption.any fun tokens =>
      decide (.literal (.char 'A') ∈ tokens)) = true := by
    decide +kernel
  have hend : ((tokenize "[\x01-\\s]").toOption.any fun _ => true) = true := by
    decide +kernel
  obtain ⟨tokens, htokens, hmem⟩ := exists_ok_of_any hstart
  obtain ⟨tokens', htokens', -⟩ := exists_ok_of_any hend
  exact ⟨⟨tokens, htokens, of_decide_eq_true hmem⟩, tokens', htokens'⟩

end CharClass

end LinePattern
