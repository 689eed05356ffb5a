/-
Splitting a line into fields.

The pattern `(\d+)-(\d+)$`, with as many groups as wanted and any separator that is
neither a digit nor a metacharacter, matches the texts that are made of so many fields,
and captures the fields (`captures_fields`).

All texts that it stands for end with the mark, so it accepts at the end of the line or
nowhere, and all policies give the same answer (`Dfa.Replays.atEnd`). The captures are
then the slots behind the last character. In the automaton a digit belongs to the group
with the number of the separators before it (`countsFrom_fieldsTree`), so these are the
slots that fill when the text is read from left to right.
-/
import LinePattern.Proofs.Matcher.FieldSlots

namespace LinePattern

open Computability

/-! ## Texts made of fields -/

/-- One ASCII digit or more. -/
def IsField (field : List Char) : Prop := field ≠ [] ∧ ∀ c ∈ field, isDigit c = true

instance (field : List Char) : Decidable (IsField field) :=
  decidable_of_iff (field ≠ [] ∧ field.all isDigit = true) (by simp [IsField])

/-- The text is made of the fields, with the separator between them. -/
structure SplitsInto (separator : Char) (text : String) (fields : List String) : Prop where
  isField : ∀ field ∈ fields, IsField field.toList
  text_eq : text = (String.singleton separator).intercalate fields

/-! ## The pattern -/

/-- So many groups of digits with the separator between them, and a dollar. -/
def fieldsPattern (separator : Char) (count : Nat) : String :=
  (String.singleton separator).intercalate (List.replicate count "(\\d+)") ++ "$"

/-- The derivation of a group of digits. -/
def digitGroup : Factor := .mk (.group (.term (.factor (.mk (.escape 'd') (some .plus))))) none

/-- The derivation of the pattern with so many fields behind the first. -/
def fieldsTerm (separator : Char) : Nat → Term
  | 0 => .seq digitGroup (.factor (.mk .endOfLine none))
  | more + 1 => .seq digitGroup (.seq (.mk (.literal separator) none) (fieldsTerm separator more))

/-- The token stream of a group of digits as a tree. -/
def digitTree (group : Nat) : TokenTree := .capture group (.plus (.literal .digit))

/-- The token stream of the pattern as a tree, when so many groups were opened and closed
before it. -/
def fieldsTree (separator : Char) (group : Nat) : Nat → TokenTree
  | 0 => .concat (digitTree group) .endOfLine
  | more + 1 => .concat (digitTree group)
    (.concat (.literal (.char separator)) (fieldsTree separator (group + 1) more))

section

variable {options : Options} {separator : Char} {group more : Nat}

theorem chars_fieldsTerm (separator : Char) (more : Nat) :
    (fieldsTerm separator more).chars = (fieldsPattern separator (more + 1)).toList := by
  have hgroup : digitGroup.chars = "(\\d+)".toList := rfl
  induction more with
  | zero =>
    rw [fieldsTerm, Term.chars, hgroup, fieldsPattern, String.toList_append]
    rfl
  | succ more ih =>
    rw [fieldsTerm, Term.chars, Term.chars, hgroup, ih]
    simp [fieldsPattern, List.replicate_succ, Factor.chars, Primary.chars]

theorem parse_fieldsPattern (hmeta : separator ∉ metacharacters) (more : Nat) :
    Expr.parse (fieldsPattern separator (more + 1)) = .ok (.term (fieldsTerm separator more)) := by
  refine Expr.parse_of_derives ⟨?_, chars_fieldsTerm separator more⟩
  induction more with
  | zero => exact ⟨trivial, trivial⟩
  | succ more ih => exact ⟨trivial, hmeta, ih⟩

theorem tokens_fieldsTree (separator : Char) (group more : Nat) :
    (fieldsTree separator group more).tokens = (fieldsTerm separator more).tokensFrom group := by
  induction more generalizing group with
  | zero => rfl
  | succ more ih =>
    rw [fieldsTree, TokenTree.tokens, TokenTree.tokens, ih]
    rfl

theorem mem_language_digitGroup {mode : NegationMode} {w : List Glyph} :
    w ∈ digitGroup.language mode ↔ ∃ field, IsField field ∧ w = field.map .char := by
  have hescape : (oneChar fun x => ∃ s ∈ escaped 'd', s.accepts x = true) =
      oneChar fun c => isDigit c = true :=
    oneChar_congr fun c => by simp [escaped, Symbol.accepts]
  simp only [digitGroup, Factor.language, Primary.language, Expr.language, Term.language, hescape,
    IsField, and_assoc]
  exact mem_plus_oneChar

theorem mem_language_fieldsTerm {mode : NegationMode} {w : List Glyph} :
    w ∈ (fieldsTerm separator more).language mode ↔ ∃ fields : List (List Char),
      fields.length = more + 1 ∧ (∀ field ∈ fields, IsField field) ∧
        w = ([separator].intercalate fields).map .char ++ [.endOfText] := by
  induction more generalizing w with
  | zero =>
    rw [fieldsTerm, Term.language, Language.mem_mul]
    constructor
    · rintro ⟨u, hu, mark, rfl, rfl⟩
      obtain ⟨field, hfield, rfl⟩ := mem_language_digitGroup.1 hu
      exact ⟨[field], rfl, List.forall_mem_singleton.2 hfield, by simp⟩
    · rintro ⟨fields, hlength, hfields, rfl⟩
      obtain ⟨field, rfl⟩ := List.length_eq_one_iff.1 hlength
      have hfield := List.forall_mem_singleton.1 hfields
      exact ⟨field.map .char, mem_language_digitGroup.2 ⟨field, hfield, rfl⟩, _, rfl, by simp⟩
  | succ more ih =>
    rw [fieldsTerm, Term.language, Term.language, Language.mem_mul]
    constructor
    · rintro ⟨u, hu, rest, hrest, rfl⟩
      obtain ⟨field, hfield, rfl⟩ := mem_language_digitGroup.1 hu
      obtain ⟨_, ⟨c, hc, rfl⟩, behind, hbehind, rfl⟩ := Language.mem_mul.1 hrest
      obtain rfl : separator = c := eq_of_beq hc
      obtain ⟨fields, hlength, hfields, rfl⟩ := ih.1 hbehind
      obtain ⟨next, fields, rfl⟩ := List.exists_cons_of_length_eq_add_one hlength
      exact ⟨field :: next :: fields, congrArg (· + 1) hlength,
        List.forall_mem_cons.2 ⟨hfield, hfields⟩, by simp⟩
    · rintro ⟨_ | ⟨field, fields⟩, hlength, hfields, rfl⟩
      · cases hlength
      · obtain ⟨hfield, hrest⟩ := List.forall_mem_cons.1 hfields
        have hlength : fields.length = more + 1 := Nat.succ.inj hlength
        have hbehind := ih.2 ⟨fields, hlength, hrest, rfl⟩
        obtain ⟨next, fields, rfl⟩ := List.exists_cons_of_length_eq_add_one hlength
        refine ⟨field.map .char, mem_language_digitGroup.2 ⟨field, hfield, rfl⟩, _,
          Language.append_mem_mul ⟨separator, beq_self_eq_true separator, rfl⟩ hbehind, ?_⟩
        simp

/-! ## The automaton -/

/-- When all groups before it are closed, a group has the same number whichever way groups
are numbered. -/
theorem nfa_digitTree (options : Options) (group : Nat) :
    (digitTree group).nfa options group = .digitsIn group := by
  rw [digitTree, TokenTree.nfa]
  cases options.numbering <;> rfl

theorem countsFrom_fieldsTree (options : Options) (separator : Char) (group more : Nat) :
    ((fieldsTree separator group more).nfa options group).CountsFrom separator group := by
  induction more generalizing group with
  | zero =>
    rw [fieldsTree, TokenTree.nfa, nfa_digitTree]
    exact (Nfa.countsFrom_ofSymbol (by simp)).digitsIn_concat (Nfa.fragment_ofSymbol _)
  | succ more ih =>
    obtain ⟨f, hfragment⟩ :=
      TokenTree.exists_fragment options (group + 1) (fieldsTree separator (group + 1) more)
    have hseparator : ∀ u ∈ (Nfa.ofSymbol (.char separator)).language,
        group + u.count (.char separator) = group + 1 := fun u hu => by
      rw [Nfa.language_ofSymbol] at hu
      rw [Set.mem_singleton_iff.1 hu, List.count_singleton_self]
    have hrest := (Nfa.countsFrom_ofSymbol (by simp)).concat (Nfa.fragment_ofSymbol _) hfragment
      (Nfa.capturesSteps_ofSymbol _) (ih (group + 1)) hseparator
    rw [fieldsTree, TokenTree.nfa, TokenTree.nfa, nfa_digitTree]
    exact hrest.digitsIn_concat (Nfa.fragment_concat (Nfa.fragment_ofSymbol _) hfragment)

theorem mem_labels_fieldsTree {mode : NegationMode} {t : Symbol}
    (h : t ∈ (fieldsTree separator group more).labels mode) :
    t = .digit ∨ t = .char separator ∨ t = .endOfLine := by
  induction more generalizing group with
  | zero =>
    simp only [fieldsTree, digitTree, TokenTree.labels, List.mem_append, List.mem_singleton] at h
    exact h.imp_right .inr
  | succ more ih =>
    simp only [fieldsTree, digitTree, TokenTree.labels, List.mem_append, List.mem_singleton] at h
    obtain rfl | rfl | h := h
    · exact .inl rfl
    · exact .inr (.inl rfl)
    · exact ih h

theorem mem_alphabet_fieldsTree {closed : Nat} {t : Symbol}
    (h : t ∈ ((fieldsTree separator group more).nfa options closed).alphabet) :
    t = .digit ∨ t = .char separator ∨ t = .endOfLine :=
  mem_labels_fieldsTree ((TokenTree.mem_labels closed).2 (Nfa.mem_alphabet.1 h))

theorem scalarDisjoint_fieldsTree {closed : Nat} (hdigit : isDigit separator = false) :
    ((fieldsTree separator group more).nfa options closed).ScalarDisjoint := by
  have hchar : ∀ c, isDigit c = true → (separator == c) = true → False := fun c hc heq => by
    rw [← eq_of_beq heq, hdigit] at hc
    cases hc
  intro s hs t ht c hsc htc
  obtain rfl | rfl | rfl := mem_alphabet_fieldsTree hs
  · obtain rfl | rfl | rfl := mem_alphabet_fieldsTree ht
    · rfl
    · exact (hchar c hsc htc).elim
    · cases htc
  · obtain rfl | rfl | rfl := mem_alphabet_fieldsTree ht
    · exact (hchar c htc hsc).elim
    · rfl
    · cases htc
  · cases hsc

end

/-! ## Patterns that accept at the end of the line -/

/-- Where nothing accepts before, all policies answer what the end of the line does. -/
theorem Dfa.Replays.atEnd {dfa : Dfa} {text : String} {policy : MatchPolicy} {outcome : Outcome}
    (h : dfa.Replays text policy outcome) (hnone : dfa.acceptedAfter text = ∅)
    (hinitial : (dfa.state dfa.initial).isFinal = false) :
    outcome.matched = (dfa.endState? text).isSome ∧
      (outcome.matched = true → outcome.captures = dfa.creditAfter text text.toList.length) := by
  have hbehind {k : Nat} : k ∉ dfa.acceptedAfter text := by simp [hnone]
  cases h with
  | first_behind hk | longest_behind _ hk => exact absurd hk.1 hbehind
  | earlyExit_behind _ hk => exact absurd hk.1.1 hbehind
  | first_atEnd _ hend | longest_atEnd hend => exact ⟨by rw [hend]; rfl, fun _ => rfl⟩
  | earlyExit_atEnd htaken hend => exact ⟨by rw [hend]; rfl, fun _ => rfl⟩
  | initially _ _ hfinal =>
    rw [hinitial] at hfinal
    cases hfinal
  | rejected _ hend _ => exact ⟨by rw [hend]; rfl, nofun⟩

namespace CompiledPattern

variable {options : Options} {pattern : String} {e : Expr} {nfa : Nfa}
  {compiled : CompiledPattern} {text : String}

/-- If all texts of a pattern end with the mark, it matches those that it stands for with
the mark behind them, and captures what is credited up to the end. -/
theorem verdict_of_endOfText (hparse : Expr.parse pattern = .ok e)
    (hnfa : patternNfa options pattern = .ok nfa) (hdisjoint : nfa.ScalarDisjoint)
    (hmark : ∀ w ∈ e.language options.negation, .endOfText ∈ w)
    (hcompile : compile options pattern = .ok compiled) (text : String) :
    ((compiled.verdict text).matched = true ↔
        text.toList.map .char ++ [.endOfText] ∈ e.language options.negation) ∧
      ((compiled.verdict text).matched = true → ∃ w slots, nfa.Course text.toList w ∧
        nfa.Credits text.toList w slots ∧ (compiled.verdict text).captures = slots.texts) := by
  obtain ⟨hbehind, hend, hnil⟩ := accepts_along_language hparse hnfa hdisjoint hcompile text
  have hnone : compiled.dfa.acceptedAfter text = ∅ := by
    refine Set.eq_empty_of_forall_notMem fun k hk => ?_
    obtain ⟨-, -, -, hmem⟩ := (hbehind k).1 hk
    obtain ⟨c, -, hc⟩ := List.mem_map.1 (hmark _ hmem)
    cases hc
  have hinitial : (compiled.dfa.state compiled.dfa.initial).isFinal = false :=
    Bool.eq_false_iff.2 fun hfinal => List.not_mem_nil (hmark _ (hnil.1 hfinal))
  obtain ⟨hmatched, hcaptures⟩ :=
    (compiled.dfa.replays_scan compiled.policy text).atEnd hnone hinitial
  rw [← matched_verdict] at hmatched hcaptures
  rw [← captures_verdict] at hcaptures
  refine ⟨by rw [hmatched, hend], fun hmatch => ?_⟩
  obtain ⟨target, htarget⟩ := Option.isSome_iff_exists.1 (hmatched.symm.trans hmatch)
  obtain ⟨q, hq, -⟩ := Option.bind_eq_some_iff.1 (Option.filter_eq_some_iff.1 htarget).1
  obtain ⟨w, slots, hcourse, hcredits, hcredit⟩ := exists_credits_of_stateAfter? hnfa hcompile hq
  rw [List.take_length] at hcourse hcredits
  exact ⟨w, slots, hcourse, hcredits, (hcaptures hmatch).trans hcredit⟩

/-! ## Splitting -/

section

variable {separator : Char} {fields : List String} {count : Nat}

/-- The texts of the pattern are those made of so many fields. -/
theorem mem_language_fieldsTerm_iff {mode : NegationMode} {more : Nat} :
    text.toList.map .char ++ [.endOfText] ∈ (fieldsTerm separator more).language mode ↔
      ∃ fields, fields.length = more + 1 ∧ SplitsInto separator text fields := by
  rw [mem_language_fieldsTerm]
  constructor
  · rintro ⟨fields, hlength, hfields, heq⟩
    refine ⟨fields.map String.ofList, by rw [List.length_map, hlength], ?_, ?_⟩
    · simpa using hfields
    · have hchars : text.toList = [separator].intercalate fields :=
        List.map_injective_iff.2 (fun _ _ => Glyph.char.inj) (List.append_cancel_right heq)
      rw [← String.toList_inj, hchars, String.toList_intercalate, String.toList_singleton,
        List.map_map]
      simp
  · rintro ⟨fields, hlength, hfields, rfl⟩
    refine ⟨fields.map String.toList, by rw [List.length_map, hlength], ?_, ?_⟩
    · simpa using hfields
    · rw [String.toList_intercalate, String.toList_singleton]

/-- The slots that fill when the text is read are its fields. -/
theorem texts_of_splitsInto (hdigit : isDigit separator = false)
    (h : SplitsInto separator text fields) (hne : fields ≠ []) :
    (text.toList.foldl (readField separator) (0, [])).2.texts = fields := by
  have hfields : ∀ field ∈ fields.map String.toList, field ≠ [] ∧ separator ∉ field := by
    refine List.forall_mem_map.2 fun field hfield => ?_
    obtain ⟨hne, hdigits⟩ := h.isField field hfield
    refine ⟨hne, fun hmem => ?_⟩
    rw [hdigits separator hmem] at hdigit
    cases hdigit
  have hslots := foldl_readField_intercalate [] (List.map_eq_nil_iff.not.2 hne) hfields
  rw [List.length_nil] at hslots
  rw [h.text_eq, String.toList_intercalate, String.toList_singleton, hslots]
  simp [Slots.texts, Function.comp_def]

/-- **Separated fields of digits are split exactly.** Let the separator be neither an ASCII
digit nor a metacharacter, and the pattern have one group of digits or more with the
separator between them and a dollar behind. Under any options it compiles unless there is
a limit. It then matches the texts that are made of so many fields of digits, and its
captures are the fields. -/
theorem captures_fields (hcount : 0 < count) (hdigit : isDigit separator = false)
    (hmeta : separator ∉ metacharacters) (options : Options) :
    (options.maxStates = none →
      ∃ compiled, compile options (fieldsPattern separator count) = .ok compiled) ∧
    ∀ compiled, compile options (fieldsPattern separator count) = .ok compiled →
      ∀ text : String,
        ((compiled.verdict text).matched = true ↔
          ∃ fields, fields.length = count ∧ SplitsInto separator text fields) ∧
        ∀ fields, fields.length = count → SplitsInto separator text fields →
          (compiled.verdict text).captures = fields := by
  obtain ⟨more, rfl⟩ := Nat.exists_eq_add_one.2 hcount
  have hparse := parse_fieldsPattern hmeta more
  have hnfa : patternNfa options (fieldsPattern separator (more + 1)) =
      .ok ((fieldsTree separator 0 more).nfa options 0) :=
    patternNfa_eq_of_tokens hparse (tokens_fieldsTree separator 0 more)
  have hmark : ∀ w ∈ (fieldsTerm separator more).language options.negation,
      Glyph.endOfText ∈ w := by
    intro w hw
    obtain ⟨fields, -, -, rfl⟩ := mem_language_fieldsTerm.1 hw
    exact List.mem_append_right _ (List.mem_singleton_self _)
  refine ⟨exists_compile hparse, fun compiled hcompile text => ?_⟩
  obtain ⟨hmatched, hcaptures⟩ := verdict_of_endOfText hparse hnfa
    (scalarDisjoint_fieldsTree hdigit) hmark hcompile text
  have hsplits := hmatched.trans mem_language_fieldsTerm_iff
  refine ⟨hsplits, fun fields hlength h => ?_⟩
  obtain ⟨w, slots, hcourse, hcredits, hslots⟩ := hcaptures (hsplits.2 ⟨fields, hlength, h⟩)
  have hread := (countsFrom_fieldsTree options separator 0 more).foldl_readField
    (wellFormed_of_patternNfa hnfa) hdigit (fun t => mem_alphabet_fieldsTree) hcourse hcredits
  have hne : fields ≠ [] := by
    rintro rfl
    cases hlength
  rw [hslots, ← texts_of_splitsInto hdigit h hne, hread]

/-- A date. -/
theorem captures_fields_date : ∃ compiled, compile {} "(\\d+)-(\\d+)-(\\d+)$" = .ok compiled ∧
    (compiled.verdict "2017-12-16").matched = true ∧
    (compiled.verdict "2017-12-16").captures = ["2017", "12", "16"] := by
  have hpattern : fieldsPattern '-' 3 = "(\\d+)-(\\d+)-(\\d+)$" := by
    rw [← String.toList_inj, fieldsPattern, String.toList_append, String.toList_intercalate]
    rfl
  have hsplits : SplitsInto '-' "2017-12-16" ["2017", "12", "16"] := by
    refine ⟨by decide, ?_⟩
    rw [← String.toList_inj, String.toList_intercalate]
    rfl
  have hdigit : isDigit '-' = false := by decide
  obtain ⟨hcompile, hfields⟩ := captures_fields (by decide : 0 < 3) hdigit (by decide) {}
  obtain ⟨compiled, hcompiled⟩ := hcompile rfl
  obtain ⟨hmatched, hcaptures⟩ := hfields compiled hcompiled "2017-12-16"
  exact ⟨compiled, hpattern ▸ hcompiled, hmatched.2 ⟨_, rfl, hsplits⟩, hcaptures _ rfl hsplits⟩

end

end CompiledPattern

end LinePattern
