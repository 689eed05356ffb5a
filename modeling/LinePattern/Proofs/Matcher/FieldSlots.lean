/-
Groups that count separators.

In a pattern such as `(\d+)-(\d+)` a digit belongs to the group whose number is the
number of separators before it. `CountsFrom` says so of an automaton, by the words that
lead to its transitions, and adds that behind a digit there may be another one. Both are
properties of the parts of a sequence (`CountsFrom.concat`): the right part counts on
from what the words of the left part hold.

A scan credits a character by where it leads, not by what it reads. Behind a digit and
behind a separator the next digit belongs to different groups, so the two never lead to
the same states, and each character is credited to its own group
(`CountsFrom.creditFor_digit`, `CountsFrom.creditFor_separator`). The slots of a text are
then those that `readField` fills from left to right (`CountsFrom.foldl_readField`).
-/
import LinePattern.Proofs.Matcher.WholeText
import LinePattern.Proofs.Pattern.Loops

namespace LinePattern

namespace Nfa

variable {nfa left right : Nfa} {f g : StateId} {u v w : List Symbol} {e : Edge} {k j : Nat}
  {separator : Char} {symbol : Symbol}

/-! ## Transitions behind a word -/

theorem Leaves.readable (h : nfa.Leaves v e) : nfa.Readable (v ++ [e.symbol]) :=
  ⟨e.target, mem_reach_concat.2 ⟨e.source, e.target, h.mem_reach, h.step, .refl _⟩⟩

theorem exists_leaves (h : nfa.Readable (v ++ [symbol])) :
    ∃ e, nfa.Leaves v e ∧ e.symbol = symbol := by
  obtain ⟨q, hq⟩ := h
  obtain ⟨p, r, hp, hstep, -⟩ := mem_reach_concat.1 hq
  exact ⟨⟨p, symbol, r⟩, ⟨hp, hstep⟩, rfl⟩

theorem leaves_concat (hl : left.Fragment f) (hr : right.Fragment g)
    (h : (left.concat right).Leaves v e) :
    left.Leaves v e ∨ ∃ u v' e', v = u ++ v' ∧ e = e'.shift left.size ∧ u ∈ left.language ∧
      right.Leaves v' e' := by
  obtain ⟨source, symbol, target⟩ := e
  obtain ⟨hreach, hstep⟩ := h
  rw [mem_reach, initial_concat, path_concat_iff hl hr] at hreach
  obtain hleft | ⟨u, v', source', rfl, hsource, hu, hv⟩ := hreach
  · have hlt := hleft.lt_size hl.toWellFormed hl.initial_lt
    obtain hs | ⟨-, hnone, -⟩ := step_concat_left hl hlt hstep
    · exact .inl ⟨hleft, hs⟩
    · cases hnone
  · obtain rfl : source = source' + left.size := hsource
    obtain ⟨target', rfl, hs⟩ := step_concat_right hl hstep
    exact .inr ⟨u, v', ⟨source', symbol, target'⟩, rfl, rfl, hl.mem_language.2 hu, hv, hs⟩

/-! ## Counting -/

/-- A digit belongs to the group with the number of the separators before it, counted
from `k`; other labels belong to none. Behind a digit there may be another one. -/
structure CountsFrom (nfa : Nfa) (separator : Char) (k : Nat) : Prop where
  groupOf?_eq : ∀ {v e}, nfa.Leaves v e → nfa.groupOf? e =
    if e.symbol = .digit then some (k + v.count (.char separator)) else none
  digits : ∀ {v}, nfa.Readable (v ++ [.digit]) → nfa.Readable (v ++ [.digit] ++ [.digit])

/-- In a sequence the right part counts on behind the separators of the left part. -/
theorem CountsFrom.concat (hleft : left.CountsFrom separator k) (hl : left.Fragment f)
    (hr : right.Fragment g) (hsteps : left.CapturesSteps) (hright : right.CountsFrom separator j)
    (hcount : ∀ u ∈ left.language, k + u.count (.char separator) = j) :
    (left.concat right).CountsFrom separator k where
  groupOf?_eq {v e} he := by
    obtain he | ⟨u, v', e', rfl, rfl, hu, he⟩ := leaves_concat hl hr he
    · rw [groupOf?_of_lt captures_concat he.step.lt_size, hleft.groupOf?_eq he]
    · rw [groupOf?_shift captures_concat hsteps, hright.groupOf?_eq he, List.count_append,
        ← Nat.add_assoc, hcount u hu]
      rfl
  digits {v} hread := by
    rw [readable_concat hl hr] at hread ⊢
    obtain hread | ⟨u, v', heq, hu, hread⟩ := hread
    · exact .inl (hleft.digits hread)
    · obtain rfl | ⟨before, last, rfl⟩ := List.eq_nil_or_concat' v'
      · rw [List.append_nil] at heq
        have hword : left.Readable (v ++ [.digit]) := heq ▸ readable_of_mem_language hu
        exact .inl (hleft.digits hword)
      · rw [← List.append_assoc] at heq
        obtain ⟨rfl, hlast⟩ := List.append_inj' heq rfl
        cases hlast
        exact .inr ⟨u, _, by simp, hu, hright.digits hread⟩

theorem countsFrom_ofSymbol (hsymbol : symbol ≠ .digit) :
    (ofSymbol symbol).CountsFrom separator k where
  groupOf?_eq {v e} he := by
    obtain ⟨-, hlabel, -⟩ := step_ofSymbol.1 he.step
    rw [if_neg fun hdigit => hsymbol ((Option.some.inj hlabel).symm.trans hdigit)]
    rfl
  digits hread := by
    obtain ⟨p, q, hstep⟩ := mem_alphabet.1 hread.mem_alphabet
    obtain ⟨-, hlabel, -⟩ := step_ofSymbol.1 hstep
    exact absurd (Option.some.inj hlabel).symm hsymbol

/-! ### A group of digits -/

/-- Digits in a group. -/
def digitsIn (group : Nat) : Nfa := (ofSymbol .digit).plus.recordCapture group

theorem fragment_digitsIn (group : Nat) : (digitsIn group).Fragment 3 :=
  fragment_recordCapture (fragment_plus (fragment_ofSymbol .digit)) group

theorem step_digitsIn_some {group : Nat} {p q : StateId} :
    (digitsIn group).Step p (some symbol) q ↔ p = 0 ∧ symbol = .digit ∧ q = 1 := by
  change (ofSymbol .digit).plus.Step p (some symbol) q ↔ _
  rw [step_plus_some (fragment_ofSymbol .digit), step_ofSymbol, Option.some.injEq]

theorem count_of_readable_digitsIn (h : (digitsIn k).Readable v) :
    v.count (.char separator) = 0 := by
  refine List.count_eq_zero.2 fun hmem => ?_
  obtain ⟨p, q, hstep⟩ := mem_alphabet.1 (h.forall_mem_alphabet _ hmem)
  cases (step_digitsIn_some.1 hstep).2.1

theorem countsFrom_digitsIn : (digitsIn k).CountsFrom separator k where
  groupOf?_eq {v e} he := by
    have hread : (digitsIn k).Readable v := ⟨_, he.mem_reach⟩
    rw [digitsIn, allIn_recordCapture rfl e (mem_edges.2 he.step),
      if_pos (step_digitsIn_some.1 he.step).2.1, count_of_readable_digitsIn hread, Nat.add_zero]
  digits {v} hread := by
    obtain ⟨q, hq⟩ := hread
    obtain ⟨p, r, hp, hstep, -⟩ := mem_reach_concat.1 hq
    obtain ⟨rfl, -, rfl⟩ := step_digitsIn_some.1 hstep
    have hback : (digitsIn k).Step 1 none 0 :=
      (step_plus (fragment_ofSymbol .digit)).2 (.inr ⟨rfl, .inr ⟨rfl, .inr rfl⟩⟩)
    have hagain : 0 ∈ (digitsIn k).reach (v ++ [.digit]) :=
      mem_reach_concat.2 ⟨0, 1, hp, hstep, .skip hback⟩
    exact ⟨1, mem_reach_concat.2 ⟨0, 1, hagain, hstep, .refl 1⟩⟩

theorem CountsFrom.digitsIn_concat (h : right.CountsFrom separator k) (hr : right.Fragment g) :
    ((digitsIn k).concat right).CountsFrom separator k := by
  have hsteps : (digitsIn k).CapturesSteps :=
    (capturesSteps_ofSymbol .digit).plus.recordCapture k
  refine countsFrom_digitsIn.concat (fragment_digitsIn k) hr hsteps h fun u hu => ?_
  rw [count_of_readable_digitsIn (readable_of_mem_language hu), Nat.add_zero]

/-! ## What is credited -/

namespace CountsFrom

variable (hwf : nfa.WellFormed) (h : nfa.CountsFrom separator k)

include hwf h

theorem groupOf?_edgesAfter {t : Symbol} (he : e ∈ nfa.edgesAfter v t) : nfa.groupOf? e =
    if t = .digit then some (k + v.count (.char separator)) else none := by
  obtain ⟨hleaves, rfl⟩ := (mem_edgesAfter hwf).1 he
  exact h.groupOf?_eq hleaves

/-- A digit is credited to its group: the labels that lead to the same states belong to
no other. -/
theorem creditFor_digit (hread : nfa.Readable (v ++ [.digit])) :
    nfa.creditFor v .digit = some (k + v.count (.char separator)) := by
  obtain ⟨e, he, hdigit⟩ := exists_leaves hread
  have hedge : e ∈ nfa.edgesAfter v .digit := (mem_edgesAfter hwf).2 ⟨he, hdigit⟩
  have hgroup {t : Symbol} (f : Edge) (hf : f ∈ nfa.edgesAfter v t) :
      nfa.groupOf? f = none ∨ nfa.groupOf? f = some (k + v.count (.char separator)) := by
    rw [h.groupOf?_edgesAfter hwf hf]
    split
    · exact .inr rfl
    · exact .inl rfl
  refine findSome?_eq_of_forall (fun t _ => ?_) ⟨.digit, hread.mem_alphabet, ?_⟩
  · rw [creditVia]
    split
    · cases hfind : (nfa.edgesAfter v t).findSome? nfa.groupOf? with
      | none => exact .inl rfl
      | some group =>
        obtain ⟨f, hf, hfgroup⟩ := List.exists_of_findSome?_eq_some hfind
        rw [← hfgroup]
        exact hgroup f hf
    · exact .inl rfl
  · rw [creditVia, if_pos rfl]
    exact findSome?_eq_of_forall hgroup
      ⟨e, hedge, (h.groupOf?_edgesAfter hwf hedge).trans (if_pos rfl)⟩

omit hwf in
/-- Behind a separator the next digit belongs to another group than behind a digit, so
the two lead to different states. -/
theorem reach_digit_ne (hread : nfa.Readable (v ++ [.digit])) :
    nfa.reach (v ++ [.digit]) ≠ nfa.reach (v ++ [.char separator]) := by
  intro heq
  obtain ⟨e, he, hdigit⟩ := exists_leaves (h.digits hread)
  have he' : nfa.Leaves (v ++ [.char separator]) e := ⟨heq ▸ he.mem_reach, he.step⟩
  have hgroup := (h.groupOf?_eq he).symm.trans (h.groupOf?_eq he')
  simp [hdigit] at hgroup

/-- A separator is not credited. -/
theorem creditFor_separator : nfa.creditFor v (.char separator) = none := by
  refine List.findSome?_eq_none_iff.2 fun t _ => ?_
  rw [creditVia]
  split
  · next heq =>
    refine List.findSome?_eq_none_iff.2 fun e he => ?_
    rw [h.groupOf?_edgesAfter hwf he, if_neg]
    rintro rfl
    obtain ⟨hleaves, hdigit⟩ := (mem_edgesAfter hwf).1 he
    exact h.reach_digit_ne (hdigit ▸ hleaves.readable) heq
  · rfl

end CountsFrom

end Nfa

/-! ## The slots of a text -/

/-- Reads a character of fields, with the number of separators before it. -/
def readField (separator : Char) (read : Nat × Slots) (c : Char) : Nat × Slots :=
  if c = separator then (read.1 + 1, read.2) else (read.1, read.2.credit read.1 c)

/-- What a scan credits is what is filled in when the text is read as fields. -/
theorem Nfa.CountsFrom.foldl_readField {nfa : Nfa} {separator : Char} {k : Nat} {u : List Char}
    {w : List Symbol} {slots : Slots} (hwf : nfa.WellFormed) (h : nfa.CountsFrom separator k)
    (hseparator : isDigit separator = false)
    (halphabet : ∀ t ∈ nfa.alphabet, t = .digit ∨ t = .char separator ∨ t = .endOfLine)
    (hcourse : nfa.Course u w) (hcredits : nfa.Credits u w slots) :
    u.foldl (readField separator) (k, []) = (k + w.count (.char separator), slots) := by
  induction hcredits with
  | nil => rfl
  | @concat u w slots c t _ ih =>
    obtain ⟨u', c', heq, hcourse, htakes⟩ := Nfa.course_concat_iff.1 hcourse
    obtain ⟨rfl, hc⟩ := List.append_inj' heq rfl
    cases hc
    rw [List.foldl_append, ih hcourse, List.foldl_cons, List.foldl_nil, List.count_append,
      ← Nat.add_assoc]
    obtain rfl | rfl | rfl := halphabet t htakes.readable.mem_alphabet
    · have hdigit : isDigit c = true := htakes.accepts
      have hne : c ≠ separator := fun heq => by simp [heq, hseparator] at hdigit
      rw [h.creditFor_digit hwf htakes.readable, readField, if_neg hne]
      rfl
    · obtain rfl : separator = c := eq_of_beq htakes.accepts
      rw [h.creditFor_separator hwf, readField, if_pos rfl, List.count_singleton_self]
      rfl
    · cases htakes.accepts

theorem foldl_readField_last {separator : Char} {rest : List Char} (slots : Slots)
    (slot : List Char) (hrest : separator ∉ rest) :
    rest.foldl (readField separator) (slots.length, slots ++ [slot]) =
      (slots.length, slots ++ [rest.reverse ++ slot]) := by
  induction rest generalizing slot with
  | nil => rfl
  | cons c rest ih =>
    obtain ⟨hc, hrest⟩ := not_or.1 (mt List.mem_cons.2 hrest)
    rw [List.foldl_cons, readField, if_neg (Ne.symm hc), Slots.credit_last, ih _ hrest,
      List.reverse_cons, List.append_assoc]
    rfl

/-- A field fills one more slot. -/
theorem foldl_readField_field {separator : Char} {field : List Char} (slots : Slots)
    (hne : field ≠ []) (hfield : separator ∉ field) :
    field.foldl (readField separator) (slots.length, slots) =
      (slots.length, slots ++ [field.reverse]) := by
  obtain ⟨first, rest, rfl⟩ := List.exists_cons_of_ne_nil hne
  obtain ⟨hfirst, hrest⟩ := not_or.1 (mt List.mem_cons.2 hfield)
  rw [List.foldl_cons, readField, if_neg (Ne.symm hfirst), Slots.credit_length,
    foldl_readField_last slots [first] hrest, List.reverse_cons]

/-- **Fields with separators between them fill a slot each.** -/
theorem foldl_readField_intercalate {separator : Char} {fields : List (List Char)} (slots : Slots)
    (hne : fields ≠ []) (hfields : ∀ field ∈ fields, field ≠ [] ∧ separator ∉ field) :
    (([separator].intercalate fields).foldl (readField separator) (slots.length, slots)).2 =
      slots ++ fields.map List.reverse := by
  induction fields generalizing slots with
  | nil => exact absurd rfl hne
  | cons field rest ih =>
    obtain ⟨hfield, hrest⟩ := List.forall_mem_cons.1 hfields
    have hfirst := foldl_readField_field slots hfield.1 hfield.2
    cases rest with
    | nil => simp [List.intercalate, hfirst]
    | cons next rest =>
      have hlength : slots.length + 1 = (slots ++ [field.reverse]).length := by simp
      rw [List.intercalate_cons_cons, List.foldl_append, List.foldl_append, hfirst, List.foldl_cons,
        List.foldl_nil, readField, if_pos rfl, hlength, ih _ (List.cons_ne_nil _ _) hrest]
      simp

end LinePattern
