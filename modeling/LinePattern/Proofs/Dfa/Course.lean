/-
The labels that a scan takes.

A state lists its steps in the order of their symbols, so the label that is
followed for a character is the least one that accepts it (`follow?_eq`). Said
of the automaton that was determinised: behind the word taken so far, a scan
takes the least symbol that accepts the character and that some run goes on
with (`Nfa.Takes`). What it takes for a text is the course of the text, and it
ends in the state for the set that the course leads to (`exists_course`,
`exists_after?`).

A course depends on the words that runs read, and on nothing else. So the scans
of two automata can be compared without looking at their states: a course is
kept where words are lost but not its own (`Course.of_subset`). Where no
character is accepted by two labels, the course is the only word that reads the
text (`Course.eq_of_reads`).
-/
import LinePattern.Proofs.Dfa.Scan

namespace LinePattern

/-! ## The least label that accepts -/

namespace DfaState

variable {s : DfaState} {c : Char} {step : DfaStep} {symbol : Symbol} {target : StateId}
  {before behind : List DfaStep}

/-- The steps stand in increasing order of their symbols. -/
def Sorted (s : DfaState) : Prop :=
  s.steps.Pairwise fun a b => a.symbol.compare b.symbol = .lt

theorem next?_eq_none (h : ∀ t ∈ s.steps, t.symbol ≠ symbol) : s.next? symbol = none := by
  simpa [next?] using h

theorem next?_of_split (hsteps : s.steps = before ++ step :: behind)
    (hbefore : ∀ t ∈ before, t.symbol ≠ step.symbol) : s.next? step.symbol = some step.target := by
  have hnone : before.find? (·.symbol = step.symbol) = none := by simpa using hbefore
  simp [next?, hsteps, List.find?_append, hnone]

theorem Sorted.compare_of_mem_before (h : s.Sorted) (hsteps : s.steps = before ++ step :: behind)
    {t : DfaStep} (ht : t ∈ before) : t.symbol.compare step.symbol = .lt := by
  rw [Sorted, hsteps] at h
  exact (List.pairwise_append.1 h).2.2 t ht step List.mem_cons_self

theorem Sorted.before_or_compare (h : s.Sorted) (hsteps : s.steps = before ++ step :: behind)
    {t : DfaStep} (ht : t ∈ s.steps) :
    t ∈ before ∨ t = step ∨ step.symbol.compare t.symbol = .lt := by
  rw [Sorted, hsteps] at h
  rw [hsteps, List.mem_append, List.mem_cons] at ht
  exact ht.imp_right (.imp_right ((List.pairwise_cons.1 (List.pairwise_append.1 h).2.1).1 t))

/-- Of the steps that accept a character the first has the least symbol. -/
theorem Sorted.eq_or_compare_of_find? (h : s.Sorted)
    (hfind : s.steps.find? (·.symbol.accepts c) = some step) {t : DfaStep} (ht : t ∈ s.steps)
    (haccepts : t.symbol.accepts c = true) :
    t = step ∨ step.symbol.compare t.symbol = .lt := by
  obtain ⟨-, before, behind, hsteps, hbefore⟩ := List.find?_eq_some_iff_append.1 hfind
  refine (h.before_or_compare hsteps ht).resolve_left fun hmem => ?_
  have hreject := hbefore t hmem
  rw [haccepts] at hreject
  cases hreject

theorem next?_eq_some_iff (h : s.Sorted) : s.next? symbol = some target ↔
    ∃ step ∈ s.steps, step.symbol = symbol ∧ step.target = target := by
  constructor
  · intro hnext
    obtain ⟨step, hfind, rfl⟩ := Option.map_eq_some_iff.1 hnext
    exact ⟨step, List.mem_of_find?_eq_some hfind, by simpa using List.find?_some hfind, rfl⟩
  · rintro ⟨step, hstep, rfl, rfl⟩
    obtain ⟨before, behind, hsteps⟩ := List.append_of_mem hstep
    refine next?_of_split hsteps fun t ht heq => ?_
    have hlt := h.compare_of_mem_before hsteps ht
    rw [heq, Symbol.compare_eq_iff.2 rfl] at hlt
    cases hlt

theorem nextExcluding?_eq_none (h : ∀ t ∈ s.steps, t.symbol.accepts c = true → t.symbol.rank ≠ 3) :
    s.nextExcluding? c = none := by
  simp only [nextExcluding?, Option.map_eq_none_iff, List.find?_eq_none, exclusions,
    List.mem_filter]
  intro t ht haccepts
  have hrank := h t ht.1 haccepts
  cases hsymbol : t.symbol with
  | noneOf => simp [hsymbol, Symbol.rank] at hrank
  | _ => simp [hsymbol] at ht

theorem nextExcluding?_of_split {members : List Symbol}
    (hsteps : s.steps = before ++ step :: behind)
    (hbefore : ∀ t ∈ before, t.symbol.accepts c = false)
    (hsymbol : step.symbol = .noneOf members) (haccepts : step.symbol.accepts c = true) :
    s.nextExcluding? c = some step.target := by
  have hfind : s.exclusions.find? (·.symbol.accepts c) = some step := by
    rw [exclusions, List.find?_filter, List.find?_eq_some_iff_append]
    exact ⟨by simp [hsymbol, ← haccepts], before, behind, hsteps, fun t ht => by
      simp [hbefore t ht]⟩
  rw [nextExcluding?, hfind, Option.map_some]

/-- **A scan follows the least label that accepts the character.** -/
theorem follow?_eq (h : s.Sorted) (c : Char) :
    s.follow? c = (s.steps.find? (·.symbol.accepts c)).map (·.target) := by
  cases hfind : s.steps.find? (·.symbol.accepts c) with
  | none =>
    rw [Option.map_none]
    by_contra hne
    obtain ⟨target, htarget⟩ := Option.ne_none_iff_exists'.1 hne
    obtain ⟨step, hstep, haccepts, -⟩ := exists_step_of_follow? htarget
    simpa [haccepts] using List.find?_eq_none.1 hfind step hstep
  | some step =>
    obtain ⟨haccepts, before, behind, hsteps, hbefore⟩ := List.find?_eq_some_iff_append.1 hfind
    have hreject : ∀ t ∈ before, t.symbol.accepts c = false := fun t ht => by
      simpa using hbefore t ht
    have hrank : ∀ t ∈ s.steps, t.symbol.accepts c = true → step.symbol.rank ≤ t.symbol.rank := by
      intro t ht htaccepts
      rcases h.eq_or_compare_of_find? hfind ht htaccepts with rfl | hlt
      · exact Nat.le_refl _
      · exact Symbol.rank_le_of_compare hlt
    have hself : s.next? step.symbol = some step.target :=
      (next?_eq_some_iff h).2 ⟨step, List.mem_of_find?_eq_some hfind, rfl, rfl⟩
    -- The labels that are tried before this one and would accept the character are missing.
    have hnone : ∀ x : Symbol, x.accepts c = true → x.rank < step.symbol.rank →
        s.next? x = none := by
      refine fun x hx hlt => next?_eq_none fun t ht heq => ?_
      have hle := hrank t ht (heq ▸ hx)
      rw [heq] at hle
      omega
    have hchar : 0 < step.symbol.rank → s.next? (.char c) = none :=
      hnone (.char c) (by simp [Symbol.accepts])
    have hdigit : 1 < step.symbol.rank → (if isDigit c then s.next? .digit else none) = none := by
      intro hlt
      split
      · next hc => exact hnone .digit hc hlt
      · rfl
    have hword : 2 < step.symbol.rank → (if isWord c then s.next? .word else none) = none := by
      intro hlt
      split
      · next hc => exact hnone .word hc hlt
      · rfl
    cases hsymbol : step.symbol with
    | char x =>
      rw [hsymbol] at hself haccepts
      obtain rfl : x = c := by simpa [Symbol.accepts] using haccepts
      simp [follow?, hself]
    | digit =>
      have hr : step.symbol.rank = 1 := by rw [hsymbol, Symbol.rank]
      rw [hsymbol] at hself haccepts
      have hc : isDigit c = true := haccepts
      simp [follow?, hself, hc, hchar (by omega)]
    | word =>
      have hr : step.symbol.rank = 2 := by rw [hsymbol, Symbol.rank]
      rw [hsymbol] at hself haccepts
      have hc : isWord c = true := haccepts
      simp [follow?, hself, hc, hchar (by omega), hdigit (by omega)]
    | noneOf members =>
      have hr : step.symbol.rank = 3 := by rw [hsymbol, Symbol.rank]
      have hexcluding := nextExcluding?_of_split hsteps hreject hsymbol haccepts
      simp [follow?, hexcluding, hchar (by omega), hdigit (by omega), hword (by omega)]
    | any =>
      have hr : step.symbol.rank = 4 := by rw [hsymbol, Symbol.rank]
      have hexcluding : s.nextExcluding? c = none := by
        refine nextExcluding?_eq_none fun t ht htaccepts => ?_
        have hle := hrank t ht htaccepts
        omega
      rw [hsymbol] at hself
      simp [follow?, hself, hexcluding, hchar (by omega), hdigit (by omega), hword (by omega)]
    | endOfLine =>
      rw [hsymbol] at haccepts
      cases haccepts

end DfaState

namespace Subset

variable {nfa : Nfa} {sets : StateSets} {set : List StateId} {dfa : Dfa}

theorem Row.sorted {edges : List Edge} {steps : List DfaStep}
    (h : Row nfa sets edges nfa.alphabet steps) :
    steps.Pairwise fun a b => a.symbol.compare b.symbol = .lt := by
  have hsymbols : (steps.map (·.symbol)).Pairwise fun a b => a.compare b = .lt := by
    rw [h.symbols_eq]
    exact (Symbol.pairwise_sortedSet _).filter _
  exact List.pairwise_map.1 hsymbols

theorem Numbered.sorted (h : Numbered nfa sets dfa) {id : StateId}
    (hset : sets.toArray[id]? = some set) : (dfa.state id).Sorted := by
  obtain ⟨steps, hstate, hrow⟩ := h.state hset
  rw [hstate]
  exact hrow.sorted

end Subset

/-! ## Scans that go on -/

namespace Scan

/-- The scan after some more characters; `none` behind a dead end. -/
def after? (dfa : Dfa) (scan : Scan) : List Char → Option Scan
  | [] => some scan
  | c :: rest =>
    (dfa.findNext scan.state c).bind fun target => (scan.move dfa target c).after? dfa rest

theorem after?_append (dfa : Dfa) (scan : Scan) (u v : List Char) :
    scan.after? dfa (u ++ v) = (scan.after? dfa u).bind (·.after? dfa v) := by
  induction u generalizing scan with
  | nil => rfl
  | cons c u ih =>
    rw [List.cons_append, after?, after?, Option.bind_assoc]
    exact congrArg _ (funext fun target => ih _)

theorem after?_concat_eq_some {dfa : Dfa} {scan next : Scan} {u : List Char} {c : Char} :
    scan.after? dfa (u ++ [c]) = some next ↔
      ∃ scan' target, scan.after? dfa u = some scan' ∧
        dfa.findNext scan'.state c = some target ∧ scan'.move dfa target c = next := by
  simp [after?_append, after?, Option.bind_eq_some_iff]

end Scan

/-! ## Courses -/

theorem Symbol.forall₂_reads_concat {v : List Symbol} {gs : List Glyph} {g : Glyph} :
    List.Forall₂ Symbol.Reads v (gs ++ [g]) ↔
      ∃ v' s, v = v' ++ [s] ∧ List.Forall₂ Symbol.Reads v' gs ∧ s.Reads g := by
  constructor
  · intro h
    obtain ⟨t, ht⟩ : ∃ t, v.drop gs.length = [t] :=
      List.length_eq_one_iff.1 (List.forall₂_drop_append _ _ _ h).length_eq
    have hlast := List.forall₂_drop_append _ _ _ h
    rw [ht] at hlast
    exact ⟨v.take gs.length, t, by rw [← ht, List.take_append_drop],
      List.forall₂_take_append _ _ _ h, (List.forall₂_cons.1 hlast).1⟩
  · rintro ⟨v', s, rfl, hinit, hlast⟩
    exact List.rel_append hinit (.cons hlast .nil)

namespace Nfa

variable {nfa other : Nfa} {v w w' : List Symbol} {u : List Char} {c : Char} {s t : Symbol}

/-- Some run reads the word. -/
def Readable (nfa : Nfa) (w : List Symbol) : Prop := (nfa.reach w).Nonempty

theorem readable_nil (nfa : Nfa) : nfa.Readable [] := ⟨nfa.initial, .refl _⟩

theorem Readable.of_append (h : nfa.Readable (v ++ w)) : nfa.Readable v := by
  obtain ⟨q, hq⟩ := h
  obtain ⟨p, hp, -⟩ := Path.split hq
  exact ⟨p, hp⟩

theorem readable_of_mem_language (h : w ∈ nfa.language) : nfa.Readable w := by
  obtain ⟨f, -, hf⟩ := h
  exact ⟨f, hf⟩

theorem Readable.mem_alphabet (h : nfa.Readable (v ++ [s])) : s ∈ nfa.alphabet := by
  obtain ⟨q, hq⟩ := h
  obtain ⟨p, p', -, hs, -⟩ := mem_reach_concat.1 hq
  exact Nfa.mem_alphabet.2 ⟨p, p', hs⟩

theorem Readable.forall_mem_alphabet (h : nfa.Readable w) : ∀ s ∈ w, s ∈ nfa.alphabet := by
  intro s hs
  obtain ⟨u, v, rfl⟩ := List.append_of_mem hs
  rw [List.append_cons] at h
  exact h.of_append.mem_alphabet

theorem reachable_reach (h : nfa.Readable w) : nfa.Reachable (nfa.reach w) where
  nonempty := h
  closed := reach_closed
  word := ⟨w, h.forall_mem_alphabet, rfl⟩

/-- The symbol that a scan takes for a character behind a word: the least of
those that accept the character and that some run goes on with. -/
structure Takes (nfa : Nfa) (v : List Symbol) (c : Char) (s : Symbol) : Prop where
  accepts : s.accepts c = true
  readable : nfa.Readable (v ++ [s])
  least : ∀ t : Symbol, t.accepts c = true → nfa.Readable (v ++ [t]) → t.compare s ≠ .lt

theorem Takes.unique (hs : nfa.Takes v c s) (ht : nfa.Takes v c t) : s = t := by
  cases hcompare : s.compare t with
  | lt => exact absurd hcompare (ht.least s hs.accepts hs.readable)
  | eq => exact Symbol.compare_eq_iff.1 hcompare
  | gt =>
    have hswap := Symbol.compare_swap s t
    rw [hcompare] at hswap
    exact absurd hswap.symm (hs.least t ht.accepts ht.readable)

/-- The symbols that a scan takes for a text, in order. -/
inductive Course (nfa : Nfa) : List Char → List Symbol → Prop
  | nil : Course nfa [] []
  | concat {u : List Char} {w : List Symbol} {c : Char} {s : Symbol} :
    Course nfa u w → nfa.Takes w c s → Course nfa (u ++ [c]) (w ++ [s])

/-- A course ends with the symbol taken for the last character. -/
theorem course_concat_iff : nfa.Course u (w ++ [s]) ↔
    ∃ u' c, u = u' ++ [c] ∧ nfa.Course u' w ∧ nfa.Takes w c s := by
  constructor
  · intro h
    generalize hv : w ++ [s] = v at h
    cases h with
    | nil => simp at hv
    | concat hcourse htakes =>
      obtain ⟨rfl, hlast⟩ := List.append_inj' hv rfl
      cases hlast
      exact ⟨_, _, rfl, hcourse, htakes⟩
  · rintro ⟨u', c, rfl, hcourse, htakes⟩
    exact hcourse.concat htakes

namespace Course

/-- A course is that of any automaton that goes on for characters in no other ways, as
long as it reads the course. -/
theorem of_taken (hsub : ∀ v s c, s.accepts c = true → other.Readable (v ++ [s]) →
    nfa.Readable (v ++ [s])) (h : nfa.Course u w) (hw : other.Readable w) :
    other.Course u w := by
  induction h with
  | nil => exact .nil
  | concat _ htakes ih =>
    exact (ih hw.of_append).concat
      ⟨htakes.accepts, hw, fun t ht hread => htakes.least t ht (hsub _ t _ ht hread)⟩

/-- A course is that of any automaton that reads less, as long as it reads the
course. -/
theorem of_subset (hsub : ∀ w, other.Readable w → nfa.Readable w) (h : nfa.Course u w)
    (hw : other.Readable w) : other.Course u w :=
  h.of_taken (fun v s _ _ => hsub (v ++ [s])) hw

theorem readable (h : nfa.Course u w) : nfa.Readable w := by
  cases h with
  | nil => exact readable_nil nfa
  | concat _ htakes => exact htakes.readable

theorem reads (h : nfa.Course u w) : List.Forall₂ Symbol.Reads w (u.map .char) := by
  induction h with
  | nil => exact .nil
  | concat _ htakes ih =>
    rw [List.map_append]
    exact Symbol.forall₂_reads_concat.2 ⟨_, _, rfl, ih, htakes.accepts⟩

/-- Without overlapping labels the course is the only word that reads the text. -/
theorem eq_of_reads (hdisjoint : nfa.ScalarDisjoint) (h : nfa.Course u w) (hv : nfa.Readable v)
    (hreads : List.Forall₂ Symbol.Reads v (u.map .char)) : v = w := by
  induction h generalizing v with
  | nil =>
    cases hreads
    rfl
  | @concat u w c s _ htakes ih =>
    rw [List.map_append] at hreads
    obtain ⟨v', t, rfl, hinit, haccepts⟩ := Symbol.forall₂_reads_concat.1 hreads
    obtain rfl := ih hv.of_append hinit
    obtain rfl := hdisjoint t hv.mem_alphabet s htakes.readable.mem_alphabet c haccepts
      htakes.accepts
    rfl

/-- Without overlapping labels a word that can be read is the course of the text
that it reads. -/
theorem of_reads (hdisjoint : nfa.ScalarDisjoint) (hw : nfa.Readable w)
    (hreads : List.Forall₂ Symbol.Reads w (u.map .char)) : nfa.Course u w := by
  induction u using List.reverseRecOn generalizing w with
  | nil =>
    cases hreads
    exact .nil
  | append_singleton u c ih =>
    rw [List.map_append] at hreads
    obtain ⟨v, s, rfl, hinit, haccepts⟩ := Symbol.forall₂_reads_concat.1 hreads
    refine (ih hw.of_append hinit).concat ⟨haccepts, hw, fun t ht hread hlt => ?_⟩
    obtain rfl := hdisjoint t hread.mem_alphabet s hw.mem_alphabet c ht haccepts
    rw [Symbol.compare_eq_iff.2 rfl] at hlt
    cases hlt

end Course

end Nfa

/-! ## Courses and scans -/

namespace Subset

variable {nfa : Nfa} {sets : StateSets} {set : List StateId} {dfa : Dfa} {id : StateId}
  {v w : List Symbol} {u : List Char} {scan : Scan}

/-- A character leads to the set of the word with the symbol taken for it, and
nowhere when no symbol is taken. -/
theorem Numbered.findNext (hwf : nfa.WellFormed) (h : Numbered nfa sets dfa)
    (hset : sets.toArray[id]? = some set) (hv : nfa.Lists v set) (c : Char) :
    match dfa.findNext id c with
    | some target => ∃ s set', nfa.Takes v c s ∧ sets.toArray[target]? = some set' ∧
        nfa.Lists (v ++ [s]) set'
    | none => ∀ s, ¬ nfa.Takes v c s := by
  have hsorted := h.sorted hset
  rw [Dfa.findNext, DfaState.follow?_eq hsorted]
  cases hfind : (dfa.state id).steps.find? (·.symbol.accepts c) with
  | none =>
    intro s hs
    obtain ⟨step, hstep, rfl⟩ := h.exists_step hset hv hs.readable.ne_empty
    have hreject := List.find?_eq_none.1 hfind step hstep
    exact hreject hs.accepts
  | some step =>
    obtain ⟨-, set', hset', hlists⟩ :=
      h.of_mem_steps hwf hset hv (List.mem_of_find?_eq_some hfind)
    obtain ⟨q, hq⟩ := List.exists_mem_of_ne_nil set' (h.known.isStateSet hset').1
    have haccepts : step.symbol.accepts c = true := by simpa using List.find?_some hfind
    refine ⟨step.symbol, set', ⟨haccepts, ⟨q, hlists.mem_iff.1 hq⟩, fun t ht hreadable => ?_⟩,
      hset', hlists⟩
    obtain ⟨other, hother, rfl⟩ := h.exists_step hset hv hreadable.ne_empty
    rcases hsorted.eq_or_compare_of_find? hfind hother ht with rfl | hlater
    · rw [Symbol.compare_eq_iff.2 rfl]
      decide
    · rw [← Symbol.compare_swap, hlater]
      decide

/-- A scan starts in the state for the set of the empty word. -/
theorem Numbered.exists_start (h : Numbered nfa sets dfa) :
    ∃ set, sets.toArray[(Scan.start dfa).state]? = some set ∧ nfa.Lists [] set := by
  obtain ⟨set, hset, hlists⟩ := h.start
  rw [← h.initial_eq] at hset
  exact ⟨set, hset, hlists⟩

/-- A scan is in the state for the set of its course. -/
theorem Numbered.exists_course (hwf : nfa.WellFormed) (h : Numbered nfa sets dfa)
    (hscan : (Scan.start dfa).after? dfa u = some scan) :
    ∃ w set, nfa.Course u w ∧ sets.toArray[scan.state]? = some set ∧ nfa.Lists w set := by
  induction u using List.reverseRecOn generalizing scan with
  | nil =>
    cases hscan
    obtain ⟨set, hset, hlists⟩ := h.exists_start
    exact ⟨[], set, .nil, hset, hlists⟩
  | append_singleton u c ih =>
    obtain ⟨scan', target, hscan', hnext, rfl⟩ := Scan.after?_concat_eq_some.1 hscan
    obtain ⟨w, set, hcourse, hset, hlists⟩ := ih hscan'
    have hfind := h.findNext hwf hset hlists c
    rw [hnext] at hfind
    obtain ⟨s, set', htakes, hset', hlists'⟩ := hfind
    rw [Scan.state_move]
    exact ⟨w ++ [s], set', hcourse.concat htakes, hset', hlists'⟩

theorem Numbered.exists_after? (hwf : nfa.WellFormed) (h : Numbered nfa sets dfa)
    (hcourse : nfa.Course u w) :
    ∃ scan set, (Scan.start dfa).after? dfa u = some scan ∧
      sets.toArray[scan.state]? = some set ∧ nfa.Lists w set := by
  induction hcourse with
  | nil =>
    obtain ⟨set, hset, hlists⟩ := h.exists_start
    exact ⟨.start dfa, set, rfl, hset, hlists⟩
  | @concat u w c s _ htakes ih =>
    obtain ⟨scan, set, hscan, hset, hlists⟩ := ih
    have hfind := h.findNext hwf hset hlists c
    cases hnext : dfa.findNext scan.state c with
    | none =>
      rw [hnext] at hfind
      exact absurd htakes (hfind s)
    | some target =>
      rw [hnext] at hfind
      obtain ⟨s', set', htakes', hset', hlists'⟩ := hfind
      obtain rfl := htakes.unique htakes'
      refine ⟨scan.move dfa target c, set',
        Scan.after?_concat_eq_some.2 ⟨scan, target, hscan, hnext, rfl⟩, ?_, hlists'⟩
      rw [Scan.state_move]
      exact hset'

end Subset

end LinePattern
