/-
What the scans answer.

A scan does not number the places of its text. It goes over the text once, and
decides at each character whether to go on. On its way it has taken what it has
seen, and the visits that the policy leaves are still to come (`Scan.Underway`).
`stopsAt_stopFrom` follows it with the last place that accepts in hand, and says
which of the places is the one where it stops; `texts_earlyExit` says what the
early exit has credited when it ends. So a scan answers what a replay of its path
does (`replays_scan`), and answers nothing else (`scan_eq_iff_replays`).

The early exit is the odd one out: it reports the captures of all steps it took,
also of those behind the place it stops for.
-/
import LinePattern.Proofs.Dfa.Replay

namespace LinePattern

/-! ## What is left to visit -/

namespace Dfa

variable {dfa : Dfa} {policy : MatchPolicy} {visits : List Visit} {visit : Visit}

/-- The visits still to come on a path; `passed` says that there has been an
accepting state on it. -/
def visitsLeft (dfa : Dfa) (policy : MatchPolicy) (passed : Bool) (visits : List Visit) :
    List Visit :=
  if passed then
    match policy with
    | .first => []
    | .earlyExit => visits.takeWhile (·.group.isSome)
    | .longest => visits
  else dfa.visitsUnder policy visits

@[simp] theorem visitsLeft_nil (dfa : Dfa) (policy : MatchPolicy) (passed : Bool) :
    dfa.visitsLeft policy passed [] = [] := by
  cases policy <;> cases passed <;> rfl

/-- The first of the visits is made, unless there has been an accepting state
and the policy does not go past it. -/
theorem visitsLeft_cons (dfa : Dfa) (policy : MatchPolicy) (passed : Bool) (visit : Visit)
    (visits : List Visit)
    (hgo : passed = true → policy ≠ .first ∧ (policy = .earlyExit → visit.group.isSome = true)) :
    dfa.visitsLeft policy passed (visit :: visits) =
      visit :: dfa.visitsLeft policy ((dfa.state visit.state).isFinal || passed) visits := by
  cases passed with
  | true =>
    obtain ⟨hfirst, hgroup⟩ := hgo rfl
    cases policy with
    | first => exact absurd rfl hfirst
    | earlyExit => simp [visitsLeft, hgroup rfl]
    | longest => simp [visitsLeft]
  | false =>
    cases hfinal : (dfa.state visit.state).isFinal <;> cases policy <;>
      simp [visitsLeft, visitsUnder, hfinal]

theorem visitsLeft_exit (hgroup : visit.group = none) :
    dfa.visitsLeft .earlyExit true (visit :: visits) = [] := by
  simp [visitsLeft, hgroup]

end Dfa

/-! ## A scan on its way -/

namespace Scan

/-- The scan has seen some of the characters, and the others are left. It has
taken as many as it has seen, and the visits that are left are still to come. -/
structure Underway (dfa : Dfa) (policy : MatchPolicy) (text : String) (passed : Bool)
    (seen : List Char) (scan : Scan) (rest : List Char) : Prop where
  after_eq : (start dfa).after? dfa seen = some scan
  split : seen ++ rest = text.toList
  taken_eq : dfa.taken policy text = seen.length +
    (dfa.visitsLeft policy passed (dfa.walkFrom scan.state rest)).length

namespace Underway

variable {dfa : Dfa} {policy : MatchPolicy} {text : String} {passed : Bool}
  {seen rest : List Char} {c : Char} {scan : Scan} {target : StateId}

theorem start (dfa : Dfa) (policy : MatchPolicy) (text : String) :
    Underway dfa policy text false [] (Scan.start dfa) text.toList where
  after_eq := rfl
  split := rfl
  taken_eq := (Nat.zero_add _).symm

theorem length_lt (h : Underway dfa policy text passed seen scan (c :: rest)) :
    seen.length < text.toList.length := by
  rw [← h.split, List.length_append, List.length_cons]
  omega

theorem taken_of_nil (h : Underway dfa policy text passed seen scan []) :
    dfa.taken policy text = seen.length := by
  rw [h.taken_eq, Dfa.walkFrom, Dfa.visitsLeft_nil]
  rfl

theorem taken_of_dead (h : Underway dfa policy text passed seen scan (c :: rest))
    (hnext : dfa.findNext scan.state c = none) : dfa.taken policy text = seen.length := by
  rw [h.taken_eq, Dfa.walkFrom, hnext, Dfa.visitsLeft_nil]
  rfl

theorem length_walk_of_dead (h : Underway dfa policy text passed seen scan (c :: rest))
    (hnext : dfa.findNext scan.state c = none) : (dfa.walk text).length = seen.length := by
  rw [length_walk h.after_eq h.split, Dfa.walkFrom, hnext]
  rfl

theorem taken_of_exit (h : Underway dfa .earlyExit text true seen scan (c :: rest))
    (hnext : dfa.findNext scan.state c = some target)
    (hgroup : scan.groupInto? dfa target = none) : dfa.taken .earlyExit text = seen.length := by
  have hvisit : (dfa.state scan.state).groupInto? target = none := hgroup
  rw [h.taken_eq, Dfa.walkFrom, hnext, Dfa.visitsLeft_exit hvisit]
  rfl

theorem taken_of_first (h : Underway dfa .first text true seen scan rest) :
    dfa.taken .first text = seen.length := h.taken_eq

theorem move (h : Underway dfa policy text passed seen scan (c :: rest))
    (hnext : dfa.findNext scan.state c = some target)
    (hgo : passed = true →
      policy ≠ .first ∧ (policy = .earlyExit → (scan.groupInto? dfa target).isSome = true)) :
    Underway dfa policy text ((dfa.state target).isFinal || passed) (seen ++ [c])
      (scan.move dfa target c) rest where
  after_eq := after?_concat_eq_some.2 ⟨scan, target, h.after_eq, hnext, rfl⟩
  split := by rw [← h.split, List.append_assoc, List.singleton_append]
  taken_eq := by
    have hvisits : dfa.walkFrom scan.state (c :: rest) =
        ⟨target, scan.groupInto? dfa target⟩ :: dfa.walkFrom target rest := by
      rw [Dfa.walkFrom, hnext]
      rfl
    rw [h.taken_eq, hvisits, Dfa.visitsLeft_cons _ _ _ _ _ hgo, List.length_cons,
      List.length_append, List.length_singleton, state_move]
    dsimp only
    omega

end Underway

end Scan

/-! ## Where a scan stops -/

/-- The place of a stop, told by the number of characters before it: the last
one that accepts of those that the scan gets to, or the end. -/
inductive StopsAt (dfa : Dfa) (policy : MatchPolicy) (text : String) : Option Stop → Prop
  | nowhere : dfa.acceptedAfter text = ∅ → dfa.endState? text = none → StopsAt dfa policy text none
  | behind {u : List Char} {scan : Scan} :
    IsGreatest {k ∈ dfa.acceptedAfter text | k ≤ dfa.taken policy text} u.length →
    (policy ≠ .first → dfa.taken policy text = text.toList.length → dfa.endState? text = none) →
    StopsAt dfa policy text (some ⟨.behind u, scan⟩)
  | atEnd {scan : Scan} : dfa.taken policy text = text.toList.length →
    (policy = .first → dfa.acceptedAfter text = ∅) → dfa.endState? text = some scan.state →
    StopsAt dfa policy text (some ⟨.atEnd, scan⟩)

/-- The stop is the last behind at most `k` characters. -/
inductive LastBefore (dfa : Dfa) (text : String) (k : Nat) : Option Stop → Prop
  | nowhere : (∀ j ∈ dfa.acceptedAfter text, k < j) → LastBefore dfa text k none
  | behind {u : List Char} {scan : Scan} :
    IsGreatest {j ∈ dfa.acceptedAfter text | j ≤ k} u.length →
    LastBefore dfa text k (some ⟨.behind u, scan⟩)

section

variable {dfa : Dfa} {policy : MatchPolicy} {text : String} {seen rest : List Char} {c : Char}
  {scan next : Scan} {last : Option Stop} {k : Nat}

theorem LastBefore.concat (h : LastBefore dfa text seen.length last)
    (hnext : (Scan.start dfa).after? dfa (seen ++ [c]) = some next)
    (htext : seen ++ c :: rest = text.toList) :
    LastBefore dfa text (seen ++ [c]).length
      (Scan.stopAt? dfa (.behind (seen ++ [c])) next <|> last) := by
  have hmem := Scan.length_concat_mem_acceptedAfter_iff hnext htext
  have hlength : (seen ++ [c]).length = seen.length + 1 := by simp
  cases hfinal : (dfa.state next.state).isFinal with
  | true =>
    have hstop : Scan.stopAt? dfa (.behind (seen ++ [c])) next =
        some ⟨.behind (seen ++ [c]), next⟩ := if_pos hfinal
    rw [hstop]
    exact .behind ⟨⟨hmem.2 hfinal, Nat.le_refl _⟩, fun j hj => hj.2⟩
  | false =>
    have hstop : Scan.stopAt? dfa (.behind (seen ++ [c])) next = none := by
      simp [Scan.stopAt?, hfinal]
    -- The new place does not accept, so what was last still is.
    have hle : ∀ j ∈ dfa.acceptedAfter text, j ≤ (seen ++ [c]).length ↔ j ≤ seen.length := by
      intro j hj
      refine ⟨fun hle => ?_, fun hle => by omega⟩
      rcases Nat.lt_or_eq_of_le hle with hlt | rfl
      · omega
      · rw [hmem.1 hj] at hfinal
        cases hfinal
    rw [hstop]
    cases h with
    | nowhere hnone =>
      refine .nowhere fun j hj => ?_
      have hlater := hnone j hj
      rw [← Nat.not_le] at hlater ⊢
      exact mt (hle j hj).1 hlater
    | behind hgreatest =>
      have hsep : {j ∈ dfa.acceptedAfter text | j ≤ (seen ++ [c]).length} =
          {j ∈ dfa.acceptedAfter text | j ≤ seen.length} := Set.sep_ext_iff.2 hle
      exact .behind (hsep ▸ hgreatest)

theorem LastBefore.stopsAt (h : LastBefore dfa text seen.length last)
    (htaken : dfa.taken policy text = seen.length)
    (hwalk : last = none → (dfa.walk text).length = seen.length)
    (hend : last = none ∨ policy ≠ .first ∧ dfa.taken policy text = text.toList.length →
      dfa.endState? text = none) :
    StopsAt dfa policy text last := by
  cases h with
  | nowhere hnone =>
    refine .nowhere (Set.eq_empty_of_forall_notMem fun j hj => ?_) (hend (.inl rfl))
    have hle := Dfa.le_length_of_mem_acceptedAfter hj
    rw [hwalk rfl] at hle
    exact Nat.not_le.2 (hnone j hj) hle
  | behind hgreatest =>
    rw [← htaken] at hgreatest
    exact .behind hgreatest fun hpolicy hall => hend (.inr ⟨hpolicy, hall⟩)

namespace Scan

theorem isSome_stopAt? (dfa : Dfa) (place : Place) (scan : Scan) :
    (stopAt? dfa place scan).isSome = (dfa.state scan.state).isFinal := by
  unfold stopAt?
  cases (dfa.state scan.state).isFinal <;> rfl

theorem stopsAt_atEnd (hscan : (start dfa).after? dfa text.toList = some scan)
    (hlast : LastBefore dfa text text.toList.length last) (hfirst : policy = .first → last = none)
    (htaken : dfa.taken policy text = text.toList.length) :
    StopsAt dfa policy text (scan.stopAtEnd? dfa <|> last) := by
  have hwalk := length_walk hscan (List.append_nil _)
  have hend := endState?_eq hscan
  cases hstop : scan.stopAtEnd? dfa with
  | none =>
    rw [hstop] at hend
    exact hlast.stopsAt htaken (fun _ => hwalk) fun _ => hend
  | some stop =>
    rw [hstop] at hend
    obtain ⟨behind, -, hbehind⟩ := Option.bind_eq_some_iff.1 hstop
    obtain ⟨-, rfl⟩ := stopAt?_eq_some.1 hbehind
    refine .atEnd htaken (fun heq => ?_) hend
    have hnone := hfirst heq
    subst hnone
    cases hlast with
    | nowhere hlater =>
      refine Set.eq_empty_of_forall_notMem fun j hj => Nat.not_le.2 (hlater j hj) ?_
      exact Nat.le_trans (Dfa.le_length_of_mem_acceptedAfter hj) (dfa.length_walk_le text)

/-- **The place where a scan stops**, from a place on its way: the last stop so
far is the last place seen that accepts. -/
theorem stopsAt_stopFrom (h : Underway dfa policy text last.isSome seen scan rest)
    (hlast : LastBefore dfa text seen.length last) (hfirst : policy = .first → last = none) :
    StopsAt dfa policy text (stopFrom dfa policy last seen scan rest) := by
  induction rest generalizing last seen scan with
  | nil =>
    have htaken := h.taken_of_nil
    obtain ⟨hscan, htext, -⟩ := h
    rw [List.append_nil] at htext
    subst htext
    exact stopsAt_atEnd hscan hlast hfirst htaken
  | cons c rest ih =>
    unfold stopFrom
    cases hnext : dfa.findNext scan.state c with
    | none =>
      have hwalk := h.length_walk_of_dead hnext
      exact hlast.stopsAt (h.taken_of_dead hnext) (fun _ => hwalk) fun _ =>
        endState?_eq_none (hwalk ▸ h.length_lt)
    | some target =>
      dsimp only
      split
      · next hexit =>
        -- The early exit does not take the step.
        simp only [Bool.and_eq_true, decide_eq_true_eq, Option.isNone_iff_eq_none] at hexit
        obtain ⟨rfl, hsome, hgroup⟩ := hexit
        have hne : last ≠ none := Option.isSome_iff_ne_none.1 hsome
        have htaken := (hsome ▸ h).taken_of_exit hnext hgroup
        refine hlast.stopsAt htaken (fun hnone => absurd hnone hne) fun hend => ?_
        rcases hend with hnone | ⟨-, hall⟩
        · exact absurd hnone hne
        · exact absurd (htaken.symm.trans hall) h.length_lt.ne
      · next hgo =>
        have hmove := h.move hnext fun hsome => by
          refine ⟨fun heq => ?_, fun heq => ?_⟩
          · rw [hfirst heq] at hsome
            cases hsome
          · exact Option.isSome_iff_ne_none.2 (by simpa [heq, hsome] using hgo)
        have hlast' := hlast.concat hmove.after_eq h.split
        have hhere : (stopAt? dfa (.behind (seen ++ [c])) (scan.move dfa target c)).isSome =
            (dfa.state target).isFinal := by
          rw [isSome_stopAt?, state_move]
        split
        · next hstop =>
          -- The first scan stops right here.
          obtain ⟨hpolicy, hsome⟩ := Bool.and_eq_true_iff.1 hstop
          obtain rfl := of_decide_eq_true hpolicy
          obtain ⟨stop, hstop⟩ := Option.isSome_iff_exists.1 hsome
          rw [← hhere, hsome] at hmove
          rw [hstop] at hlast' ⊢
          refine LastBefore.stopsAt hlast' hmove.taken_of_first (fun hnone => by cases hnone)
            fun hend => ?_
          rcases hend with hnone | ⟨hne, -⟩
          · cases hnone
          · exact absurd rfl hne
        · next hgoes =>
          refine ih ?_ hlast' fun heq => ?_
          · rw [← hhere] at hmove
            simpa using hmove
          · have hnone : stopAt? dfa (.behind (seen ++ [c])) (scan.move dfa target c) = none := by
              simpa [heq] using hgoes
            rw [hnone, hfirst heq]
            rfl

theorem stopsAt_start (dfa : Dfa) (policy : MatchPolicy) (text : String) :
    StopsAt dfa policy text (stopFrom dfa policy none [] (start dfa) text.toList) :=
  stopsAt_stopFrom (.start dfa policy text) (.nowhere fun _ hj => hj.1) fun _ => rfl

end Scan

/-! ## The answer at the stop -/

namespace Scan

variable {stop : Stop} {recorded : Option (Option PatternId)} {acceptance : Acceptance}

theorem slots_of_acceptAtEnd? (h : scan.acceptAtEnd? dfa = some acceptance) :
    acceptance.slots = scan.slots := by
  unfold acceptAtEnd? at h
  split at h
  · cases h
  · exact (slots_of_acceptHere? h :)

/-- The early exit answers with what all the characters taken were credited to. -/
theorem texts_earlyExit (hway : Underway dfa .earlyExit text recorded.isSome seen scan rest)
    (h : earlyExit dfa recorded scan rest = some acceptance) :
    acceptance.slots.texts = dfa.creditAfter text (dfa.taken .earlyExit text) := by
  -- Where the scan ends, it has taken the characters seen.
  have hends : ∀ {seen rest : List Char} {scan : Scan} {passed : Bool},
      Underway dfa .earlyExit text passed seen scan rest →
      dfa.taken .earlyExit text = seen.length → acceptance.slots = scan.slots →
      acceptance.slots.texts = dfa.creditAfter text (dfa.taken .earlyExit text) := by
    intro seen rest scan passed hway htaken hslots
    rw [htaken, creditAfter_length hway.after_eq hway.split, hslots]
  have hrecorded : ∀ {recorded : Option (Option PatternId)} {scan : Scan},
      recorded.map (Acceptance.mk scan.slots) = some acceptance →
      acceptance.slots = scan.slots := by
    intro recorded scan h
    obtain ⟨pattern, -, rfl⟩ := Option.map_eq_some_iff.1 h
    rfl
  induction rest generalizing recorded seen scan with
  | nil =>
    refine hends hway hway.taken_of_nil ?_
    unfold earlyExit at h
    rcases (Option.orElse_eq_some _ _ _).1 h with h | ⟨-, h⟩
    · exact slots_of_acceptAtEnd? h
    · exact hrecorded h
  | cons c rest ih =>
    unfold earlyExit at h
    cases hnext : dfa.findNext scan.state c with
    | none =>
      simp only [hnext] at h
      exact hends hway (hway.taken_of_dead hnext) (hrecorded h)
    | some target =>
      simp only [hnext] at h
      split at h
      · next hexit =>
        obtain ⟨hsome, hgroup⟩ := Bool.and_eq_true_iff.1 hexit
        have htaken := (hsome ▸ hway).taken_of_exit hnext (Option.isNone_iff_eq_none.1 hgroup)
        exact hends hway htaken (hrecorded h)
      · next hgo =>
        have hgroup : recorded.isSome = true → (scan.groupInto? dfa target).isSome = true :=
          fun hsome => Option.isSome_iff_ne_none.2 (by simpa [hsome] using hgo)
        have hmove := hway.move hnext fun hsome => ⟨by decide, fun _ => hgroup hsome⟩
        have hhere : (((scan.move dfa target c).acceptHere? dfa).map (·.pattern) <|>
            recorded).isSome = ((dfa.state target).isFinal || recorded.isSome) := by simp
        exact ih (hhere ▸ hmove) h

theorem texts_under_earlyExit (h : under .earlyExit dfa text.toList = some acceptance) :
    acceptance.slots.texts = dfa.creditAfter text (dfa.taken .earlyExit text) := by
  have hway : Underway dfa .earlyExit text (none : Option (Option PatternId)).isSome []
      (start dfa) text.toList := .start dfa .earlyExit text
  exact texts_earlyExit hway h

/-- A scan accepts on its way or at the end exactly when it has a stop there, and
for the pattern of that stop. -/
theorem map_pattern_under (dfa : Dfa) (policy : MatchPolicy) (text : List Char) :
    (under policy dfa text).map (·.pattern) =
      (stopFrom dfa policy none [] (start dfa) text).map fun stop =>
        (stop.acceptance dfa).pattern := by
  cases policy with
  | first =>
    rw [under, first_eq dfa [], Option.map_map]
    rfl
  | earlyExit => exact pattern_earlyExit dfa none [] _ _
  | longest =>
    rw [under_longest, ← Option.map_none (f := Stop.acceptance dfa), longestKept_eq dfa none [],
      Option.map_map]
    rfl

theorem accepts_eq_accept {place : Place} (h : Stop.Accepts dfa text.toList ⟨place, scan⟩) :
    match place with
    | .behind u => dfa.stateAfter? text u.length = some scan.state ∧
        dfa.outcomeOf (some ⟨place, scan⟩) = dfa.accept text u.length scan.state
    | .atEnd => dfa.outcomeOf (some ⟨place, scan⟩) =
        dfa.accept text text.toList.length scan.state := by
  cases place with
  | behind u =>
    obtain ⟨rest, hrest⟩ := h.within
    have hcredit := creditAfter_length h.at_eq hrest
    refine ⟨stateAfter?_length h.at_eq hrest, ?_⟩
    rw [Dfa.outcomeOf, Outcome.accepted, Stop.acceptance, Dfa.accept, hcredit]
  | atEnd =>
    obtain ⟨scan', hscan', hend⟩ := Option.bind_eq_some_iff.1 h.at_eq
    obtain ⟨target, -, rfl⟩ := Option.map_eq_some_iff.1 hend
    have hcredit := creditAfter_length hscan' (List.append_nil _)
    rw [Dfa.outcomeOf, Outcome.accepted, Stop.acceptance, Dfa.accept, hcredit]

end Scan

end

namespace Dfa

variable {dfa : Dfa} {policy : MatchPolicy} {text : String} {outcome : Outcome}

/-- Where nothing is accepted on the way or at the end, the initial state
decides. -/
theorem replays_initially (hnone : dfa.acceptedAfter text = ∅) (hend : dfa.endState? text = none) :
    dfa.Replays text policy
      (dfa.outcomeOf (Scan.stopAt? dfa (.behind []) (Scan.start dfa))) := by
  unfold Scan.stopAt? Scan.start
  cases hfinal : (dfa.state dfa.initial).isFinal with
  | true => exact .initially hnone hend hfinal
  | false => exact .rejected hnone hend hfinal

theorem length_before_lt {k : Nat} (hk : k ∈ dfa.acceptedAfter text) :
    ((dfa.walk text).takeWhile fun visit => !(dfa.state visit.state).isFinal).length < k := by
  obtain ⟨hpos, q, hq, hfinal⟩ := hk
  obtain ⟨j, rfl⟩ := Nat.exists_eq_add_one.2 hpos
  rw [stateAfter?_succ] at hq
  obtain ⟨visit, hvisit, rfl⟩ := Option.map_eq_some_iff.1 hq
  refine Nat.lt_succ_of_le (Nat.not_lt.1 fun hlt => ?_)
  obtain ⟨behind, hprefix⟩ :=
    List.takeWhile_prefix (l := dfa.walk text) fun visit => !(dfa.state visit.state).isFinal
  rw [← hprefix, List.getElem?_append_left hlt] at hvisit
  have hreject := List.all_eq_true.1 List.all_takeWhile visit (List.mem_of_getElem? hvisit)
  rw [hfinal] at hreject
  cases hreject

theorem taken_first_le {k : Nat} (hk : k ∈ dfa.acceptedAfter text) :
    dfa.taken .first text ≤ k := by
  have hbefore := length_before_lt hk
  have hone : ∀ visits : List Visit, (visits.take 1).length ≤ 1 := fun visits => by simp
  rw [taken, visitsUnder, List.length_append]
  exact Nat.le_trans (Nat.add_le_add_left (hone _) _) hbefore

/-- A scan that does not exit early answers with what it has at its stop. -/
theorem replays_of_stop (hpolicy : policy ≠ .earlyExit) {stop : Stop}
    (hstops : StopsAt dfa policy text (some stop)) (h : Stop.Accepts dfa text.toList stop) :
    dfa.Replays text policy (dfa.outcomeOf (some stop)) := by
  have haccept := Scan.accepts_eq_accept h
  cases hstops with
  | behind hgreatest hend =>
    obtain ⟨hstate, heq⟩ := haccept
    rw [heq]
    cases policy with
    | first =>
      have hleast : IsLeast (dfa.acceptedAfter text) _ :=
        ⟨hgreatest.1.1, fun k hk => Nat.le_trans hgreatest.1.2 (taken_first_le hk)⟩
      exact .first_behind hleast hstate
    | earlyExit => exact absurd rfl hpolicy
    | longest =>
      have hgreatest := isGreatest_acceptedAfter hgreatest
      have hend : dfa.endState? text = none := by
        rcases Nat.lt_or_eq_of_le (dfa.length_walk_le text) with hlt | heq
        · exact Scan.endState?_eq_none hlt
        · exact hend (by decide) heq
      exact .longest_behind hend hgreatest hstate
  | atEnd htaken hfirst hend =>
    rw [haccept]
    cases policy with
    | first => exact .first_atEnd (hfirst rfl) hend
    | earlyExit => exact absurd rfl hpolicy
    | longest => exact .longest_atEnd hend

/-- The early exit answers for its stop with the captures of all that it took. -/
theorem replays_of_earlyExit {stop : Stop} {acceptance : Acceptance}
    (hstops : StopsAt dfa .earlyExit text (some stop)) (h : Stop.Accepts dfa text.toList stop)
    (hunder : Scan.under .earlyExit dfa text.toList = some acceptance)
    (hpattern : acceptance.pattern = (stop.acceptance dfa).pattern) :
    dfa.Replays text .earlyExit (.accepted acceptance) := by
  have heq : Outcome.accepted acceptance =
      dfa.accept text (dfa.taken .earlyExit text) stop.scan.state := by
    rw [Outcome.accepted, accept, Scan.texts_under_earlyExit hunder, hpattern]
    rfl
  have haccept := Scan.accepts_eq_accept h
  rw [heq]
  cases hstops with
  | behind hgreatest hend => exact .earlyExit_behind (hend (by decide)) hgreatest haccept.1
  | atEnd htaken hfirst hend =>
    rw [htaken]
    exact .earlyExit_atEnd htaken hend

/-- **A scan answers what a replay of its path does.** -/
theorem replays_scan (dfa : Dfa) (policy : MatchPolicy) (text : String) :
    dfa.Replays text policy (dfa.scan policy text) := by
  have hstops := Scan.stopsAt_start dfa policy text
  have hpattern := Scan.map_pattern_under dfa policy text.toList
  cases hstop : Scan.stopFrom dfa policy none [] (Scan.start dfa) text.toList with
  | none =>
    rw [hstop] at hstops hpattern
    rw [scan_of_under_eq_none (Option.map_eq_none_iff.1 hpattern)]
    cases hstops with
    | nowhere hnone hend => exact replays_initially hnone hend
  | some stop =>
    have hstop? : Scan.stop? dfa policy text.toList = some stop := by
      rw [Scan.stop?, hstop]
      rfl
    have haccepts := (Scan.settled_of_stop? hstop?).toAccepts
    rw [hstop] at hstops hpattern
    by_cases hpolicy : policy = .earlyExit
    · subst hpolicy
      obtain ⟨acceptance, hunder, heq⟩ := Option.map_eq_some_iff.1 hpattern
      rw [scan, hunder]
      exact replays_of_earlyExit hstops haccepts hunder heq
    · rw [scan_eq_outcomeOf dfa hpolicy, hstop?]
      exact replays_of_stop hpolicy hstops haccepts

/-- **A scan answers what a replay of its path does, and nothing else.** The first
scan reports the pattern and the captures behind the least number of characters that
lead to an accepting state, and the longest scan those behind the greatest, unless the
end of the line accepts; the first scan goes to the end of the line when nothing else
accepts. Without any of these the initial state decides, and there are no captures. -/
theorem scan_eq_iff_replays (dfa : Dfa) (policy : MatchPolicy) (text : String)
    (outcome : Outcome) :
    dfa.scan policy text = outcome ↔ dfa.Replays text policy outcome := by
  constructor
  · rintro rfl
    exact dfa.replays_scan policy text
  · intro hreplays
    exact (dfa.replays_scan policy text).unique hreplays

end Dfa

end LinePattern
