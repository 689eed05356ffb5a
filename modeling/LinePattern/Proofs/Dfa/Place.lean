/-
The place where a scan stops.

A scan accepts behind some of the characters of its text, or at the end, behind
a step along the end of the line. `stop?` goes the way of the scan and says at
which of these places it stops: what the scan answers is read off the stop
(`scan_eq_outcomeOf`), under the early exit all but the captures (`scan_agrees`).
A stop is a place that accepts, and the end goes before the place behind the
last character, except where the policy stops at the first place
(`settled_of_stop?`).

For a determinised automaton the places that accept are told by courses alone
(`Numbered.matched_iff`), and so is the pattern of the state there
(`Numbered.exists_word`).
-/
import LinePattern.Proofs.Dfa.Course
import LinePattern.Proofs.Dfa.Rewind

namespace LinePattern

/-- A place where a text can be accepted. -/
inductive Place where
  /-- Behind these characters. -/
  | behind (u : List Char)
  /-- Behind the last character and the end of the line. -/
  | atEnd
deriving DecidableEq

namespace Place

variable {text : List Char} {L : Language Glyph}

/-- The place is one of the text. -/
def Within (text : List Char) : Place → Prop
  | behind u => u <+: text
  | atEnd => True

/-- What is read up to the place. -/
def glyphs (text : List Char) : Place → List Glyph
  | behind u => u.map .char
  | atEnd => text.map .char ++ [.endOfText]

section

variable {place : Place} {u : List Char}

theorem exists_append_of_glyphs (hplace : place.Within text)
    (h : place.glyphs text = u.map .char) : ∃ rest, text = u ++ rest := by
  cases place with
  | behind v =>
    obtain rfl : v = u := List.map_injective_iff.2 (fun _ _ => Glyph.char.inj) h
    exact hplace.imp fun _ => Eq.symm
  | atEnd =>
    have hmark : Glyph.endOfText ∈ u.map Glyph.char := by simp [← h, glyphs]
    simp at hmark

theorem eq_of_glyphs (h : place.glyphs text = u.map .char ++ [.endOfText]) : text = u := by
  cases place with
  | behind v =>
    have hmark : Glyph.endOfText ∈ v.map Glyph.char := by
      have heq : v.map Glyph.char = u.map .char ++ [.endOfText] := h
      simp [heq]
    simp at hmark
  | atEnd => exact List.map_injective_iff.2 (fun _ _ => Glyph.char.inj) (List.append_cancel_right h)

end

end Place

/-- A place and the scan there. -/
structure Stop where
  place : Place
  scan : Scan
deriving DecidableEq

namespace Stop

/-- What is accepted with the scan at the stop. -/
def acceptance (dfa : Dfa) (stop : Stop) : Acceptance :=
  ⟨stop.scan.slots, (dfa.state stop.scan.state).pattern⟩

end Stop

namespace Scan

/-- The scan behind a step along the end of the line. -/
def behindEnd? (dfa : Dfa) (scan : Scan) : Option Scan :=
  ((dfa.state scan.state).next? .endOfLine).map (⟨·, scan.slots⟩)

/-- The scan at a place of the text it goes on with. -/
def at? (dfa : Dfa) (scan : Scan) (text : List Char) : Place → Option Scan
  | .behind u => scan.after? dfa u
  | .atEnd => (scan.after? dfa text).bind (·.behindEnd? dfa)

/-- The stop at a place where the state accepts. -/
def stopAt? (dfa : Dfa) (place : Place) (scan : Scan) : Option Stop :=
  if (dfa.state scan.state).isFinal then some ⟨place, scan⟩ else none

/-- The stop behind a step along the end of the line, if it leads to an
accepting state. -/
def stopAtEnd? (dfa : Dfa) (scan : Scan) : Option Stop :=
  (scan.behindEnd? dfa).bind (stopAt? dfa .atEnd)

/-- The stop of a scan that has seen some characters and goes on. `last` is the
last place on the way that accepts. -/
def stopFrom (dfa : Dfa) (policy : MatchPolicy) (last : Option Stop) (seen : List Char)
    (scan : Scan) : List Char → Option Stop
  | [] => scan.stopAtEnd? dfa <|> last
  | c :: rest =>
    match dfa.findNext scan.state c with
    | none => last
    | some target =>
      if policy = .earlyExit && (last.isSome && (scan.groupInto? dfa target).isNone) then last
      else
        let next := scan.move dfa target c
        let here := stopAt? dfa (.behind (seen ++ [c])) next
        if policy = .first && here.isSome then here
        else stopFrom dfa policy (here <|> last) (seen ++ [c]) next rest

/-- The stop of the scan of a text. -/
def stop? (dfa : Dfa) (policy : MatchPolicy) (text : List Char) : Option Stop :=
  stopFrom dfa policy none [] (start dfa) text <|> stopAt? dfa (.behind []) (start dfa)

end Scan

/-! ## The answers at a stop -/

namespace Scan

variable {dfa : Dfa} {scan : Scan} {last : Option Stop} {seen text : List Char} {place : Place}

theorem acceptHere?_eq (dfa : Dfa) (place : Place) (scan : Scan) :
    scan.acceptHere? dfa = (stopAt? dfa place scan).map (·.acceptance dfa) := by
  simp only [acceptHere?, stopAt?, Option.map_if]
  rfl

theorem acceptAtEnd?_eq (dfa : Dfa) (scan : Scan) :
    scan.acceptAtEnd? dfa = (scan.stopAtEnd? dfa).map (·.acceptance dfa) := by
  unfold acceptAtEnd? stopAtEnd? behindEnd?
  cases (dfa.state scan.state).next? .endOfLine with
  | none => rfl
  | some target => exact acceptHere?_eq dfa .atEnd _

theorem first_eq (dfa : Dfa) (seen : List Char) (scan : Scan) (text : List Char) :
    first dfa scan text = (stopFrom dfa .first none seen scan text).map (·.acceptance dfa) := by
  induction text generalizing seen scan with
  | nil => simp [first, stopFrom, acceptAtEnd?_eq]
  | cons c rest ih =>
    unfold first stopFrom
    cases dfa.findNext scan.state c with
    | none => rfl
    | some target =>
      simp only [acceptHere?_eq dfa (.behind (seen ++ [c])), ih (seen ++ [c])]
      cases stopAt? dfa (.behind (seen ++ [c])) (scan.move dfa target c) <;> simp

theorem longestKept_eq (dfa : Dfa) (last : Option Stop) (seen : List Char) (scan : Scan)
    (text : List Char) : longestKept dfa (last.map (·.acceptance dfa)) scan text =
      (stopFrom dfa .longest last seen scan text).map (·.acceptance dfa) := by
  induction text generalizing last seen scan with
  | nil => simp [longestKept, stopFrom, acceptAtEnd?_eq, Option.map_or]
  | cons c rest ih =>
    unfold longestKept stopFrom
    cases dfa.findNext scan.state c with
    | none => rfl
    | some target =>
      simp [acceptHere?_eq dfa (.behind (seen ++ [c])), ← ih, Option.map_or]

/-- The early exit answers with the pattern of its stop, and with the slots of
the scan where it ends. -/
theorem pattern_earlyExit (dfa : Dfa) (last : Option Stop) (seen : List Char) (scan : Scan)
    (text : List Char) :
    (earlyExit dfa (last.map fun stop => (stop.acceptance dfa).pattern) scan text).map (·.pattern) =
      (stopFrom dfa .earlyExit last seen scan text).map fun stop =>
        (stop.acceptance dfa).pattern := by
  induction text generalizing last seen scan with
  | nil => simp [earlyExit, stopFrom, acceptAtEnd?_eq, Option.map_or, Function.comp_def]
  | cons c rest ih =>
    unfold earlyExit stopFrom
    cases dfa.findNext scan.state c with
    | none => simp [Function.comp_def]
    | some target =>
      simp only [acceptHere?_eq dfa (.behind (seen ++ [c])), Option.isSome_map, Option.map_map]
      by_cases hexit : (last.isSome && (scan.groupInto? dfa target).isNone) = true
      · simp [hexit, Function.comp_def]
      · simp [hexit, Function.comp_def, ← ih, Option.map_or]

end Scan

namespace Dfa

variable {dfa : Dfa} {policy : MatchPolicy}

/-- What a scan answers for its stop. -/
def outcomeOf (dfa : Dfa) (stop : Option Stop) : Outcome :=
  match stop with
  | some stop => .accepted (stop.acceptance dfa)
  | none => .rejected

theorem matched_outcomeOf (stop : Option Stop) : (dfa.outcomeOf stop).matched = stop.isSome := by
  cases stop <;> rfl

theorem scan_of_under_eq_none {text : String} (h : Scan.under policy dfa text.toList = none) :
    dfa.scan policy text =
      dfa.outcomeOf (Scan.stopAt? dfa (.behind []) (Scan.start dfa)) := by
  rw [scan, h]
  unfold Scan.stopAt? Scan.start
  cases hfinal : (dfa.state dfa.initial).isFinal <;> simp [hfinal, outcomeOf, Stop.acceptance]

theorem scan_eq_outcomeOf (dfa : Dfa) (hpolicy : policy ≠ .earlyExit) (text : String) :
    dfa.scan policy text = dfa.outcomeOf (Scan.stop? dfa policy text.toList) := by
  have hunder : Scan.under policy dfa text.toList =
      (Scan.stopFrom dfa policy none [] (Scan.start dfa) text.toList).map (·.acceptance dfa) := by
    cases policy with
    | first => exact Scan.first_eq dfa [] _ _
    | earlyExit => exact absurd rfl hpolicy
    | longest =>
      exact (Scan.under_longest dfa _).trans (Scan.longestKept_eq dfa none [] _ _)
  rw [Scan.stop?]
  cases hstop : Scan.stopFrom dfa policy none [] (Scan.start dfa) text.toList with
  | some stop =>
    rw [hstop] at hunder
    rw [scan, hunder]
    rfl
  | none =>
    rw [hstop] at hunder
    rw [scan_of_under_eq_none hunder]
    rfl

/-- Whatever the policy, a text matches when its scan has a stop, for the
pattern of the stop. -/
theorem scan_agrees (dfa : Dfa) (policy : MatchPolicy) (text : String) :
    (dfa.scan policy text).matched = (Scan.stop? dfa policy text.toList).isSome ∧
      (dfa.scan policy text).pattern =
        (dfa.outcomeOf (Scan.stop? dfa policy text.toList)).pattern := by
  by_cases hpolicy : policy = .earlyExit
  · subst hpolicy
    have hpattern : (Scan.under .earlyExit dfa text.toList).map (·.pattern) =
        (Scan.stopFrom dfa .earlyExit none [] (Scan.start dfa) text.toList).map fun stop =>
          (stop.acceptance dfa).pattern := Scan.pattern_earlyExit dfa none [] _ _
    rw [Scan.stop?]
    cases hstop : Scan.stopFrom dfa .earlyExit none [] (Scan.start dfa) text.toList with
    | some stop =>
      rw [hstop] at hpattern
      obtain ⟨acceptance, hunder, heq⟩ := Option.map_eq_some_iff.1 hpattern
      rw [scan, hunder]
      exact ⟨rfl, heq⟩
    | none =>
      rw [hstop] at hpattern
      rw [scan_of_under_eq_none (Option.map_eq_none_iff.1 hpattern)]
      exact ⟨matched_outcomeOf _, rfl⟩
  · rw [scan_eq_outcomeOf dfa hpolicy]
    exact ⟨matched_outcomeOf _, rfl⟩

end Dfa

/-! ## Stops accept -/

/-- The stop is at a place of the text, the scan there is that of the text, and
its state accepts. -/
structure Stop.Accepts (dfa : Dfa) (text : List Char) (stop : Stop) : Prop where
  within : stop.place.Within text
  at_eq : (Scan.start dfa).at? dfa text stop.place = some stop.scan
  isFinal : (dfa.state stop.scan.state).isFinal = true

namespace Scan

variable {dfa : Dfa} {policy : MatchPolicy} {scan next : Scan} {last : Option Stop} {stop : Stop}
  {seen rest text : List Char} {place : Place} {c : Char}

theorem stopAt?_eq_some : stopAt? dfa place scan = some stop ↔
    (dfa.state scan.state).isFinal = true ∧ ⟨place, scan⟩ = stop := by
  simp [stopAt?]

theorem accepts_of_stopAtEnd? (hscan : (start dfa).after? dfa text = some scan)
    (h : scan.stopAtEnd? dfa = some stop) : stop.Accepts dfa text ∧ stop.place = .atEnd := by
  obtain ⟨next, hnext, hstop⟩ := Option.bind_eq_some_iff.1 h
  obtain ⟨hfinal, rfl⟩ := stopAt?_eq_some.1 hstop
  refine ⟨⟨trivial, ?_, hfinal⟩, rfl⟩
  rw [at?, hscan]
  exact hnext

/-- What the stops on the way have in common: they accept, behind some of the
characters seen. -/
structure Passed (dfa : Dfa) (text seen : List Char) (stop : Stop) : Prop
    extends stop.Accepts dfa text where
  place_eq : ∃ u, u <+: seen ∧ stop.place = .behind u

theorem passed_stopAt? (hseen : seen <+: text) (hscan : (start dfa).after? dfa seen = some scan)
    (h : stopAt? dfa (.behind seen) scan = some stop) : Passed dfa text seen stop := by
  obtain ⟨hfinal, rfl⟩ := stopAt?_eq_some.1 h
  exact ⟨⟨hseen, hscan, hfinal⟩, seen, List.prefix_rfl, rfl⟩

theorem Passed.extend (h : Passed dfa text seen stop) : Passed dfa text (seen ++ [c]) stop := by
  obtain ⟨u, hu, hplace⟩ := h.place_eq
  exact ⟨h.toAccepts, u, hu.trans (List.prefix_append _ _), hplace⟩

/-- A stop that accepts, and is behind the last character only where the end
does not accept: the end goes before that place, unless the policy stops at the
first. -/
structure Settled (dfa : Dfa) (policy : MatchPolicy) (text : List Char) (stop : Stop) : Prop
    extends stop.Accepts dfa text where
  stopAtEnd?_eq : policy ≠ .first ∨ text = [] → stop.place = .behind text →
    stop.scan.stopAtEnd? dfa = none

/-- Before the end of the text there is nothing at the end to be left behind. -/
theorem Passed.settled (h : Passed dfa text seen stop) (htext : seen ++ c :: rest = text) :
    Settled dfa policy text stop := by
  refine ⟨h.toAccepts, fun _ hplace => ?_⟩
  obtain ⟨u, hu, hplace'⟩ := h.place_eq
  obtain rfl : u = text := by
    rw [hplace'] at hplace
    injection hplace
  have hlength := hu.length_le
  rw [← htext, List.length_append, List.length_cons] at hlength
  omega

theorem settled_of_stopFrom (htext : seen ++ rest = text)
    (hscan : (start dfa).after? dfa seen = some scan)
    (hlast : ∀ stop, last = some stop → Passed dfa text seen stop)
    (h : stopFrom dfa policy last seen scan rest = some stop) :
    Settled dfa policy text stop := by
  induction rest generalizing last seen scan with
  | nil =>
    rw [List.append_nil] at htext
    subst htext
    unfold stopFrom at h
    cases hend : scan.stopAtEnd? dfa with
    | some stop' =>
      rw [hend] at h
      cases h
      obtain ⟨haccepts, hplace⟩ := accepts_of_stopAtEnd? hscan hend
      exact ⟨haccepts, fun _ hbehind => by rw [hplace] at hbehind; cases hbehind⟩
    | none =>
      rw [hend] at h
      have hpassed := hlast stop h
      refine ⟨hpassed.toAccepts, fun _ hplace => ?_⟩
      have hat := hpassed.at_eq
      rw [hplace, at?, hscan] at hat
      cases hat
      exact hend
  | cons c rest ih =>
    unfold stopFrom at h
    split at h
    · exact (hlast stop h).settled htext
    · next target hnext =>
      have hscan' : (start dfa).after? dfa (seen ++ [c]) = some (scan.move dfa target c) :=
        after?_concat_eq_some.2 ⟨scan, target, hscan, hnext, rfl⟩
      have hhere : ∀ stop, stopAt? dfa (.behind (seen ++ [c])) (scan.move dfa target c) =
          some stop → Passed dfa text (seen ++ [c]) stop := fun stop =>
        passed_stopAt? ⟨rest, by rw [← htext]; simp⟩ hscan'
      split at h
      · exact (hlast stop h).settled htext
      · dsimp only at h
        split at h
        · next hfirst =>
          have hpolicy : policy = .first := by simpa using (Bool.and_eq_true_iff.1 hfirst).1
          refine ⟨(hhere stop h).toAccepts, fun hlate => absurd hlate ?_⟩
          simp [hpolicy, ← htext]
        · refine ih (by rw [← htext]; simp) hscan' (fun stop' hlast' => ?_) h
          rcases (Option.orElse_eq_some _ _ _).1 hlast' with hlast' | ⟨-, hlast'⟩
          · exact hhere stop' hlast'
          · exact (hlast stop' hlast').extend

/-- **The stop of a scan accepts**, and the end of the text goes before the
place behind its last character. -/
theorem settled_of_stop? (h : stop? dfa policy text = some stop) :
    Settled dfa policy text stop := by
  rcases (Option.orElse_eq_some _ _ _).1 h with h | ⟨hnone, h⟩
  · exact settled_of_stopFrom (List.nil_append text) rfl (fun _ h => by cases h) h
  · obtain ⟨hfinal, rfl⟩ := stopAt?_eq_some.1 h
    refine ⟨⟨List.nil_prefix, rfl, hfinal⟩, fun _ hplace => ?_⟩
    obtain rfl : [] = text := by injection hplace
    exact ((Option.orElse_eq_none _ _).1 hnone).1

/-- Where a scan stops behind the last character, the end does not accept,
unless the policy stops at the first place that does. -/
theorem Settled.not_accepts_atEnd (h : Settled dfa policy text stop)
    (hpolicy : policy ≠ .first ∨ text = []) (hplace : stop.place = .behind text) (next : Scan) :
    ¬ Stop.Accepts dfa text ⟨.atEnd, next⟩ := by
  intro hend
  have hscan := h.at_eq
  rw [hplace, at?] at hscan
  have hnext := hend.at_eq
  rw [at?, hscan, Option.bind_some] at hnext
  have hnone := h.stopAtEnd?_eq hpolicy hplace
  rw [stopAtEnd?, hnext, Option.bind_some, stopAt?, if_pos hend.isFinal] at hnone
  cases hnone

theorem accepts_of_at? (hplace : place.Within text) (hat : scan.at? dfa text place = some next)
    (hfinal : (dfa.state next.state).isFinal = true) :
    ((dfa.state scan.state).isFinal || dfa.accepts scan.state text) = true := by
  induction text generalizing scan place with
  | nil =>
    cases place with
    | behind u =>
      obtain rfl := List.prefix_nil.1 hplace
      cases hat
      simp [hfinal]
    | atEnd =>
      obtain ⟨target, hnext, rfl⟩ := Option.map_eq_some_iff.1 hat
      simp [Dfa.accepts, Dfa.acceptsAtEnd, hnext, hfinal]
  | cons c rest ih =>
    have hstep : ∀ place' : Place, place'.Within rest →
        ((dfa.findNext scan.state c).bind fun target =>
          (scan.move dfa target c).at? dfa rest place') = some next →
        ((dfa.state scan.state).isFinal || dfa.accepts scan.state (c :: rest)) = true := by
      intro place' hplace' hat'
      obtain ⟨target, hnext, hat'⟩ := Option.bind_eq_some_iff.1 hat'
      have hrest := ih hplace' hat'
      rw [state_move] at hrest
      simp [Dfa.accepts, hnext, hrest]
    cases place with
    | behind u =>
      cases u with
      | nil =>
        cases hat
        simp [hfinal]
      | cons d u =>
        obtain ⟨rfl, hu⟩ := List.cons_prefix_cons.1 hplace
        exact hstep (.behind u) hu hat
    | atEnd =>
      rw [at?, after?, Option.bind_assoc] at hat
      exact hstep .atEnd trivial hat

/-- A text matches, under any policy, when some place of it accepts. -/
theorem matched_iff_exists_accepts {text : String} :
    (dfa.scan policy text).matched = true ↔ ∃ stop : Stop, stop.Accepts dfa text.toList := by
  constructor
  · intro h
    rw [(dfa.scan_agrees policy text).1] at h
    obtain ⟨stop, hstop⟩ := Option.isSome_iff_exists.1 h
    exact ⟨stop, (settled_of_stop? hstop).toAccepts⟩
  · rintro ⟨stop, h⟩
    rw [Dfa.matched_scan]
    exact accepts_of_at? h.within h.at_eq h.isFinal

end Scan

/-! ## Places of a determinised automaton -/

namespace Nfa

variable {nfa other : Nfa} {text : List Char} {place : Place} {v w : List Symbol}

/-- The word that a scan takes up to a place of its text. -/
inductive CourseTo (nfa : Nfa) (text : List Char) : Place → List Symbol → Prop
  | behind {u : List Char} {w : List Symbol} : u <+: text → nfa.Course u w →
    CourseTo nfa text (.behind u) w
  | atEnd {w : List Symbol} : nfa.Course text w → nfa.Readable (w ++ [.endOfLine]) →
    CourseTo nfa text .atEnd (w ++ [.endOfLine])

/-- A word taken ends with the end of the line at the end of the text, and nowhere
else. -/
theorem courseTo_endOfLine_iff : nfa.CourseTo text place (w ++ [.endOfLine]) ↔
    place = .atEnd ∧ nfa.Course text w ∧ nfa.Readable (w ++ [.endOfLine]) := by
  constructor
  · intro h
    generalize hv : w ++ [.endOfLine] = v at h
    cases h with
    | behind _ h =>
      subst hv
      obtain ⟨_, c, -, -, htakes⟩ := course_concat_iff.1 h
      cases htakes.accepts
    | atEnd h hread =>
      obtain ⟨rfl, -⟩ := List.append_inj' hv rfl
      exact ⟨rfl, h, hread⟩
  · rintro ⟨rfl, h, hread⟩
    exact .atEnd h hread

namespace CourseTo

theorem of_subset (hsub : ∀ w, other.Readable w → nfa.Readable w) (h : nfa.CourseTo text place w)
    (hw : other.Readable w) : other.CourseTo text place w := by
  cases h with
  | behind hu h => exact .behind hu (h.of_subset hsub hw)
  | atEnd h _ => exact .atEnd (h.of_subset hsub hw.of_append) hw

theorem readable (h : nfa.CourseTo text place w) : nfa.Readable w := by
  cases h with
  | behind _ h => exact h.readable
  | atEnd _ hw => exact hw

theorem reads (h : nfa.CourseTo text place w) :
    List.Forall₂ Symbol.Reads w (place.glyphs text) := by
  cases h with
  | behind _ h => exact h.reads
  | atEnd h _ => exact Symbol.forall₂_reads_concat.2 ⟨_, _, rfl, h.reads, rfl⟩

theorem eq_of_reads (hdisjoint : nfa.ScalarDisjoint) (h : nfa.CourseTo text place w)
    (hv : nfa.Readable v) (hreads : List.Forall₂ Symbol.Reads v (place.glyphs text)) : v = w := by
  cases h with
  | behind _ h => exact h.eq_of_reads hdisjoint hv hreads
  | atEnd h _ =>
    obtain ⟨v', s, rfl, hinit, hs⟩ := Symbol.forall₂_reads_concat.1 hreads
    obtain rfl := Symbol.reads_endOfText.1 hs
    rw [h.eq_of_reads hdisjoint hv.of_append hinit]

theorem of_reads (hdisjoint : nfa.ScalarDisjoint) (hplace : place.Within text)
    (hw : nfa.Readable w) (hreads : List.Forall₂ Symbol.Reads w (place.glyphs text)) :
    nfa.CourseTo text place w := by
  cases place with
  | behind u => exact .behind hplace (.of_reads hdisjoint hw hreads)
  | atEnd =>
    obtain ⟨v, s, rfl, hinit, hs⟩ := Symbol.forall₂_reads_concat.1 hreads
    obtain rfl := Symbol.reads_endOfText.1 hs
    exact .atEnd (.of_reads hdisjoint hw.of_append hinit) hw

end CourseTo

end Nfa

namespace Subset

variable {nfa : Nfa} {sets : StateSets} {dfa : Dfa} {place : Place} {stop : Stop} {scan : Scan}
  {w : List Symbol} {text : List Char}

theorem Numbered.exists_courseTo (hwf : nfa.WellFormed) (h : Numbered nfa sets dfa)
    (hplace : place.Within text) (hat : (Scan.start dfa).at? dfa text place = some scan) :
    ∃ w set, nfa.CourseTo text place w ∧ sets.toArray[scan.state]? = some set ∧
      nfa.Lists w set := by
  cases place with
  | behind u =>
    obtain ⟨w, set, hcourse, hset, hlists⟩ := h.exists_course hwf hat
    exact ⟨w, set, .behind hplace hcourse, hset, hlists⟩
  | atEnd =>
    obtain ⟨scan', hscan', hend⟩ := Option.bind_eq_some_iff.1 hat
    obtain ⟨target, hnext, rfl⟩ := Option.map_eq_some_iff.1 hend
    obtain ⟨w, set, hcourse, hset, hlists⟩ := h.exists_course hwf hscan'
    have hstep := h.next? hwf hset hlists .endOfLine
    rw [hnext] at hstep
    obtain ⟨set', hset', hlists'⟩ := hstep
    obtain ⟨q, hq⟩ := List.exists_mem_of_ne_nil set' (h.known.isStateSet hset').1
    exact ⟨_, set', .atEnd hcourse ⟨q, hlists'.mem_iff.1 hq⟩, hset', hlists'⟩

theorem Numbered.exists_at? (hwf : nfa.WellFormed) (h : Numbered nfa sets dfa)
    (hcourse : nfa.CourseTo text place w) :
    ∃ scan set, (Scan.start dfa).at? dfa text place = some scan ∧
      sets.toArray[scan.state]? = some set ∧ nfa.Lists w set := by
  cases hcourse with
  | behind _ hcourse => exact h.exists_after? hwf hcourse
  | atEnd hcourse hreadable =>
    obtain ⟨scan, set, hscan, hset, hlists⟩ := h.exists_after? hwf hcourse
    have hstep := h.next? hwf hset hlists .endOfLine
    cases hnext : (dfa.state scan.state).next? .endOfLine with
    | none =>
      rw [hnext] at hstep
      exact absurd hstep hreadable.ne_empty
    | some target =>
      rw [hnext] at hstep
      obtain ⟨set', hset', hlists'⟩ := hstep
      refine ⟨⟨target, scan.slots⟩, set', ?_, hset', hlists'⟩
      rw [Scan.at?, hscan, Option.bind_some, Scan.behindEnd?, hnext, Option.map_some]

/-- Where a scan stops, the automaton accepts the word taken, for the patterns
from which that of the state is chosen. -/
theorem Numbered.exists_word (hwf : nfa.WellFormed) (h : Numbered nfa sets dfa)
    (hstop : stop.Accepts dfa text) :
    ∃ w ∈ nfa.language, nfa.CourseTo text stop.place w ∧ ∀ p,
      (dfa.state stop.scan.state).pattern = some p ↔ IsLeast (nfa.patterns (nfa.reach w)) p := by
  obtain ⟨w, set, hcourse, hset, hlists⟩ := h.exists_courseTo hwf hstop.within hstop.at_eq
  refine ⟨w, (h.isFinal_iff hset hlists).1 hstop.isFinal, hcourse, fun p => ?_⟩
  obtain ⟨steps, hstate, -⟩ := h.state hset
  have hreach : {q | q ∈ set} = nfa.reach w := Set.ext fun q => hlists.mem_iff
  rw [hstate, pattern_stateOf_eq_some, hreach]

theorem Numbered.exists_accepts (hwf : nfa.WellFormed) (h : Numbered nfa sets dfa)
    (hcourse : nfa.CourseTo text place w) (hw : w ∈ nfa.language) :
    ∃ scan, Stop.Accepts dfa text ⟨place, scan⟩ := by
  obtain ⟨scan, set, hat, hset, hlists⟩ := h.exists_at? hwf hcourse
  refine ⟨scan, ?_, hat, (h.isFinal_iff hset hlists).2 hw⟩
  cases hcourse with
  | behind hu _ => exact hu
  | atEnd _ _ => trivial

/-- **What a scan accepts, told by courses.** A text matches when the
automaton accepts the word that a scan takes up to some place. -/
theorem Numbered.matched_iff (hwf : nfa.WellFormed) (h : Numbered nfa sets dfa)
    {policy : MatchPolicy} {text : String} :
    (dfa.scan policy text).matched = true ↔
      ∃ place, ∃ w ∈ nfa.language, nfa.CourseTo text.toList place w := by
  rw [Scan.matched_iff_exists_accepts]
  constructor
  · rintro ⟨stop, hstop⟩
    obtain ⟨w, hw, hcourse, -⟩ := h.exists_word hwf hstop
    exact ⟨stop.place, w, hw, hcourse⟩
  · rintro ⟨place, w, hw, hcourse⟩
    obtain ⟨scan, hstop⟩ := h.exists_accepts hwf hcourse hw
    exact ⟨⟨place, scan⟩, hstop⟩

end Subset

end LinePattern
