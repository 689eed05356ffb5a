/-
The beginnings of a text that a scan accepts.

Where no character is accepted by two labels, a scan follows the language: its
path accepts behind the beginnings of the text that belong to the language
(`Numbered.mem_acceptedAfter_iff`), and the end of the line accepts when the text
with the mark for its end belongs to it (`Numbered.isSome_endState?_iff`).
-/
import LinePattern.Proofs.Dfa.Replay

namespace LinePattern

/-- The beginnings of a text that belong to a language, but for the empty one. -/
def beginnings (L : Language Glyph) (text : List Char) : Set (List Char) :=
  {u | u ≠ [] ∧ u <+: text ∧ u.map .char ∈ L}

namespace Subset

variable {nfa : Nfa} {sets : StateSets} {dfa : Dfa} {text : String} {place : Place} {k : Nat}

theorem Numbered.exists_accepts_iff (hwf : nfa.WellFormed) (hdisjoint : nfa.ScalarDisjoint)
    (h : Numbered nfa sets dfa) {text : List Char} (hplace : place.Within text) :
    (∃ scan, Stop.Accepts dfa text ⟨place, scan⟩) ↔ place.glyphs text ∈ readings nfa.language := by
  constructor
  · rintro ⟨scan, haccepts⟩
    obtain ⟨w, hw, hcourse, -⟩ := h.exists_word hwf haccepts
    exact ⟨w, hw, hcourse.reads⟩
  · rintro ⟨w, hw, hreads⟩
    have hcourse := Nfa.CourseTo.of_reads hdisjoint hplace (Nfa.readable_of_mem_language hw) hreads
    exact h.exists_accepts hwf hcourse hw

/-- **The path accepts behind the beginnings that the language has.** -/
theorem Numbered.mem_acceptedAfter_iff (hwf : nfa.WellFormed) (hdisjoint : nfa.ScalarDisjoint)
    (h : Numbered nfa sets dfa) :
    k ∈ dfa.acceptedAfter text ↔ k ≤ text.toList.length ∧
      text.toList.take k ∈ beginnings (readings nfa.language) text.toList := by
  have hplace : (Place.behind (text.toList.take k)).Within text.toList := List.take_prefix k _
  have haccepts := h.exists_accepts_iff hwf hdisjoint hplace
  constructor
  · intro hk
    obtain ⟨hpos, q, hq, hfinal⟩ := hk
    obtain ⟨scan, hscan, rfl, -⟩ := Scan.exists_after?_of_stateAfter? hq
    have hle := (Dfa.le_length_of_stateAfter? hq).trans (dfa.length_walk_le text)
    refine ⟨hle, fun hnil => ?_, hplace, haccepts.1 ⟨scan, hplace, hscan, hfinal⟩⟩
    rcases List.take_eq_nil_iff.1 hnil with rfl | htext
    · exact absurd hpos (Nat.lt_irrefl 0)
    · rw [htext] at hle
      exact absurd hpos (Nat.not_lt.2 hle)
  · rintro ⟨hle, hne, -, hmem⟩
    obtain ⟨scan, hstop⟩ := haccepts.2 hmem
    have hstate := Scan.stateAfter?_length hstop.at_eq (List.take_append_drop k text.toList)
    rw [List.length_take, Nat.min_eq_left hle] at hstate
    refine ⟨Nat.pos_of_ne_zero fun hzero => hne ?_, _, hstate, hstop.isFinal⟩
    rw [hzero, List.take_zero]

/-- **The end of the line accepts the texts that the language has with the
mark.** -/
theorem Numbered.isSome_endState?_iff (hwf : nfa.WellFormed) (hdisjoint : nfa.ScalarDisjoint)
    (h : Numbered nfa sets dfa) :
    (dfa.endState? text).isSome = true ↔
      text.toList.map .char ++ [.endOfText] ∈ readings nfa.language := by
  have hplace : Place.atEnd.Within text.toList := trivial
  refine Iff.trans ?_ (h.exists_accepts_iff hwf hdisjoint hplace)
  constructor
  · intro hend
    obtain ⟨target, htarget⟩ := Option.isSome_iff_exists.1 hend
    obtain ⟨q, hq, -⟩ := Option.bind_eq_some_iff.1 (Option.filter_eq_some_iff.1 htarget).1
    obtain ⟨scan, hscan, -, -⟩ := Scan.exists_after?_of_stateAfter? hq
    rw [List.take_length] at hscan
    rw [Scan.endState?_eq hscan, Option.isSome_map] at hend
    obtain ⟨stop, hstop⟩ := Option.isSome_iff_exists.1 hend
    obtain ⟨hstops, hplace⟩ := Scan.accepts_of_stopAtEnd? hscan hstop
    obtain ⟨_, scan'⟩ := stop
    cases hplace
    exact ⟨scan', hstops⟩
  · rintro ⟨next, hnext⟩
    obtain ⟨scan, hscan, hend⟩ := Option.bind_eq_some_iff.1 hnext.at_eq
    rw [Scan.endState?_eq hscan, Scan.stopAtEnd?, hend, Option.bind_some, Scan.stopAt?,
      if_pos hnext.isFinal]
    rfl

end Subset

end LinePattern
