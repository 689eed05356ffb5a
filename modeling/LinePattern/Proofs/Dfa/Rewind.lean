/-
Cutting slots back gives what was marked.

The longest scan does not copy its slots where it accepts. It marks how long
they are, and in the end cuts them back. Here it is compared with a scan that
keeps copies (`longestKept`): as slots only ever grow at their ends
(`Slots.Grew`), a slot that is cut back to a length that it had holds what it
held then (`rewind_eq`). The lengths that are carried along are those of the
slots (`lengthen_eq`), so the two scans agree (`longest_eq_kept`).
-/
import LinePattern.Dfa.Scan
import Mathlib.Data.Option.Basic

namespace LinePattern

theorem map_modify_rightpad {α β : Type} {f : α → α} {f' : β → β} {g : α → β}
    (h : ∀ a, g (f a) = f' (g a)) (as : List α) (n i : Nat) (a : α) :
    ((as.rightpad n a).modify i f).map g = ((as.map g).rightpad n (g a)).modify i f' := by
  have hpad : (as.map g).rightpad n (g a) = (as.rightpad n a).map g := by
    simp [List.rightpad]
  rw [hpad]
  apply List.ext_getElem?
  intro j
  simp only [List.getElem?_modify, List.getElem?_map]
  by_cases hj : i = j <;> simp [hj, h, Function.comp_def]

namespace Slots

variable {old live : Slots} {group : Nat} {c : Char}

/-! ## Lengths -/

@[simp] theorem byteCount_nil : byteCount [] = 0 := rfl

@[simp] theorem byteCount_cons (c : Char) (slot : List Char) :
    byteCount (c :: slot) = c.utf8Size + byteCount slot := rfl

@[simp] theorem byteCount_append (later slot : List Char) :
    byteCount (later ++ slot) = byteCount later + byteCount slot := by
  induction later with
  | nil => simp
  | cons c later ih => simp [ih, Nat.add_assoc]

/-- Lengths and slots grow in step. -/
theorem lengthen_map_byteCount (group : Nat) (c : Char) (slots : Slots) :
    lengthen group c (slots.map byteCount) = (slots.credit group c).map byteCount := by
  have hbytes : ∀ slot, byteCount (c :: slot) = byteCount slot + c.utf8Size := fun slot => by
    rw [byteCount_cons, Nat.add_comm]
  exact (map_modify_rightpad hbytes slots (group + 1) group []).symm

/-! ## Slots that grow -/

/-- Each of the old slots is still there, and has only grown at its end. -/
def Grew (old live : Slots) : Prop :=
  ∀ (i : Nat) (slot : List Char), old[i]? = some slot →
    ∃ later, live[i]? = some (later ++ slot)

theorem Grew.refl (slots : Slots) : Grew slots slots := fun _ _ h => ⟨[], h⟩

theorem Grew.credit (h : Grew old live) (group : Nat) (c : Char) :
    Grew old (live.credit group c) := by
  intro i slot hslot
  obtain ⟨later, hlater⟩ := h i slot hslot
  obtain ⟨hi, -⟩ := List.getElem?_eq_some_iff.1 hlater
  have hpad : (live.rightpad (group + 1) [])[i]? = some (later ++ slot) := by
    rw [List.rightpad, List.getElem?_append_left hi, hlater]
  rw [Slots.credit, List.getElem?_modify, hpad]
  by_cases hgroup : group = i
  · exact ⟨c :: later, by simp [hgroup]⟩
  · exact ⟨later, by simp [hgroup]⟩

/-! ## Cutting back -/

/-- To drop the bytes of the later characters drops these: the characters take
them all, and none is cut in two. -/
theorem dropBytes_append (later slot : List Char) :
    dropBytes (byteCount later) (later ++ slot) = slot := by
  induction later with
  | nil => simp [dropBytes]
  | cons c later ih =>
    have hpos := c.utf8Size_pos
    obtain ⟨n, hn⟩ : ∃ n, byteCount (c :: later) = n + 1 :=
      Nat.exists_eq_add_one.2 (by rw [byteCount_cons]; omega)
    have hrest : n + 1 - c.utf8Size = byteCount later := by
      rw [← hn, byteCount_cons, Nat.add_sub_cancel_left]
    rw [hn, List.cons_append, dropBytes, hrest, ih]

theorem rewind_eq (h : Grew old live) : rewind (old.map byteCount) live = old := by
  apply List.ext_getElem?
  intro i
  rw [rewind, List.getElem?_zipWith, List.getElem?_map]
  cases hold : old[i]? with
  | none => simp
  | some slot =>
    obtain ⟨later, hlater⟩ := h i slot hold
    simp [hlater, dropBytes_append]

end Slots

/-! ## The two scans -/

namespace Scan

variable {dfa : Dfa} {best : Option Acceptance} {scan : Scan} {text : List Char}
  {target : StateId} {c : Char}

/-- The longest scan with copies: `best` is the last acceptance on the way, with
the slots as they were there. -/
def longestKept (dfa : Dfa) (best : Option Acceptance) (scan : Scan) :
    List Char → Option Acceptance
  | [] => scan.acceptAtEnd? dfa <|> best
  | c :: rest =>
    match dfa.findNext scan.state c with
    | none => best
    | some target =>
      let scan := scan.move dfa target c
      longestKept dfa (scan.acceptHere? dfa <|> best) scan rest

/-- The lengths of what was accepted. -/
def mark (acceptance : Acceptance) : Mark :=
  ⟨acceptance.slots.map Slots.byteCount, acceptance.pattern⟩

theorem lengthen_eq (dfa : Dfa) (scan : Scan) (target : StateId) (c : Char) :
    scan.lengthen dfa target c (scan.slots.map Slots.byteCount) =
      (scan.move dfa target c).slots.map Slots.byteCount := by
  unfold lengthen move
  cases scan.groupInto? dfa target with
  | none => rfl
  | some group => exact Slots.lengthen_map_byteCount group c scan.slots

theorem grew_move {old : Slots} (h : old.Grew scan.slots) (dfa : Dfa) (target : StateId)
    (c : Char) : old.Grew (scan.move dfa target c).slots := by
  unfold move
  cases scan.groupInto? dfa target with
  | none => exact h
  | some group => exact h.credit group c

theorem slots_of_acceptHere? {acceptance : Acceptance}
    (h : scan.acceptHere? dfa = some acceptance) : acceptance.slots = scan.slots := by
  dsimp only [acceptHere?] at h
  split at h <;> cases h
  rfl

theorem rewind_mark {acceptance : Acceptance} (h : acceptance.slots.Grew scan.slots) :
    scan.rewind (mark acceptance) = acceptance := by
  rw [rewind, mark, Slots.rewind_eq h]

theorem map_rewind_mark (h : ∀ acceptance ∈ best, acceptance.slots.Grew scan.slots) :
    (best.map mark).map scan.rewind = best := by
  cases best with
  | none => rfl
  | some acceptance => rw [Option.map_some, Option.map_some, rewind_mark (h acceptance rfl)]

/-- **Cutting back is as good as keeping copies.** -/
theorem longest_eq_kept (hbest : ∀ acceptance ∈ best, acceptance.slots.Grew scan.slots) :
    longest dfa (best.map mark) (scan.slots.map Slots.byteCount) scan text =
      longestKept dfa best scan text := by
  induction text generalizing best scan with
  | nil => rw [longest, longestKept, map_rewind_mark hbest]
  | cons c rest ih =>
    unfold longest longestKept
    cases dfa.findNext scan.state c with
    | none => exact map_rewind_mark hbest
    | some target =>
      have hmark : ((scan.move dfa target c).acceptHere? dfa).map
          (⟨(scan.move dfa target c).slots.map Slots.byteCount, ·.pattern⟩) =
            ((scan.move dfa target c).acceptHere? dfa).map mark :=
        Option.map_congr fun acceptance h => by rw [mark, slots_of_acceptHere? h]
      have hor : (((scan.move dfa target c).acceptHere? dfa).map mark <|> best.map mark) =
          ((scan.move dfa target c).acceptHere? dfa <|> best).map mark := by
        cases (scan.move dfa target c).acceptHere? dfa <;> rfl
      dsimp only
      rw [lengthen_eq, hmark, hor]
      refine ih fun acceptance hmem => ?_
      rcases (Option.orElse_eq_some _ _ _).1 hmem with hhere | ⟨-, hbefore⟩
      · rw [slots_of_acceptHere? hhere]
        exact .refl _
      · exact grew_move (hbest acceptance hbefore) dfa target c

theorem under_longest (dfa : Dfa) (text : List Char) :
    under .longest dfa text = longestKept dfa none (start dfa) text := by
  have hnone : ∀ acceptance ∈ (none : Option Acceptance),
      acceptance.slots.Grew (start dfa).slots := nofun
  exact longest_eq_kept hnone

end Scan

end LinePattern
