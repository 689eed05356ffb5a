/-
What a character is credited to.

A scan credits a character by the target of its step: to the group of the first
step there that has one. So what is credited depends on all labels that lead to
the same states. `Nfa.creditFor` says which group that is in terms of the
automaton before it is determinised.

A member of a merge has a block of the states for itself. Behind a word from
which no other member goes on with its labels, steps lead to the same states in
the merge when they do in the member, and carry the same groups. So the merge
credits what the member alone would (`Numbered.groupInto?_eq`), and wherever the
member goes the slots of the merge are its own (`Numbered.creditsTo`).
-/
import LinePattern.Proofs.Dfa.Place
import LinePattern.Proofs.Nfa.Member
import LinePattern.Proofs.Pattern.Denotation

namespace LinePattern

open Subset

namespace Nfa

variable {host nfa : Nfa} {others : List Nfa} {k : Nat} {set : List StateId}
  {v w : List Symbol} {s t : Symbol}

open Classical in
/-- The states that a word leads to, in increasing order. -/
noncomputable def statesOf (nfa : Nfa) (w : List Symbol) : List StateId :=
  (List.range nfa.size).filter (· ∈ nfa.reach w)

theorem lists_statesOf (hwf : nfa.WellFormed) (w : List Symbol) : nfa.Lists w (nfa.statesOf w) where
  sorted := by
    unfold statesOf
    exact List.pairwise_lt_range.filter _
  mem_iff {q} := by
    simp only [statesOf, List.mem_filter, List.mem_range, decide_eq_true_eq]
    exact and_iff_right_of_imp hwf.lt_of_mem_reach

/-- The transitions with a label that go on from a word. -/
noncomputable def edgesAfter (nfa : Nfa) (w : List Symbol) (s : Symbol) : List Edge :=
  along s (edgesFrom nfa (nfa.statesOf w))

open Classical in
/-- The group of the transitions with the label `t`, if they lead where those
with the label `s` do. -/
noncomputable def creditVia (nfa : Nfa) (w : List Symbol) (s t : Symbol) : Option Nat :=
  if nfa.reach (w ++ [t]) = nfa.reach (w ++ [s]) then (nfa.edgesAfter w t).findSome? nfa.groupOf?
  else none

/-- The group that a character is credited to when it takes a label behind a
word: that of the first label to the same states with a transition in one. -/
noncomputable def creditFor (nfa : Nfa) (w : List Symbol) (s : Symbol) : Option Nat :=
  nfa.alphabet.findSome? (nfa.creditVia w s)

theorem reach_eq_of_creditVia (h : (nfa.creditVia w s t).isSome = true) :
    nfa.reach (w ++ [t]) = nfa.reach (w ++ [s]) := by
  by_contra hne
  rw [creditVia, if_neg hne] at h
  cases h

theorem along_edgesFrom (nfa : Nfa) (set : List StateId) (t : Symbol) :
    along t (edgesFrom nfa set) = set.flatMap fun q =>
      along t ((nfa.state q).transitions.map fun (symbol, target) => ⟨q, symbol, target⟩) := by
  rw [along, edgesFrom, List.filter_flatMap]
  rfl

theorem flatMap_eq_flatMap_filter {α β : Type} {xs : List α} {f : α → List β} (keep : α → Bool)
    (h : ∀ x ∈ xs, keep x = false → f x = []) : xs.flatMap f = (xs.filter keep).flatMap f := by
  induction xs with
  | nil => rfl
  | cons x xs ih =>
    have hxs := ih fun y hy => h y (List.mem_cons_of_mem _ hy)
    cases hx : keep x with
    | true => rw [List.filter_cons_of_pos hx, List.flatMap_cons, List.flatMap_cons, hxs]
    | false =>
      rw [List.filter_cons_of_neg (by simp [hx]), List.flatMap_cons, h x List.mem_cons_self hx, hxs,
        List.nil_append]

/-- The transitions that go on in the host are those of the member, in its
block. -/
theorem Hosts.along_eq (h : host.Hosts nfa k others) (hwf : nfa.WellFormed)
    (halone : ∀ other ∈ others, ¬ other.Readable (w ++ [t])) (hset : host.Lists w set) :
    along t (edgesFrom host set) = (nfa.edgesAfter w t).map (·.shift k) := by
  have hmember := lists_statesOf hwf w
  let block := (nfa.statesOf w).map (· + k)
  have hmem : ∀ q, q ∈ block ↔ ∃ p ∈ nfa.reach w, q = p + k := by
    intro q
    simp only [block, List.mem_map, hmember.mem_iff, eq_comm]
  -- A state outside of the block has no transition with the label.
  have houtside : ∀ q ∈ set, decide (q ∈ block) = false →
      along t ((host.state q).transitions.map fun (symbol, target) => ⟨q, symbol, target⟩) = [] := by
    intro q hq hblock
    rw [List.eq_nil_iff_forall_not_mem]
    intro e he
    simp only [along, List.mem_filter, List.mem_map, decide_eq_true_eq] at he
    obtain ⟨⟨⟨symbol, target⟩, htransition, rfl⟩, rfl⟩ := he
    rcases h.origin (hset.mem_iff.1 hq) htransition with hp | ⟨other, hother, hread⟩
    · exact of_decide_eq_false hblock ((hmem q).2 hp)
    · exact halone other hother hread
  have hfilter : set.filter (· ∈ block) = block := by
    refine (hset.sorted.filter _).eq_of_mem_iff ?_ fun q => ?_
    · exact hmember.sorted.map _ fun p q hpq => Nat.add_lt_add_right hpq k
    · rw [List.mem_filter, decide_eq_true_iff, hset.mem_iff]
      refine ⟨fun hq => hq.2, fun hq => ⟨?_, hq⟩⟩
      obtain ⟨p, hp, rfl⟩ := (hmem q).1 hq
      exact (h.mem_reach_iff w p (hwf.lt_of_mem_reach hp)).2 hp
  rw [along_edgesFrom, flatMap_eq_flatMap_filter (fun q => decide (q ∈ block)) houtside, hfilter,
    List.flatMap_map, edgesAfter, along_edgesFrom, List.map_flatMap]
  refine List.flatMap_congr fun q hq => ?_
  rw [h.state_eq q (hwf.lt_of_mem_reach (hmember.mem_iff.1 hq))]
  simp [NfaState.shift, along, List.filter_map, Function.comp_def, Edge.shift]

end Nfa

/-! ## The steps of a host -/

theorem findSome?_congr {α β : Type} {xs : List α} {f g : α → Option β}
    (h : ∀ x ∈ xs, f x = g x) : xs.findSome? f = xs.findSome? g := by
  rw [← List.head?_filterMap, List.filterMap_congr h, List.head?_filterMap]

/-- What is found first in a list of symbols depends on the symbols for which
something is found, if they are in order. -/
theorem Symbol.findSome?_eq_of_mem {α : Type} {as bs : List Symbol} {f : Symbol → Option α}
    (ha : as.Pairwise fun a b => a.compare b = .lt) (hb : bs.Pairwise fun a b => a.compare b = .lt)
    (h : ∀ s, (f s).isSome = true → (s ∈ as ↔ s ∈ bs)) : as.findSome? f = bs.findSome? f := by
  have hfilter : as.filter (fun s => (f s).isSome) = bs.filter fun s => (f s).isSome := by
    refine Symbol.eq_of_pairwise_compare (ha.filter _) (hb.filter _) fun s => ?_
    rw [List.mem_filter, List.mem_filter]
    exact and_congr_left fun hs => h s hs
  have hsome : ∀ xs : List Symbol,
      (xs.filter fun s => (f s).isSome).findSome? f = xs.findSome? f := by
    intro xs
    rw [← List.head?_filterMap, List.filterMap_filter, List.head?_filterMap]
    refine findSome?_congr fun s _ => ?_
    cases f s <;> rfl
  rw [← hsome as, hfilter, hsome bs]

namespace Subset

variable {host nfa : Nfa} {others : List Nfa} {k : Nat} {sets : StateSets} {dfa : Dfa}
  {set : List StateId} {id target : StateId} {w : List Symbol} {s t : Symbol}

/-- The member can go on from the word only with labels with which no other
member can. -/
def GoesAlone (nfa : Nfa) (others : List Nfa) (w : List Symbol) : Prop :=
  ∀ t, nfa.Readable (w ++ [t]) → ∀ other ∈ others, ¬ other.Readable (w ++ [t])

theorem reach_eq_iff (h : host.Hosts nfa k others) (hnfa : nfa.WellFormed)
    (halone : GoesAlone nfa others w) (hs : nfa.Readable (w ++ [s])) :
    host.reach (w ++ [t]) = host.reach (w ++ [s]) ↔ nfa.reach (w ++ [t]) = nfa.reach (w ++ [s]) := by
  constructor
  · intro heq
    ext q
    constructor
    · intro hq
      have hlt := hnfa.lt_of_mem_reach hq
      rwa [← h.mem_reach_iff _ q hlt, heq, h.mem_reach_iff _ q hlt] at hq
    · intro hq
      have hlt := hnfa.lt_of_mem_reach hq
      rwa [← h.mem_reach_iff _ q hlt, ← heq, h.mem_reach_iff _ q hlt] at hq
  · intro heq
    have ht : nfa.Readable (w ++ [t]) := by rwa [Nfa.Readable, heq]
    ext q
    rw [h.mem_reach_concat_iff hnfa (halone t ht), h.mem_reach_concat_iff hnfa (halone s hs), heq]

theorem group_eq (h : host.Hosts nfa k others) (hnfa : nfa.WellFormed)
    (halone : GoesAlone nfa others w) (hset : host.Lists w set) (ht : nfa.Readable (w ++ [t])) :
    (along t (edgesFrom host set)).findSome? host.groupOf? =
      (nfa.edgesAfter w t).findSome? nfa.groupOf? := by
  rw [h.along_eq hnfa (halone t ht) hset, List.findSome?_map]
  refine findSome?_congr fun e he => ?_
  obtain ⟨hsource, -⟩ := mem_along.1 he
  have hlt := hnfa.lt_of_mem_reach ((Nfa.lists_statesOf hnfa w).mem_iff.1 hsource)
  exact h.groupOf?_eq e hlt

/-- Steps lead to the same state when their words lead to the same states. -/
theorem Numbered.target_eq_iff (hwf : host.WellFormed) (h : Numbered host sets dfa)
    (hset : sets.toArray[id]? = some set) (hlists : host.Lists w set) {v : List Symbol}
    {set' : List StateId} (hset' : sets.toArray[target]? = some set') (hlists' : host.Lists v set')
    {step : DfaStep} (hstep : step ∈ (dfa.state id).steps) :
    step.target = target ↔ host.reach (w ++ [step.symbol]) = host.reach v := by
  obtain ⟨-, set₁, hset₁, hlists₁⟩ := h.of_mem_steps hwf hset hlists hstep
  constructor
  · rintro rfl
    rw [hset₁] at hset'
    cases hset'
    exact Set.ext fun q => hlists₁.mem_iff.symm.trans hlists'.mem_iff
  · intro heq
    refine h.known.eq_of_forall_mem_iff hset₁ hset' fun q => ?_
    rw [hlists₁.mem_iff, heq, hlists'.mem_iff]

/-- **A merge credits what the member alone would.** -/
theorem Numbered.groupInto?_eq (hwf : host.WellFormed) (hnumbered : Numbered host sets dfa)
    (h : host.Hosts nfa k others) (hnfa : nfa.WellFormed) (halone : GoesAlone nfa others w)
    (hset : sets.toArray[id]? = some set) (hlists : host.Lists w set)
    (hs : nfa.Readable (w ++ [s])) {set' : List StateId}
    (hset' : sets.toArray[target]? = some set') (hlists' : host.Lists (w ++ [s]) set') :
    (dfa.state id).groupInto? target = nfa.creditFor w s := by
  obtain ⟨steps, hstate, hrow⟩ := hnumbered.state hset
  have hsteps : (dfa.state id).steps = steps := by rw [hstate, stateOf]
  have hread : ∀ {t}, nfa.reach (w ++ [t]) = nfa.reach (w ++ [s]) → nfa.Readable (w ++ [t]) := by
    intro t heq
    rwa [Nfa.Readable, heq]
  have hstep : ∀ step ∈ steps,
      (if step.target = target then step.group else none) = nfa.creditVia w s step.symbol := by
    intro step hstep
    have htarget := hnumbered.target_eq_iff hwf hset hlists hset' hlists' (hsteps ▸ hstep)
    rw [reach_eq_iff h hnfa halone hs] at htarget
    by_cases heq : step.target = target
    · rw [if_pos heq, Nfa.creditVia, if_pos (htarget.1 heq), hrow.group_eq step hstep]
      exact group_eq h hnfa halone hlists (hread (htarget.1 heq))
    · rw [if_neg heq, Nfa.creditVia, if_neg (mt htarget.2 heq)]
  -- A label with a credit is read by the member, so it is in the row and in the alphabet.
  have hmem : ∀ t, (nfa.creditVia w s t).isSome = true →
      (t ∈ steps.map (·.symbol) ↔ t ∈ nfa.alphabet) := by
    intro t ht
    obtain ⟨q, hq⟩ := hread (Nfa.reach_eq_of_creditVia ht)
    have hq' := (h.mem_reach_iff _ q (hnfa.lt_of_mem_reach hq)).2 hq
    obtain ⟨step, hmem, rfl⟩ := hnumbered.exists_step hset hlists (Set.nonempty_of_mem hq').ne_empty
    rw [hsteps] at hmem
    exact ⟨fun _ => Nfa.Readable.mem_alphabet ⟨q, hq⟩, fun _ => List.mem_map.2 ⟨step, hmem, rfl⟩⟩
  calc (dfa.state id).groupInto? target
      = steps.findSome? fun step => if step.target = target then step.group else none := by
        rw [DfaState.groupInto?, hsteps]
    _ = steps.findSome? (nfa.creditVia w s ∘ (·.symbol)) := findSome?_congr hstep
    _ = (steps.map (·.symbol)).findSome? (nfa.creditVia w s) := List.findSome?_map.symm
    _ = nfa.creditFor w s :=
        Symbol.findSome?_eq_of_mem (List.pairwise_map.2 hrow.sorted) (Symbol.pairwise_sortedSet _)
          hmem

end Subset

/-! ## The slots of a host -/

/-- What is changed at one place of a padded list is what is read there, and
nowhere else. -/
theorem getD_modify_rightpad {α : Type} (as : List α) (i j : Nat) (f : α → α) (a : α) :
    ((as.rightpad (i + 1) a).modify i f).getD j a =
      if i = j then f (as.getD j a) else as.getD j a := by
  have hpad : (as.rightpad (i + 1) a).getD j a = as.getD j a := by
    rw [List.rightpad, List.getD_eq_getElem?_getD, List.getD_eq_getElem?_getD,
      List.getElem?_append]
    split
    · rfl
    · next hge =>
      rw [List.getElem?_eq_none (Nat.le_of_not_lt hge), List.getElem?_replicate]
      split <;> rfl
  rw [← hpad]
  simp only [List.getD_eq_getElem?_getD, List.getElem?_modify]
  split
  · next heq =>
    subst heq
    have hlt : i < (as.rightpad (i + 1) a).length := by
      rw [List.rightpad, List.length_append, List.length_replicate]
      omega
    rw [List.getElem?_eq_getElem hlt]
    rfl
  · simp only [id_map']

namespace Slots

/-- Credits a character to a group, if there is one. -/
def creditTo (group : Option Nat) (c : Char) (slots : Slots) : Slots :=
  match group with
  | some group => slots.credit group c
  | none => slots

theorem credit_length (slots : Slots) (c : Char) :
    slots.credit slots.length c = slots ++ [[c]] := by
  rw [credit, List.rightpad, List.modify_eq_take_drop]
  simp

theorem credit_last (slots : Slots) (slot : List Char) (c : Char) :
    Slots.credit slots.length c (slots ++ [slot]) = slots ++ [c :: slot] := by
  rw [credit, List.rightpad, List.modify_eq_take_drop]
  simp

end Slots

theorem Scan.slots_move (dfa : Dfa) (scan : Scan) (target : StateId) (c : Char) :
    (scan.move dfa target c).slots =
      scan.slots.creditTo ((dfa.state scan.state).groupInto? target) c := by
  unfold move groupInto?
  cases (dfa.state scan.state).groupInto? target <;> rfl

namespace Nfa

variable {nfa : Nfa} {u : List Char} {w : List Symbol} {slots slots' : Slots}

/-- What is credited for a text along a word. -/
inductive Credits (nfa : Nfa) : List Char → List Symbol → Slots → Prop
  | nil : Credits nfa [] [] []
  | concat {u : List Char} {w : List Symbol} {slots : Slots} (c : Char) (s : Symbol) :
    Credits nfa u w slots →
    Credits nfa (u ++ [c]) (w ++ [s]) (slots.creditTo (nfa.creditFor w s) c)

theorem Credits.unique (h : nfa.Credits u w slots) (h' : nfa.Credits u w slots') :
    slots = slots' := by
  induction h generalizing slots' with
  | nil =>
    generalize hu : ([] : List Char) = u, hw : ([] : List Symbol) = w at h'
    cases h' with
    | nil => rfl
    | concat => simp at hu
  | @concat u w slots c s _ ih =>
    generalize hu : u ++ [c] = u', hw : w ++ [s] = w' at h'
    cases h' with
    | nil => simp at hu
    | concat c' s' h' =>
      obtain ⟨rfl, hc⟩ := List.append_inj' hu rfl
      obtain ⟨rfl, hs⟩ := List.append_inj' hw rfl
      cases hc
      cases hs
      rw [ih h']

/-- What is credited up to a place of the text, along a word. The end of the
line is not credited. -/
inductive CreditsTo (nfa : Nfa) (text : List Char) : Place → List Symbol → Slots → Prop
  | behind {u : List Char} {w : List Symbol} {slots : Slots} : nfa.Credits u w slots →
    CreditsTo nfa text (.behind u) w slots
  | atEnd {w : List Symbol} {slots : Slots} : nfa.Credits text w slots →
    CreditsTo nfa text .atEnd (w ++ [.endOfLine]) slots

theorem CreditsTo.unique {text : List Char} {place : Place} (h : nfa.CreditsTo text place w slots)
    (h' : nfa.CreditsTo text place w slots') : slots = slots' := by
  cases h with
  | behind h =>
    cases h' with
    | behind h' => exact h.unique h'
  | @atEnd w _ h =>
    generalize hw : w ++ [Symbol.endOfLine] = w' at h'
    cases h' with
    | atEnd h' =>
      obtain ⟨rfl, -⟩ := List.append_inj' hw rfl
      exact h.unique h'

end Nfa

namespace Subset

variable {host nfa : Nfa} {others : List Nfa} {k : Nat} {sets : StateSets} {dfa : Dfa}
  {u : List Char} {w : List Symbol} {scan : Scan}

/-- A scan of the host fills the slots that the member fills. -/
theorem Numbered.credits (hwf : host.WellFormed) (hnumbered : Numbered host sets dfa)
    (h : host.Hosts nfa k others) (hnfa : nfa.WellFormed) (halone : ∀ v, GoesAlone nfa others v)
    (hcourse : host.Course u w) (hw : nfa.Readable w)
    (hscan : (Scan.start dfa).after? dfa u = some scan) :
    ∃ set, sets.toArray[scan.state]? = some set ∧ host.Lists w set ∧
      nfa.Credits u w scan.slots := by
  induction hcourse generalizing scan with
  | nil =>
    cases hscan
    obtain ⟨set, hset, hlists⟩ := hnumbered.exists_start
    exact ⟨set, hset, hlists, .nil⟩
  | @concat u w c s _ htakes ih =>
    obtain ⟨scan', target, hscan', hnext, rfl⟩ := Scan.after?_concat_eq_some.1 hscan
    obtain ⟨set, hset, hlists, hcredits⟩ := ih hw.of_append hscan'
    have hfind := hnumbered.findNext hwf hset hlists c
    rw [hnext] at hfind
    obtain ⟨s', set', htakes', hset', hlists'⟩ := hfind
    obtain rfl := htakes.unique htakes'
    rw [Scan.state_move, Scan.slots_move,
      hnumbered.groupInto?_eq hwf h hnfa (halone w) hset hlists hw hset' hlists']
    exact ⟨set', hset', hlists', hcredits.concat c s⟩

/-- **At a place that the member reaches the host has filled its slots.** -/
theorem Numbered.creditsTo (hwf : host.WellFormed) (hnumbered : Numbered host sets dfa)
    (h : host.Hosts nfa k others) (hnfa : nfa.WellFormed) (halone : ∀ v, GoesAlone nfa others v)
    {text : List Char} {place : Place} (hcourse : host.CourseTo text place w)
    (hw : nfa.Readable w) (hat : (Scan.start dfa).at? dfa text place = some scan) :
    nfa.CreditsTo text place w scan.slots := by
  cases hcourse with
  | behind _ hcourse =>
    obtain ⟨-, -, -, hcredits⟩ := hnumbered.credits hwf h hnfa halone hcourse hw hat
    exact .behind hcredits
  | atEnd hcourse _ =>
    obtain ⟨scan', hscan', hend⟩ := Option.bind_eq_some_iff.1 hat
    obtain ⟨target, -, rfl⟩ := Option.map_eq_some_iff.1 hend
    obtain ⟨-, -, -, hcredits⟩ := hnumbered.credits hwf h hnfa halone hcourse hw.of_append hscan'
    exact .atEnd hcredits

end Subset

end LinePattern
