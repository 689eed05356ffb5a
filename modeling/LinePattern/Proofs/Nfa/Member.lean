/-
A member inside a merge.

A merge has the states of each member in one block, with the transitions and
the groups they had (`Hosts`). A run that ends in the block of a member went on
in it since the first step, so the member reads what was read; a labelled step
from outside of the block is one of another member, which reads the label too
(`Hosts.origin`). Members that are added later change nothing in the block
(`Hosts.addMember`), so every member of a merge is hosted (`exists_hosts`).
-/
import LinePattern.Proofs.Nfa.Trace
import LinePattern.Proofs.Pattern.CaptureSets

namespace LinePattern.Nfa

variable {merged host nfa other : Nfa} {before after others : List Nfa} {k : Nat}
  {i : PatternId} {p q : StateId} {v w : List Symbol} {s t : Symbol}

/-! ## States and groups of a sum -/

theorem state_addEpsilon_of_ne {source target : StateId} (hq : q ≠ source) :
    (nfa.addEpsilon source target).state q = nfa.state q := by
  rw [addEpsilon, state_modify, if_neg fun h => hq h.1]

theorem state_addMember_of_lt (hq : q < merged.size) (hne : q ≠ merged.initial) :
    (merged.addMember i nfa).state q = merged.state q :=
  (state_addEpsilon_of_ne hne).trans (state_absorb_of_lt hq)

theorem state_addMember_add (hm : merged.Hub) (q : StateId) :
    (merged.addMember i nfa).state (q + merged.size) = (nfa.state q).shift merged.size := by
  have hne : q + merged.size ≠ merged.initial := by
    have hlt := hm.initial_lt
    lia
  exact (state_addEpsilon_of_ne hne).trans (state_absorb_add merged (nfa.stamp i) q)

theorem captures_addMember (merged nfa : Nfa) (i : PatternId) :
    (merged.addMember i nfa).captures = merged.captures ++ nfa.captures.map (·.shift merged.size) :=
  rfl

theorem Edge.shift_injective (k : Nat) : Function.Injective (Edge.shift k) := by
  rintro ⟨p, s, q⟩ ⟨p', s', q'⟩ h
  simpa [Edge.shift] using h

/-- Of groups that are put together, those of the left part list no edge of the right
part, and the other way round. -/
theorem groupOf?_of_lt {whole left right : Nfa}
    (hcaptures : whole.captures = left.captures ++ right.captures.map (·.shift left.size))
    {e : Edge} (he : e.source < left.size) : whole.groupOf? e = left.groupOf? e := by
  have hnone : (right.captures.map (·.shift left.size)).find? (·.edges.contains e) = none := by
    simp only [List.find?_eq_none, List.mem_map, List.contains_iff_mem]
    rintro set ⟨set', -, rfl⟩ hmem
    obtain ⟨e', -, rfl⟩ := List.mem_map.1 hmem
    exact absurd he (Nat.not_lt.2 (Nat.le_add_left _ _))
  rw [groupOf?, hcaptures, List.find?_append, hnone, Option.or_none, groupOf?]

theorem groupOf?_shift {whole left right : Nfa}
    (hcaptures : whole.captures = left.captures ++ right.captures.map (·.shift left.size))
    (hl : left.CapturesSteps) (e : Edge) :
    whole.groupOf? (e.shift left.size) = right.groupOf? e := by
  have hnone : left.captures.find? (·.edges.contains (e.shift left.size)) = none := by
    simp only [List.find?_eq_none, List.contains_iff_mem]
    intro set hset hmem
    exact absurd (hl set hset _ hmem).lt_size (Nat.not_lt.2 (Nat.le_add_left _ _))
  have hsame : (fun set : CaptureSet => (set.shift left.size).edges.contains
      (e.shift left.size)) = fun set => set.edges.contains e := by
    funext set
    rw [Bool.eq_iff_iff, List.contains_iff_mem, List.contains_iff_mem, CaptureSet.shift,
      List.mem_map_of_injective (Edge.shift_injective _)]
  rw [groupOf?, hcaptures, List.find?_append, hnone, Option.none_or, List.find?_map,
    Function.comp_def, hsame, Option.map_map]
  rfl

theorem groupOf?_addMember_of_lt {e : Edge} (he : e.source < merged.size) :
    (merged.addMember i nfa).groupOf? e = merged.groupOf? e :=
  groupOf?_of_lt (captures_addMember merged nfa i) he

/-- The edges of the new member belong to the groups they belonged to in it. -/
theorem groupOf?_addMember_shift (hm : merged.CapturesSteps) (e : Edge) :
    (merged.addMember i nfa).groupOf? (e.shift merged.size) = nfa.groupOf? e :=
  groupOf?_shift (captures_addMember merged nfa i) hm e

theorem CapturesSteps.addMember (hm : merged.CapturesSteps) (h : nfa.CapturesSteps)
    (i : PatternId) : (merged.addMember i nfa).CapturesSteps := by
  have habsorb : (merged.absorb (nfa.stamp i)).CapturesSteps := hm.absorb h
  exact habsorb.of_steps rfl fun hs => step_addEpsilon.2 (.inl hs)

/-! ## A member in its block -/

/-- The states of `nfa` are a block of those of the host, behind the first `k`.
In the block are its transitions and its groups, the runs that end in it are its
own, and a labelled step that does not start in it is one of the others. -/
structure Hosts (host nfa : Nfa) (k : Nat) (others : List Nfa) : Prop where
  initial_lt : host.initial < k
  le_size : k + nfa.size ≤ host.size
  state_eq : ∀ q < nfa.size, host.state (q + k) = (nfa.state q).shift k
  groupOf?_eq : ∀ e : Edge, e.source < nfa.size → host.groupOf? (e.shift k) = nfa.groupOf? e
  mem_reach_iff : ∀ w, ∀ q < nfa.size, q + k ∈ host.reach w ↔ q ∈ nfa.reach w
  origin : ∀ {v t q q'}, q ∈ host.reach v → host.Step q (some t) q' →
    (∃ p ∈ nfa.reach v, q = p + k) ∨ ∃ other ∈ others, other.Readable (v ++ [t])

theorem Hosts.step_iff (h : host.Hosts nfa k others) (hp : p < nfa.size)
    {label : Option Symbol} : host.Step (p + k) label q ↔ ∃ r, q = r + k ∧ nfa.Step p label r := by
  rw [Step, h.state_eq p hp, NfaState.leads_shift]
  rfl

/-- Where no other member reads a word, the states it leads to are those of the
block. -/
theorem Hosts.mem_reach_concat_iff (h : host.Hosts nfa k others) (hwf : nfa.WellFormed)
    (halone : ∀ other ∈ others, ¬ other.Readable (v ++ [t])) :
    q ∈ host.reach (v ++ [t]) ↔ ∃ p ∈ nfa.reach (v ++ [t]), q = p + k := by
  constructor
  · intro hq
    obtain ⟨_, p', hsource, hs, hpath⟩ := mem_reach_concat.1 hq
    rcases h.origin hsource hs with ⟨p, hp, rfl⟩ | ⟨other, hother, hread⟩
    · obtain ⟨r, rfl, hs'⟩ := (h.step_iff (hwf.lt_of_mem_reach hp)).1 hs
      obtain ⟨r', rfl, hpath'⟩ :=
        Path.stay (f := (· + k)) hwf (fun hlt => (h.step_iff hlt).1) (hwf.target_lt hs') hpath
      exact ⟨r', mem_reach_concat.2 ⟨p, r, hp, hs', hpath'⟩, rfl⟩
    · exact absurd hread (halone other hother)
  · rintro ⟨p, hp, rfl⟩
    exact (h.mem_reach_iff _ p (hwf.lt_of_mem_reach hp)).2 hp

/-- The member that was added last is hosted beside the ones before it. -/
theorem hosts_addMember (hm : merged.Hub) (hcaptures : merged.CapturesSteps)
    (hread : ∀ v t, merged.Readable (v ++ [t]) → ∃ other ∈ others, other.Readable (v ++ [t]))
    (hwf : nfa.WellFormed) (i : PatternId) :
    (merged.addMember i nfa).Hosts nfa merged.size others where
  initial_lt := hm.initial_lt
  le_size := by rw [size_addMember]
  state_eq q _ := state_addMember_add hm q
  groupOf?_eq e _ := groupOf?_addMember_shift hcaptures e
  mem_reach_iff w q _ := by
    rw [mem_reach_addMember hm hwf]
    constructor
    · rintro (hq | ⟨q', hq', heq⟩)
      · have hlt := hm.lt_of_mem_reach hq
        lia
      · obtain rfl := Nat.add_right_cancel heq
        exact hq'
    · exact fun hq => .inr ⟨q, hq, rfl⟩
  origin {v t q q'} hq hstep := by
    rcases (mem_reach_addMember hm hwf).1 hq with hq | ⟨p, hp, rfl⟩
    · have hlt := hm.lt_of_mem_reach hq
      rcases (step_addMember hm).1 hstep with hs | ⟨p', _, rfl, -, -⟩ | ⟨-, hlabel, -⟩
      · exact .inr (hread v t ⟨q', mem_reach_concat.2 ⟨q, q', hq, hs, .refl _⟩⟩)
      · lia
      · cases hlabel
    · exact .inl ⟨p, hp, rfl⟩

/-- A member that is added later changes nothing in the block. -/
theorem Hosts.addMember (h : host.Hosts nfa k others) (hm : host.Hub) (hwf : other.WellFormed)
    (i : PatternId) :
    (host.addMember i other).Hosts nfa k (others ++ [other]) where
  initial_lt := h.initial_lt
  le_size := by
    have hle := h.le_size
    rw [size_addMember]
    lia
  state_eq q hq := by
    have hle := h.le_size
    have hlt := h.initial_lt
    rw [state_addMember_of_lt (by lia) (by lia), h.state_eq q hq]
  groupOf?_eq e he := by
    have hle := h.le_size
    have hlt : (e.shift k).source < host.size := by
      change e.source + k < host.size
      lia
    rw [groupOf?_addMember_of_lt hlt, h.groupOf?_eq e he]
  mem_reach_iff w q hq := by
    rw [mem_reach_addMember hm hwf, ← h.mem_reach_iff w q hq]
    refine ⟨fun hreach => hreach.resolve_right ?_, .inl⟩
    rintro ⟨q', -, heq⟩
    have hle := h.le_size
    lia
  origin {v t q q'} hq hstep := by
    rcases (mem_reach_addMember hm hwf).1 hq with hq | ⟨p, hp, rfl⟩
    · have hlt := hm.lt_of_mem_reach hq
      rcases (step_addMember hm).1 hstep with hs | ⟨p', _, rfl, -, -⟩ | ⟨-, hlabel, -⟩
      · exact (h.origin hq hs).imp_right fun ⟨other, hother, hread⟩ =>
          ⟨other, List.mem_append_left _ hother, hread⟩
      · lia
      · cases hlabel
    · rcases (step_addMember hm).1 hstep with hs | ⟨p', r, hp', rfl, hs⟩ | ⟨-, hlabel, -⟩
      · have hlt := hs.lt_size
        lia
      · obtain rfl := Nat.add_right_cancel hp'
        exact .inr ⟨other, by simp, r, mem_reach_concat.2 ⟨p, r, hp, hs, .refl _⟩⟩
      · cases hlabel

theorem Hosts.mergeFrom (h : host.Hosts nfa k others) (hm : host.Hub)
    (hwf : ∀ other ∈ after, other.WellFormed) (i : PatternId) :
    (host.mergeFrom i after).Hosts nfa k (others ++ after) := by
  induction after generalizing host others i with
  | nil => simpa [Nfa.mergeFrom] using h
  | cons other rest ih =>
    have hother := hwf other List.mem_cons_self
    have hrest : ∀ nfa ∈ rest, nfa.WellFormed := fun nfa h => hwf nfa (List.mem_cons_of_mem _ h)
    rw [Nfa.mergeFrom, List.append_cons]
    exact ih (h.addMember hm hother i) (hm.addMember hother i) hrest _

theorem mergeFrom_append (host : Nfa) (i : PatternId) (before after : List Nfa) :
    host.mergeFrom i (before ++ after) =
      (host.mergeFrom i before).mergeFrom (i + before.length) after := by
  induction before generalizing host i with
  | nil => rfl
  | cons nfa before ih =>
    rw [List.cons_append, mergeFrom, mergeFrom, ih, List.length_cons, Nat.add_right_comm,
      Nat.add_assoc]

theorem capturesSteps_mergeFrom (hm : merged.CapturesSteps)
    (hcaptures : ∀ nfa ∈ others, nfa.CapturesSteps) (i : PatternId) :
    (merged.mergeFrom i others).CapturesSteps := by
  induction others generalizing merged i with
  | nil => exact hm
  | cons nfa rest ih =>
    exact ih (hm.addMember (hcaptures nfa List.mem_cons_self) i)
      (fun nfa h => hcaptures nfa (List.mem_cons_of_mem _ h)) _

/-- **Every member of a merge is hosted**, beside the others. -/
theorem exists_hosts {nfas : List Nfa} (hwf : ∀ nfa ∈ nfas, nfa.WellFormed)
    (hcaptures : ∀ nfa ∈ nfas, nfa.CapturesSteps) (hnfa : nfas[i]? = some nfa) :
    ∃ k, (merge nfas).Hosts nfa k (nfas.eraseIdx i) := by
  obtain ⟨hlt, rfl⟩ := List.getElem?_eq_some_iff.1 hnfa
  let before := nfas.take i
  let after := nfas.drop (i + 1)
  have hsplit : nfas = before ++ nfas[i] :: after := by
    rw [List.getElem_cons_drop, List.take_append_drop]
  have hbefore : ∀ nfa ∈ before, nfa.WellFormed := fun nfa h => hwf nfa (List.mem_of_mem_take h)
  have hafter : ∀ nfa ∈ after, nfa.WellFormed := fun nfa h => hwf nfa (List.mem_of_mem_drop h)
  have hmember : nfas[i].WellFormed := hwf _ (List.getElem_mem hlt)
  have hm : (merge before).Hub := hub_mergeFrom hub_blank hbefore
  have hread : ∀ v t, (merge before).Readable (v ++ [t]) →
      ∃ other ∈ before, other.Readable (v ++ [t]) := fun v t h =>
    ((readable_merge hbefore).1 h).resolve_left (by simp)
  have hsteps : (merge before).CapturesSteps :=
    capturesSteps_mergeFrom (fun _ hset => by cases hset)
      (fun nfa h => hcaptures nfa (List.mem_of_mem_take h)) 0
  have hhosts := (hosts_addMember hm hsteps hread hmember (0 + before.length)).mergeFrom
    (hm.addMember hmember _) hafter (0 + before.length + 1)
  have hmerge : merge nfas = ((merge before).addMember (0 + before.length) nfas[i]).mergeFrom
      (0 + before.length + 1) after := by
    conv_lhs => rw [hsplit, merge, mergeFrom_append, mergeFrom]
    rfl
  rw [hmerge, List.eraseIdx_eq_take_drop_succ]
  exact ⟨_, hhosts⟩

end LinePattern.Nfa
