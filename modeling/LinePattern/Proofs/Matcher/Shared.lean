/-
A shared set through any sequence of calls.

It holds its patterns twice: the list that the next change starts from, and
the set that was compiled from it. After every call the two go together
(`Consistent.perform`), also when the call failed, and a call does to the list
what it is meant to do (`Effect`). A set that a snapshot holds stays what it is
(`held?_run`).

Removing patterns compiles some of those in use. That cannot fail, since all of
them compiled (`Consistent.exists_removed`). For the same reason patterns that
can be put into use together can be added one by one
(`Consistent.additions_done`).
-/
import LinePattern.Matcher.Shared
import LinePattern.Proofs.Matcher.FewerPatterns

namespace LinePattern.SharedSet

variable {P α : Type} {options : Options} {shared : SharedSet P}
  {set : PatternSet P} {sources patterns : List (String × P)}

/-! ## Calls and their answers -/

/-- A call of a shared set. -/
inductive Call (P : Type) where
  | add (pattern : String) (payload : P)
  | delete (payload : P)
  | replace (patterns : List (String × P))
  | verdict (text : String)
  | snapshot

/-- What a call answers. -/
inductive Answer (P : Type) where
  | done
  /-- The number of patterns that a call removed. -/
  | removed (count : Nat)
  | verdict (verdict : Verdict P)
  | snapshot (number : Nat)
  | failed (error : PatternError)

/-- The answer to an update, and the shared set after it. -/
def answerTo (shared : SharedSet P) (update : Update P α) (answer : α → Answer P) :
    Answer P × SharedSet P :=
  match update.run.run shared with
  | (.ok a, next) => (answer a, next)
  | (.error error, next) => (.failed error, next)

/-- Does what a call asks for. -/
def perform [BEq P] (shared : SharedSet P) : Call P → Answer P × SharedSet P
  | .add pattern payload => shared.answerTo (.add pattern payload) fun _ => .done
  | .delete payload => shared.answerTo (.delete payload) .removed
  | .replace patterns => shared.answerTo (.replace patterns) fun _ => .done
  | .verdict text => (.verdict (shared.verdict text), shared)
  | .snapshot => (.snapshot shared.snapshot, shared)

/-- Performs calls one after the other, whatever they answer. -/
def run [BEq P] (shared : SharedSet P) : List (Call P) → List (Answer P) × SharedSet P
  | [] => ([], shared)
  | call :: rest =>
    let (answer, next) := shared.perform call
    let (answers, last) := next.run rest
    (answer :: answers, last)

/-- The list that a call makes of the sources. -/
def Call.target [BEq P] : Call P → List (String × P) → List (String × P)
  | .add pattern payload, sources => sources ++ [(pattern, payload)]
  | .delete payload, sources => sources.filter (·.2 != payload)
  | .replace patterns, _ => patterns
  | .verdict _, sources | .snapshot, sources => sources

/-- What a call may answer and do to the sources. A call that fails, or has
nothing to do, leaves all as it is. -/
inductive Effect [BEq P] (before : SharedSet P) : Call P → Answer P → SharedSet P → Prop
  | added {pattern payload after} :
    after.sources = before.sources ++ [(pattern, payload)] →
      Effect before (.add pattern payload) .done after
  | removed {payload count after} :
    0 < count → count = before.sources.countP (·.2 == payload) →
      after.sources = before.sources.filter (·.2 != payload) →
      Effect before (.delete payload) (.removed count) after
  | kept {payload} : before.sources.countP (·.2 == payload) = 0 →
      Effect before (.delete payload) (.removed 0) before
  | replaced {patterns after} :
    after.sources = patterns → Effect before (.replace patterns) .done after
  | matched {text} : Effect before (.verdict text) (.verdict (before.published.verdict text)) before
  | taken : Effect before .snapshot (.snapshot before.snapshot) before
  | failed {call error} :
    PatternSet.compile before.options (call.target before.sources) = .error error →
      Effect before call (.failed error) before

/-! ## Putting a list into use -/

/-- The shared set after a list was compiled. -/
def install (shared : SharedSet P) (sources : List (String × P)) (set : PatternSet P) :
    SharedSet P :=
  { shared.use set with sources := sources }

@[simp] theorem sources_install : (shared.install sources set).sources = sources := rfl

@[simp] theorem published_install : (shared.install sources set).published = set := by
  simp [install, use, published]

@[simp] theorem held?_snapshot (shared : SharedSet P) :
    shared.held? shared.snapshot = some shared.published :=
  Array.getElem?_eq_getElem shared.generation_lt

theorem held?_install {number : Nat} {held : PatternSet P} (h : shared.held? number = some held) :
    (shared.install sources set).held? number = some held := by
  obtain ⟨hlt, -⟩ := Array.getElem?_eq_some_iff.1 h
  rw [held?, install, use, Array.getElem?_push_lt hlt, ← h, held?, Array.getElem?_eq_getElem hlt]

/-- The list is compiled before anything is changed. -/
theorem run_publish (sources : List (String × P)) (shared : SharedSet P) :
    (Update.publish sources).run.run shared =
      match PatternSet.compile shared.options sources with
      | .ok set => (.ok (), shared.install sources set)
      | .error error => (.error error, shared) := by
  change (ofExcept (PatternSet.compile shared.options sources) >>= fun set => do
    modify (·.use set)
    modify fun shared => { shared with sources := sources } : Update P Unit).run.run shared = _
  cases PatternSet.compile shared.options sources with
  | ok set => rfl
  | error error => rfl

theorem length_sub_length_filter [BEq P] (sources : List (String × P)) (payload : P) :
    sources.length - (sources.filter (·.2 != payload)).length =
      sources.countP (·.2 == payload) := by
  have hsplit := List.length_eq_countP_add_countP (fun s : String × P => s.2 == payload) (l := sources)
  have hkept : (sources.filter (·.2 != payload)).length =
      sources.countP (fun s => decide ¬(s.2 == payload) = true) := by
    rw [← List.countP_eq_length_filter]
    exact List.countP_congr fun s _ => by simp [bne]
  omega

theorem run_delete [BEq P] (payload : P) (shared : SharedSet P) :
    (Update.delete payload).run.run shared =
      if shared.sources.countP (·.2 == payload) = 0 then (.ok 0, shared)
      else
        match PatternSet.compile shared.options (shared.sources.filter (·.2 != payload)) with
        | .ok set =>
          (.ok (shared.sources.countP (·.2 == payload)),
            shared.install (shared.sources.filter (·.2 != payload)) set)
        | .error error => (.error error, shared) := by
  have hcount := length_sub_length_filter shared.sources payload
  change (do
    if shared.sources.length - (shared.sources.filter (·.2 != payload)).length > 0 then
      Update.publish (shared.sources.filter (·.2 != payload))
    return shared.sources.length - (shared.sources.filter (·.2 != payload)).length :
      Update P Nat).run.run shared = _
  rw [hcount]
  by_cases h : shared.sources.countP (·.2 == payload) = 0
  · rw [if_pos h, if_neg (by omega), h]
    rfl
  · rw [if_neg h, if_pos (by omega), ExceptT.run_bind, StateT.run_bind, run_publish]
    cases PatternSet.compile shared.options (shared.sources.filter (·.2 != payload)) with
    | ok set => rfl
    | error error => rfl

/-! ## What a call does -/

section

variable [BEq P] {call : Call P} {answer : Answer P}

/-- The answer of a call that puts its target into use, and the shared set after
it. -/
def outcome (shared : SharedSet P) (call : Call P) (answer : Answer P) : Answer P × SharedSet P :=
  match PatternSet.compile shared.options (call.target shared.sources) with
  | .ok set => (answer, shared.install (call.target shared.sources) set)
  | .error error => (.failed error, shared)

theorem perform_add (shared : SharedSet P) (pattern : String) (payload : P) :
    shared.perform (.add pattern payload) = shared.outcome (.add pattern payload) .done := by
  have hrun : (Update.add pattern payload).run.run shared =
    (Update.publish (shared.sources ++ [(pattern, payload)])).run.run shared := rfl
  simp only [perform, answerTo, hrun, run_publish, outcome, Call.target]
  cases PatternSet.compile shared.options (shared.sources ++ [(pattern, payload)]) <;> rfl

theorem perform_replace (shared : SharedSet P) (patterns : List (String × P)) :
    shared.perform (.replace patterns) = shared.outcome (.replace patterns) .done := by
  simp only [perform, answerTo, Update.replace, run_publish, outcome, Call.target]
  cases PatternSet.compile shared.options patterns <;> rfl

theorem perform_delete (shared : SharedSet P) (payload : P) :
    shared.perform (.delete payload) =
      if shared.sources.countP (·.2 == payload) = 0 then (.removed 0, shared)
      else shared.outcome (.delete payload) (.removed (shared.sources.countP (·.2 == payload))) := by
  simp only [perform, answerTo, run_delete, outcome, Call.target]
  by_cases h : shared.sources.countP (·.2 == payload) = 0
  · simp only [if_pos h]
  · simp only [if_neg h]
    cases PatternSet.compile shared.options (shared.sources.filter (·.2 != payload)) <;> rfl

/-- A call leaves all as it is, or puts its target into use. -/
def Performed (shared : SharedSet P) (call : Call P) (result : Answer P × SharedSet P) : Prop :=
  Effect shared call result.1 result.2 ∧
    (result.2 = shared ∨
      ∃ set, PatternSet.compile shared.options (call.target shared.sources) = .ok set ∧
        result.2 = shared.install (call.target shared.sources) set)

theorem performed_outcome
    (h : ∀ set, Effect shared call answer (shared.install (call.target shared.sources) set)) :
    shared.Performed call (shared.outcome call answer) := by
  unfold outcome
  split
  · next set hcompile => exact ⟨h set, .inr ⟨set, hcompile, rfl⟩⟩
  · next error hcompile => exact ⟨.failed hcompile, .inl rfl⟩

theorem performed (shared : SharedSet P) (call : Call P) :
    shared.Performed call (shared.perform call) := by
  cases call with
  | add pattern payload =>
    rw [perform_add]
    exact performed_outcome fun _ => .added rfl
  | delete payload =>
    rw [perform_delete]
    split
    · next hnone => exact ⟨.kept hnone, .inl rfl⟩
    · next hsome => exact performed_outcome fun _ => .removed (Nat.pos_of_ne_zero hsome) rfl rfl
  | replace patterns =>
    rw [perform_replace]
    exact performed_outcome fun _ => .replaced rfl
  | verdict text => exact ⟨.matched, .inl rfl⟩
  | snapshot => exact ⟨.taken, .inl rfl⟩

/-- The set in use is what the sources compile to. -/
structure Consistent (options : Options) (shared : SharedSet P) : Prop where
  options_eq : shared.options = options
  compile_sources : PatternSet.compile options shared.sources = .ok shared.published

omit [BEq P] in
theorem consistent_start (options : Options) : (start options : SharedSet P).Consistent options :=
  ⟨rfl, rfl⟩

omit [BEq P] in
/-- The sources tell which set is in use. -/
theorem Consistent.published_eq {other : SharedSet P} (h : shared.Consistent options)
    (hother : other.Consistent options) (hsources : shared.sources = other.sources) :
    shared.published = other.published := by
  have hcompile := h.compile_sources
  rw [hsources, hother.compile_sources] at hcompile
  exact (Except.ok.inj hcompile).symm

/-- Every call keeps the sources and the set in use together. -/
theorem Consistent.perform (h : shared.Consistent options) (call : Call P) :
    (shared.perform call).2.Consistent options := by
  obtain ⟨-, hsame | ⟨set, hcompile, hinstall⟩⟩ := performed shared call
  · rw [hsame]
    exact h
  · rw [h.options_eq] at hcompile
    rw [hinstall]
    exact ⟨h.options_eq, by simpa using hcompile⟩

/-- What a snapshot holds, it holds after every call. -/
theorem held?_perform {number : Nat} {held : PatternSet P} (h : shared.held? number = some held)
    (call : Call P) : (shared.perform call).2.held? number = some held := by
  obtain ⟨-, hsame | ⟨set, -, hinstall⟩⟩ := performed shared call
  · rw [hsame]
    exact h
  · rw [hinstall]
    exact held?_install h

/-! ## Sequences of calls -/

theorem run_cons (shared : SharedSet P) (call : Call P) (calls : List (Call P)) :
    shared.run (call :: calls) =
      ((shared.perform call).1 :: ((shared.perform call).2.run calls).1,
        ((shared.perform call).2.run calls).2) := rfl

theorem Consistent.run (h : shared.Consistent options) (calls : List (Call P)) :
    (shared.run calls).2.Consistent options := by
  induction calls generalizing shared with
  | nil => exact h
  | cons call calls ih =>
    rw [run_cons]
    exact ih (h.perform call)

theorem held?_run {number : Nat} {held : PatternSet P} (h : shared.held? number = some held)
    (calls : List (Call P)) : (shared.run calls).2.held? number = some held := by
  induction calls generalizing shared with
  | nil => exact h
  | cons call calls ih =>
    rw [run_cons]
    exact ih (held?_perform h call)

/-- **A shared set is a list of patterns that is compiled anew.** After any
calls, and one more: the set in use is what the sources compile to, for no
sources the empty set; the call did to the sources, and answered, what it is
meant to, and where it failed or had nothing to do it changed nothing; and a
snapshot that was taken before it holds the set that was in use then, whatever
calls come later. -/
theorem perform_sound (options : Options) (calls : List (Call P)) (call : Call P)
    (later : List (Call P)) :
    let before := ((start options).run calls).2
    let after := (before.perform call).2
    PatternSet.compile options after.sources = .ok after.published ∧
      PatternSet.compile options ([] : List (String × P)) = .ok (.empty options) ∧
      Effect before call (before.perform call).1 after ∧
      (after.run later).2.held? before.snapshot = some before.published := by
  intro before after
  have hbefore : before.Consistent options := (consistent_start options).run calls
  have hafter : after.Consistent options := hbefore.perform call
  have hheld : after.held? before.snapshot = some before.published :=
    held?_perform (held?_snapshot before) call
  exact ⟨hafter.compile_sources, PatternSet.compile_nil options, (performed before call).1,
    held?_run hheld later⟩

/-! ## Removing patterns -/

theorem Consistent.exists_removed (h : shared.Consistent options) (payload : P) :
    ∃ count, (shared.perform (.delete payload)).1 = .removed count := by
  rw [perform_delete]
  split
  · exact ⟨0, rfl⟩
  · obtain ⟨set, hset, -⟩ := PatternSet.exists_compile_of_subset h.compile_sources
      fun p hp => (List.filter_sublist (p := (·.2 != payload))).subset hp
    simp only [outcome, Call.target, h.options_eq, hset]
    exact ⟨_, rfl⟩

/-- **Removing patterns never fails.** In every state that calls lead to, under
any options, a removal says how many patterns it removed. Behind it stands a
law of lists: where a list compiles, each of its sublists does, to an automaton
that is not larger. -/
theorem delete_succeeds (options : Options) :
    (∀ (calls : List (Call P)) (payload : P), ∃ count,
      (((start options).run calls).2.perform (.delete payload)).1 = .removed count) ∧
    ∀ (patterns : List (String × P)) (set : PatternSet P),
      PatternSet.compile options patterns = .ok set → ∀ kept, kept.Sublist patterns →
        ∃ set', PatternSet.compile options kept = .ok set' ∧ set'.dfa.size ≤ set.dfa.size := by
  refine ⟨fun calls payload => ?_, fun patterns set hcompile kept hkept =>
    PatternSet.exists_compile_of_subset hcompile fun p hp => hkept.subset hp⟩
  exact ((consistent_start options).run calls).exists_removed payload

theorem delete_succeeds_first_of_two :
    (∃ count, (((start { maxStates := some 4 }).run
      [.add "ab" 0, .add "ac" 1] : List (Answer Nat) × SharedSet Nat).2.perform (.delete 0)).1 =
        .removed count) ∧
    ∃ set set' : PatternSet Nat,
      PatternSet.compile { maxStates := some 4 } [("ab", 0), ("ac", 1)] = .ok set ∧
      PatternSet.compile { maxStates := some 4 } [("ac", 1)] = .ok set' ∧
      set'.dfa.size ≤ set.dfa.size := by
  have hrun : ((PatternSet.compile (P := Nat) { maxStates := some 4 }
      [("ab", 0), ("ac", 1)]).toOption.any fun _ => true) = true := by
    decide +kernel
  obtain ⟨set, hcompile, -⟩ := exists_ok_of_any hrun
  have hdelete := delete_succeeds (P := Nat) { maxStates := some 4 }
  obtain ⟨set', hcompile', hsize⟩ := hdelete.2 _ set hcompile [("ac", 1)] (by simp)
  exact ⟨hdelete.1 _ 0, set, set', hcompile, hcompile', hsize⟩

/-! ## Adding patterns one by one -/

/-- The calls that add patterns one by one. -/
def additions (patterns : List (String × P)) : List (Call P) :=
  patterns.map fun p => .add p.1 p.2

theorem Consistent.outcome_eq (h : shared.Consistent options) (call : Call P)
    (hcompile : PatternSet.compile options (call.target shared.sources) = .ok set) :
    shared.outcome call answer = (answer, shared.install (call.target shared.sources) set) := by
  simp only [outcome, h.options_eq, hcompile]

theorem Consistent.additions_done (h : shared.Consistent options)
    (hcompile : PatternSet.compile options (shared.sources ++ patterns) = .ok set) :
    ∀ answer ∈ (shared.run (additions patterns)).1, answer = .done := by
  induction patterns generalizing shared with
  | nil => exact fun _ hmem => absurd hmem List.not_mem_nil
  | cons p patterns ih =>
    have hsub : ∀ q ∈ shared.sources ++ [p], q ∈ shared.sources ++ p :: patterns := by grind
    obtain ⟨first, hfirst, -⟩ := PatternSet.exists_compile_of_subset hcompile hsub
    have hperform : shared.perform (.add p.1 p.2) =
        (.done, shared.install (shared.sources ++ [p]) first) := by
      rw [perform_add]
      exact h.outcome_eq (.add p.1 p.2) hfirst
    have hnext : (shared.install (shared.sources ++ [p]) first).Consistent options := by
      simpa only [hperform] using h.perform (.add p.1 p.2)
    have hrest := ih hnext (by simpa using hcompile)
    simp only [additions, List.map_cons, run_cons, hperform]
    exact List.forall_mem_cons.2 ⟨rfl, hrest⟩

/-- Additions that all succeed append their patterns. -/
theorem sources_run_additions
    (h : ∀ answer ∈ (shared.run (additions patterns)).1, answer = .done) :
    (shared.run (additions patterns)).2.sources = shared.sources ++ patterns := by
  induction patterns generalizing shared with
  | nil => simp [additions, run]
  | cons p patterns ih =>
    simp only [additions, List.map_cons, run_cons, List.forall_mem_cons] at h ⊢
    obtain ⟨hdone, hrest⟩ := h
    have hfirst : (shared.perform (.add p.1 p.2)).2.sources = shared.sources ++ [p] := by
      have heffect := (performed shared (.add p.1 p.2)).1
      rw [hdone] at heffect
      cases heffect with
      | added hsources => exact hsources
    rw [← additions, ih hrest, hfirst, List.append_assoc, List.singleton_append]

theorem Consistent.replace_done_iff (h : shared.Consistent options) :
    (shared.perform (.replace patterns)).1 = .done ↔
      ∃ set, PatternSet.compile options patterns = .ok set := by
  rw [perform_replace]
  cases hcompile : PatternSet.compile options patterns with
  | ok set => simp [h.outcome_eq (.replace patterns) hcompile]
  | error error => simp [outcome, Call.target, h.options_eq, hcompile]

theorem sources_replace (h : (shared.perform (.replace patterns)).1 = .done) :
    (shared.perform (.replace patterns)).2.sources = patterns := by
  have heffect := (performed shared (.replace patterns)).1
  rw [h] at heffect
  cases heffect with
  | replaced hsources => exact hsources

/-- **Adding patterns one by one is putting them all into use at once.** On new
shared sets the one succeeds throughout where the other does, and then both have
the same set in use. -/
theorem additions_done_iff (options : Options) (patterns : List (String × P)) :
    let added := (start options).run (additions patterns)
    let replaced := (start options).perform (.replace patterns)
    ((∀ answer ∈ added.1, answer = .done) ↔ replaced.1 = .done) ∧
      (replaced.1 = .done → added.2.published = replaced.2.published) := by
  intro added replaced
  have hstart : (start options : SharedSet P).Consistent options := consistent_start options
  have hadded : added.2.Consistent options := hstart.run _
  have hreplaced : replaced.2.Consistent options := hstart.perform _
  have hall : (∀ answer ∈ added.1, answer = .done) ↔ replaced.1 = .done := by
    rw [hstart.replace_done_iff]
    refine ⟨fun hdone => ⟨added.2.published, ?_⟩, fun ⟨set, hset⟩ => hstart.additions_done hset⟩
    have hcompile := hadded.compile_sources
    rwa [sources_run_additions hdone] at hcompile
  refine ⟨hall, fun hdone => hadded.published_eq hreplaced ?_⟩
  calc
    added.2.sources = (start options).sources ++ patterns := sources_run_additions (hall.2 hdone)
    _ = patterns := List.nil_append patterns
    _ = replaced.2.sources := (sources_replace hdone).symm

theorem additions_done_iff_two :
    ((start { maxStates := some 4 } : SharedSet Nat).perform
      (.replace [("ab", 0), ("ac", 1)])).1 = .done ∧
    ((start { maxStates := some 4 } : SharedSet Nat).run
      [.add "ab" 0, .add "ac" 1]).2.published =
        ((start { maxStates := some 4 }).perform (.replace [("ab", 0), ("ac", 1)])).2.published := by
  have hrun : ((PatternSet.compile (P := Nat) { maxStates := some 4 }
      [("ab", 0), ("ac", 1)]).toOption.any fun _ => true) = true := by
    decide +kernel
  obtain ⟨set, hcompile, -⟩ := exists_ok_of_any hrun
  have hdone := (consistent_start { maxStates := some 4 }).replace_done_iff.2 ⟨set, hcompile⟩
  exact ⟨hdone, (additions_done_iff { maxStates := some 4 } [("ab", 0), ("ac", 1)]).2 hdone⟩

end

end LinePattern.SharedSet
