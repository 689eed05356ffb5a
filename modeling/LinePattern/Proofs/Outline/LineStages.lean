/-
The stages of a line.

The compiled patterns of lines are one automaton. `Stage` names what its states have read,
and `Stage.moves` is its table in these names; states that differ only in the blank
read last have one name. That the automaton stands for the table is checked row by row
(`exists_lineSet`). A scan of a line is then a run through the stages
(`earlyExit_eq_run`, `payload_of_run`).
-/
import LinePattern.Outline.LineKind
import LinePattern.Proofs.Dfa.Credit

namespace LinePattern.Outline

/-! ## The table -/

/-- What a scan has read of a line. -/
inductive Stage where
  | start
  /-- Blanks. -/
  | indent
  | stars
  /-- Stars and blanks. -/
  | headline
  | title
  /-- `#` behind the blanks. -/
  | hash
  /-- `#+`. -/
  | marker
  | key
  /-- A keyword with its colon, and blanks. -/
  | colon
  | value
  /-- A keyword, up to the end of the line. -/
  | keyword
  /-- A minus or a plus behind the blanks. -/
  | bullet
  /-- A bullet and blanks. -/
  | item
  | itemText
  /-- `[`. -/
  | bracket
  /-- `[f`. -/
  | bracketF
  /-- `[fn`. -/
  | bracketFn
  /-- `[fn:`. -/
  | note
  | label
  /-- A label and the closing bracket. -/
  | closed
  /-- A closed label and blanks. -/
  | footnote
  | footnoteText
  /-- Blanks, up to the end of the line. -/
  | blank
deriving DecidableEq

/-- A move from a stage: what it reads, and the group that this is credited to. -/
structure Move where
  symbol : Symbol
  stage : Stage
  group : Option Nat
deriving DecidableEq

namespace Stage

def onBlanks (stage : Stage) : List Move := [⟨.char '\t', stage, none⟩, ⟨.char ' ', stage, none⟩]

/-- The moves from a stage. The first that accepts a character is made. -/
def moves : Stage → List Move
  | start => onBlanks indent ++ [⟨.char '#', hash, none⟩, ⟨.char '*', stars, some 0⟩,
      ⟨.char '+', bullet, none⟩, ⟨.char '-', bullet, none⟩, ⟨.char '[', bracket, none⟩,
      ⟨.endOfLine, blank, none⟩]
  | indent => onBlanks indent ++ [⟨.char '#', hash, none⟩, ⟨.char '+', bullet, none⟩,
      ⟨.char '-', bullet, none⟩, ⟨.endOfLine, blank, none⟩]
  | stars => onBlanks headline ++ [⟨.char '*', stars, some 0⟩]
  | headline => onBlanks headline ++ [⟨.any, title, none⟩]
  | title => [⟨.any, title, none⟩]
  | hash => [⟨.char '+', marker, none⟩]
  | marker => [⟨.word, key, some 0⟩]
  | key => [⟨.char ':', colon, none⟩, ⟨.word, key, some 0⟩]
  | colon => onBlanks colon ++ [⟨.any, value, some 1⟩, ⟨.endOfLine, keyword, none⟩]
  | value => [⟨.any, value, some 1⟩, ⟨.endOfLine, keyword, none⟩]
  | bullet => onBlanks item
  | item => onBlanks item ++ [⟨.any, itemText, some 0⟩]
  | itemText => [⟨.any, itemText, some 0⟩]
  | bracket => [⟨.char 'f', bracketF, none⟩]
  | bracketF => [⟨.char 'n', bracketFn, none⟩]
  | bracketFn => [⟨.char ':', note, none⟩]
  | note => [⟨.word, label, some 0⟩]
  | label => [⟨.char ']', closed, none⟩, ⟨.word, label, some 0⟩]
  | closed => onBlanks footnote
  | footnote => onBlanks footnote ++ [⟨.any, footnoteText, some 1⟩]
  | footnoteText => [⟨.any, footnoteText, some 1⟩]
  | keyword | blank => []

/-- The kind that a stage accepts. -/
def kind? : Stage → Option LineKind
  | headline | title => some .headline
  | keyword => some .keyword
  | item | itemText => some .listItem
  | footnote | footnoteText => some .footnote
  | blank => some .blank
  | _ => none

/-- The stage that each state of the automaton stands for. -/
def ofStates : List Stage := [start, indent, indent, hash, stars, bullet, bullet, bracket, blank,
  marker, headline, headline, item, item, bracketF, key, title, itemText, bracketFn, colon, note,
  colon, colon, value, keyword, label, closed, footnote, footnote, footnoteText]

end Stage

/-- The place of the pattern of a kind. -/
def LineKind.place : LineKind → PatternId
  | headline => 0
  | keyword => 1
  | listItem => 2
  | footnote => 3
  | blank => 4

/-! ## The automaton -/

/-- The state has the row of the stage. -/
structure StandsFor (s : DfaState) (stage : Stage) : Prop where
  sorted : s.Sorted
  moves_eq : s.steps.map (fun step => (step.symbol, Stage.ofStates[step.target]?, step.group)) =
    stage.moves.map fun move => (move.symbol, some move.stage, move.group)
  groupInto?_eq : ∀ step ∈ s.steps, s.groupInto? step.target = step.group
  isFinal_eq : s.isFinal = stage.kind?.isSome
  pattern_eq : s.pattern = stage.kind?.map (·.place)

instance (s : DfaState) : Decidable s.Sorted :=
  inferInstanceAs (Decidable (s.steps.Pairwise fun a b => a.symbol.compare b.symbol = .lt))

instance (s : DfaState) (stage : Stage) : Decidable (StandsFor s stage) :=
  decidable_of_iff (s.Sorted ∧
      s.steps.map (fun step => (step.symbol, Stage.ofStates[step.target]?, step.group)) =
        stage.moves.map (fun move => (move.symbol, some move.stage, move.group)) ∧
      (∀ step ∈ s.steps, s.groupInto? step.target = step.group) ∧
      s.isFinal = stage.kind?.isSome ∧ s.pattern = stage.kind?.map (·.place))
    ⟨fun ⟨h₁, h₂, h₃, h₄, h₅⟩ => ⟨h₁, h₂, h₃, h₄, h₅⟩, fun ⟨h₁, h₂, h₃, h₄, h₅⟩ => ⟨h₁, h₂, h₃, h₄, h₅⟩⟩

/-- The compiled set follows the table. -/
structure Tabulated (set : PatternSet LineKind) : Prop where
  patterns_eq : set.patterns = linePatterns
  policy_eq : set.policy = .earlyExit
  initial_eq : set.dfa.initial = 0
  standsFor : ∀ {id stage}, Stage.ofStates[id]? = some stage → StandsFor (set.dfa.state id) stage

theorem exists_lineSet : ∃ set, lineSet = .ok set ∧ Tabulated set := by
  have hrun : (lineSet.toOption.any fun set => set.patterns == linePatterns &&
      (set.policy == .earlyExit && (set.dfa.initial == 0 &&
        Stage.ofStates.zipIdx.all fun (stage, id) =>
          decide (StandsFor (set.dfa.state id) stage)))) = true := by
    decide +kernel
  obtain ⟨set, hset, hanswer⟩ := exists_ok_of_any hrun
  obtain ⟨hpatterns, hanswer⟩ := Bool.and_eq_true_iff.1 hanswer
  obtain ⟨hpolicy, hanswer⟩ := Bool.and_eq_true_iff.1 hanswer
  obtain ⟨hinitial, hrows⟩ := Bool.and_eq_true_iff.1 hanswer
  refine ⟨set, hset, eq_of_beq hpatterns, eq_of_beq hpolicy, eq_of_beq hinitial, ?_⟩
  intro id stage hstage
  have hmem : (stage, id) ∈ Stage.ofStates.zipIdx := by
    rwa [List.mem_zipIdx_iff_getElem?]
  exact of_decide_eq_true (List.all_eq_true.1 hrows _ hmem)

/-! ## Runs -/

namespace Stage

/-- The move that a character makes. -/
def follow? (stage : Stage) (c : Char) : Option Move :=
  stage.moves.find? (·.symbol.accepts c)

/-- The kind that the end of the line accepts. -/
def end? (stage : Stage) : Option LineKind :=
  (stage.moves.find? (·.symbol = .endOfLine)).bind (·.stage.kind?)

/-- What the early exit accepts from the stage on, where `recorded` was accepted before. -/
def run (recorded : Option LineKind) (slots : Slots) (stage : Stage) :
    List Char → Option (Slots × LineKind)
  | [] => (stage.end? <|> recorded).map (slots, ·)
  | c :: rest =>
    match stage.follow? c with
    | none => recorded.map (slots, ·)
    | some move =>
      if recorded.isSome && move.group.isNone then recorded.map (slots, ·)
      else run (move.stage.kind? <|> recorded) (slots.creditTo move.group c) move.stage rest

/-- What is accepted, in terms of the automaton. -/
def acceptance (accepted : Slots × LineKind) : Acceptance := ⟨accepted.1, some accepted.2.place⟩

end Stage

section

variable {s : DfaState} {stage : Stage} {slots : Slots}
  {set : PatternSet LineKind} {id : StateId} {line : String}

theorem StandsFor.find? (h : StandsFor s stage) (p : Symbol → Bool) :
    (s.steps.find? (p ·.symbol)).map
        (fun step => (step.symbol, Stage.ofStates[step.target]?, step.group)) =
      (stage.moves.find? (p ·.symbol)).map fun move => (move.symbol, some move.stage, move.group) := by
  have hfind := congrArg (List.find? fun row => p row.1) h.moves_eq
  rwa [List.find?_map, List.find?_map] at hfind

/-- A character makes the step that stands for its move. -/
theorem StandsFor.follow? (h : StandsFor s stage) (c : Char) :
    match stage.follow? c with
    | none => s.follow? c = none
    | some move => ∃ target, s.follow? c = some target ∧
        Stage.ofStates[target]? = some move.stage ∧ s.groupInto? target = move.group := by
  have hfind := h.find? (·.accepts c)
  rw [DfaState.follow?_eq h.sorted, Stage.follow?]
  cases hmove : stage.moves.find? (·.symbol.accepts c) with
  | none =>
    rw [hmove, Option.map_none, Option.map_eq_none_iff] at hfind
    rw [hfind]
    rfl
  | some move =>
    rw [hmove, Option.map_some, Option.map_eq_some_iff] at hfind
    obtain ⟨step, hstep, heq⟩ := hfind
    injection heq with hsymbol heq
    injection heq with htarget hgroup
    rw [hstep]
    exact ⟨step.target, rfl, htarget,
      (h.groupInto?_eq step (List.mem_of_find?_eq_some hstep)).trans hgroup⟩

theorem acceptHere?_eq_kind? (h : Tabulated set) (hid : Stage.ofStates[id]? = some stage) :
    Scan.acceptHere? set.dfa ⟨id, slots⟩ =
      stage.kind?.map fun kind => Stage.acceptance (slots, kind) := by
  have hrow := h.standsFor hid
  rw [Scan.acceptHere?, hrow.isFinal_eq, hrow.pattern_eq]
  cases stage.kind? <;> rfl

theorem acceptAtEnd?_eq_end? (h : Tabulated set) (hid : Stage.ofStates[id]? = some stage) :
    Scan.acceptAtEnd? set.dfa ⟨id, slots⟩ =
      stage.end?.map fun kind => Stage.acceptance (slots, kind) := by
  have hfind := (h.standsFor hid).find? (decide <| · = .endOfLine)
  rw [Scan.acceptAtEnd?, DfaState.next?, Stage.end?]
  cases hmove : stage.moves.find? (·.symbol = .endOfLine) with
  | none =>
    rw [hmove, Option.map_none, Option.map_eq_none_iff] at hfind
    rw [hfind]
    rfl
  | some move =>
    rw [hmove, Option.map_some, Option.map_eq_some_iff] at hfind
    obtain ⟨step, hstep, heq⟩ := hfind
    injection heq with hsymbol heq
    injection heq with htarget hgroup
    rw [hstep]
    exact acceptHere?_eq_kind? h htarget

/-- **The early exit runs through the stages.** -/
theorem earlyExit_eq_run (h : Tabulated set) (hid : Stage.ofStates[id]? = some stage)
    (recorded : Option LineKind) (slots : Slots) (text : List Char) :
    Scan.earlyExit set.dfa (recorded.map (some ·.place)) ⟨id, slots⟩ text =
      (stage.run recorded slots text).map Stage.acceptance := by
  induction text generalizing recorded slots id stage with
  | nil =>
    rw [Scan.earlyExit, acceptAtEnd?_eq_end? h hid, Stage.run]
    cases stage.end? <;> cases recorded <;> rfl
  | cons c rest ih =>
    have hfollow := (h.standsFor hid).follow? c
    unfold Scan.earlyExit Stage.run
    cases hmove : stage.follow? c with
    | none =>
      rw [hmove] at hfollow
      rw [Dfa.findNext, hfollow]
      cases recorded <;> rfl
    | some move =>
      rw [hmove] at hfollow
      obtain ⟨target, htarget, hstage, hgroup⟩ := hfollow
      have hgroup : Scan.groupInto? set.dfa ⟨id, slots⟩ target = move.group := hgroup
      have hnext : Scan.move set.dfa ⟨id, slots⟩ target c =
          ⟨target, slots.creditTo move.group c⟩ := by
        rw [Scan.move, hgroup]
        cases move.group <;> rfl
      have hrecorded : ((Scan.acceptHere? set.dfa ⟨target, slots.creditTo move.group c⟩).map
          (·.pattern) <|> recorded.map (some ·.place)) =
            (move.stage.kind? <|> recorded).map (some ·.place) := by
        rw [acceptHere?_eq_kind? h hstage]
        cases move.stage.kind? <;> rfl
      rw [Dfa.findNext, htarget]
      simp only [hgroup, hnext, hrecorded, ih hstage, Option.isSome_map]
      split
      · cases recorded <;> rfl
      · rfl

/-- What a run accepts is reported. -/
theorem verdict_of_run (h : Tabulated set) {kind : LineKind}
    (hrun : Stage.start.run none [] line.toList = some (slots, kind)) :
    set.verdict line = ⟨line, true, slots.texts, some kind⟩ := by
  have hstart : Scan.start set.dfa = ⟨0, []⟩ := by rw [Scan.start, h.initial_eq]
  have hscan : set.dfa.scan set.policy line = ⟨true, slots.texts, some kind.place⟩ := by
    have hunder := earlyExit_eq_run h (rfl : Stage.ofStates[0]? = some .start) none [] line.toList
    rw [hrun, ← hstart] at hunder
    rw [Dfa.scan, h.policy_eq, Scan.under, ← Option.map_none, hunder]
    rfl
  have hpayload : set.payload? kind.place = some kind := by
    rw [PatternSet.payload?, h.patterns_eq]
    cases kind <;> rfl
  rw [PatternSet.verdict, hscan, Verdict.ofOutcome, if_pos rfl, Option.bind_some, hpayload]

end

end LinePattern.Outline
