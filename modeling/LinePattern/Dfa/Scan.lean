/-
Scanning a text with a deterministic automaton.

A scan follows the text from its first character along one path, and credits
each character to the capture slot that its step belongs to. The policy says
at which accepting state it stops. At the end of a text a step along the end
of the line may still accept. When nothing was accepted along the way, the
text matches if the initial state accepts, without captures.

The longest scan goes past accepting states, and may have to go back to the last
of them. There is one set of slots, which it then cuts back to the lengths that
it has marked.

There is a slot for every group that a character was credited to, and for every
group below it. The memory for them is taken to be there.
-/
import LinePattern.Dfa.Walk

namespace LinePattern

/-- The characters credited to each capture group, the latest first. -/
abbrev Slots := List (List Char)

namespace Slots

/-- Credits a character to a group. Slots up to that of the group appear with
the first character for it. -/
def credit (group : Nat) (c : Char) (slots : Slots) : Slots :=
  (slots.rightpad (group + 1) []).modify group (c :: ·)

/-- The texts of the slots. -/
def texts (slots : Slots) : List String := slots.map fun slot => String.ofList slot.reverse

/-- The length in bytes of the text of a slot. -/
def byteCount : List Char → Nat
  | [] => 0
  | c :: slot => c.utf8Size + byteCount slot

/-- The lengths of the slots after a character is credited to a group. -/
def lengthen (group : Nat) (c : Char) (lengths : List Nat) : List Nat :=
  (lengths.rightpad (group + 1) 0).modify group (· + c.utf8Size)

/-- Drops the latest characters of a slot, which take so many bytes. -/
def dropBytes : Nat → List Char → List Char
  | 0, slot => slot
  | _ + 1, [] => []
  | n + 1, c :: slot => dropBytes (n + 1 - c.utf8Size) slot

/-- Cuts the slots back to those that have a length, and each to its length. -/
def rewind (lengths : List Nat) (slots : Slots) : Slots :=
  List.zipWith (fun length slot => dropBytes (byteCount slot - length) slot) lengths slots

end Slots

/-- Where a scan is, and what it has credited. -/
structure Scan where
  state : StateId
  slots : Slots
deriving DecidableEq

/-- An accepted text: the slots, and the pattern that accepts. -/
structure Acceptance where
  slots : Slots
  pattern : Option PatternId
deriving DecidableEq

/-- The last acceptance on the way: the lengths that the slots had in bytes, and
the pattern. -/
structure Mark where
  lengths : List Nat
  pattern : Option PatternId
deriving DecidableEq

/-- What a scan found. Without a match there are no captures and no pattern. -/
structure Outcome where
  matched : Bool
  captures : List String
  pattern : Option PatternId
deriving DecidableEq, Repr

namespace Scan

/-- The scan before the first character. -/
def start (dfa : Dfa) : Scan := ⟨dfa.initial, []⟩

/-- The group that a move to `target` is credited to. -/
def groupInto? (dfa : Dfa) (scan : Scan) (target : StateId) : Option Nat :=
  (dfa.state scan.state).groupInto? target

/-- Moves to `target` with the character. -/
def move (dfa : Dfa) (scan : Scan) (target : StateId) (c : Char) : Scan :=
  match scan.groupInto? dfa target with
  | some group => ⟨target, scan.slots.credit group c⟩
  | none => ⟨target, scan.slots⟩

/-- Acceptance in the current state. -/
def acceptHere? (dfa : Dfa) (scan : Scan) : Option Acceptance :=
  let s := dfa.state scan.state
  if s.isFinal then some ⟨scan.slots, s.pattern⟩ else none

/-- Acceptance behind a step along the end of the line. -/
def acceptAtEnd? (dfa : Dfa) (scan : Scan) : Option Acceptance :=
  match (dfa.state scan.state).next? .endOfLine with
  | none => none
  | some target => acceptHere? dfa ⟨target, scan.slots⟩

/-- Stops in the first accepting state. -/
def first (dfa : Dfa) (scan : Scan) : List Char → Option Acceptance
  | [] => scan.acceptAtEnd? dfa
  | c :: rest =>
    match dfa.findNext scan.state c with
    | none => none
    | some target =>
      let scan := scan.move dfa target c
      match scan.acceptHere? dfa with
      | some acceptance => some acceptance
      | none => first dfa scan rest

/-- Goes on after an accepting state only with steps that a group claims.
`recorded` is the pattern of the last accepting state, if there was one; the
slots are those of the scan when it stops. -/
def earlyExit (dfa : Dfa) (recorded : Option (Option PatternId)) (scan : Scan) :
    List Char → Option Acceptance
  | [] => scan.acceptAtEnd? dfa <|> recorded.map (⟨scan.slots, ·⟩)
  | c :: rest =>
    match dfa.findNext scan.state c with
    | none => recorded.map (⟨scan.slots, ·⟩)
    | some target =>
      if recorded.isSome && (scan.groupInto? dfa target).isNone then
        recorded.map (⟨scan.slots, ·⟩)
      else
        let next := scan.move dfa target c
        earlyExit dfa ((next.acceptHere? dfa).map (·.pattern) <|> recorded) next rest

/-- The lengths of the slots after a move to `target` with the character. -/
def lengthen (dfa : Dfa) (scan : Scan) (target : StateId) (c : Char) (lengths : List Nat) :
    List Nat :=
  match scan.groupInto? dfa target with
  | some group => Slots.lengthen group c lengths
  | none => lengths

/-- Goes back to what the slots held at the mark. -/
def rewind (scan : Scan) (mark : Mark) : Acceptance :=
  ⟨scan.slots.rewind mark.lengths, mark.pattern⟩

/-- Goes on to the end of the text or a dead end, and from there back to the
last acceptance on the way, `best`. No copy is kept of what the slots held
there: they are cut back to the lengths that they had. `lengths` are those that
they have now. -/
def longest (dfa : Dfa) (best : Option Mark) (lengths : List Nat) (scan : Scan) :
    List Char → Option Acceptance
  | [] => scan.acceptAtEnd? dfa <|> best.map scan.rewind
  | c :: rest =>
    match dfa.findNext scan.state c with
    | none => best.map scan.rewind
    | some target =>
      let lengths := scan.lengthen dfa target c lengths
      let scan := scan.move dfa target c
      longest dfa ((scan.acceptHere? dfa).map (⟨lengths, ·.pattern⟩) <|> best) lengths scan rest

/-- The acceptance that the policy stops at. -/
def under (policy : MatchPolicy) (dfa : Dfa) (text : List Char) : Option Acceptance :=
  match policy with
  | .first => first dfa (start dfa) text
  | .earlyExit => earlyExit dfa none (start dfa) text
  | .longest => longest dfa none [] (start dfa) text

end Scan

namespace Outcome

def accepted (acceptance : Acceptance) : Outcome :=
  ⟨true, acceptance.slots.texts, acceptance.pattern⟩

def rejected : Outcome := ⟨false, [], none⟩

end Outcome

namespace Dfa

/-- Scans a text. -/
def scan (dfa : Dfa) (policy : MatchPolicy) (text : String) : Outcome :=
  match Scan.under policy dfa text.toList with
  | some acceptance => .accepted acceptance
  | none =>
    let s := dfa.state dfa.initial
    if s.isFinal then .accepted ⟨[], s.pattern⟩ else .rejected

end Dfa

end LinePattern
