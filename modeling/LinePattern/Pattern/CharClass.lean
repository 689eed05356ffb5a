/-
Bracketed classes: what is written between the brackets, and the symbols it
lists.

The written parts of a body become items: a character, a shorthand such as
the digits, or a dash. `expandRanges` reads the items from left to right and
turns `a-e` into the characters it spans. A dash is a range operator after a
character, unless it comes last or ends a range itself; elsewhere it stands
for itself.
-/
import LinePattern.Symbol

namespace LinePattern

/-- An item of a class body before ranges are expanded. -/
inductive ClassItem where
  | scalar (c : Char)
  | shorthand (symbol : Symbol)
  | dash

/-- Why a range in a class body has no meaning. -/
inductive RangeError where
  /-- The range from this character ends in a shorthand. -/
  | noEnd (low : Char)
  | notAscii
  | inverted (low high : Char)
deriving DecidableEq, Repr

namespace ClassItem

/-- The character that the item is as the end of a range. -/
def rangeEnd? : ClassItem → Option Char
  | scalar c => some c
  | dash => some '-'
  | shorthand _ => none

/-- The characters from `low` to `high`, both included. -/
def span (low high : Char) : List Char :=
  (List.range' low.toNat (high.toNat + 1 - low.toNat)).map Char.ofNat

def isAscii (c : Char) : Bool := c.toNat < 128

/-- The members a body lists, given the members listed so far, newest first,
and the start of a range whose operator was just read. -/
def expandFrom (members : List Symbol) :
    Option Char → List ClassItem → Except RangeError (List Symbol)
  | none, [] => .ok members.reverse
  | some low, [] => .ok (.char '-' :: .char low :: members).reverse
  | none, scalar c :: items => expandFrom (.char c :: members) none items
  | none, shorthand symbol :: items => expandFrom (symbol :: members) none items
  | none, dash :: items =>
    match members with
    | .char low :: earlier => expandFrom earlier (some low) items
    | _ => expandFrom (.char '-' :: members) none items
  | some low, item :: items =>
    match item.rangeEnd? with
    | none => .error (.noEnd low)
    | some high =>
      if !isAscii low || !isAscii high then .error .notAscii
      else if high < low then .error (.inverted low high)
      else expandFrom (((span low high).map .char).reverse ++ members) none items

/-- The members that a class body lists, in order and with repetitions. -/
def expandRanges (items : List ClassItem) : Except RangeError (List Symbol) :=
  expandFrom [] none items

end ClassItem

/-- A part of a class body as written. -/
inductive ClassPart where
  | plain (c : Char)
  | dash
  /-- A backslash and the character after it. -/
  | escaped (c : Char)
deriving DecidableEq, Repr

/-- The items that a written part stands for. The blanks are two characters,
not a shorthand. -/
def ClassPart.items : ClassPart → List ClassItem
  | plain c => [.scalar c]
  | dash => [.dash]
  | escaped 'd' => [.shorthand .digit]
  | escaped 'w' => [.shorthand .word]
  | escaped 's' => [.scalar ' ', .scalar '\t']
  | escaped c => [.scalar c]

/-- A bracketed class as written. -/
structure CharClass where
  negated : Bool
  parts : List ClassPart
deriving DecidableEq, Repr

namespace CharClass

/-- The members the class lists, or what is wrong with its ranges. -/
def expand (cls : CharClass) : Except RangeError (List Symbol) :=
  ClassItem.expandRanges (cls.parts.flatMap ClassPart.items)

/-- The members the class lists; none when its ranges have no meaning. -/
def members (cls : CharClass) : List Symbol :=
  match cls.expand with
  | .ok members => members
  | .error _ => []

end CharClass

end LinePattern
