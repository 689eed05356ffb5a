/-
Reading a pattern, one character at a time.

The state of a reader is the open group it is in, the groups around that one,
and what it has just read. A character either moves it on or is refused there
and then, so what a pattern is refused for depends on the characters up to
that place alone. At the end of the text `finish` asks whether something is
still open.
-/
import LinePattern.Pattern.Tree
import LinePattern.Text.Quoted

namespace LinePattern

/-- What is wrong with a pattern. -/
inductive SyntaxFault where
  | emptyPattern
  | unexpectedEnd
  | unexpected (c : Char)
  | unmatchedClose
  | missingClose
  | trailingBackslash
  | unterminatedClass
  | emptyClass
  | badRange (error : RangeError)
deriving DecidableEq, Repr

/-- A fault and the number of characters before it in the pattern. -/
structure SyntaxError where
  fault : SyntaxFault
  offset : Nat
  pattern : String
deriving DecidableEq, Repr

/-! ## The state of a reader -/

namespace Reader

/-- The part of an expression that was read inside one pair of parentheses,
or outside all of them. The newest terms and factors stand first; the newest
factor is kept by the mode. -/
structure Level where
  /-- The place of the opening parenthesis. -/
  start : Nat
  terms : List Term
  factors : List Factor

namespace Level

/-- The term that ends with the given factor. -/
def term (level : Level) (last : Factor) : Term :=
  level.factors.foldl (fun t f => .seq f t) (.factor last)

/-- The expression whose last term ends with the given factor. -/
def expr (level : Level) (last : Factor) : Expr :=
  level.terms.foldl (fun e t => .alt t e) (.term (level.term last))

end Level

/-- What was just read, hence what may follow. -/
inductive Mode where
  /-- A factor has to follow. -/
  | operand
  /-- A primary without a quantifier. -/
  | primary (p : Primary)
  /-- A factor with its quantifier. -/
  | quantified (f : Factor)
  /-- A backslash, at the given place. -/
  | escape (start : Nat)
  /-- The bracket that opens a class. -/
  | classOpen (start : Nat)
  /-- Some of the body of a class, newest part first. -/
  | classBody (start : Nat) (negated : Bool) (parts : List ClassPart)
  /-- A backslash in the body of a class. -/
  | classEscape (start : Nat) (negated : Bool) (parts : List ClassPart)

/-- A reader between two characters. -/
structure State where
  level : Level
  /-- The groups around the current one, innermost first. -/
  outer : List Level
  mode : Mode

/-- The reader before the first character. -/
def State.initial : State := ⟨⟨0, [], []⟩, [], .operand⟩

/-- A fault and its place. -/
abbrev Refusal := SyntaxFault × Nat

/-! ## One character -/

/-- Reads a character where a factor has to start. -/
def operandStep (st : State) (offset : Nat) (c : Char) : Except Refusal State :=
  match c with
  | '(' => .ok ⟨⟨offset, [], []⟩, st.level :: st.outer, .operand⟩
  | '\\' => .ok { st with mode := .escape offset }
  | '[' => .ok { st with mode := .classOpen offset }
  | '.' => .ok { st with mode := .primary .any }
  | '$' => .ok { st with mode := .primary .endOfLine }
  | ')' | ']' | '*' | '+' | '?' | '|' | '^' => .error (.unexpected c, offset)
  | _ => .ok { st with mode := .primary (.literal c) }

/-- Reads a character after a complete factor. -/
def factorStep (st : State) (last : Factor) (offset : Nat) (c : Char) : Except Refusal State :=
  match c with
  | '|' =>
    .ok { st with level := ⟨st.level.start, st.level.term last :: st.level.terms, []⟩, mode := .operand }
  | ')' =>
    match st.outer with
    | [] => .error (.unmatchedClose, offset)
    | level :: outer => .ok ⟨level, outer, .primary (.group (st.level.expr last))⟩
  | _ => operandStep { st with level.factors := last :: st.level.factors } offset c

/-- The quantifier that a character is. -/
def quantifier? : Char → Option Quantifier
  | '*' => some .star
  | '+' => some .plus
  | '?' => some .optional
  | _ => none

/-- Reads the bracket that closes a class, its parts given newest first. -/
def closeClass (st : State) (start : Nat) (negated : Bool) (parts : List ClassPart) :
    Except Refusal State :=
  let cls : CharClass := ⟨negated, parts.reverse⟩
  match cls.expand with
  | .error e => .error (.badRange e, start)
  | .ok [] => .error (.emptyClass, start)
  | .ok (_ :: _) => .ok { st with mode := .primary (.charClass cls) }

/-- Reads a character in the body of a class. -/
def classStep (st : State) (start : Nat) (negated : Bool) (parts : List ClassPart) (c : Char) :
    Except Refusal State :=
  match c with
  | ']' => closeClass st start negated parts
  | '\\' => .ok { st with mode := .classEscape start negated parts }
  | '-' => .ok { st with mode := .classBody start negated (.dash :: parts) }
  | _ => .ok { st with mode := .classBody start negated (.plain c :: parts) }

/-- Reads the character at place `offset`. -/
def step (st : State) (offset : Nat) (c : Char) : Except Refusal State :=
  match st.mode with
  | .operand => operandStep st offset c
  | .primary p =>
    match quantifier? c with
    | some q => .ok { st with mode := .quantified (.mk p (some q)) }
    | none => factorStep st (.mk p none) offset c
  | .quantified f => factorStep st f offset c
  | .escape _ => .ok { st with mode := .primary (.escape c) }
  | .classOpen start =>
    if c = '^' then .ok { st with mode := .classBody start true [] }
    else classStep st start false [] c
  | .classBody start negated parts => classStep st start negated parts c
  | .classEscape start negated parts =>
    .ok { st with mode := .classBody start negated (.escaped c :: parts) }

/-! ## A whole pattern -/

/-- Reads characters, the first of which stands at place `offset`. -/
def run (st : State) (offset : Nat) : List Char → Except Refusal State
  | [] => .ok st
  | c :: rest =>
    match step st offset c with
    | .ok next => run next (offset + 1) rest
    | .error refusal => .error refusal

/-- The expression whose last factor is given, unless a group is open. -/
def close (st : State) (last : Factor) : Except Refusal Expr :=
  match st.outer with
  | [] => .ok (st.level.expr last)
  | _ :: _ => .error (.missingClose, st.level.start)

/-- Ends the pattern after `length` characters. -/
def finish (st : State) (length : Nat) : Except Refusal Expr :=
  match st.mode with
  | .operand => .error (if length = 0 then .emptyPattern else .unexpectedEnd, length)
  | .primary p => close st (.mk p none)
  | .quantified f => close st f
  | .escape start => .error (.trailingBackslash, start)
  | .classOpen start | .classBody start _ _ | .classEscape start _ _ =>
    .error (.unterminatedClass, start)

/-- Reads all characters of a pattern. -/
def read (cs : List Char) : Except Refusal Expr :=
  match run .initial 0 cs with
  | .ok st => finish st cs.length
  | .error refusal => .error refusal

end Reader

/-- Reads a pattern. -/
def Expr.parse (pattern : String) : Except SyntaxError Expr :=
  match Reader.read pattern.toList with
  | .ok e => .ok e
  | .error (fault, offset) => .error ⟨fault, offset, pattern⟩

/-- The token stream of a pattern text. -/
def tokenize (pattern : String) : Except SyntaxError (List Token) :=
  (Expr.parse pattern).map Expr.tokens

/-! ## Messages -/

/-- What is wrong, in words. -/
def SyntaxFault.reason : SyntaxFault → String
  | emptyPattern => "empty pattern"
  | unexpectedEnd => "unexpected end of pattern"
  | unexpected c => "unexpected '" ++ c.toString ++ "'"
  | unmatchedClose => "unmatched ')'"
  | missingClose => "missing ')'"
  | trailingBackslash => "trailing '\\'"
  | unterminatedClass => "unterminated character class"
  | emptyClass => "empty character class"
  | badRange (.noEnd low) =>
    "range starting at '" ++ low.toString ++ "' must end with a character"
  | badRange .notAscii => "range endpoints must be ASCII"
  | badRange (.inverted low high) =>
    "inverted range '" ++ low.toString ++ "-" ++ high.toString ++ "'"

namespace SyntaxError

/-- The pattern from the place of the fault on. -/
def fragment (e : SyntaxError) : String :=
  String.ofList (e.pattern.toList.drop e.offset)

def message (e : SyntaxError) : String :=
  e.fault.reason ++ " at offset " ++ toString e.offset ++ " in " ++ Text.quoteString e.pattern

end SyntaxError

end LinePattern
