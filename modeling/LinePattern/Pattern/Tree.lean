/-
Patterns as trees, by the grammar

    expr    := term | term '|' expr
    term    := factor | factor term
    factor  := primary | primary quantifier
    primary := character | '\' character | '.' | '$' | class | '(' expr ')'

and their token streams. `Expr.tokens` writes the operands in order, a
quantifier after its operand, the tokens that join the factors of a term or
the terms of an expression after the last of them, and the capture token of a
group after its body. Groups are numbered by their opening parentheses, so
the number of groups before a subtree is passed down.
-/
import LinePattern.Pattern.Token
import LinePattern.Pattern.CharClass

namespace LinePattern

/-- How often a factor may repeat. -/
inductive Quantifier where
  | star
  | plus
  | optional
deriving DecidableEq, Repr

mutual

/-- Alternatives. -/
inductive Expr where
  | term (t : Term)
  | alt (t : Term) (rest : Expr)
deriving DecidableEq, Repr

/-- Factors in sequence. -/
inductive Term where
  | factor (f : Factor)
  | seq (f : Factor) (rest : Term)
deriving DecidableEq, Repr

/-- A primary and at most one quantifier. -/
inductive Factor where
  | mk (p : Primary) (quantifier : Option Quantifier)
deriving DecidableEq, Repr

/-- What a quantifier can be put on. -/
inductive Primary where
  | literal (c : Char)
  /-- A backslash and the character after it. -/
  | escape (c : Char)
  | any
  | endOfLine
  | charClass (cls : CharClass)
  | group (body : Expr)
deriving DecidableEq, Repr

end

/-! ## Groups -/

mutual

/-- The number of groups in the expression. -/
def Expr.groups : Expr → Nat
  | .term t => t.groups
  | .alt t rest => t.groups + rest.groups

def Term.groups : Term → Nat
  | .factor f => f.groups
  | .seq f rest => f.groups + rest.groups

def Factor.groups : Factor → Nat
  | .mk p _ => p.groups

def Primary.groups : Primary → Nat
  | .group body => body.groups + 1
  | .literal _ | .escape _ | .any | .endOfLine | .charClass _ => 0

end

/-! ## Tokens -/

namespace Token

/-- Joins symbols by alternation, each after the ones before it. -/
def anyOf : List Symbol → List Token
  | [] => []
  | s :: rest => literal s :: rest.flatMap fun t => [literal t, alt]

/-- What a backslash and a character stand for outside a class. -/
def ofEscape : Char → List Token
  | 'd' => [literal .digit]
  | 'w' => [literal .word]
  | 's' => anyOf [.char ' ', .char '\t']
  | c => [literal (.char c)]

def ofClass (cls : CharClass) : List Token :=
  anyOf cls.members ++ if cls.negated then [negate] else []

def ofQuantifier : Option Quantifier → List Token
  | none => []
  | some .star => [star]
  | some .plus => [plus]
  | some .optional => [optional]

end Token

mutual

/-- The token stream of an expression before which `opened` groups were
opened. -/
def Expr.tokensFrom (opened : Nat) : Expr → List Token
  | .term t => t.tokensFrom opened
  | .alt t rest => t.tokensFrom opened ++ rest.tokensFrom (opened + t.groups) ++ [.alt]

def Term.tokensFrom (opened : Nat) : Term → List Token
  | .factor f => f.tokensFrom opened
  | .seq f rest => f.tokensFrom opened ++ rest.tokensFrom (opened + f.groups) ++ [.concat]

def Factor.tokensFrom (opened : Nat) : Factor → List Token
  | .mk p quantifier => p.tokensFrom opened ++ Token.ofQuantifier quantifier

def Primary.tokensFrom (opened : Nat) : Primary → List Token
  | .literal c => [.literal (.char c)]
  | .escape c => Token.ofEscape c
  | .any => [.any]
  | .endOfLine => [.endOfLine]
  | .charClass cls => Token.ofClass cls
  | .group body => body.tokensFrom (opened + 1) ++ [.capture opened]

end

/-- The token stream of a whole pattern. -/
def Expr.tokens (e : Expr) : List Token := e.tokensFrom 0

end LinePattern
