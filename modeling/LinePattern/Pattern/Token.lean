/-
The tokens of a pattern in operator-last order.

An operand pushes a fragment, an operator takes its operands from the top of
the stack. `Token.arity` is the number it takes.
-/
import LinePattern.Symbol.Order
import LinePattern.Symbol.Display

namespace LinePattern

/-- One token of a pattern whose operators follow their operands. -/
inductive Token where
  | literal (symbol : Symbol)
  /-- Any character. -/
  | any
  | endOfLine
  | concat
  | alt
  | star
  | plus
  | optional
  /-- Negates the class built last. -/
  | negate
  /-- Closes the group that opened as number `group`. -/
  | capture (group : Nat)
deriving DecidableEq

namespace Token

/-- The number of operands the token takes. -/
def arity : Token → Nat
  | literal _ | any | endOfLine => 0
  | star | plus | optional | negate | capture _ => 1
  | concat | alt => 2

/-- The token as messages show it. A character stands for itself. -/
def display : Token → String
  | literal (.char c) => c.toString
  | literal symbol => symbol.display
  | any => "."
  | endOfLine => "$"
  | concat => "&"
  | alt => "|"
  | star => "*"
  | plus => "+"
  | optional => "?"
  | negate => "^"
  | capture group => "(" ++ toString group ++ ")"

/-- A token stream as messages show it. -/
def displayAll (tokens : List Token) : String :=
  String.join (tokens.map display)

end Token

end LinePattern
