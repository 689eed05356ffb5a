/-
From a token stream to an automaton.

A stack of automata is kept: an operand puts one on it, an operator replaces
its operands by what it makes of them, the right operand being the topmost. A
stream describes an automaton when every token finds its operands and exactly
one automaton remains. Any stream can be given, also one that no pattern has.
-/
import LinePattern.Pattern.Token
import LinePattern.Nfa.Operators

namespace LinePattern

/-- Why a token stream describes no automaton. -/
inductive BuildError where
  /-- The token at a position needs more operands than there are. -/
  | missingOperand (token : Token) (position needed found : Nat)
  /-- The number of automata that remain is not one. -/
  | unbalanced (fragments : Nat)
deriving DecidableEq

def BuildError.message : BuildError → String
  | missingOperand token position needed found =>
    "'" ++ token.display ++ "' at position " ++ toString position ++ " needs " ++ toString needed
      ++ " operand(s) but the stack holds " ++ toString found
  | unbalanced fragments =>
    "token stream left " ++ toString fragments ++ " fragments on the stack, expected exactly one"

namespace Assemble

/-- What a token does to the stack when `closed` groups were closed before it.
Without enough operands it does nothing to it. -/
def push? (options : Options) (closed : Nat) : Token → List Nfa → Option (List Nfa)
  | .literal symbol, stack => some (.ofSymbol symbol :: stack)
  | .any, stack => some (.ofSymbol .any :: stack)
  | .endOfLine, stack => some (.ofSymbol .endOfLine :: stack)
  | .concat, right :: left :: stack => some (left.concat right :: stack)
  | .alt, right :: left :: stack => some (left.alt right :: stack)
  | .star, nfa :: stack => some (nfa.star :: stack)
  | .plus, nfa :: stack => some (nfa.plus :: stack)
  | .optional, nfa :: stack => some (nfa.optional :: stack)
  | .negate, nfa :: stack => some (nfa.negate options.negation :: stack)
  | .capture group, nfa :: stack =>
    some (nfa.recordCapture (match options.numbering with
      | .byOpening => group
      | .byClosing => closed) :: stack)
  | _, _ => none

/-- The number of groups closed after a token. -/
def closedAfter (closed : Nat) : Token → Nat
  | .capture _ => closed + 1
  | _ => closed

/-- Goes through the tokens from `position` on. -/
def run (options : Options) (position closed : Nat) (stack : List Nfa) :
    List Token → Except BuildError Nfa
  | [] =>
    match stack with
    | [nfa] => .ok nfa
    | _ => .error (.unbalanced stack.length)
  | token :: rest =>
    match push? options closed token stack with
    | some stack => run options (position + 1) (closedAfter closed token) stack rest
    | none => .error (.missingOperand token position token.arity stack.length)

end Assemble

/-- The automaton that a token stream describes. -/
def Nfa.ofTokens (options : Options) (tokens : List Token) : Except BuildError Nfa :=
  Assemble.run options 0 0 [] tokens

end LinePattern
