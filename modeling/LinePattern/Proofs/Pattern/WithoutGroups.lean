/-
Automata without their groups.

Groups are kept beside the states. No operator looks at those of its operands
when it makes states, so leaving them out commutes with every operator, and
with merging. The automaton of a stream without its capture tokens is therefore
that of the stream, without its groups (`ofTokens_withoutGroups`). In
particular a group changes no transition, whatever its number is.
-/
import LinePattern.Proofs.Pattern.TokenTree

namespace LinePattern

/-! ## Operators -/

namespace Nfa

/-- The automaton without its groups. -/
def withoutGroups (nfa : Nfa) : Nfa := { nfa with captures := [] }

variable {nfa left right : Nfa}

theorem withoutGroups_addEpsilons (nfa : Nfa) (steps : List (StateId × StateId)) :
    (nfa.addEpsilons steps).withoutGroups = nfa.withoutGroups.addEpsilons steps := by
  induction steps generalizing nfa with
  | nil => rfl
  | cons step rest ih => exact ih _

theorem withoutGroups_concat :
    (left.concat right).withoutGroups = left.withoutGroups.concat right.withoutGroups :=
  congrArg (fun nfa : Nfa => { nfa with finals := right.finals.map (· + left.size) })
    (withoutGroups_addEpsilons (left.absorb right) _)

theorem withoutGroups_alt :
    (left.alt right).withoutGroups = left.withoutGroups.alt right.withoutGroups :=
  congrArg (fun nfa : Nfa => { nfa with
      initial := left.size + right.size
      finals := [left.size + right.size + 1] })
    (withoutGroups_addEpsilons ((left.absorb right).addState.addState) _)

theorem withoutGroups_plus : nfa.plus.withoutGroups = nfa.withoutGroups.plus :=
  congrArg (fun whole : Nfa => { whole with initial := nfa.size, finals := [nfa.size + 1] })
    (withoutGroups_addEpsilons nfa.addState.addState _)

theorem withoutGroups_star : nfa.star.withoutGroups = nfa.withoutGroups.star :=
  congrArg (·.addEpsilon nfa.size (nfa.size + 1)) withoutGroups_plus

theorem withoutGroups_optional : nfa.optional.withoutGroups = nfa.withoutGroups.optional :=
  withoutGroups_addEpsilons _ _

theorem withoutGroups_negate (mode : NegationMode) :
    (nfa.negate mode).withoutGroups = nfa.withoutGroups.negate mode := by
  cases mode <;> rfl

theorem withoutGroups_mergeFrom (merged : Nfa) (i : PatternId) (nfas : List Nfa) :
    (mergeFrom merged i nfas).withoutGroups =
      mergeFrom merged.withoutGroups i (nfas.map withoutGroups) := by
  induction nfas generalizing merged i with
  | nil => rfl
  | cons nfa rest ih => exact ih _ _

theorem withoutGroups_merge (nfas : List Nfa) :
    (merge nfas).withoutGroups = merge (nfas.map withoutGroups) :=
  withoutGroups_mergeFrom _ _ _

end Nfa

/-! ## Streams -/

/-- Whether the token closes a group. -/
def Token.isCapture : Token → Bool
  | capture _ => true
  | _ => false

/-- The stream without its capture tokens. -/
def Token.withoutGroups (tokens : List Token) : List Token := tokens.filter (!·.isCapture)

theorem Token.withoutGroups_append (tokens rest : List Token) :
    withoutGroups (tokens ++ rest) = withoutGroups tokens ++ withoutGroups rest :=
  List.filter_append ..

namespace TokenTree

/-- The tree without its groups. -/
def withoutGroups : TokenTree → TokenTree
  | literal symbol => .literal symbol
  | any => .any
  | endOfLine => .endOfLine
  | concat left right => .concat left.withoutGroups right.withoutGroups
  | alt left right => .alt left.withoutGroups right.withoutGroups
  | star body => .star body.withoutGroups
  | plus body => .plus body.withoutGroups
  | optional body => .optional body.withoutGroups
  | negate body => .negate body.withoutGroups
  | capture _ body => body.withoutGroups

theorem tokens_withoutGroups (tree : TokenTree) :
    tree.withoutGroups.tokens = Token.withoutGroups tree.tokens := by
  induction tree with
  | literal | any | endOfLine => rfl
  | concat left right ihl ihr | alt left right ihl ihr =>
    simp [withoutGroups, tokens, ihl, ihr, Token.withoutGroups, Token.isCapture]
  | star body ih | plus body ih | optional body ih | negate body ih | capture _ body ih =>
    simp [withoutGroups, tokens, ih, Token.withoutGroups, Token.isCapture]

/-- Groups leave the states of an automaton alone. How they are numbered, and
how many were closed before, then makes no difference. -/
theorem nfa_withoutGroups {options options' : Options}
    (hnegation : options'.negation = options.negation) (closed closed' : Nat) (tree : TokenTree) :
    tree.withoutGroups.nfa options' closed' = (tree.nfa options closed).withoutGroups := by
  induction tree generalizing closed closed' with
  | literal | any | endOfLine => rfl
  | concat left right ihl ihr =>
    rw [withoutGroups, nfa, nfa, Nfa.withoutGroups_concat, ihl closed, ihr (closed + left.groups)]
  | alt left right ihl ihr =>
    rw [withoutGroups, nfa, nfa, Nfa.withoutGroups_alt, ihl closed, ihr (closed + left.groups)]
  | star body ih => rw [withoutGroups, nfa, nfa, Nfa.withoutGroups_star, ih closed]
  | plus body ih => rw [withoutGroups, nfa, nfa, Nfa.withoutGroups_plus, ih closed]
  | optional body ih => rw [withoutGroups, nfa, nfa, Nfa.withoutGroups_optional, ih closed]
  | negate body ih =>
    rw [withoutGroups, nfa, nfa, Nfa.withoutGroups_negate, ih closed, hnegation]
  | capture group body ih =>
    rw [withoutGroups, nfa, ih closed]
    rfl

/-- But for its groups an automaton does not depend on how they are numbered. -/
theorem withoutGroups_nfa_congr {options options' : Options} {tree tree' : TokenTree}
    (hnegation : options'.negation = options.negation)
    (h : Token.withoutGroups tree'.tokens = Token.withoutGroups tree.tokens)
    (closed closed' : Nat) :
    (tree'.nfa options' closed').withoutGroups = (tree.nfa options closed).withoutGroups := by
  rw [← tokens_withoutGroups, ← tokens_withoutGroups] at h
  rw [← nfa_withoutGroups hnegation.symm closed' closed, tokens_injective h,
    nfa_withoutGroups rfl closed closed]

theorem edges_nfa_congr {options options' : Options} {tree tree' : TokenTree}
    (hnegation : options'.negation = options.negation)
    (h : Token.withoutGroups tree'.tokens = Token.withoutGroups tree.tokens)
    (closed closed' : Nat) :
    (tree'.nfa options' closed').edges = (tree.nfa options closed).edges :=
  (congrArg Nfa.edges (withoutGroups_nfa_congr hnegation h closed closed') :)

/-- **Capture tokens leave everything else alone.** Without them a stream is
assembled to the same automaton without its groups. -/
theorem ofTokens_withoutGroups {options : Options} {tokens : List Token} {automaton : Nfa}
    (h : Nfa.ofTokens options tokens = .ok automaton) :
    Nfa.ofTokens options (Token.withoutGroups tokens) = .ok automaton.withoutGroups := by
  obtain ⟨tree, rfl, rfl⟩ := ofTokens_eq_ok_iff.1 h
  rw [← tokens_withoutGroups, ofTokens_tokens, nfa_withoutGroups rfl]

end TokenTree

end LinePattern
