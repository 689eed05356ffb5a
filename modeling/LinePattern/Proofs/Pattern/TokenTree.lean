/-
Token streams as trees.

A stream whose operators follow their operands writes a `TokenTree`, and only
one (`TokenTree.tokens_injective`). Assembling a stream succeeds exactly when it
writes a tree, and gives the automaton that is built along the tree
(`ofTokens_eq_ok_iff`). So what holds of assembled automata is proved by
induction on trees, with no stack in sight.

The stack is met once, here. `grow?` reads one token with a stack of trees in
the place of the stack of automata, and `push?_stack` says that the two stacks
stay in step.
-/
import LinePattern.Pattern.Assemble

namespace LinePattern

/-- What a token stream writes: an operator above its operands. -/
inductive TokenTree where
  | literal (symbol : Symbol)
  | any
  | endOfLine
  | concat (left right : TokenTree)
  | alt (left right : TokenTree)
  | star (body : TokenTree)
  | plus (body : TokenTree)
  | optional (body : TokenTree)
  | negate (body : TokenTree)
  | capture (group : Nat) (body : TokenTree)

namespace TokenTree

/-- The stream that writes the tree. -/
def tokens : TokenTree → List Token
  | literal symbol => [.literal symbol]
  | any => [.any]
  | endOfLine => [.endOfLine]
  | concat left right => left.tokens ++ right.tokens ++ [.concat]
  | alt left right => left.tokens ++ right.tokens ++ [.alt]
  | star body => body.tokens ++ [.star]
  | plus body => body.tokens ++ [.plus]
  | optional body => body.tokens ++ [.optional]
  | negate body => body.tokens ++ [.negate]
  | capture group body => body.tokens ++ [.capture group]

/-- The number of groups that close in the tree. -/
def groups : TokenTree → Nat
  | literal _ | any | endOfLine => 0
  | concat left right | alt left right => left.groups + right.groups
  | star body | plus body | optional body | negate body => body.groups
  | capture _ body => body.groups + 1

/-- The automaton of a tree before which `closed` groups were closed. -/
def nfa (options : Options) (closed : Nat) : TokenTree → Nfa
  | literal symbol => .ofSymbol symbol
  | any => .ofSymbol .any
  | endOfLine => .ofSymbol .endOfLine
  | concat left right =>
    (left.nfa options closed).concat (right.nfa options (closed + left.groups))
  | alt left right => (left.nfa options closed).alt (right.nfa options (closed + left.groups))
  | star body => (body.nfa options closed).star
  | plus body => (body.nfa options closed).plus
  | optional body => (body.nfa options closed).optional
  | negate body => (body.nfa options closed).negate options.negation
  | capture group body => (body.nfa options closed).recordCapture (match options.numbering with
      | .byOpening => group
      | .byClosing => closed + body.groups)

/-! ## Stacks of trees -/

/-- What a token does to a stack of trees. -/
def grow? : List TokenTree → Token → Option (List TokenTree)
  | trees, .literal symbol => some (.literal symbol :: trees)
  | trees, .any => some (.any :: trees)
  | trees, .endOfLine => some (.endOfLine :: trees)
  | right :: left :: trees, .concat => some (.concat left right :: trees)
  | right :: left :: trees, .alt => some (.alt left right :: trees)
  | body :: trees, .star => some (.star body :: trees)
  | body :: trees, .plus => some (.plus body :: trees)
  | body :: trees, .optional => some (.optional body :: trees)
  | body :: trees, .negate => some (.negate body :: trees)
  | body :: trees, .capture group => some (.capture group body :: trees)
  | _, _ => none

/-- What the tokens do in turn. -/
def growAll? (trees : List TokenTree) : List Token → Option (List TokenTree)
  | [] => some trees
  | token :: rest => (grow? trees token).bind (growAll? · rest)

/-- The tokens that wrote a stack. -/
def written : List TokenTree → List Token
  | [] => []
  | tree :: trees => written trees ++ tree.tokens

/-- The number of groups closed in a stack. -/
def closedIn : List TokenTree → Nat
  | [] => 0
  | tree :: trees => closedIn trees + tree.groups

/-- The automata of the trees in a stack. -/
def stack (options : Options) : List TokenTree → List Nfa
  | [] => []
  | tree :: trees => tree.nfa options (closedIn trees) :: stack options trees

variable {options : Options} {trees trees' : List TokenTree} {token : Token} {nfa : Nfa}

theorem growAll?_append (trees : List TokenTree) (tokens rest : List Token) :
    growAll? trees (tokens ++ rest) = (growAll? trees tokens).bind (growAll? · rest) := by
  induction tokens generalizing trees with
  | nil => rfl
  | cons token tokens ih =>
    rw [List.cons_append, growAll?, growAll?, Option.bind_assoc]
    exact congrArg _ (funext fun trees => ih trees)

/-- Reading the tokens of a tree puts it on the stack. -/
theorem growAll?_tokens (tree : TokenTree) (trees : List TokenTree) :
    growAll? trees tree.tokens = some (tree :: trees) := by
  induction tree generalizing trees with
  | literal | any | endOfLine => rfl
  | concat left right ihl ihr | alt left right ihl ihr =>
    simp [tokens, growAll?_append, ihl, ihr, growAll?, grow?]
  | star body ih | plus body ih | optional body ih | negate body ih | capture _ body ih =>
    simp [tokens, growAll?_append, ih, growAll?, grow?]

theorem tokens_injective {s t : TokenTree} (h : s.tokens = t.tokens) : s = t := by
  have hs := growAll?_tokens s []
  rw [h, growAll?_tokens] at hs
  simpa using hs.symm

theorem written_of_grow? (h : grow? trees token = some trees') :
    written trees' = written trees ++ [token] := by
  unfold grow? at h
  split at h <;> cases h <;> simp [written, tokens]

theorem closedIn_of_grow? (h : grow? trees token = some trees') :
    closedIn trees' = Assemble.closedAfter (closedIn trees) token := by
  unfold grow? at h
  split at h <;> cases h <;>
    simp [closedIn, groups, Assemble.closedAfter, Nat.add_assoc]

/-- A token does the same to a stack of trees and to that of their automata. -/
theorem push?_stack (options : Options) (trees : List TokenTree) (token : Token) :
    Assemble.push? options (closedIn trees) token (stack options trees) =
      (grow? trees token).map (stack options) := by
  cases token with
  | literal | any | endOfLine => rfl
  | concat | alt =>
    match trees with
    | [] | [_] | _ :: _ :: _ => rfl
  | star | plus | optional | negate | capture =>
    match trees with
    | [] | _ :: _ => rfl

/-! ## Assembling -/

/-- A run that starts with the automata of trees ends with that of one tree. -/
theorem exists_tree_of_run {position : Nat} {tokens : List Token}
    (h : Assemble.run options position (closedIn trees) (stack options trees) tokens = .ok nfa) :
    ∃ tree : TokenTree, tree.tokens = written trees ++ tokens ∧ tree.nfa options 0 = nfa := by
  induction tokens generalizing position trees with
  | nil =>
    match trees with
    | [] => cases h
    | [tree] =>
      cases h
      exact ⟨tree, by simp [written], rfl⟩
    | _ :: _ :: _ => cases h
  | cons token rest ih =>
    rw [Assemble.run, push?_stack] at h
    cases hgrow : grow? trees token with
    | none =>
      rw [hgrow] at h
      cases h
    | some trees' =>
      simp only [hgrow, Option.map_some] at h
      rw [← closedIn_of_grow? hgrow] at h
      obtain ⟨tree, htokens, hnfa⟩ := ih h
      exact ⟨tree, by rw [htokens, written_of_grow? hgrow, List.append_assoc]; rfl, hnfa⟩

theorem run_of_growAll? {position : Nat} {tokens rest : List Token}
    (h : growAll? trees tokens = some trees') :
    Assemble.run options position (closedIn trees) (stack options trees) (tokens ++ rest) =
      Assemble.run options (position + tokens.length) (closedIn trees') (stack options trees')
        rest := by
  induction tokens generalizing position trees with
  | nil =>
    cases h
    rfl
  | cons token tokens ih =>
    obtain ⟨grown, hgrow, h⟩ := Option.bind_eq_some_iff.1 h
    rw [List.cons_append, Assemble.run, push?_stack, hgrow]
    simp only [Option.map_some]
    rw [← closedIn_of_grow? hgrow, ih h, List.length_cons, Nat.add_assoc, Nat.add_comm 1]

theorem ofTokens_tokens (options : Options) (tree : TokenTree) :
    Nfa.ofTokens options tree.tokens = .ok (tree.nfa options 0) := by
  have h : Assemble.run options 0 0 [] (tree.tokens ++ []) = _ :=
    run_of_growAll? (growAll?_tokens tree [])
  rw [List.append_nil] at h
  exact h

/-- **Streams that describe automata.** A stream is assembled to the automaton
of the tree that it writes, and to none if it writes no tree. -/
theorem ofTokens_eq_ok_iff {tokens : List Token} :
    Nfa.ofTokens options tokens = .ok nfa ↔
      ∃ tree : TokenTree, tree.tokens = tokens ∧ tree.nfa options 0 = nfa := by
  constructor
  · intro h
    change Assemble.run options 0 (closedIn []) (stack options []) tokens = .ok nfa at h
    exact exists_tree_of_run h
  · rintro ⟨tree, rfl, rfl⟩
    exact ofTokens_tokens options tree

end TokenTree

end LinePattern
