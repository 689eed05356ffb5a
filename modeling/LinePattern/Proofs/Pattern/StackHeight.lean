/-
Token streams that describe no automaton.

An operand makes the stack one higher, an operator that takes one operand leaves
its height, and one that takes two makes it one lower. So the arities alone say
how high the stack is before each token (`Token.height`), and what becomes of the
stream: the first token that needs more operands than that is refused, and
without one the stream is judged by the height in the end. The automata on the
stack, and the options they are built with, play no part
(`Nfa.ofTokens_classified`).
-/
import LinePattern.Pattern.Assemble
import Mathlib.Order.Bounds.Basic

namespace LinePattern

/-! ## Heights -/

namespace Token

variable {tokens before rest : List Token} {token : Token} {i : Nat}

/-- What a token adds to the height of the stack: it takes its operands, and puts
one automaton there. -/
def gain (token : Token) : Int := 1 - token.arity

/-- The height of the stack after the first `i` tokens, by their arities alone. -/
def height (tokens : List Token) (i : Nat) : Int :=
  (tokens.take i).foldl (fun height token => height + token.gain) 0

/-- The places of the tokens that need more operands than the stack holds. -/
def lacking (tokens : List Token) : Set Nat :=
  {i | ∃ token, tokens[i]? = some token ∧ height tokens i < token.arity}

theorem height_zero (tokens : List Token) : height tokens 0 = 0 := rfl

theorem height_succ (h : tokens[i]? = some token) :
    height tokens (i + 1) = height tokens i + token.gain := by
  rw [height, List.take_add_one, h, List.foldl_append]
  rfl

theorem lt_length_of_mem_lacking (h : i ∈ lacking tokens) : i < tokens.length := by
  obtain ⟨token, htoken, -⟩ := h
  exact (List.getElem?_eq_some_iff.1 htoken).1

end Token

/-! ## One token -/

namespace Assemble

open Token

/-- What becomes of a token stream, told by heights. -/
inductive Accounts (tokens : List Token) : Except BuildError Nfa → Prop
  /-- The first token that lacks operands is refused. -/
  | missing {token : Token} {position found : Nat} (hleast : IsLeast (lacking tokens) position)
    (htoken : tokens[position]? = some token) (hfound : (found : Int) = height tokens position) :
    Accounts tokens (.error (.missingOperand token position token.arity found))
  /-- No token lacks operands, but what is left is not one automaton. -/
  | unbalanced {fragments : Nat} (hnone : lacking tokens = ∅)
    (hheight : (fragments : Int) = height tokens tokens.length) (hne : fragments ≠ 1) :
    Accounts tokens (.error (.unbalanced fragments))
  | built {nfa : Nfa} (hnone : lacking tokens = ∅) (hheight : height tokens tokens.length = 1) :
    Accounts tokens (.ok nfa)

variable {options : Options} {closed position : Nat} {token : Token} {stack stack' : List Nfa}
  {tokens before rest : List Token}

theorem push?_eq_none_iff :
    push? options closed token stack = none ↔ stack.length < token.arity := by
  cases token with
  | literal | any | endOfLine => simp [push?, arity]
  | star | plus | optional | negate | capture =>
    match stack with
    | [] | _ :: _ => simp [push?, arity]
  | concat | alt =>
    match stack with
    | [] | [_] | _ :: _ :: _ => simp [push?, arity]

theorem length_of_push? (h : push? options closed token stack = some stack') :
    (stack'.length : Int) = stack.length + token.gain := by
  unfold push? at h
  split at h <;> cases h <;> simp only [List.length_cons, gain, arity] <;> omega

/-! ## A whole stream -/

/-- A run with the stack as high as the tokens before say, none of which lacked
operands, ends as the heights say. -/
theorem accounts_run (hsplit : before ++ rest = tokens)
    (hheight : (stack.length : Int) = height tokens before.length)
    (hbefore : ∀ i ∈ lacking tokens, before.length ≤ i) :
    Accounts tokens (run options before.length closed stack rest) := by
  induction rest generalizing before closed stack with
  | nil =>
    rw [List.append_nil] at hsplit
    subst hsplit
    have hnone : lacking before = ∅ := by
      refine Set.eq_empty_of_forall_notMem fun i hi => ?_
      have hlt := lt_length_of_mem_lacking hi
      have hle := hbefore i hi
      omega
    match stack with
    | [nfa] => exact .built hnone (by simpa using hheight.symm)
    | [] | _ :: _ :: _ => exact .unbalanced hnone hheight (by simp)
  | cons token rest ih =>
    have htoken : tokens[before.length]? = some token := by simp [← hsplit]
    rw [run]
    cases hpush : push? options closed token stack with
    | none =>
      have hlt := push?_eq_none_iff.1 hpush
      exact .missing ⟨⟨token, htoken, by omega⟩, hbefore⟩ htoken hheight
    | some stack' =>
      have henough : ¬ stack.length < token.arity := fun hlt => by
        rw [push?_eq_none_iff.2 hlt] at hpush
        cases hpush
      have hlength := length_of_push? hpush
      have hlast : (before ++ [token]).length = before.length + 1 := List.length_append
      have hsplit' : before ++ [token] ++ rest = tokens := by
        rw [← hsplit, List.append_assoc]
        rfl
      have hheight' : (stack'.length : Int) = height tokens (before ++ [token]).length := by
        rw [hlast, height_succ htoken, ← hheight, hlength]
      have hbefore' : ∀ i ∈ lacking tokens, (before ++ [token]).length ≤ i := by
        intro i hi
        have hle := hbefore i hi
        -- The token itself found its operands.
        have hne : i ≠ before.length := by
          rintro rfl
          obtain ⟨other, hother, hlt⟩ := hi
          rw [htoken] at hother
          cases hother
          omega
        omega
      rw [← hlast]
      exact ih hsplit' hheight' hbefore'

/-- The heights leave no choice of an error. -/
theorem Accounts.eq_error {result : Except BuildError Nfa} {error : BuildError}
    (h : Accounts tokens result) (h' : Accounts tokens (.error error)) : result = .error error := by
  have hne {i : Nat} (hleast : IsLeast (lacking tokens) i) : lacking tokens ≠ ∅ :=
    hleast.nonempty.ne_empty
  cases h' with
  | missing hleast' htoken' hfound' =>
    cases h with
    | missing hleast htoken hfound =>
      obtain rfl := hleast.unique hleast'
      rw [htoken] at htoken'
      cases htoken'
      rw [Int.ofNat.inj (hfound.trans hfound'.symm)]
    | unbalanced hnone | built hnone => exact absurd hnone (hne hleast')
  | unbalanced hnone' hheight' hne' =>
    cases h with
    | missing hleast => exact absurd hnone' (hne hleast)
    | unbalanced hnone hheight => rw [Int.ofNat.inj (hheight.trans hheight'.symm)]
    | built hnone hheight => omega

end Assemble

namespace Nfa

open Assemble Token

section

variable {options : Options} {tokens : List Token}

theorem accounts_ofTokens (options : Options) (tokens : List Token) :
    Accounts tokens (ofTokens options tokens) :=
  accounts_run (List.nil_append tokens) (height_zero tokens).symm fun i _ => Nat.zero_le i

theorem ofTokens_eq_error_iff {error : BuildError} :
    ofTokens options tokens = .error error ↔ Accounts tokens (.error error) := by
  have h := accounts_ofTokens options tokens
  exact ⟨fun heq => heq ▸ h, h.eq_error⟩

theorem ofTokens_eq_missingOperand_iff {token : Token} {position needed found : Nat} :
    ofTokens options tokens = .error (.missingOperand token position needed found) ↔
      IsLeast (lacking tokens) position ∧ tokens[position]? = some token ∧
        needed = token.arity ∧ (found : Int) = height tokens position := by
  rw [ofTokens_eq_error_iff]
  constructor
  · intro h
    cases h with
    | missing hleast htoken hfound => exact ⟨hleast, htoken, rfl, hfound⟩
  · rintro ⟨hleast, htoken, rfl, hfound⟩
    exact .missing hleast htoken hfound

theorem ofTokens_eq_unbalanced_iff {fragments : Nat} :
    ofTokens options tokens = .error (.unbalanced fragments) ↔
      lacking tokens = ∅ ∧ (fragments : Int) = height tokens tokens.length ∧ fragments ≠ 1 := by
  rw [ofTokens_eq_error_iff]
  constructor
  · intro h
    cases h with
    | unbalanced hnone hheight hne => exact ⟨hnone, hheight, hne⟩
  · rintro ⟨hnone, hheight, hne⟩
    exact .unbalanced hnone hheight hne

/-- Where a token lacks operands, one is reported. -/
theorem exists_missingOperand_iff :
    (∃ token position needed found,
      ofTokens options tokens = .error (.missingOperand token position needed found)) ↔
        (lacking tokens).Nonempty := by
  constructor
  · rintro ⟨token, position, needed, found, h⟩
    exact (ofTokens_eq_missingOperand_iff.1 h).1.nonempty
  · intro hlacks
    have h := accounts_ofTokens options tokens
    generalize ofTokens options tokens = result at h
    cases h with
    | missing => exact ⟨_, _, _, _, rfl⟩
    | unbalanced hnone | built hnone => exact absurd hnone hlacks.ne_empty

theorem exists_ofTokens_iff : (∃ nfa, ofTokens options tokens = .ok nfa) ↔
    lacking tokens = ∅ ∧ height tokens tokens.length = 1 := by
  have h := accounts_ofTokens options tokens
  generalize ofTokens options tokens = result at h
  constructor
  · rintro ⟨nfa, rfl⟩
    cases h with
    | built hnone hheight => exact ⟨hnone, hheight⟩
  · rintro ⟨hnone, hheight⟩
    cases h with
    | missing hleast => exact absurd hnone hleast.nonempty.ne_empty
    | unbalanced _ hheight' hne => omega
    | built => exact ⟨_, rfl⟩

end

/-- **Errors are told by arities.** A token is reported exactly when one lacks
operands: the first that does, with its place, its arity and the height of the
stack before it. Without such a token the height in the end is reported, unless
it is one. The report names the token by its text, and no option changes it. -/
theorem ofTokens_classified (options : Options) (tokens : List Token) :
    ((∃ token position needed found,
        ofTokens options tokens = .error (.missingOperand token position needed found)) ↔
      (lacking tokens).Nonempty) ∧
    (∀ token position needed found,
      ofTokens options tokens = .error (.missingOperand token position needed found) ↔
        IsLeast (lacking tokens) position ∧ tokens[position]? = some token ∧
          needed = token.arity ∧ (found : Int) = height tokens position) ∧
    (∀ fragments, ofTokens options tokens = .error (.unbalanced fragments) ↔
      lacking tokens = ∅ ∧ (fragments : Int) = height tokens tokens.length ∧ fragments ≠ 1) ∧
    ((∃ nfa, ofTokens options tokens = .ok nfa) ↔
      lacking tokens = ∅ ∧ height tokens tokens.length = 1) ∧
    (∀ token position needed found,
      (BuildError.missingOperand token position needed found).message =
        "'" ++ token.display ++ "' at position " ++ toString position ++ " needs " ++
          toString needed ++ " operand(s) but the stack holds " ++ toString found) ∧
    ∀ options' error, ofTokens options tokens = .error error ↔
      ofTokens options' tokens = .error error :=
  ⟨exists_missingOperand_iff, fun _ _ _ _ => ofTokens_eq_missingOperand_iff,
    fun _ => ofTokens_eq_unbalanced_iff, exists_ofTokens_iff, fun _ _ _ _ => rfl,
    fun _ _ => ofTokens_eq_error_iff.trans ofTokens_eq_error_iff.symm⟩

end Nfa

end LinePattern
