/-
The two numberings of groups.

A pattern builds the same automaton whichever way its groups are numbered, but for
the numbers: the group that opens `n`-th has the number `n`, or its place in the
order in which groups close (`Expr.closingRank`). These places are a permutation of
the numbers, so the automaton of the one numbering is that of the other with new
numbers (`exists_patternNfa_renumbered`), and a match captures the same for each
group (`captures_renumbered`).
-/
import Mathlib.Logic.Equiv.Fin.Basic
import LinePattern.Proofs.Dfa.Renumbered
import LinePattern.Proofs.Matcher.CaptureCount

namespace LinePattern

/-! ## The order in which groups close -/

namespace Expr

variable {e : Expr}

/-- The groups in the order in which they close, each by the number of groups opened
before it. -/
def closingOrder (e : Expr) : List Nat := (e.closings 0).map (·.index)

theorem perm_closingOrder (e : Expr) : e.closingOrder.Perm (List.range e.groups) := by
  rw [List.range_eq_range']
  exact e.perm_closings 0

theorem length_closingOrder (e : Expr) : e.closingOrder.length = e.groups := by
  rw [closingOrder, List.length_map, e.length_closings]

theorem mem_closingOrder {n : Nat} : n ∈ e.closingOrder ↔ n < e.groups := by
  rw [e.perm_closingOrder.mem_iff, List.mem_range]

theorem nodup_closingOrder (e : Expr) : e.closingOrder.Nodup :=
  e.perm_closingOrder.nodup_iff.2 List.nodup_range

/-- The place of the group that opens `n`-th in the order in which groups close. -/
def closingRank (e : Expr) : Equiv.Perm (Fin e.groups) where
  toFun n := ⟨e.closingOrder.idxOf ↑n, Nat.lt_of_lt_of_eq
    (List.idxOf_lt_length_of_mem (mem_closingOrder.2 n.isLt)) e.length_closingOrder⟩
  invFun i := ⟨e.closingOrder.get (i.cast e.length_closingOrder.symm),
    mem_closingOrder.1 (List.get_mem _ _)⟩
  left_inv n := by simp
  right_inv i := by simp [e.nodup_closingOrder.idxOf_getElem]

theorem getElem?_closingRank (n : Fin e.groups) :
    e.closingOrder[(e.closingRank n : Nat)]? = some ↑n :=
  List.getElem?_idxOf (mem_closingOrder.2 n.isLt)

/-- The new number of a group when groups are numbered as they close. A number that
no group has stays. -/
def closingNumber (e : Expr) : Equiv.Perm Nat := e.closingRank.extendDomain Fin.equivSubtype

theorem closingNumber_eq (n : Fin e.groups) : e.closingNumber ↑n = e.closingRank n :=
  Equiv.Perm.extendDomain_apply_image e.closingRank Fin.equivSubtype n

theorem map_closingNumber (e : Expr) :
    e.closingOrder.map e.closingNumber = List.range e.groups := by
  refine List.ext_getElem (by simp [length_closingOrder]) fun i hi _ => ?_
  rw [List.length_map, length_closingOrder] at hi
  have hinverse := closingNumber_eq (e.closingRank.symm ⟨i, hi⟩)
  rw [Equiv.apply_symm_apply] at hinverse
  rw [List.getElem_map, List.getElem_range]
  exact hinverse

end Expr

/-! ## The automata -/

theorem TokenTree.edges_captures_congr {options options' : Options}
    (hnegation : options'.negation = options.negation) (tree : TokenTree) (closed closed' : Nat) :
    (tree.nfa options' closed').captures.map (·.edges) =
      (tree.nfa options closed).captures.map (·.edges) := by
  have hshift : ∀ (sets : List CaptureSet) (offset : Nat),
      (sets.map (·.shift offset)).map (·.edges) =
        (sets.map (·.edges)).map (·.map (·.shift offset)) := fun sets offset => by
    simp [CaptureSet.shift]
  have hsize : ∀ (tree : TokenTree) (closed closed' : Nat),
      (tree.nfa options' closed').size = (tree.nfa options closed).size :=
    fun tree closed closed' =>
    (congrArg Nfa.size (withoutGroups_nfa_congr hnegation rfl closed closed') :)
  induction tree generalizing closed closed' with
  | literal | any | endOfLine => rfl
  | concat left right ihl ihr =>
    simp only [nfa, Nfa.captures_concat, List.map_append, hshift, hsize left closed closed',
      ihl closed closed', ihr (closed + left.groups) (closed' + left.groups)]
  | alt left right ihl ihr =>
    simp only [nfa, Nfa.captures_alt, List.map_append, hshift, hsize left closed closed',
      ihl closed closed', ihr (closed + left.groups) (closed' + left.groups)]
  | star body ih => simp only [nfa, Nfa.captures_star, ih closed closed']
  | plus body ih => simp only [nfa, Nfa.captures_plus, ih closed closed']
  | optional body ih => simp only [nfa, Nfa.captures_optional, ih closed closed']
  | negate body ih =>
    rw [nfa, nfa, hnegation]
    cases options.negation with
    | complement => rfl
    | anyCharacter => exact ih closed closed'
  | capture group body ih =>
    have hedges : (body.nfa options' closed').edges = (body.nfa options closed).edges :=
      edges_nfa_congr hnegation rfl closed closed'
    simp only [nfa, Nfa.recordCapture, List.map_append, List.map_singleton, ih closed closed',
      hedges]

theorem Nfa.eq_renumbered {nfa nfa' : Nfa} {f : Nat → Nat}
    (h : nfa'.withoutGroups = nfa.withoutGroups)
    (hedges : nfa'.captures.map (·.edges) = nfa.captures.map (·.edges))
    (hgroups : nfa'.captures.map (·.group) = (nfa.captures.map (·.group)).map f) :
    nfa' = nfa.renumbered f := by
  have hsets : ∀ sets : List CaptureSet,
      List.zipWith CaptureSet.mk (sets.map (·.group)) (sets.map (·.edges)) = sets := fun sets => by
    simp [List.zipWith_map]
  have hcaptures : nfa'.captures = (nfa.renumbered f).captures := by
    rw [← hsets nfa'.captures, ← hsets (nfa.renumbered f).captures, hedges, hgroups]
    simp [renumbered, Function.comp_def]
  exact eq_of_withoutGroups (h.trans (withoutGroups_renumbered nfa).symm) hcaptures

section

variable {options : Options} {pattern : String} {e : Expr}

/-- Numbering groups as they close gives them new numbers. -/
theorem exists_patternNfa_renumbered (options : Options) (hparse : Expr.parse pattern = .ok e) :
    ∃ nfa, patternNfa { options with numbering := .byOpening } pattern = .ok nfa ∧
      patternNfa { options with numbering := .byClosing } pattern =
        .ok (nfa.renumbered e.closingNumber) := by
  have hgrammatical := (Expr.derives_of_parse hparse).grammatical
  obtain ⟨tree, htokens, hrecords⟩ := e.exists_records 0 hgrammatical
  have hopening := (hrecords.record { options with numbering := .byOpening } 0).numbers_eq
  have hclosing := (hrecords.record { options with numbering := .byClosing } 0).numbers_eq
  refine ⟨_, patternNfa_eq_of_tokens hparse htokens, ?_⟩
  rw [patternNfa_eq_of_tokens hparse htokens]
  have hnegation : ({ options with numbering := .byClosing } : Options).negation =
      ({ options with numbering := .byOpening } : Options).negation := rfl
  refine congrArg _ (Nfa.eq_renumbered ?_ ?_ ?_)
  · exact TokenTree.withoutGroups_nfa_congr hnegation rfl 0 0
  · exact TokenTree.edges_captures_congr hnegation tree 0 0
  · rw [hopening, hclosing]
    change List.range' 0 (e.closings 0).length = e.closingOrder.map e.closingNumber
    rw [e.map_closingNumber, e.length_closings, List.range_eq_range']

namespace CompiledPattern

/-- The compiled pattern with new numbers for its groups. -/
def renumbered (f : Nat → Nat) (compiled : CompiledPattern) : CompiledPattern :=
  { compiled with dfa := compiled.dfa.renumbered f }

/-- With the other numbering a pattern fails to compile for the same reason, or is
compiled with new numbers. -/
theorem compile_renumbered (options : Options) (hparse : Expr.parse pattern = .ok e) :
    compile { options with numbering := .byClosing } pattern =
      (compile { options with numbering := .byOpening } pattern).map
        (·.renumbered e.closingNumber) := by
  obtain ⟨nfa, hopening, hclosing⟩ := exists_patternNfa_renumbered options hparse
  unfold compile
  rw [patternsDfa_singleton hopening, patternsDfa_singleton hclosing, Nfa.merge_renumbered,
    Subset.determinize_renumbered]
  cases (Nfa.merge [nfa]).determinize options.maxStates <;> rfl

theorem getD_capture?_eq_scan (compiled : CompiledPattern) (text : String) (group : Nat) :
    ((compiled.verdict text).capture? group).getD "" =
      (compiled.dfa.scan compiled.policy text).captures.getD group "" := by
  rw [Verdict.capture?, captures_verdict, List.getD_eq_getElem?_getD]

/-- **The numbering of groups renames captures.** There is a permutation of the numbers
of the groups of a pattern: the group that opens `n`-th closes at the place of `n`.
Under any options, with groups numbered as they close the pattern fails to compile
for the same reason as with groups numbered as they open. If it compiles, it matches
the same texts, and what is captured for `n` when groups are numbered as they open is
captured for the place of `n` when they are numbered as they close, where a capture
without a slot counts as empty. -/
theorem captures_renumbered (hparse : Expr.parse pattern = .ok e) :
    ∃ rank : Equiv.Perm (Fin e.groups),
      (∀ n, ((closings pattern.toList)[(rank n : Nat)]?).map (·.index) = some ↑n) ∧
      ∀ options : Options,
        (∀ error, compile { options with numbering := .byOpening } pattern = .error error →
          compile { options with numbering := .byClosing } pattern = .error error) ∧
        ∀ opening, compile { options with numbering := .byOpening } pattern = .ok opening →
          ∃ closing, compile { options with numbering := .byClosing } pattern = .ok closing ∧
            ∀ text : String,
              (closing.verdict text).matched = (opening.verdict text).matched ∧
              ∀ n : Fin e.groups, ((closing.verdict text).capture? (rank n)).getD "" =
                ((opening.verdict text).capture? n).getD "" := by
  refine ⟨e.closingRank, fun n => ?_, fun options => ⟨fun error h => ?_, fun opening h => ?_⟩⟩
  · rw [(Expr.derives_of_parse hparse).closings_eq, ← List.getElem?_map]
    exact e.getElem?_closingRank n
  · rw [compile_renumbered options hparse, h]
    rfl
  · refine ⟨opening.renumbered e.closingNumber, ?_, fun text => ⟨?_, fun n => ?_⟩⟩
    · rw [compile_renumbered options hparse, h]
      rfl
    · have hscan := Dfa.renumbered_scan e.closingNumber.injective opening.dfa opening.policy text
      rw [matched_verdict, matched_verdict]
      exact hscan.matched_eq
    · have hscan := Dfa.renumbered_scan e.closingNumber.injective opening.dfa opening.policy text
      rw [getD_capture?_eq_scan, getD_capture?_eq_scan, ← Expr.closingNumber_eq n]
      exact hscan.getD_eq n

/-- The group that opens first closes last. -/
theorem captures_renumbered_nested : ∃ opening closing,
    compile { policy := some .longest } "((a)b|(c))+$" = .ok opening ∧
    compile { numbering := .byClosing, policy := some .longest } "((a)b|(c))+$" = .ok closing ∧
    (opening.verdict "abc").captures = ["b", "a", "c"] ∧
    ((closing.verdict "abc").capture? 2).getD "" = "b" := by
  have hread : ((Expr.parse "((a)b|(c))+$").toOption.any fun e => e.groups == 3) = true := by
    decide +kernel
  have hrun : ((compile { policy := some .longest } "((a)b|(c))+$").toOption.any fun opening =>
      (opening.verdict "abc").captures == ["b", "a", "c"]) = true := by
    decide +kernel
  have hlast : ∀ i < 3, ((closings "((a)b|(c))+$".toList)[i]?).map (·.index) = some 0 → i = 2 := by
    decide +kernel
  obtain ⟨e, hparse, hgroups⟩ := exists_ok_of_any hread
  obtain ⟨opening, hopening, hcaptures⟩ := exists_ok_of_any hrun
  obtain ⟨rank, hrank, hcompile⟩ := captures_renumbered hparse
  have hthree : e.groups = 3 := eq_of_beq hgroups
  let first : Fin e.groups := ⟨0, by omega⟩
  obtain ⟨closing, hclosing, hverdict⟩ :=
    (hcompile { policy := some .longest }).2 opening hopening
  have hplace : (rank first : Nat) = 2 := hlast _ (hthree ▸ (rank first).isLt) (hrank first)
  have hslot := (hverdict "abc").2 first
  rw [hplace, Verdict.capture?, Verdict.capture?, eq_of_beq hcaptures] at hslot
  exact ⟨opening, closing, hopening, hclosing, eq_of_beq hcaptures, hslot⟩

end CompiledPattern

end

end LinePattern
