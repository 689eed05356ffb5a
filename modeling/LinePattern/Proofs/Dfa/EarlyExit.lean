/-
What the early exit captures.

Past an accepting state the early exit goes on along steps that belong to a
group, and each of these adds a character to a capture (`captured_creditAfter`).
It does not go back when no accepting state follows. So it reports the pattern
of the last accepting state that it entered, with the captures of all the steps
that it took (`captures_earlyExit`), and these are the captures behind that state
only where no step was taken past it.
-/
import LinePattern.Matcher.Single
import LinePattern.Proofs.Dfa.Answers

namespace LinePattern

/-! ## How much is captured -/

/-- The number of characters that the captures hold. -/
def captured (captures : List String) : Nat := (captures.map String.length).sum

theorem sum_modify_succ {lengths : List Nat} {i : Nat} (hi : i < lengths.length) :
    (lengths.modify i (· + 1)).sum = lengths.sum + 1 := by
  induction lengths generalizing i with
  | nil => simp at hi
  | cons length lengths ih =>
    cases i with
    | zero => simp [Nat.add_right_comm]
    | succ i =>
      have hrest := ih (Nat.lt_of_succ_lt_succ hi)
      simp [hrest, Nat.add_assoc]

theorem captured_creditText (captures : List String) (group : Nat) (c : Char) :
    captured (creditText captures (some group) c) = captured captures + 1 := by
  have hpush : ∀ text : String, (text.push c).length = text.length + 1 := by simp
  have hgroup : group < ((captures.map String.length).rightpad (group + 1) 0).length := by
    rw [List.length_rightpad]
    omega
  have hpad : ((captures.map String.length).rightpad (group + 1) 0).sum =
      (captures.map String.length).sum := by
    simp [List.rightpad]
  rw [captured, creditText, map_modify_rightpad hpush, String.length_empty, sum_modify_succ hgroup,
    hpad, captured]

namespace Dfa

variable {dfa : Dfa} {text : String} {k j : Nat} {visit : Visit}

theorem creditAfter_succ (hvisit : (dfa.walk text)[k]? = some visit) :
    ∃ c, dfa.creditAfter text (k + 1) =
      creditText (dfa.creditAfter text k) visit.group c := by
  obtain ⟨hlt, -⟩ := List.getElem?_eq_some_iff.1 hvisit
  obtain ⟨c, hc⟩ : ∃ c, text.toList[k]? = some c :=
    ⟨_, List.getElem?_eq_getElem (Nat.lt_of_lt_of_le hlt (dfa.length_walk_le text))⟩
  have hstep : ((dfa.walk text).zip text.toList)[k]? = some (visit, c) := by
    rw [List.getElem?_zip_eq_some]
    exact ⟨hvisit, hc⟩
  refine ⟨c, ?_⟩
  rw [creditAfter, List.take_add_one, hstep, List.foldl_append]
  rfl

/-- Past an accepting state, the early exit takes only steps with a group. -/
theorem exists_group_of_taken (hk : k ∈ dfa.acceptedAfter text) (hle : k ≤ j)
    (hj : j < dfa.taken .earlyExit text) :
    ∃ visit group, (dfa.walk text)[j]? = some visit ∧ visit.group = some group := by
  let accepts (visit : Visit) := (dfa.state visit.state).isFinal
  let before := (dfa.walk text).takeWhile (!accepts ·)
  have hbefore : before.length < k := length_before_lt hk
  have hwalk : before ++ (dfa.walk text).dropWhile (!accepts ·) = dfa.walk text :=
    List.takeWhile_append_dropWhile
  have htaken : dfa.taken .earlyExit text = (before ++
      ((dfa.walk text).dropWhile (!accepts ·)).take 1 ++
      (((dfa.walk text).dropWhile (!accepts ·)).drop 1).takeWhile (·.group.isSome)).length := rfl
  cases hafter : (dfa.walk text).dropWhile (!accepts ·) with
  | nil =>
    simp only [hafter, List.take_nil, List.drop_nil, List.takeWhile_nil, List.append_nil] at htaken
    omega
  | cons first visits =>
    rw [hafter] at hwalk htaken
    simp only [List.take_succ_cons, List.take_zero, List.drop_succ_cons, List.drop_zero,
      List.length_append, List.length_singleton] at htaken
    obtain ⟨i, rfl⟩ : ∃ i, j = before.length + 1 + i := ⟨j - (before.length + 1), by omega⟩
    have hi : i < (visits.takeWhile (·.group.isSome)).length := by omega
    obtain ⟨visit, htagged⟩ : ∃ visit, (visits.takeWhile (·.group.isSome))[i]? = some visit :=
      ⟨_, List.getElem?_eq_getElem hi⟩
    have hgroup := List.all_eq_true.1 List.all_takeWhile visit (List.mem_of_getElem? htagged)
    obtain ⟨group, hgroup⟩ := Option.isSome_iff_exists.1 hgroup
    obtain ⟨behind, hprefix⟩ := List.takeWhile_prefix (l := visits) (·.group.isSome)
    have hvisit : visits[i]? = some visit := by
      rw [← hprefix, List.getElem?_append_left hi, htagged]
    have hindex : before.length + 1 + i - before.length = i + 1 := by omega
    refine ⟨visit, group, ?_, hgroup⟩
    rw [← hwalk, List.getElem?_append_right (by omega), hindex, List.getElem?_cons_succ, hvisit]

/-- **Each step past an accepting state captures one more character.** -/
theorem captured_creditAfter (hk : k ∈ dfa.acceptedAfter text) (hle : k ≤ j)
    (hj : j ≤ dfa.taken .earlyExit text) :
    captured (dfa.creditAfter text j) = captured (dfa.creditAfter text k) + (j - k) := by
  induction j, hle using Nat.le_induction with
  | base => rw [Nat.sub_self, Nat.add_zero]
  | succ j hle ih =>
    obtain ⟨visit, group, hvisit, hgroup⟩ := exists_group_of_taken hk hle hj
    obtain ⟨c, hcredit⟩ := creditAfter_succ hvisit
    rw [hcredit, hgroup, captured_creditText, ih (Nat.le_of_succ_le hj), Nat.succ_sub hle,
      Nat.add_assoc]

/-- **The early exit keeps what it captures past the match.** A match that comes
neither from the end of the line nor from the initial state is for the pattern of
the last accepting state entered. Its captures are those of all the steps taken,
which are the captures behind that state only when there is none after it. -/
theorem captures_earlyExit
    (hend : dfa.taken .earlyExit text = text.toList.length → dfa.endState? text = none)
    (haccepted : (dfa.acceptedAfter text).Nonempty) :
    ∃ k q, IsGreatest {j ∈ dfa.acceptedAfter text | j ≤ dfa.taken .earlyExit text} k ∧
      dfa.stateAfter? text k = some q ∧ (dfa.scan .earlyExit text).matched = true ∧
      (dfa.scan .earlyExit text).pattern = (dfa.state q).pattern ∧
      (dfa.scan .earlyExit text).captures = dfa.creditAfter text (dfa.taken .earlyExit text) ∧
      ((dfa.scan .earlyExit text).captures = dfa.creditAfter text k ↔
        dfa.taken .earlyExit text = k) := by
  have hreplays := dfa.replays_scan .earlyExit text
  generalize dfa.scan .earlyExit text = outcome at hreplays ⊢
  cases hreplays with
  | earlyExit_atEnd htaken hq =>
    rw [hend htaken] at hq
    cases hq
  | @earlyExit_behind k q _ hk hq =>
    refine ⟨k, q, hk, hq, rfl, rfl, rfl, fun hsame => ?_, fun htaken => ?_⟩
    · have hcaptured := captured_creditAfter hk.1.1 hk.1.2 (Nat.le_refl _)
      have hsame : dfa.creditAfter text (dfa.taken .earlyExit text) = dfa.creditAfter text k := hsame
      rw [hsame] at hcaptured
      have hle := hk.1.2
      omega
    · rw [accept, htaken]
  | initially hnone => exact absurd hnone haccepted.ne_empty
  | rejected hnone => exact absurd hnone haccepted.ne_empty

/-- A group that the text begins and does not finish. -/
theorem captures_earlyExit_unfinished : ∃ compiled k,
    CompiledPattern.compile { policy := some .earlyExit } "a(bc)?" = .ok compiled ∧
      compiled.dfa.endState? "ab" = none ∧ (compiled.dfa.acceptedAfter "ab").Nonempty ∧
      IsGreatest {j ∈ compiled.dfa.acceptedAfter "ab" | j ≤ compiled.dfa.taken .earlyExit "ab"} k ∧
      (compiled.dfa.scan .earlyExit "ab").captures = compiled.dfa.creditAfter "ab" 2 := by
  have hrun : (match CompiledPattern.compile { policy := some .earlyExit } "a(bc)?" with
    | .error _ => false
    | .ok compiled => (compiled.dfa.endState? "ab").isNone &&
        decide (1 ∈ compiled.dfa.acceptedAfter "ab") &&
        compiled.dfa.taken .earlyExit "ab" == 2) = true := by
    decide +kernel
  split at hrun
  · cases hrun
  · next compiled hcompile =>
    simp only [Bool.and_eq_true, Option.isNone_iff_eq_none, decide_eq_true_eq, beq_iff_eq] at hrun
    obtain ⟨⟨hend, haccepted⟩, htaken⟩ := hrun
    obtain ⟨k, q, hk, -, -, -, hcaptures, -⟩ :=
      captures_earlyExit (fun _ => hend) ⟨1, haccepted⟩
    rw [htaken] at hcaptures
    exact ⟨compiled, k, hcompile, hend, ⟨1, haccepted⟩, hk, hcaptures⟩

/-- The match of the first character is reported with a capture that holds the
second. -/
theorem captures_past_match : ∃ compiled,
    CompiledPattern.compile { policy := some .earlyExit } "a(bc)?" = .ok compiled ∧
      compiled.dfa.endState? "ab" = none ∧
      compiled.dfa.scan .earlyExit "ab" = ⟨true, ["b"], some 0⟩ ∧
      IsGreatest {j ∈ compiled.dfa.acceptedAfter "ab" | j ≤ compiled.dfa.taken .earlyExit "ab"} 1 ∧
      compiled.dfa.creditAfter "ab" 1 = [] := by
  have hrun : (match CompiledPattern.compile { policy := some .earlyExit } "a(bc)?" with
    | .error _ => false
    | .ok compiled => decide (compiled.dfa.endState? "ab" = none ∧
        compiled.dfa.scan .earlyExit "ab" = ⟨true, ["b"], some 0⟩ ∧
        IsGreatest {j ∈ compiled.dfa.acceptedAfter "ab" |
          j ≤ compiled.dfa.taken .earlyExit "ab"} 1 ∧
        compiled.dfa.creditAfter "ab" 1 = [])) = true := by
    decide +kernel
  split at hrun
  · cases hrun
  · next compiled hcompile => exact ⟨compiled, hcompile, of_decide_eq_true hrun⟩

end Dfa

end LinePattern
