/-
Texts that words of symbols read.

A text is read as a word of glyphs: its characters, and behind the last of
them one mark for its end, which only the end of the line reads. `readings` is
the language of the texts that the words of a language of symbols read. It
goes through union, product and repetition, so a language that is built up
from single symbols is read piece by piece.

`Matches` says that a text matches a language: some beginning of it belongs to
the language, or all of it with the mark. `matches_readings_cons` is its rule
for one character.
-/
import Mathlib.Computability.MyhillNerode
import LinePattern.Symbol

namespace LinePattern

open Computability

/-- What a step can read. -/
inductive Glyph where
  | char (c : Char)
  /-- The mark behind the last character. -/
  | endOfText
deriving DecidableEq

namespace Symbol

/-- A symbol reads the characters it accepts, and the end of the line reads
the mark. -/
def Reads : Symbol → Glyph → Prop
  | s, .char c => s.accepts c = true
  | s, .endOfText => s = .endOfLine

theorem reads_endOfText {s : Symbol} : s.Reads .endOfText ↔ s = .endOfLine := Iff.rfl

end Symbol

/-- The texts that the words of a language read. -/
def readings (L : Language Symbol) : Language Glyph :=
  {w | ∃ v ∈ L, List.Forall₂ Symbol.Reads v w}

variable {K L : Language Symbol} {w : List Glyph}

theorem mem_readings : w ∈ readings L ↔ ∃ v ∈ L, List.Forall₂ Symbol.Reads v w := Iff.rfl

/-! ## Reading piece by piece -/

@[simp] theorem nil_mem_readings : [] ∈ readings L ↔ [] ∈ L := by
  simp [mem_readings]

theorem cons_mem_readings {g : Glyph} :
    g :: w ∈ readings L ↔ ∃ s : Symbol, s.Reads g ∧ w ∈ readings (L.leftQuotient [s]) := by
  constructor
  · intro h
    obtain ⟨v, hv, hread⟩ := h
    cases hread with
    | cons hs hrest => exact ⟨_, hs, _, hv, hrest⟩
  · intro h
    obtain ⟨s, hs, v, hv, hrest⟩ := h
    exact ⟨s :: v, hv, .cons hs hrest⟩

theorem mem_readings_singleton {s : Symbol} :
    w ∈ readings {[s]} ↔ ∃ g, s.Reads g ∧ w = [g] := by
  constructor
  · intro h
    obtain ⟨v, rfl, hread⟩ := h
    cases hread with
    | cons hs hrest =>
      cases hrest
      exact ⟨_, hs, rfl⟩
  · intro h
    obtain ⟨g, hs, rfl⟩ := h
    exact ⟨[s], rfl, .cons hs .nil⟩

theorem readings_one : readings 1 = 1 := by
  ext w
  simp [mem_readings, Language.mem_one]

theorem readings_add (K L : Language Symbol) :
    readings (K + L) = readings K + readings L := by
  ext w
  simp only [mem_readings, Language.mem_add, or_and_right, exists_or]

theorem readings_mul (K L : Language Symbol) :
    readings (K * L) = readings K * readings L := by
  ext w
  rw [Language.mem_mul]
  constructor
  · intro h
    obtain ⟨v, hv, hread⟩ := h
    obtain ⟨a, ha, b, hb, rfl⟩ := Language.mem_mul.1 hv
    have hx := List.forall₂_take a.length hread
    have hy := List.forall₂_drop a.length hread
    rw [List.take_left] at hx
    rw [List.drop_left] at hy
    exact ⟨_, ⟨a, ha, hx⟩, _, ⟨b, hb, hy⟩, List.take_append_drop a.length w⟩
  · intro h
    obtain ⟨x, ⟨a, ha, hx⟩, y, ⟨b, hb, hy⟩, rfl⟩ := h
    exact ⟨a ++ b, Language.append_mem_mul ha hb, List.rel_append hx hy⟩

theorem readings_pow (L : Language Symbol) (n : ℕ) : readings (L ^ n) = readings L ^ n := by
  induction n with
  | zero => exact readings_one
  | succ n ih => rw [pow_succ, readings_mul, ih, pow_succ]

theorem readings_kstar (L : Language Symbol) : readings L∗ = (readings L)∗ := by
  ext w
  rw [Language.kstar_eq_iSup_pow, Language.kstar_eq_iSup_pow, Language.mem_iSup]
  constructor
  · intro h
    obtain ⟨v, hv, hread⟩ := h
    obtain ⟨n, hn⟩ := Language.mem_iSup.1 hv
    exact ⟨n, readings_pow L n ▸ ⟨v, hn, hread⟩⟩
  · intro h
    obtain ⟨n, hn⟩ := h
    rw [← readings_pow] at hn
    obtain ⟨v, hv, hread⟩ := hn
    exact ⟨v, Language.mem_iSup.2 ⟨n, hv⟩, hread⟩

/-! ## Texts that match -/

/-- A text matches a language when some beginning of it belongs to the
language, or all of it with the mark. -/
def Matches (L : Language Glyph) (text : List Char) : Prop :=
  (∃ u, u <+: text ∧ u.map .char ∈ L) ∨ text.map .char ++ [.endOfText] ∈ L

theorem matches_nil {L : Language Glyph} : Matches L [] ↔ [] ∈ L ∨ [.endOfText] ∈ L := by
  simp [Matches]

theorem matches_cons {L : Language Glyph} {c : Char} {rest : List Char} :
    Matches L (c :: rest) ↔ [] ∈ L ∨ Matches (L.leftQuotient [.char c]) rest := by
  simp only [Matches, List.map_cons, List.cons_append, Language.mem_leftQuotient, ← or_assoc]
  refine or_congr_left ⟨?_, ?_⟩
  · rintro ⟨u, hu, hL⟩
    cases u with
    | nil => exact .inl hL
    | cons d u =>
      obtain ⟨rfl, hrest⟩ := List.cons_prefix_cons.1 hu
      exact .inr ⟨u, hrest, hL⟩
  · rintro (hL | ⟨u, hu, hL⟩)
    · exact ⟨[], List.nil_prefix, hL⟩
    · exact ⟨c :: u, List.cons_prefix_cons.2 ⟨rfl, hu⟩, hL⟩

theorem Matches.mono {L M : Language Glyph} {text : List Char} (hLM : ∀ w ∈ L, w ∈ M)
    (h : Matches L text) : Matches M text := by
  rcases h with ⟨u, hu, hL⟩ | hL
  · exact .inl ⟨u, hu, hLM _ hL⟩
  · exact .inr (hLM _ hL)

theorem Matches.exists_mem {text : List Char} (h : Matches (readings L) text) : ∃ v, v ∈ L := by
  rcases h with ⟨u, -, v, hv, -⟩ | ⟨v, hv, -⟩
  · exact ⟨v, hv⟩
  · exact ⟨v, hv⟩

/-- A text that starts with a character matches at once, or some symbol reads
the character and the rest matches what may follow the symbol. -/
theorem matches_readings_cons {c : Char} {rest : List Char} :
    Matches (readings L) (c :: rest) ↔
      [] ∈ L ∨ ∃ s : Symbol, s.accepts c = true ∧ Matches (readings (L.leftQuotient [s])) rest := by
  rw [matches_cons, nil_mem_readings]
  refine or_congr_right ⟨?_, ?_⟩
  · rintro (⟨u, hu, hL⟩ | hL)
    · obtain ⟨s, hs, hrest⟩ := cons_mem_readings.1 hL
      exact ⟨s, hs, .inl ⟨u, hu, hrest⟩⟩
    · obtain ⟨s, hs, hrest⟩ := cons_mem_readings.1 hL
      exact ⟨s, hs, .inr hrest⟩
  · rintro ⟨s, hs, h⟩
    exact h.mono fun w hw => cons_mem_readings.2 ⟨s, hs, hw⟩

end LinePattern
