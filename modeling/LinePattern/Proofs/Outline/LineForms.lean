/-
The forms of lines.

`LineKind.Describes` says in terms of characters which lines are of a kind. A
pattern of the list stands for nothing else: what it reads, up to a place of the
line, begins with what makes the form (`describes_of_mem_language`). A line that is
said to be of a kind is therefore of its form, whatever the patterns have in common
(`describes_of_payload`).
-/
import LinePattern.Outline.LineKind
import LinePattern.Proofs.Matcher.Winner

namespace LinePattern.Outline

/-! ## Forms -/

/-- The blanks are the space and the tab. -/
def isBlank (c : Char) : Bool := c == ' ' || c == '\t'

/-- Stars, a blank, and anything. -/
structure IsHeadline (line stars : List Char) (blank : Char) (rest : List Char) : Prop where
  line_eq : line = stars ++ blank :: rest
  stars_ne : stars ≠ []
  stars_eq : ∀ c ∈ stars, c = '*'
  isBlank : isBlank blank = true

/-- Blanks, `#+`, a word, a colon, and anything. -/
structure IsKeyword (line indent key behind : List Char) : Prop where
  line_eq : line = indent ++ '#' :: '+' :: (key ++ ':' :: behind)
  isBlank : ∀ c ∈ indent, isBlank c = true
  key_ne : key ≠ []
  isWord : ∀ c ∈ key, isWord c = true

/-- Blanks, a minus or a plus, a blank, and anything. -/
structure IsListItem (line indent : List Char) (bullet blank : Char) (rest : List Char) : Prop where
  line_eq : line = indent ++ bullet :: blank :: rest
  isBlank_indent : ∀ c ∈ indent, isBlank c = true
  bullet_eq : bullet = '-' ∨ bullet = '+'
  isBlank : isBlank blank = true

/-- `[fn:`, a word, a closing bracket, a blank, and anything. -/
structure IsFootnote (line label : List Char) (blank : Char) (rest : List Char) : Prop where
  line_eq : line = '[' :: 'f' :: 'n' :: ':' :: (label ++ ']' :: blank :: rest)
  label_ne : label ≠ []
  isWord : ∀ c ∈ label, isWord c = true
  isBlank : isBlank blank = true

/-- What stands behind the blanks, if anything does. -/
def keywordValue (behind : List Char) : List (List Char) :=
  match behind.dropWhile isBlank with
  | [] => []
  | value => [value]

/-- The line has the form of the kind. -/
def LineKind.Describes (line : List Char) : LineKind → Prop
  | headline => ∃ stars blank rest, IsHeadline line stars blank rest
  | keyword => ∃ indent key behind, IsKeyword line indent key behind
  | listItem => ∃ indent bullet blank rest, IsListItem line indent bullet blank rest
  | footnote => ∃ label blank rest, IsFootnote line label blank rest
  | blank => ∀ c ∈ line, isBlank c = true

/-! ## The patterns -/

def blanks (quantifier : Quantifier) : Factor := .mk (.escape 's') (some quantifier)

def character (c : Char) : Factor := .mk (.literal c) none

/-- A character that a backslash stands before. -/
def escapedCharacter (c : Char) : Factor := .mk (.escape c) none

/-- A group around one repeated primary. -/
def group (p : Primary) (quantifier : Quantifier) : Factor :=
  .mk (.group (.term (.factor (.mk p (some quantifier))))) none

/-- The minus or the plus before a list item. -/
def bullet : CharClass := ⟨false, [.dash, .plain '+']⟩

/-- The derivation of the pattern of a kind. -/
def LineKind.term : LineKind → Term
  | headline => .seq (group (.escape '*') .plus) (.seq (blanks .plus)
      (.factor (.mk .any (some .star))))
  | keyword => .seq (blanks .star) (.seq (character '#') (.seq (escapedCharacter '+')
      (.seq (group (.escape 'w') .plus) (.seq (character ':') (.seq (blanks .star)
        (.seq (group .any .star) (.factor (.mk .endOfLine none))))))))
  | listItem => .seq (blanks .star) (.seq (.mk (.charClass bullet) none) (.seq (blanks .plus)
      (.factor (group .any .star))))
  | footnote => .seq (escapedCharacter '[') (.seq (character 'f') (.seq (character 'n')
      (.seq (character ':') (.seq (group (.escape 'w') .plus) (.seq (escapedCharacter ']')
        (.seq (blanks .plus) (.factor (group .any .star))))))))
  | blank => .seq (blanks .star) (.factor (.mk .endOfLine none))

theorem parse_of_mem_linePatterns {p : String × LineKind} (hp : p ∈ linePatterns) :
    Expr.parse p.1 = .ok (.term p.2.term) := by
  have hparse : ∀ p ∈ linePatterns, Expr.parse p.1 = .ok (.term p.2.term) := by decide +kernel
  exact hparse p hp

section

variable {mode : NegationMode} {w : List Glyph} {line : List Char} {place : Place}

theorem language_blanks (quantifier : Quantifier) : (blanks quantifier).language mode =
    quantify (oneChar fun c => isBlank c = true) (some quantifier) := by
  have hblank : (oneChar fun c => ∃ s ∈ escaped 's', s.accepts c = true) =
      oneChar fun c => isBlank c = true :=
    oneChar_congr fun c => by simp [escaped, Symbol.accepts, isBlank, @eq_comm _ c]
  rw [blanks, Factor.language, Primary.language, hblank]

theorem language_group (p : Primary) (quantifier : Quantifier) :
    (group p quantifier).language mode = quantify (p.language mode) (some quantifier) := rfl

theorem language_word :
    (Primary.escape 'w').language mode = oneChar fun c => isWord c = true :=
  oneChar_congr fun c => by simp [escaped, Symbol.accepts]

theorem language_star :
    (Primary.escape '*').language mode = oneChar fun c => c = '*' :=
  oneChar_congr fun c => by simp [escaped, Symbol.accepts, @eq_comm _ c]

theorem mem_character {c : Char} : w ∈ (character c).language mode ↔ w = [.char c] := by
  simp [character, Factor.language, Primary.language, quantify, mem_oneChar, Symbol.accepts]

theorem mem_bullet : w ∈ (Factor.mk (.charClass bullet) none).language mode ↔
    ∃ c, (c = '-' ∨ c = '+') ∧ w = [.char c] := by
  have hmembers : bullet.members = [.char '-', .char '+'] := by decide +kernel
  have hadmits (c : Char) : bullet.Admits mode c ↔ c = '-' ∨ c = '+' := by
    have hnegated : bullet.negated = false := rfl
    simp [CharClass.Admits, hnegated, hmembers, Symbol.accepts, @eq_comm _ c]
  simp only [Factor.language, Primary.language, quantify, mem_oneChar, hadmits]

theorem mem_escapedCharacter {c : Char} (hc : escaped c = [.char c]) :
    w ∈ (escapedCharacter c).language mode ↔ w = [.char c] := by
  simp [escapedCharacter, Factor.language, Primary.language, quantify, mem_oneChar, hc,
    Symbol.accepts]

theorem mem_endOfLine :
    w ∈ (Factor.mk .endOfLine none).language mode ↔ w = [.endOfText] := Iff.rfl

theorem language_any : Primary.any.language mode = oneChar fun _ => True := rfl

/-- **The pattern of a kind stands for lines of its form.** -/
theorem describes_of_mem_language {kind : LineKind} (hplace : place.Within line)
    (h : place.glyphs line ∈ kind.term.language mode) : kind.Describes line := by
  cases kind with
  | headline =>
    simp only [LineKind.term, Term.language, Language.mem_mul, language_group, language_star,
      language_blanks, Factor.language, language_any, mem_plus_oneChar, mem_star_oneChar] at h
    obtain ⟨_, ⟨stars, hne, hstars, rfl⟩, _, hgap, hline⟩ := h
    obtain ⟨_, ⟨gap, hgap_ne, hgap, rfl⟩, _, ⟨rest, -, rfl⟩, rfl⟩ := hgap
    obtain ⟨blank, gap, rfl⟩ := List.exists_cons_of_ne_nil hgap_ne
    have hglyphs : place.glyphs line = (stars ++ blank :: gap ++ rest).map .char := by
      simp [← hline]
    obtain ⟨more, rfl⟩ := Place.exists_append_of_glyphs hplace hglyphs
    exact ⟨stars, blank, gap ++ rest ++ more, by simp, hne, hstars, hgap _ List.mem_cons_self⟩
  | keyword =>
    have hescape : escaped '+' = [.char '+'] := rfl
    simp only [LineKind.term, Term.language, Language.mem_mul, language_group, language_word,
      language_blanks, language_any, mem_character, mem_escapedCharacter hescape,
      mem_endOfLine, mem_plus_oneChar, mem_star_oneChar] at h
    obtain ⟨_, ⟨indent, hindent, rfl⟩, _, hhash, hline⟩ := h
    obtain ⟨_, rfl, _, hplus, rfl⟩ := hhash
    obtain ⟨_, rfl, _, hkey, rfl⟩ := hplus
    obtain ⟨_, ⟨key, hne, hkey, rfl⟩, _, hcolon, rfl⟩ := hkey
    obtain ⟨_, rfl, _, hgap, rfl⟩ := hcolon
    obtain ⟨_, ⟨gap, -, rfl⟩, _, hvalue, rfl⟩ := hgap
    obtain ⟨_, ⟨value, -, rfl⟩, _, rfl, rfl⟩ := hvalue
    have hglyphs : place.glyphs line =
        (indent ++ '#' :: '+' :: (key ++ ':' :: (gap ++ value))).map .char ++ [.endOfText] := by
      simp [← hline]
    exact ⟨indent, key, gap ++ value, Place.eq_of_glyphs hglyphs, hindent, hne, hkey⟩
  | listItem =>
    simp only [LineKind.term, Term.language, Language.mem_mul, language_group, language_blanks,
      language_any, mem_bullet, mem_plus_oneChar, mem_star_oneChar] at h
    obtain ⟨_, ⟨indent, hindent, rfl⟩, _, hbullet, hline⟩ := h
    obtain ⟨_, ⟨bullet, hbullet, rfl⟩, _, hgap, rfl⟩ := hbullet
    obtain ⟨_, ⟨gap, hgap_ne, hgap, rfl⟩, _, ⟨rest, -, rfl⟩, rfl⟩ := hgap
    obtain ⟨blank, gap, rfl⟩ := List.exists_cons_of_ne_nil hgap_ne
    have hglyphs : place.glyphs line =
        (indent ++ bullet :: blank :: gap ++ rest).map .char := by
      simp [← hline]
    obtain ⟨more, rfl⟩ := Place.exists_append_of_glyphs hplace hglyphs
    exact ⟨indent, bullet, blank, gap ++ rest ++ more, by simp, hindent, hbullet,
      hgap _ List.mem_cons_self⟩
  | footnote =>
    have hopening : escaped '[' = [.char '['] := rfl
    have hclosing : escaped ']' = [.char ']'] := rfl
    simp only [LineKind.term, Term.language, Language.mem_mul, language_group, language_word,
      language_blanks, language_any, mem_character, mem_escapedCharacter hopening,
      mem_escapedCharacter hclosing, mem_plus_oneChar, mem_star_oneChar] at h
    obtain ⟨_, rfl, _, hf, hline⟩ := h
    obtain ⟨_, rfl, _, hn, rfl⟩ := hf
    obtain ⟨_, rfl, _, hcolon, rfl⟩ := hn
    obtain ⟨_, rfl, _, hlabel, rfl⟩ := hcolon
    obtain ⟨_, ⟨label, hne, hlabel, rfl⟩, _, hbracket, rfl⟩ := hlabel
    obtain ⟨_, rfl, _, hgap, rfl⟩ := hbracket
    obtain ⟨_, ⟨gap, hgap_ne, hgap, rfl⟩, _, ⟨rest, -, rfl⟩, rfl⟩ := hgap
    obtain ⟨blank, gap, rfl⟩ := List.exists_cons_of_ne_nil hgap_ne
    have hglyphs : place.glyphs line =
        ('[' :: 'f' :: 'n' :: ':' :: (label ++ ']' :: blank :: gap ++ rest)).map .char := by
      simp [← hline]
    obtain ⟨more, rfl⟩ := Place.exists_append_of_glyphs hplace hglyphs
    exact ⟨label, blank, gap ++ rest ++ more, by simp, hne, hlabel, hgap _ List.mem_cons_self⟩
  | blank =>
    simp only [LineKind.term, Term.language, Language.mem_mul, language_blanks, mem_endOfLine,
      mem_star_oneChar] at h
    obtain ⟨_, ⟨blanks, hblanks, rfl⟩, _, rfl, hline⟩ := h
    rwa [← Place.eq_of_glyphs hline.symm] at hblanks

/-- **A line has the form of the kind that is reported.** -/
theorem describes_of_payload {set : PatternSet LineKind} {kind : LineKind} {line : String}
    (hset : lineSet = .ok set) (h : (set.verdict line).payload = some kind) :
    kind.Describes line.toList := by
  obtain ⟨p, hp, rfl, e, place, hparse, hplace, hglyphs⟩ :=
    PatternSet.exists_glyphs_of_payload hset h
  rw [parse_of_mem_linePatterns hp] at hparse
  cases hparse
  exact describes_of_mem_language hplace hglyphs

end

end LinePattern.Outline
