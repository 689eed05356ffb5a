/-
The grammar of patterns, and what a derivation writes.

A tree is a derivation where its leaves are written as the grammar has them
(`Expr.Grammatical`), and it derives the characters it is written with. Its
token stream is put together here from whole streams: those of the factors of
a term, or of the terms of an expression, one after the other, and behind them
the operators that join them. A group has the number of groups that are opened
in the text before it, which is told from the characters alone (`openings`).

`Expr.tokens` joins two streams at a time and counts the groups of subtrees. On
derivations that comes to the same (`Expr.tokens_eq_stream`).
-/
import LinePattern.Proofs.Pattern.Language

namespace LinePattern

/-! ## Derivations -/

def Quantifier.char : Quantifier → Char
  | .star => '*'
  | .plus => '+'
  | .optional => '?'

def ClassPart.chars : ClassPart → List Char
  | plain c => [c]
  | dash => ['-']
  | escaped c => ['\\', c]

namespace CharClass

/-- What a class is opened with. -/
def opening (negated : Bool) : List Char := if negated then ['[', '^'] else ['[']

def chars (cls : CharClass) : List Char :=
  opening cls.negated ++ cls.parts.flatMap ClassPart.chars ++ [']']

/-- The characters that do not stand for themselves in a class. -/
def metacharacters : List Char := [']', '\\', '-']

/-- The plain characters of a class stand for themselves. In front a caret does
not. -/
structure Written (cls : CharClass) : Prop where
  plain : ∀ c, ClassPart.plain c ∈ cls.parts → c ∉ metacharacters
  head : cls.negated = false → cls.parts.head? ≠ some (.plain '^')

end CharClass

mutual

/-- The characters that an expression is written with. -/
def Expr.chars : Expr → List Char
  | .term t => t.chars
  | .alt t rest => t.chars ++ '|' :: rest.chars

def Term.chars : Term → List Char
  | .factor f => f.chars
  | .seq f rest => f.chars ++ rest.chars

def Factor.chars : Factor → List Char
  | .mk p quantifier => p.chars ++ (quantifier.map Quantifier.char).toList

def Primary.chars : Primary → List Char
  | .literal c => [c]
  | .escape c => ['\\', c]
  | .any => ['.']
  | .endOfLine => ['$']
  | .charClass cls => cls.chars
  | .group body => '(' :: body.chars ++ [')']

end

/-- The characters that do not stand for themselves outside of classes. -/
def metacharacters : List Char :=
  ['(', ')', '[', ']', '\\', '.', '$', '*', '+', '?', '|', '^']

mutual

/-- The leaves of the expression are what the grammar allows. In a class the
ranges have to have a meaning, and to list a member. -/
def Expr.Grammatical : Expr → Prop
  | .term t => t.Grammatical
  | .alt t rest => t.Grammatical ∧ rest.Grammatical

def Term.Grammatical : Term → Prop
  | .factor f => f.Grammatical
  | .seq f rest => f.Grammatical ∧ rest.Grammatical

def Factor.Grammatical : Factor → Prop
  | .mk p _ => p.Grammatical

def Primary.Grammatical : Primary → Prop
  | .literal c => c ∉ metacharacters
  | .charClass cls => cls.Written ∧ ∃ members, cls.expand = .ok members ∧ members ≠ []
  | .group body => body.Grammatical
  | .escape _ | .any | .endOfLine => True

end

/-- The tree is a derivation of the text. -/
structure Expr.Derives (e : Expr) (text : List Char) : Prop where
  grammatical : e.Grammatical
  chars_eq : e.chars = text

theorem CharClass.members_ne_nil_iff {cls : CharClass} :
    cls.members ≠ [] ↔ ∃ members, cls.expand = .ok members ∧ members ≠ [] := by
  unfold members
  cases cls.expand with
  | ok members => simp
  | error e => simp

mutual

theorem Expr.Grammatical.valid : ∀ {e : Expr}, e.Grammatical → e.Valid
  | .term _, h => Term.Grammatical.valid h
  | .alt _ _, ⟨ht, hrest⟩ => ⟨ht.valid, hrest.valid⟩

theorem Term.Grammatical.valid : ∀ {t : Term}, t.Grammatical → t.Valid
  | .factor _, h => Factor.Grammatical.valid h
  | .seq _ _, ⟨hf, hrest⟩ => ⟨hf.valid, hrest.valid⟩

theorem Factor.Grammatical.valid : ∀ {f : Factor}, f.Grammatical → f.Valid
  | .mk _ _, h => Primary.Grammatical.valid h

theorem Primary.Grammatical.valid : ∀ {p : Primary}, p.Grammatical → p.Valid
  | .charClass _, ⟨_, hmembers⟩ => CharClass.members_ne_nil_iff.2 hmembers
  | .group _, h => Expr.Grammatical.valid h
  | .literal _, _ | .escape _, _ | .any, _ | .endOfLine, _ => trivial

end

/-! ## Where groups open -/

/-- What a character of a pattern can be part of. -/
inductive LexMode where
  | outside
  | escape
  | charClass
  | classEscape
deriving DecidableEq

namespace LexMode

/-- The mode behind a character. -/
def next : LexMode → Char → LexMode
  | outside, '\\' => escape
  | outside, '[' => charClass
  | outside, _ => outside
  | escape, _ => outside
  | charClass, ']' => outside
  | charClass, '\\' => classEscape
  | charClass, _ => charClass
  | classEscape, _ => charClass

/-- The mode behind a text. -/
def after (mode : LexMode) (text : List Char) : LexMode := text.foldl next mode

/-- The number of groups that a text opens. A parenthesis that is escaped, or in
a class, opens none. -/
def openings : LexMode → List Char → Nat
  | _, [] => 0
  | mode, c :: rest =>
    (if mode = outside ∧ c = '(' then 1 else 0) + openings (mode.next c) rest

end LexMode

/-- The number of groups that a text opens from its first character on. -/
def openings (text : List Char) : Nat := LexMode.outside.openings text

/-! ## Streams -/

/-- Streams one after the other, and then the operators that join them, which
are one less. -/
def joined (operator : Token) (streams : List (List Token)) : List Token :=
  streams.flatten ++ List.replicate (streams.length - 1) operator

/-- Alternatives nested to the left. -/
def leftNested : List (List Token) → List Token
  | [] => []
  | first :: rest => rest.foldl (fun chain stream => chain ++ stream ++ [.alt]) first

mutual

/-- The streams of the terms of an expression behind the text `before`. -/
def Expr.termStreams (before : List Char) : Expr → List (List Token)
  | .term t => [joined .concat (t.factorStreams before)]
  | .alt t rest =>
    joined .concat (t.factorStreams before) :: rest.termStreams (before ++ t.chars ++ ['|'])

def Term.factorStreams (before : List Char) : Term → List (List Token)
  | .factor f => [f.stream before]
  | .seq f rest => f.stream before :: rest.factorStreams (before ++ f.chars)

def Factor.stream (before : List Char) : Factor → List Token
  | .mk p quantifier => p.stream before ++ Token.ofQuantifier quantifier

def Primary.stream (before : List Char) : Primary → List Token
  | .literal c => [.literal (.char c)]
  | .escape c => Token.ofEscape c
  | .any => [.any]
  | .endOfLine => [.endOfLine]
  | .charClass cls =>
    leftNested (cls.members.map fun symbol => [.literal symbol]) ++
      if cls.negated then [.negate] else []
  | .group body =>
    joined .alt (body.termStreams (before ++ ['('])) ++ [.capture (openings before)]

end

/-- The stream of a whole pattern. -/
def Expr.stream (e : Expr) : List Token := joined .alt (e.termStreams [])

/-! ## The groups of a derivation -/

namespace LexMode

variable {mode middle last : LexMode} {text rest : List Char} {groups more : Nat}

/-- The text leads from one mode to another, and opens so many groups. -/
structure Leads (mode : LexMode) (text : List Char) (groups : Nat) (last : LexMode) : Prop where
  after_eq : mode.after text = last
  openings_eq : mode.openings text = groups

theorem leads_nil (mode : LexMode) : mode.Leads [] 0 mode := ⟨rfl, rfl⟩

theorem leads_singleton {c : Char} (hnext : mode.next c = last) (hc : ¬(mode = outside ∧ c = '(')) :
    mode.Leads [c] 0 last :=
  ⟨hnext, by simp [openings, hc]⟩

theorem Leads.append (h : mode.Leads text groups middle) (hrest : middle.Leads rest more last) :
    mode.Leads (text ++ rest) (groups + more) last := by
  obtain ⟨hafter, rfl⟩ := h
  refine ⟨?_, ?_⟩
  · have hmiddle : (mode.after text).after rest = last := by
      rw [hafter]
      exact hrest.after_eq
    rwa [after, List.foldl_append]
  · induction text generalizing mode with
    | nil =>
      obtain rfl : mode = middle := hafter
      simp [openings, hrest.openings_eq]
    | cons c text ih => rw [List.cons_append, openings, openings, ih hafter, Nat.add_assoc]

theorem Leads.bar (h : outside.Leads rest groups last) : outside.Leads ('|' :: rest) groups last := by
  have hbar : outside.Leads ['|'] 0 outside := ⟨rfl, rfl⟩
  simpa using hbar.append h

theorem Leads.opening (h : outside.Leads rest groups last) :
    outside.Leads ('(' :: rest) (groups + 1) last := by
  have hopen : outside.Leads ['('] 1 outside := ⟨rfl, rfl⟩
  simpa [Nat.add_comm] using hopen.append h

theorem next_outside {c : Char} (hc : c ∉ metacharacters) : outside.next c = outside := by
  simp only [metacharacters, List.mem_cons, List.not_mem_nil, or_false, not_or] at hc
  unfold next
  split <;> simp_all

theorem next_charClass {c : Char} (hc : c ∉ CharClass.metacharacters) :
    charClass.next c = charClass := by
  simp only [CharClass.metacharacters, List.mem_cons, List.not_mem_nil, or_false, not_or] at hc
  unfold next
  split <;> simp_all

end LexMode

open LexMode

theorem ClassPart.leads_chars {part : ClassPart}
    (h : ∀ c, part = .plain c → c ∉ CharClass.metacharacters) :
    LexMode.charClass.Leads part.chars 0 .charClass := by
  cases part with
  | plain c => exact leads_singleton (next_charClass (h c rfl)) (by simp)
  | dash => exact ⟨rfl, rfl⟩
  | escaped c => exact ⟨rfl, rfl⟩

theorem CharClass.leads_chars {cls : CharClass} (h : cls.Written) :
    outside.Leads cls.chars 0 outside := by
  have hopening : outside.Leads (opening cls.negated) 0 .charClass := by
    cases cls.negated with
    | true => exact ⟨rfl, rfl⟩
    | false => exact ⟨rfl, rfl⟩
  have hparts : ∀ parts : List ClassPart, (∀ c, .plain c ∈ parts → c ∉ metacharacters) →
      LexMode.charClass.Leads (parts.flatMap ClassPart.chars) 0 .charClass := by
    intro parts
    induction parts with
    | nil => exact fun _ => leads_nil _
    | cons part parts ih =>
      intro h
      have hpart := ClassPart.leads_chars fun c hc => h c (hc ▸ List.mem_cons_self)
      exact hpart.append (ih fun c hc => h c (List.mem_cons_of_mem _ hc))
  exact (hopening.append (hparts cls.parts h.plain)).append ⟨rfl, rfl⟩

mutual

/-- A derivation opens its groups and leaves nothing open. -/
theorem Expr.Grammatical.leads : ∀ {e : Expr}, e.Grammatical →
    outside.Leads e.chars e.groups outside
  | .term _, h => Term.Grammatical.leads h
  | .alt _ _, ⟨ht, hrest⟩ => ht.leads.append hrest.leads.bar

theorem Term.Grammatical.leads : ∀ {t : Term}, t.Grammatical →
    outside.Leads t.chars t.groups outside
  | .factor _, h => Factor.Grammatical.leads h
  | .seq _ _, ⟨hf, hrest⟩ => hf.leads.append hrest.leads

theorem Factor.Grammatical.leads : ∀ {f : Factor}, f.Grammatical →
    outside.Leads f.chars f.groups outside
  | .mk p quantifier, h => by
    have hquantifier : outside.Leads (quantifier.map Quantifier.char).toList 0 outside := by
      rcases quantifier with _ | _ | _ | _ <;> exact ⟨rfl, rfl⟩
    exact (Primary.Grammatical.leads h).append hquantifier

theorem Primary.Grammatical.leads : ∀ {p : Primary}, p.Grammatical →
    outside.Leads p.chars p.groups outside
  | .literal c, h => by
    have hopen : c ≠ '(' := fun hc => h (hc ▸ by decide)
    exact leads_singleton (next_outside h) fun hc => hopen hc.2
  | .charClass _, ⟨hwritten, _⟩ => CharClass.leads_chars hwritten
  | .group _, h => ((Expr.Grammatical.leads h).append ⟨rfl, rfl⟩).opening
  | .escape _, _ => ⟨rfl, rfl⟩
  | .any, _ => ⟨rfl, rfl⟩
  | .endOfLine, _ => ⟨rfl, rfl⟩

end

/-! ## The streams of a derivation -/

theorem joined_singleton (operator : Token) (stream : List Token) :
    joined operator [stream] = stream := by
  simp [joined]

theorem joined_cons {operator : Token} {stream : List Token} {streams : List (List Token)}
    (h : streams ≠ []) :
    joined operator (stream :: streams) = stream ++ joined operator streams ++ [operator] := by
  obtain ⟨n, hn⟩ := Nat.exists_eq_succ_of_ne_zero (List.length_eq_zero_iff.not.2 h)
  simp [joined, hn, List.replicate_succ']

theorem leftNested_literals (members : List Symbol) :
    leftNested (members.map fun symbol => [.literal symbol]) = Token.anyOf members := by
  cases members with
  | nil => rfl
  | cons first rest => simp [leftNested, Token.anyOf, List.flatMap_def, Function.comp_def]

theorem Expr.termStreams_ne_nil (before : List Char) (e : Expr) : e.termStreams before ≠ [] := by
  cases e <;> simp [termStreams]

theorem Term.factorStreams_ne_nil (before : List Char) (t : Term) :
    t.factorStreams before ≠ [] := by
  cases t <;> simp [factorStreams]

mutual

theorem Expr.joined_termStreams : ∀ {e : Expr} {before : List Char} {opened : Nat},
    e.Grammatical → outside.Leads before opened outside →
      joined .alt (e.termStreams before) = e.tokensFrom opened
  | .term t, before, opened, h, hbefore => by
    rw [Expr.termStreams, joined_singleton, Expr.tokensFrom, Term.joined_factorStreams h hbefore]
  | .alt t rest, before, opened, ⟨ht, hrest⟩, hbefore => by
    have hbar : outside.Leads (before ++ t.chars ++ ['|']) (opened + t.groups) outside :=
      (hbefore.append ht.leads).append ⟨rfl, rfl⟩
    rw [Expr.termStreams, joined_cons (rest.termStreams_ne_nil _), Expr.tokensFrom,
      Term.joined_factorStreams ht hbefore, Expr.joined_termStreams hrest hbar]

theorem Term.joined_factorStreams : ∀ {t : Term} {before : List Char} {opened : Nat},
    t.Grammatical → outside.Leads before opened outside →
      joined .concat (t.factorStreams before) = t.tokensFrom opened
  | .factor f, before, opened, h, hbefore => by
    rw [Term.factorStreams, joined_singleton, Term.tokensFrom, Factor.stream_eq h hbefore]
  | .seq f rest, before, opened, ⟨hf, hrest⟩, hbefore => by
    rw [Term.factorStreams, joined_cons (rest.factorStreams_ne_nil _), Term.tokensFrom,
      Factor.stream_eq hf hbefore,
      Term.joined_factorStreams hrest (hbefore.append hf.leads)]

theorem Factor.stream_eq : ∀ {f : Factor} {before : List Char} {opened : Nat},
    f.Grammatical → outside.Leads before opened outside → f.stream before = f.tokensFrom opened
  | .mk p quantifier, before, opened, h, hbefore => by
    rw [Factor.stream, Factor.tokensFrom, Primary.stream_eq h hbefore]

theorem Primary.stream_eq : ∀ {p : Primary} {before : List Char} {opened : Nat},
    p.Grammatical → outside.Leads before opened outside → p.stream before = p.tokensFrom opened
  | .charClass cls, _, _, _, _ => by
    rw [Primary.stream, Primary.tokensFrom, Token.ofClass, leftNested_literals]
  | .group body, before, opened, h, hbefore => by
    have hopen : outside.Leads (before ++ ['(']) (opened + 1) outside := hbefore.append ⟨rfl, rfl⟩
    have hcount : openings before = opened := hbefore.openings_eq
    rw [Primary.stream, Primary.tokensFrom, hcount, Expr.joined_termStreams h hopen]
  | .literal _, _, _, _, _ | .escape _, _, _, _, _ | .any, _, _, _, _ | .endOfLine, _, _, _, _ => rfl

end

/-- Counting groups by subtree, and joining streams two at a time, makes no
difference. -/
theorem Expr.tokens_eq_stream {e : Expr} (h : e.Grammatical) : e.tokens = e.stream :=
  (Expr.joined_termStreams h (leads_nil outside)).symm

end LinePattern
