/-
A pattern set that can be replaced while it is in use.

Every change compiles a complete new set and puts it into use; one that cannot
be compiled leaves the set in use, and the list it was compiled from, as they
are. A set is never changed once it was put into use, and it can still be held
when another has taken its place. So the sets are kept in the order in which
they were put into use, and a snapshot is the number of one of them.
-/
import LinePattern.Matcher.Set

namespace LinePattern

/-- A pattern set in use, and those that were in use before. -/
structure SharedSet (P : Type) where
  options : Options
  /-- The patterns and payloads that the next change starts from. -/
  sources : List (String × P)
  /-- The sets that were put into use. -/
  sets : Array (PatternSet P)
  /-- The number of the set in use. -/
  generation : Nat
  generation_lt : generation < sets.size

namespace SharedSet

variable {P α : Type}

/-- The shared set that starts with the empty set. -/
def start (options : Options) : SharedSet P := ⟨options, [], #[.empty options], 0, by simp⟩

/-- The set in use. -/
def published (shared : SharedSet P) : PatternSet P :=
  have := shared.generation_lt
  shared.sets[shared.generation]

/-- The patterns and payloads in use, in order. -/
def patterns (shared : SharedSet P) : List (String × P) := shared.published.patterns

/-- A hold on the set in use. -/
def snapshot (shared : SharedSet P) : Nat := shared.generation

/-- The set that a snapshot holds. -/
def held? (shared : SharedSet P) (snapshot : Nat) : Option (PatternSet P) := shared.sets[snapshot]?

/-- Puts a set into use, in the place of the one before. -/
def use (shared : SharedSet P) (set : PatternSet P) : SharedSet P :=
  { shared with
    sets := shared.sets.push set
    generation := shared.sets.size
    generation_lt := by simp }

def verdict (shared : SharedSet P) (text : String) : Verdict P := shared.published.verdict text

def isMatch (shared : SharedSet P) (text : String) : Bool := shared.published.isMatch text

instance : LineMatcher (SharedSet P) P := ⟨verdict, isMatch⟩

/-- What is done to a shared set. It may fail, and whatever was done to the set
before remains. -/
abbrev Update (P α : Type) := ExceptT PatternError (StateM (SharedSet P)) α

namespace Update

/-- Compiles a list of patterns and, if that succeeds, puts the set into use. -/
def publish (next : List (String × P)) : Update P Unit := do
  let set ← ofExcept (PatternSet.compile (← get).options next)
  modify (·.use set)
  modify fun shared => { shared with sources := next }

/-- Adds a pattern after the others. -/
def add (pattern : String) (payload : P) : Update P Unit := do
  publish ((← get).sources ++ [(pattern, payload)])

/-- Removes the patterns with a payload, and says how many they were. Nothing
is compiled when there are none. -/
def delete [BEq P] (payload : P) : Update P Nat := do
  let sources := (← get).sources
  let kept := sources.filter (·.2 != payload)
  let removed := sources.length - kept.length
  if removed > 0 then publish kept
  return removed

/-- Puts the given patterns in the place of all others. -/
def replace (patterns : List (String × P)) : Update P Unit := publish patterns

end Update

/-- The shared set after an update that succeeds, with what it returns. -/
def after (shared : SharedSet P) (update : Update P α) : Except PatternError (α × SharedSet P) :=
  let (result, next) := update.run.run shared
  result.map (·, next)

def add (shared : SharedSet P) (pattern : String) (payload : P) :
    Except PatternError (SharedSet P) :=
  (shared.after (.add pattern payload)).map (·.2)

def delete [BEq P] (shared : SharedSet P) (payload : P) :
    Except PatternError (Nat × SharedSet P) :=
  shared.after (.delete payload)

def replace (shared : SharedSet P) (patterns : List (String × P)) :
    Except PatternError (SharedSet P) :=
  (shared.after (.replace patterns)).map (·.2)

end SharedSet

end LinePattern
