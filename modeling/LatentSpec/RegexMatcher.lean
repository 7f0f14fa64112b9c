import Mathlib.Data.Finset.Basic

/-! # Backtracking regular expressions

The parsed form of a Perl-style expression and the matcher of a backtracking engine.
`runItem` gives the outcomes of matching one item from a state, in the order in which the
engine tries them; a look-around or an atomic group keeps the first one only.  An outcome
is a position and the spans of the groups captured so far.

What a character test accepts is a parameter (`CharTests`), for it depends on the flags and
on the alphabet; all the matcher uses is that each such test consumes one character.

`Advances` bounds how far the outcomes of a matcher lie ahead of its start; it composes
along sequences (`Advances.seq`) and repeats (`Advances.repeat`).
-/
namespace RegexMatcher

inductive Flag
  | ignoreCase | locale | multiLine | dotAll | unicode | ascii | verbose
  deriving DecidableEq, Repr

inductive Category
  | digit | notDigit | space | notSpace | word | notWord
  deriving DecidableEq, Repr

/-- What stands between the brackets of a character set. -/
inductive SetItem
  | negate
  | literal (c : Char)
  | range (lo hi : Char)
  | category (category : Category)
  deriving DecidableEq, Repr

/-- The zero-width positions. -/
inductive AtCode
  | beginning | beginningString | endLine | endString | boundary | nonBoundary
  deriving DecidableEq, Repr

inductive Direction
  | ahead | behind
  deriving DecidableEq, Repr

/-- How often the body of a repeat is matched; a missing maximum is unbounded.  A minimum above
the maximum is not an expression. -/
structure Turns where
  least : ℕ
  most : Option ℕ
  least_le : ∀ n ∈ most, least ≤ n

mutual

/-- A sequence of items. -/
inductive SubPattern
  | nil
  | cons (item : Item) (rest : SubPattern)

/-- One item: its operator and its arguments. -/
inductive Item
  | literal (c : Char)
  | notLiteral (c : Char)
  | any
  | inSet (items : List SetItem)
  | branch (branches : Branches)
  | subpattern (group : Option ℕ) (addFlags delFlags : Finset Flag) (inner : SubPattern)
  | maxRepeat (turns : Turns) (inner : SubPattern)
  | minRepeat (turns : Turns) (inner : SubPattern)
  | possessiveRepeat (turns : Turns) (inner : SubPattern)
  | atomicGroup (inner : SubPattern)
  | atPosition (code : AtCode)
  | assert (direction : Direction) (inner : SubPattern)
  | assertNot (direction : Direction) (inner : SubPattern)
  | groupRef (group : ℕ)
  | groupRefExists (group : ℕ) (yes no : SubPattern)
  | failure

/-- The alternatives of a branch; there is at least one. -/
inductive Branches
  | last (branch : SubPattern)
  | cons (branch : SubPattern) (rest : Branches)

end

/-- The tests of the items that look at one character or at the characters around a
position.  `literal` also compares the characters of a back-reference. -/
structure CharTests where
  literal : Finset Flag → Char → Char → Bool
  any : Finset Flag → Char → Bool
  inSet : Finset Flag → List SetItem → Char → Bool
  atPosition : Finset Flag → AtCode → List Char → ℕ → Bool

structure MatchState where
  pos : ℕ
  groups : ℕ → Option (ℕ × ℕ)

/-- A matcher gives the outcomes of a state, the preferred one first. -/
abbrev Matcher := MatchState → List MatchState

/-- The span of a group. -/
def MatchState.capture (st : MatchState) (group : Option ℕ) (start : ℕ) : MatchState :=
  match group with
  | none => st
  | some g => { st with groups := fun h => if h = g then some (start, st.pos) else st.groups h }

/-- One character that passes a test. -/
def oneChar (text : List Char) (test : Char → Bool) : Matcher := fun st =>
  match text[st.pos]? with
  | some c => if test c then [{ st with pos := st.pos + 1 }] else []
  | none => []

/-- `n` turns of a loop body. -/
def exactly (body : Matcher) : ℕ → Matcher
  | 0 => fun st => [st]
  | n + 1 => fun st => (body st).flatMap (exactly body n)

/-- Up to `n` more turns, as many as possible; none after a turn that consumed nothing. -/
def greedily (body : Matcher) : ℕ → Option ℕ → Matcher
  | 0, _ => fun st => [st]
  | n + 1, lastPos => fun st =>
    (if lastPos = some st.pos then []
      else (body st).flatMap (greedily body n (some st.pos))) ++ [st]

/-- Up to `n` more turns, as few as possible. -/
def lazily (body : Matcher) : ℕ → Option ℕ → Matcher
  | 0, _ => fun st => [st]
  | n + 1, lastPos => fun st =>
    st :: (if lastPos = some st.pos then [] else (body st).flatMap (lazily body n (some st.pos)))

/-- The turns a repeat can make past its minimum.  Every turn but the last consumes a
character, so in an unbounded repeat the length of the text bounds them. -/
def extraTurns (text : List Char) (turns : Turns) : ℕ :=
  match turns.most with
  | some most => most - turns.least
  | none => text.length + 2

def greedyRepeat (text : List Char) (turns : Turns) (body : Matcher) : Matcher := fun st =>
  (exactly body turns.least st).flatMap (greedily body (extraTurns text turns) none)

def lazyRepeat (text : List Char) (turns : Turns) (body : Matcher) : Matcher := fun st =>
  (exactly body turns.least st).flatMap (lazily body (extraTurns text turns) none)

/-- A match of `body` that ends where the state stands. -/
def lookBehind (body : Matcher) : Matcher := fun st =>
  (List.range (st.pos + 1)).flatMap fun start =>
    (body { st with pos := start }).filter fun st' => st'.pos = st.pos

/-- What a look-around searches for. -/
def look (direction : Direction) (body : Matcher) : Matcher :=
  match direction with
  | .ahead => body
  | .behind => lookBehind body

/-- The text of a group once more. -/
def backReference (text : List Char) (test : Char → Char → Bool) (span : Option (ℕ × ℕ)) :
    Matcher := fun st =>
  match span with
  | none => []
  | some (start, stop) =>
    let captured := (text.take stop).drop start
    let here := (text.drop st.pos).take captured.length
    if captured.length = here.length ∧ (List.zipWith test captured here).all id then
      [{ st with pos := st.pos + captured.length }]
    else []

section Matching
variable (tests : CharTests) (text : List Char)

mutual

def runSubPattern : SubPattern → Finset Flag → Matcher
  | .nil, _ => fun st => [st]
  | .cons item rest, flags => fun st =>
    (runItem item flags st).flatMap (runSubPattern rest flags)

def runItem : Item → Finset Flag → Matcher
  | .literal c, flags => oneChar text (tests.literal flags c)
  | .notLiteral c, flags => oneChar text fun d => !tests.literal flags c d
  | .any, flags => oneChar text (tests.any flags)
  | .inSet items, flags => oneChar text (tests.inSet flags items)
  | .branch branches, flags => runBranches branches flags
  | .subpattern group addFlags delFlags inner, flags => fun st =>
    (runSubPattern inner ((flags ∪ addFlags) \ delFlags) st).map (·.capture group st.pos)
  | .maxRepeat turns inner, flags => greedyRepeat text turns (runSubPattern inner flags)
  | .minRepeat turns inner, flags => lazyRepeat text turns (runSubPattern inner flags)
  | .possessiveRepeat turns inner, flags => fun st =>
    (greedyRepeat text turns (runSubPattern inner flags) st).take 1
  | .atomicGroup inner, flags => fun st => (runSubPattern inner flags st).take 1
  | .atPosition code, flags => fun st =>
    if tests.atPosition flags code text st.pos then [st] else []
  | .assert direction inner, flags => fun st =>
    ((look direction (runSubPattern inner flags) st).take 1).map ({ · with pos := st.pos })
  | .assertNot direction inner, flags => fun st =>
    if (look direction (runSubPattern inner flags) st).isEmpty then [st] else []
  | .groupRef group, flags => fun st =>
    backReference text (tests.literal flags) (st.groups group) st
  | .groupRefExists group yes no, flags => fun st =>
    if (st.groups group).isSome then runSubPattern yes flags st else runSubPattern no flags st
  | .failure, _ => fun _ => []

def runBranches : Branches → Finset Flag → Matcher
  | .last branch, flags => runSubPattern branch flags
  | .cons branch rest, flags => fun st => runSubPattern branch flags st ++ runBranches rest flags st

end

/-- The spans an expression can match in a text: from each start, the outcomes in order.  A
search returns the first of them. -/
def spans (pattern : SubPattern) (flags : Finset Flag) : List (ℕ × ℕ) :=
  (List.range (text.length + 1)).flatMap fun start =>
    (runSubPattern tests text pattern flags ⟨start, fun _ => none⟩).map fun st => (start, st.pos)

end Matching

/-! ### How far a match reaches -/

/-- Every outcome lies at most `bound` characters ahead of the start. -/
def Advances (bound : ℕ) (m : Matcher) : Prop :=
  ∀ st, ∀ st' ∈ m st, st'.pos ≤ st.pos + bound

namespace Advances
variable {a b : ℕ} {m m' : Matcher}

theorem mono (hm : Advances a m) (hab : a ≤ b) : Advances b m := by
  intro st st' hst
  have := hm st st' hst
  omega

theorem stay : Advances 0 fun st => [st] := by
  intro st st' hst
  rw [List.mem_singleton.mp hst, Nat.add_zero]

theorem ite (hm : Advances a m) (p : MatchState → Bool) :
    Advances a fun st => if p st then m st else [] := by
  intro st st' hst
  dsimp only at hst
  split at hst
  · exact hm st st' hst
  · cases hst

theorem seq (hm : Advances a m) (hm' : Advances b m') :
    Advances (a + b) fun st => (m st).flatMap m' := by
  intro st st'' hst
  obtain ⟨st', hfirst, hsecond⟩ := List.mem_flatMap.mp hst
  have h₁ := hm st st' hfirst
  have h₂ := hm' st' st'' hsecond
  omega

theorem oneChar (text : List Char) (test : Char → Bool) : Advances 1 (oneChar text test) := by
  intro st st' hst
  unfold RegexMatcher.oneChar at hst
  split at hst
  · split at hst
    · rw [List.mem_singleton.mp hst]
    · cases hst
  · cases hst

theorem exactly (hm : Advances a m) (n : ℕ) : Advances (n * a) (exactly m n) := by
  induction n with
  | zero =>
    rw [Nat.zero_mul]
    exact stay
  | succ n ih =>
    rw [Nat.succ_mul, Nat.add_comm]
    exact hm.seq ih

theorem greedily (hm : Advances a m) (n : ℕ) (lastPos : Option ℕ) :
    Advances (n * a) (greedily m n lastPos) := by
  induction n generalizing lastPos with
  | zero =>
    rw [Nat.zero_mul]
    exact stay
  | succ n ih =>
    intro st st' hst
    rw [RegexMatcher.greedily] at hst
    rcases List.mem_append.mp hst with hturn | hstop
    · split at hturn
      · cases hturn
      · have := hm.seq (ih (some st.pos)) st st' hturn
        rw [Nat.succ_mul]
        omega
    · rw [List.mem_singleton.mp hstop]
      omega

theorem lazily (hm : Advances a m) (n : ℕ) (lastPos : Option ℕ) :
    Advances (n * a) (lazily m n lastPos) := by
  induction n generalizing lastPos with
  | zero =>
    rw [Nat.zero_mul]
    exact stay
  | succ n ih =>
    intro st st' hst
    rw [RegexMatcher.lazily] at hst
    rcases List.mem_cons.mp hst with rfl | hturn
    · omega
    · split at hturn
      · cases hturn
      · have := hm.seq (ih (some st.pos)) st st' hturn
        rw [Nat.succ_mul]
        omega

/-- A repeat of at most `n` turns. -/
theorem greedyRepeat (hm : Advances a m) (text : List Char) {turns : Turns} {n : ℕ}
    (hmost : turns.most = some n) : Advances (n * a) (greedyRepeat text turns m) := by
  have hturns : turns.least * a + extraTurns text turns * a = n * a := by
    rw [extraTurns, hmost, ← Nat.add_mul, Nat.add_sub_cancel' (turns.least_le n hmost)]
  rw [← hturns]
  exact (hm.exactly turns.least).seq (hm.greedily _ none)

theorem lazyRepeat (hm : Advances a m) (text : List Char) {turns : Turns} {n : ℕ}
    (hmost : turns.most = some n) : Advances (n * a) (lazyRepeat text turns m) := by
  have hturns : turns.least * a + extraTurns text turns * a = n * a := by
    rw [extraTurns, hmost, ← Nat.add_mul, Nat.add_sub_cancel' (turns.least_le n hmost)]
  rw [← hturns]
  exact (hm.exactly turns.least).seq (hm.lazily _ none)

end Advances

/-- A repeat of no turns looks at nothing. -/
theorem greedyRepeat_zero (text : List Char) {turns : Turns} (hmost : turns.most = some 0)
    (m : Matcher) : greedyRepeat text turns m = fun st => [st] := by
  have hleast : turns.least = 0 := Nat.le_zero.mp (turns.least_le 0 hmost)
  unfold greedyRepeat extraTurns
  rw [hleast, hmost]
  rfl

theorem lazyRepeat_zero (text : List Char) {turns : Turns} (hmost : turns.most = some 0)
    (m : Matcher) : lazyRepeat text turns m = fun st => [st] := by
  have hleast : turns.least = 0 := Nat.le_zero.mp (turns.least_le 0 hmost)
  unfold lazyRepeat extraTurns
  rw [hleast, hmost]
  rfl

/-- A match is as long as its outcome lies ahead of its start. -/
theorem spans_le {tests : CharTests} {text : List Char} {pattern : SubPattern}
    {flags : Finset Flag} {bound : ℕ} (h : Advances bound (runSubPattern tests text pattern flags))
    {span : ℕ × ℕ} (hspan : span ∈ spans tests text pattern flags) : span.2 ≤ span.1 + bound := by
  obtain ⟨start, -, hstart⟩ := List.mem_flatMap.mp hspan
  obtain ⟨st, hst, rfl⟩ := List.mem_map.mp hstart
  exact h _ st hst

end RegexMatcher
