import Mathlib.Algebra.Group.Nat.Defs
import LatentSpec.RegexMatcher

/-! # The length bound of a stop expression

A stop expression is searched in the last tokens of the output, and `get_max_seq_length`
says how many of them have to be kept: the length of the longest string that the parsed
expression can match, or at least `MAX_LEN` when it has no bound or has an operator the
function does not know.  `advances_subPattern` is the induction over the syntax: below
`MAX_LEN` no such operator can take part in a match, and the rest is counted.
-/
namespace LatentSpec
open RegexMatcher

/-- `MAX_LEN` -/
def maxLen : ℕ := 2 ^ 30

mutual

/-- `_max_length_from_subpattern` -/
def maxLengthFromSubpattern : SubPattern → ℕ
  | .nil => 0
  | .cons item rest => maxLengthOfToken item + maxLengthFromSubpattern rest

/-- What one token adds to `total`. -/
def maxLengthOfToken : Item → ℕ
  | .literal _ | .inSet _ | .any => 1
  | .subpattern _ _ _ inner => maxLengthFromSubpattern inner
  | .branch branches => maxLengthOfBranches branches
  | .maxRepeat turns inner | .minRepeat turns inner =>
    match turns.most with
    | none => maxLen
    | some maxNumRepeat => maxNumRepeat * maxLengthFromSubpattern inner
  | .atPosition _ => 0
  -- `Got unhandled regex token`
  | .notLiteral _ | .possessiveRepeat .. | .atomicGroup _ | .assert .. | .assertNot .. | .groupRef _
  | .groupRefExists .. | .failure => maxLen

/-- `max(... for branch in branches)` -/
def maxLengthOfBranches : Branches → ℕ
  | .last branch => maxLengthFromSubpattern branch
  | .cons branch rest => max (maxLengthFromSubpattern branch) (maxLengthOfBranches rest)

end

/-- `get_max_seq_length`, after `sre_parse.parse`. -/
def getMaxSeqLength {ε : Type} (parse : String → Except ε SubPattern) (regexStr : String) :
    Except ε ℕ := do
  return maxLengthFromSubpattern (← parse regexStr)

section
variable (tests : CharTests) (text : List Char)

mutual

/-- **Below `MAX_LEN` the bound covers every outcome.** -/
theorem advances_subPattern (pattern : SubPattern) (flags : Finset Flag)
    (h : maxLengthFromSubpattern pattern < maxLen) :
    Advances (maxLengthFromSubpattern pattern) (runSubPattern tests text pattern flags) := by
  match pattern with
  | .nil => exact Advances.stay
  | .cons item rest =>
    rw [maxLengthFromSubpattern] at h ⊢
    exact (advances_item item flags (by omega)).seq (advances_subPattern rest flags (by omega))

theorem advances_item (item : Item) (flags : Finset Flag) (h : maxLengthOfToken item < maxLen) :
    Advances (maxLengthOfToken item) (runItem tests text item flags) := by
  match item with
  | .literal c => exact Advances.oneChar text _
  | .any => exact Advances.oneChar text _
  | .inSet items => exact Advances.oneChar text _
  | .atPosition code => exact Advances.stay.ite _
  | .subpattern group addFlags delFlags inner =>
    rw [maxLengthOfToken] at h ⊢
    intro st st' hst
    rw [runItem] at hst
    obtain ⟨inside, hinside, rfl⟩ := List.mem_map.mp hst
    have hbound := advances_subPattern inner _ h st inside hinside
    cases group <;> exact hbound
  | .branch branches =>
    rw [maxLengthOfToken] at h ⊢
    exact advances_branches branches flags h
  | .maxRepeat turns inner =>
    rw [maxLengthOfToken] at h ⊢
    rw [runItem]
    cases hmost : turns.most with
    | none =>
      rw [hmost] at h
      exact absurd h (lt_irrefl _)
    | some n =>
      rw [hmost] at h
      -- a body that is matched at most zero times may be anything
      rcases Nat.eq_zero_or_pos n with rfl | hn
      · rw [greedyRepeat_zero text hmost]
        exact Advances.stay.mono (Nat.zero_le _)
      · have hinner := lt_of_le_of_lt (Nat.le_mul_of_pos_left _ hn) h
        exact (advances_subPattern inner flags hinner).greedyRepeat text hmost
  | .minRepeat turns inner =>
    rw [maxLengthOfToken] at h ⊢
    rw [runItem]
    cases hmost : turns.most with
    | none =>
      rw [hmost] at h
      exact absurd h (lt_irrefl _)
    | some n =>
      rw [hmost] at h
      rcases Nat.eq_zero_or_pos n with rfl | hn
      · rw [lazyRepeat_zero text hmost]
        exact Advances.stay.mono (Nat.zero_le _)
      · have hinner := lt_of_le_of_lt (Nat.le_mul_of_pos_left _ hn) h
        exact (advances_subPattern inner flags hinner).lazyRepeat text hmost
  | .notLiteral _ | .possessiveRepeat .. | .atomicGroup _ | .assert .. | .assertNot ..
  | .groupRef _ | .groupRefExists .. | .failure => exact absurd h (lt_irrefl _)

theorem advances_branches (branches : Branches) (flags : Finset Flag)
    (h : maxLengthOfBranches branches < maxLen) :
    Advances (maxLengthOfBranches branches) (runBranches tests text branches flags) := by
  match branches with
  | .last branch => exact advances_subPattern branch flags h
  | .cons branch rest =>
    rw [maxLengthOfBranches] at h ⊢
    intro st st' hst
    rw [runBranches] at hst
    rcases List.mem_append.mp hst with hfirst | hrest
    · have := advances_subPattern branch flags (by omega) st st' hfirst
      omega
    · have := advances_branches rest flags (by omega) st st' hrest
      omega

end

end

/-- **A bound below `MAX_LEN` is a bound**: no match of the expression is longer, in any text and
under any flags. -/
theorem getMaxSeqLength_bounds {ε : Type} (parse : String → Except ε SubPattern)
    (tests : CharTests) (regexStr : String) {n : ℕ} (h : getMaxSeqLength parse regexStr = .ok n)
    (hn : n < maxLen) :
    ∃ pattern, parse regexStr = .ok pattern ∧
      ∀ flags text, ∀ span ∈ spans tests text pattern flags, span.2 ≤ span.1 + n := by
  cases hparse : parse regexStr with
  | error e =>
    rw [getMaxSeqLength, hparse] at h
    cases h
  | ok pattern =>
    rw [getMaxSeqLength, hparse] at h
    have hlength : maxLengthFromSubpattern pattern = n := Except.ok.inj h
    subst hlength
    refine ⟨pattern, rfl, fun flags text span hspan => ?_⟩
    exact spans_le (advances_subPattern tests text pattern flags hn) hspan

/-- Characters compared as they are, positions not looked at. -/
def plainTests : CharTests where
  literal := fun _ c d => c = d
  any := fun _ c => c ≠ '\n'
  inSet := fun _ items c => items.any fun item => item = .literal c
  atPosition := fun _ _ _ _ => true

/-- `(?:a|bc){1,2}` -/
def oneOrTwo : SubPattern :=
  .cons (.maxRepeat ⟨1, some 2, by simp⟩
    (.cons (.branch (.cons (.cons (.literal 'a') .nil)
      (.last (.cons (.literal 'b') (.cons (.literal 'c') .nil))))) .nil)) .nil

theorem getMaxSeqLength_bounds_oneOrTwo :
    maxLengthFromSubpattern oneOrTwo = 4 ∧ (0, 3) ∈ spans plainTests "bca".toList oneOrTwo ∅ ∧
      ∃ pattern, (Except.ok oneOrTwo : Except Unit SubPattern) = .ok pattern ∧
        ∀ flags text, ∀ span ∈ spans plainTests text pattern flags, span.2 ≤ span.1 + 4 :=
  ⟨by decide, by decide,
    getMaxSeqLength_bounds (fun _ => (.ok oneOrTwo : Except Unit SubPattern)) plainTests
      "(?:a|bc)\x7b1,2\x7d" rfl (by decide)⟩

end LatentSpec
