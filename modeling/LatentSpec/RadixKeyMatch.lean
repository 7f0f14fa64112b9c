import LatentSpec.RadixKey
import LatentSpec.WhileLoop

/-! # The search of `RadixKey.match`

`match` finds the first token in which two keys differ with two loops: the outer one compares
windows of doubling length, the inner one halves the window that differs.  Here both are loops
that may run out of turns.  Neither needs more turns than the shorter key has tokens
(`searchWhile_eq`), and with that many `match` is what `matchLen` computes
(`matchWhile_eq_matchLen`).
-/
namespace LatentSpec
open PrefixSearch WhileLoop

inductive MatchError
  | outOfTurns
  | raised (e : RadixError)

/-- The variables of the outer loop. -/
structure GallopVars where
  lo : ℕ
  step : ℕ
  matchedTokens : ℕ

namespace RadixKey

/-- The condition of the inner loop, on `lo` and `hi`. -/
def bisectCond (v : ℕ × ℕ) : Bool := decide (1 < v.2 - v.1)

/-- One turn of the inner loop. -/
def bisectBody (t0 t1 : List ℤ) (v : ℕ × ℕ) : Except MatchError ((ℕ × ℕ) × Bool) :=
  let mid := (v.1 + v.2) / 2
  if PrefixSearch.slice t0 v.1 mid = PrefixSearch.slice t1 v.1 mid then .ok ((mid, v.2), false)
  else .ok ((v.1, mid), false)

/-- The condition of the outer loop. -/
def gallopCond (n : ℕ) (v : GallopVars) : Bool := decide (v.lo < n)

/-- One turn of the outer loop. -/
def gallopBody (t0 t1 : List ℤ) (n turns : ℕ) (v : GallopVars) :
    Except MatchError (GallopVars × Bool) := do
  let hi := if v.lo + v.step < n then v.lo + v.step else n
  if PrefixSearch.slice t0 v.lo hi ≠ PrefixSearch.slice t1 v.lo hi then
    let window ← run bisectCond (bisectBody t0 t1) .outOfTurns turns (v.lo, hi)
    return ({ v with lo := window.1, matchedTokens := window.1 }, true)
  else
    return ({ v with lo := hi, step := v.step * 2 }, false)

/-- `matched_tokens`, after the loops. -/
def searchWhile (t0 t1 : List ℤ) (turns : ℕ) : Except MatchError ℕ := do
  let n := min t0.length t1.length
  let v ← run (gallopCond n) (gallopBody t0 t1 n turns) .outOfTurns turns ⟨0, 1, n⟩
  return v.matchedTokens

/-- `match`, whose loops take at most `turns` turns. -/
def matchWhile (k other : RadixKey) (pageSize turns : ℕ) : Except MatchError ℕ := do
  (k.checkCompatible other).mapError .raised
  let matchedTokens ← searchWhile k.tokenIds other.tokenIds turns
  if k.isBigram then
    let matched := max 0 (min (min (matchedTokens - 1) k.len) other.len)
    return if 1 < pageSize then matched / pageSize * pageSize else matched
  let matchedTokens := min (min matchedTokens k.len) other.len
  if pageSize = 1 then return matchedTokens
  return matchedTokens / pageSize * pageSize

section Search
variable {t0 t1 : List ℤ}

/-- Slices that start within the common prefix are equal if they end within it. -/
theorem slice_eq_iff_le {lo hi : ℕ} (hlohi : lo ≤ hi) (hhi : hi ≤ min t0.length t1.length)
    (hlo : lo ≤ commonLen t0 t1) :
    PrefixSearch.slice t0 lo hi = PrefixSearch.slice t1 lo hi ↔ hi ≤ commonLen t0 t1 := by
  rw [slice_eq_iff hlohi (le_commonLen_iff.mp hlo).2.2, le_commonLen_iff]
  constructor
  · intro h
    exact ⟨hhi.trans (min_le_left ..), hhi.trans (min_le_right ..), h⟩
  · rintro ⟨-, -, h⟩
    exact h

/-- The window of the inner loop holds the first difference. -/
structure BisectInv (t0 t1 : List ℤ) (v : ℕ × ℕ) : Prop where
  lo_le : v.1 ≤ commonLen t0 t1
  lt_hi : commonLen t0 t1 < v.2
  hi_le : v.2 ≤ min t0.length t1.length

theorem bisectBody_ok {v : ℕ × ℕ} (hv : BisectInv t0 t1 v) (hcond : bisectCond v = true) :
    ∃ v', bisectBody t0 t1 v = .ok (v', false) ∧ BisectInv t0 t1 v' ∧
      v'.2 - v'.1 < v.2 - v.1 := by
  obtain ⟨lo, hi⟩ := v
  obtain ⟨hlo, hlt, hle⟩ := hv
  have hwide : 1 < hi - lo := of_decide_eq_true hcond
  have hmid : lo < (lo + hi) / 2 ∧ (lo + hi) / 2 < hi := by omega
  have hslice := slice_eq_iff_le hmid.1.le (hmid.2.le.trans hle) hlo
  by_cases heq : PrefixSearch.slice t0 lo ((lo + hi) / 2) = PrefixSearch.slice t1 lo ((lo + hi) / 2)
  · refine ⟨((lo + hi) / 2, hi), if_pos heq, ⟨hslice.mp heq, hlt, hle⟩, ?_⟩
    show hi - (lo + hi) / 2 < hi - lo
    omega
  · have hdiff : commonLen t0 t1 < (lo + hi) / 2 := not_le.mp (mt hslice.mpr heq)
    refine ⟨(lo, (lo + hi) / 2), if_neg heq, ⟨hlo, hdiff, hmid.2.le.trans hle⟩, ?_⟩
    show (lo + hi) / 2 - lo < hi - lo
    omega

/-- **The inner loop** closes its window around the first difference. -/
theorem bisect_ok {turns lo hi : ℕ} (h : BisectInv t0 t1 (lo, hi)) (hturns : hi - lo ≤ turns) :
    ∃ window, run bisectCond (bisectBody t0 t1) MatchError.outOfTurns turns (lo, hi) = .ok window ∧
      window.1 = commonLen t0 t1 := by
  have hrank : ∀ v : ℕ × ℕ, BisectInv t0 t1 v → bisectCond v = true → 0 < v.2 - v.1 := by
    intro v _ hcond
    exact Nat.zero_lt_one.trans (of_decide_eq_true hcond)
  have hexit : ∀ v : ℕ × ℕ, BisectInv t0 t1 v → bisectCond v = false → v.1 = commonLen t0 t1 := by
    rintro v ⟨hlo, hlt, -⟩ hcond
    have hnarrow : ¬ 1 < v.2 - v.1 := of_decide_eq_false hcond
    omega
  apply run_ok MatchError.outOfTurns hrank _ hexit h hturns
  intro v hv hcond
  left
  exact bisectBody_ok hv hcond

/-- What the outer loop has compared is equal. -/
structure GallopInv (t0 t1 : List ℤ) (v : GallopVars) : Prop where
  lo_le : v.lo ≤ commonLen t0 t1
  step_pos : 0 < v.step
  matched : v.matchedTokens = min t0.length t1.length

theorem gallopBody_ok {turns : ℕ} {v : GallopVars} (hv : GallopInv t0 t1 v)
    (hcond : gallopCond (min t0.length t1.length) v = true)
    (hturns : min t0.length t1.length ≤ turns) :
    (∃ v', gallopBody t0 t1 (min t0.length t1.length) turns v = .ok (v', false) ∧
      GallopInv t0 t1 v' ∧
        min t0.length t1.length - v'.lo < min t0.length t1.length - v.lo) ∨
    ∃ v', gallopBody t0 t1 (min t0.length t1.length) turns v = .ok (v', true) ∧
      v'.matchedTokens = commonLen t0 t1 := by
  obtain ⟨hlo, hstep, hmatched⟩ := hv
  have hmore : v.lo < min t0.length t1.length := of_decide_eq_true hcond
  unfold gallopBody
  dsimp only
  generalize hhi : (if v.lo + v.step < min t0.length t1.length then v.lo + v.step
    else min t0.length t1.length) = hi
  have hbounds : v.lo < hi ∧ hi ≤ min t0.length t1.length := by
    split at hhi <;> omega
  have hslice := slice_eq_iff_le hbounds.1.le hbounds.2 hlo
  by_cases heq : PrefixSearch.slice t0 v.lo hi = PrefixSearch.slice t1 v.lo hi
  · left
    rw [if_neg (not_not.mpr heq)]
    refine ⟨_, rfl, ⟨hslice.mp heq, Nat.mul_pos hstep two_pos, hmatched⟩, ?_⟩
    show min t0.length t1.length - hi < min t0.length t1.length - v.lo
    omega
  · right
    have hdiff : commonLen t0 t1 < hi := not_le.mp (mt hslice.mpr heq)
    obtain ⟨window, hwindow, hfound⟩ :=
      bisect_ok ⟨hlo, hdiff, hbounds.2⟩ ((Nat.sub_le hi v.lo).trans (hbounds.2.trans hturns))
    rw [if_pos heq, hwindow]
    exact ⟨_, rfl, hfound⟩

/-- **The loops end with the longest common prefix**, after at most as many turns as the shorter
list has tokens. -/
theorem searchWhile_eq {turns : ℕ} (hturns : min t0.length t1.length ≤ turns) :
    searchWhile t0 t1 turns = .ok (commonLen t0 t1) := by
  have hle : commonLen t0 t1 ≤ min t0.length t1.length :=
    le_min (commonLen_le_left t0 t1) (commonLen_le_right t0 t1)
  have hrank : ∀ v : GallopVars, GallopInv t0 t1 v →
      gallopCond (min t0.length t1.length) v = true → 0 < min t0.length t1.length - v.lo := by
    intro v _ hcond
    exact Nat.sub_pos_of_lt (of_decide_eq_true hcond)
  have hexit : ∀ v : GallopVars, GallopInv t0 t1 v →
      gallopCond (min t0.length t1.length) v = false → v.matchedTokens = commonLen t0 t1 := by
    rintro v ⟨hlo, -, hmatched⟩ hcond
    have hend : ¬ v.lo < min t0.length t1.length := of_decide_eq_false hcond
    rw [hmatched]
    omega
  have hstart : GallopInv t0 t1 ⟨0, 1, min t0.length t1.length⟩ :=
    ⟨Nat.zero_le _, Nat.one_pos, rfl⟩
  obtain ⟨v, hrun, hv⟩ := run_ok MatchError.outOfTurns hrank
    (fun v hinv hcond => gallopBody_ok hinv hcond hturns) hexit hstart
    ((Nat.sub_le _ _).trans hturns)
  unfold searchWhile
  dsimp only
  rw [hrun]
  exact congrArg Except.ok hv

end Search

section Match
variable {k other : RadixKey}

/-- **Enough turns give the result of `matchLen`**, for every pair of keys. -/
theorem matchWhile_eq_matchLen {turns : ℕ} (pageSize : ℕ)
    (hturns : min k.tokenIds.length other.tokenIds.length ≤ turns) :
    k.matchWhile other pageSize turns = (k.matchLen other pageSize).mapError .raised := by
  have hgallop : gallop k.tokenIds other.tokenIds (min k.tokenIds.length other.tokenIds.length)
      (min k.tokenIds.length other.tokenIds.length) 0 1 = commonLen k.tokenIds other.tokenIds :=
    gallop_eq one_pos (Nat.zero_le _) (Nat.sub_le _ _)
  unfold matchWhile matchLen
  cases k.checkCompatible other with
  | error e => rfl
  | ok u =>
    simp only [searchWhile_eq hturns, hgallop]
    show (if k.isBigram = true then _ else _) =
      Except.mapError _ (if k.isBigram = true then _ else _)
    cases k.isBigram with
    | true => rfl
    | false =>
      by_cases h : pageSize = 1
      · simp only [Bool.false_eq_true, if_false, h, if_true]
        rfl
      · simp only [Bool.false_eq_true, if_false, h]
        rfl

/-- **The tokens shared**, in units of the first key and within the lengths of both, in whole
pages; no mode is asked for. -/
theorem matchLen_tokens (hns : k.namespaceOf = other.namespaceOf) {pageSize : ℕ}
    (hpage : 0 < pageSize) :
    k.matchLen other pageSize = .ok (min (min (commonLen k.tokenIds other.tokenIds -
      if k.isBigram then 1 else 0) k.len) other.len / pageSize * pageSize) := by
  have hgallop : gallop k.tokenIds other.tokenIds (min k.tokenIds.length other.tokenIds.length)
      (min k.tokenIds.length other.tokenIds.length) 0 1 = commonLen k.tokenIds other.tokenIds :=
    gallop_eq one_pos (Nat.zero_le _) (Nat.sub_le _ _)
  simp only [matchLen, checkCompatible_ok hns, hgallop]
  show (if k.isBigram = true then _ else _) = _
  cases k.isBigram with
  | true =>
    simp only [if_true, Nat.zero_max]
    by_cases h : 1 < pageSize
    · rw [if_pos h]
      rfl
    · obtain rfl : pageSize = 1 := by omega
      rw [if_neg h, Nat.div_one, Nat.mul_one]
      rfl
  | false =>
    simp only [Bool.false_eq_true, if_false, Nat.sub_zero]
    by_cases h : pageSize = 1
    · subst h
      rw [if_pos rfl, Nat.div_one, Nat.mul_one]
      rfl
    · rw [if_neg h]
      rfl

/-- Keys of two namespaces are not compared. -/
theorem checkCompatible_error (hns : k.namespaceOf ≠ other.namespaceOf) :
    ∃ e, k.checkCompatible other = .error e := by
  unfold checkCompatible
  by_cases hextra : k.extraKey = other.extraKey
  · have hsalt : k.cacheSalt ≠ other.cacheSalt := fun h => hns (Prod.ext hextra h)
    rw [if_neg (not_not.mpr hextra), if_pos hsalt]
    exact ⟨_, rfl⟩
  · rw [if_pos hextra]
    exact ⟨_, rfl⟩

/-- **`match` ends for every pair of keys**, within as many turns of its loops as the shorter one
has tokens: with an error if their namespaces differ, else with the longest common prefix in whole
pages.  Of two modes it counts the common tokens. -/
theorem matchWhile_spec (k other : RadixKey) {pageSize turns : ℕ} (hpage : 0 < pageSize)
    (hturns : min k.tokenIds.length other.tokenIds.length ≤ turns) :
    (k.namespaceOf ≠ other.namespaceOf →
      ∃ e, k.matchWhile other pageSize turns = .error (.raised e)) ∧
    (k.namespaceOf = other.namespaceOf → k.isBigram = other.isBigram →
      k.matchWhile other pageSize turns =
        .ok (commonLen k.units other.units / pageSize * pageSize)) ∧
    (k.namespaceOf = other.namespaceOf → k.matchWhile other pageSize turns =
      .ok (min (min (commonLen k.tokenIds other.tokenIds - if k.isBigram then 1 else 0) k.len)
        other.len / pageSize * pageSize)) := by
  refine ⟨fun hns => ?_, fun hns hmode => ?_, fun hns => ?_⟩
  · obtain ⟨e, he⟩ := checkCompatible_error hns
    refine ⟨e, ?_⟩
    unfold matchWhile
    rw [he]
    rfl
  · rw [matchWhile_eq_matchLen pageSize hturns, matchLen_eq hns hmode hpage]
    rfl
  · rw [matchWhile_eq_matchLen pageSize hturns, matchLen_tokens hns hpage]
    rfl

/-- Two bigram keys that share three tokens, one of them cut by its limit, in pages of two. -/
theorem matchWhile_spec_bigrams :
    (matchWhile ⟨[5, 6, 7, 8, 9], none, none, true, some 4, nofun⟩
      ⟨[5, 6, 7, 1], none, none, true, none, nofun⟩ 2 4) = .ok 2 := by
  have h := (matchWhile_spec ⟨[5, 6, 7, 8, 9], none, none, true, some 4, nofun⟩
    ⟨[5, 6, 7, 1], none, none, true, none, nofun⟩ two_pos (le_refl 4)).2.1 rfl rfl
  exact h

end Match
end RadixKey
end LatentSpec
