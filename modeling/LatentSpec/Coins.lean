import Mathlib.MeasureTheory.Measure.Lebesgue.Basic
import Mathlib.MeasureTheory.Measure.Real
import LatentSpec.LeadingRun

/-! # Independent uniform draws

A rejection test compares one uniform draw from `[0, 1)` with a threshold, and a
chain of tests reads one fresh draw per position until the first failure.  This
module gives the law of one draw (`coin`), of `n` independent draws (`coins`),
and of the length of the passing run of a chain (`coins_real_run`), also in the
form a program computes it (`coins_real_leadingRun`).

Every event below is a box, so its measure is a product and no measurability
argument is needed.
-/
namespace Coins
open MeasureTheory Set

/-- The law of one uniform draw from `[0, 1)`. -/
noncomputable def coin : Measure ℝ := volume.restrict (Ico 0 1)

instance : IsProbabilityMeasure coin :=
  ⟨by rw [coin, Measure.restrict_apply_univ, Real.volume_Ico]; simp⟩

/-- The measure of a set of draws is the length of its part inside `[0, 1)`. -/
theorem coin_real_of_inter {s : Set ℝ} {a b : ℝ} (hab : a ≤ b)
    (hs : s ∩ Ico 0 1 = Ico a b) : coin.real s = b - a := by
  rw [Measure.real, coin, Measure.restrict_apply' measurableSet_Ico, hs, Real.volume_Ico,
    ENNReal.toReal_ofReal (by linarith)]

/-- A draw falls below a threshold of `[0, 1]` with exactly that probability. -/
theorem coin_real_lt {a : ℝ} (h0 : 0 ≤ a) (h1 : a ≤ 1) : coin.real {u | u < a} = a := by
  rw [coin_real_of_inter (a := 0) (b := a) h0, sub_zero]
  ext u
  simp only [mem_inter_iff, mem_ofPred_eq, mem_Ico]
  constructor
  · rintro ⟨hlt, hge, -⟩
    exact ⟨hge, hlt⟩
  · rintro ⟨hge, hlt⟩
    exact ⟨hlt, hge, lt_of_lt_of_le hlt h1⟩

/-- The test `u * q < p` of a chain kernel passes with probability
`min 1 (p / q)`. -/
theorem coin_real_mul_lt {p q : ℝ} (hp : 0 ≤ p) (hq : 0 < q) :
    coin.real {u | u * q < p} = min 1 (p / q) := by
  have hdiv : 0 ≤ p / q := div_nonneg hp hq.le
  rw [coin_real_of_inter (a := 0) (b := min 1 (p / q)) (le_min zero_le_one hdiv), sub_zero]
  ext u
  simp only [mem_inter_iff, mem_ofPred_eq, mem_Ico, lt_min_iff, lt_div_iff₀ hq]
  tauto

/-! ### Single draws

The literals of a draw, such as `1 / 2`, and of a token of a short row, such as `(2 : Fin 3)`, carry
a proof about their number.  Under `open scoped Coins` it is one of these constants. -/

scoped instance atLeastTwoTwo : Nat.AtLeastTwo 2 := ⟨by decide⟩
scoped instance atLeastTwoTen : Nat.AtLeastTwo 10 := ⟨by decide⟩
scoped instance atLeastTwoHundredThousand : Nat.AtLeastTwo 100000 := ⟨by decide⟩

scoped instance neZeroTwo : NeZero 2 := ⟨by decide⟩
scoped instance neZeroThree : NeZero 3 := ⟨by decide⟩
scoped instance neZeroFour : NeZero 4 := ⟨by decide⟩

/-- The least draw. -/
noncomputable instance instInhabitedCoin : Inhabited (Ico (0 : ℝ) 1) := ⟨⟨0, le_rfl, zero_lt_one⟩⟩

/-- The draw in the middle. -/
noncomputable def half : Ico (0 : ℝ) 1 := ⟨1 / 2, by norm_num, by norm_num⟩

/-! ### Draws on the unit interval -/

/-- The law of one uniform draw, on `[0, 1)` itself. -/
noncomputable def unitLaw : Measure (Ico (0 : ℝ) 1) := Measure.comap Subtype.val volume

theorem unitLaw_preimage (s : Set ℝ) : unitLaw {u | (u : ℝ) ∈ s} = coin s := by
  have himage : Subtype.val '' {u : Ico (0 : ℝ) 1 | (u : ℝ) ∈ s} = s ∩ Ico 0 1 := by
    ext u
    simp [and_comm]
  rw [unitLaw, comap_subtype_coe_apply measurableSet_Ico, himage, coin,
    Measure.restrict_apply' measurableSet_Ico]

theorem unitLaw_real (s : Set ℝ) : unitLaw.real {u | (u : ℝ) ∈ s} = coin.real s := by
  rw [Measure.real, unitLaw_preimage, Measure.real]

instance : IsProbabilityMeasure unitLaw :=
  ⟨by simpa using (unitLaw_preimage univ).trans measure_univ⟩

/-! ### Several draws -/

/-- The law of `n` independent draws. -/
noncomputable def coins (n : ℕ) : Measure (Fin n → ℝ) := Measure.pi fun _ => coin

instance (n : ℕ) : IsProbabilityMeasure (coins n) := by
  unfold coins
  infer_instance

/-- Independence: a box has the product of its sides' measures. -/
theorem coins_real_box {n : ℕ} (s : Fin n → Set ℝ) :
    (coins n).real (univ.pi s) = ∏ i, coin.real (s i) := by
  simp only [Measure.real, coins, Measure.pi_pi, ENNReal.toReal_prod]

/-- The sides of the box on which a chain of tests passes exactly `k` times:
the first `k` draws pass, the next one fails, the rest are not looked at. -/
def runSide (A : ℕ → Set ℝ) (k i : ℕ) : Set ℝ :=
  if i < k then A i else if i = k then (A i)ᶜ else univ

theorem mem_pi_runSide {n k : ℕ} (A : ℕ → Set ℝ) (u : Fin n → ℝ) :
    u ∈ univ.pi (fun i : Fin n => runSide A k i) ↔
      (∀ i : Fin n, (i : ℕ) < k → u i ∈ A i) ∧ ∀ i : Fin n, (i : ℕ) = k → u i ∉ A i := by
  simp only [mem_univ_pi, runSide]
  constructor
  · intro h
    refine ⟨fun i hi => ?_, fun i hi => ?_⟩
    · have := h i
      rwa [if_pos hi] at this
    · have := h i
      rwa [if_neg (by omega), if_pos hi] at this
  · rintro ⟨hpass, hfail⟩ i
    rcases lt_trichotomy (i : ℕ) k with hi | hi | hi
    · rw [if_pos hi]; exact hpass i hi
    · rw [if_neg (by omega), if_pos hi]; exact hfail i hi
    · rw [if_neg (by omega), if_neg (by omega)]; exact mem_univ _

/-- **The law of the passing run.**  A chain of `n` tests passes exactly `k`
times with the product of the first `k` passing probabilities times, unless the
chain is exhausted, the probability that test `k` fails. -/
theorem coins_real_run {n k : ℕ} (hk : k ≤ n) (A : ℕ → Set ℝ) :
    (coins n).real {u | (∀ i : Fin n, (i : ℕ) < k → u i ∈ A i) ∧
        ∀ i : Fin n, (i : ℕ) = k → u i ∉ A i} =
      (∏ i ∈ Finset.range k, coin.real (A i)) * if k < n then coin.real (A k)ᶜ else 1 := by
  have hset : {u : Fin n → ℝ | (∀ i : Fin n, (i : ℕ) < k → u i ∈ A i) ∧
      ∀ i : Fin n, (i : ℕ) = k → u i ∉ A i} = univ.pi (fun i : Fin n => runSide A k i) := by
    ext u
    exact (mem_pi_runSide A u).symm
  rw [hset, coins_real_box, Fin.prod_univ_eq_prod_range (fun i => coin.real (runSide A k i)) n]
  have hpass : ∏ i ∈ Finset.range k, coin.real (runSide A k i) =
      ∏ i ∈ Finset.range k, coin.real (A i) := by
    refine Finset.prod_congr rfl fun i hi => ?_
    rw [runSide, if_pos (Finset.mem_range.mp hi)]
  have hrest : ∏ j ∈ Finset.range (n - k), coin.real (runSide A k (k + j)) =
      if k < n then coin.real (A k)ᶜ else 1 := by
    by_cases hlt : k < n
    · obtain ⟨d, hd⟩ : ∃ d, n - k = d + 1 := ⟨n - k - 1, by omega⟩
      rw [hd, Finset.prod_range_succ', if_pos hlt, Finset.prod_eq_one, one_mul]
      · simp [runSide]
      · intro j _
        rw [runSide, if_neg (by omega), if_neg (by omega), probReal_univ]
    · rw [show n - k = 0 by omega, Finset.prod_range_zero, if_neg hlt]
  rw [show n = k + (n - k) by omega, Finset.prod_range_add, hpass, hrest]
  simp only [show k + (n - k) = n by omega]

/-! ### The passing run as a program counts it -/

/-- The draws as a stream; what lies past the last one is never looked at. -/
def stream {n : ℕ} (u : Fin n → ℝ) (i : ℕ) : ℝ := if h : i < n then u ⟨i, h⟩ else 0

theorem stream_of_lt {n i : ℕ} (u : Fin n → ℝ) (h : i < n) : stream u i = u ⟨i, h⟩ := dif_pos h

section Tests
variable {n k j : ℕ} (pass : ℕ → ℝ → Bool)

/-- The draws that pass test `i` of a chain of `k` tests. -/
def testSet (k i : ℕ) : Set ℝ := if i < k then {v | pass i v = true} else ∅

/-- Counting `j` passing tests is an event on each draw separately. -/
theorem setOf_leadingRun (hk : k ≤ n) (hj : j ≤ k) :
    {u : Fin n → ℝ | LeadingRun.leadingRun ((List.range k).map fun i => pass i (stream u i)) = j} =
      {u | (∀ i : Fin n, (i : ℕ) < j → u i ∈ testSet pass k i) ∧
        ∀ i : Fin n, (i : ℕ) = j → u i ∉ testSet pass k i} := by
  have hget : ∀ (u : Fin n → ℝ) (i : Fin n),
      ((List.range k).map fun i => pass i (stream u i))[(i : ℕ)]? = some true ↔
        u i ∈ testSet pass k i := by
    intro u i
    rw [List.getElem?_map, testSet]
    rcases Nat.lt_or_ge (i : ℕ) k with hi | hi
    · rw [List.getElem?_range hi, if_pos hi, Option.map_some, stream_of_lt u i.2]
      simp
    · rw [List.getElem?_eq_none (List.length_range.le.trans hi), if_neg (not_lt.mpr hi)]
      simp
  ext u
  rw [mem_ofPred_eq, LeadingRun.leadingRun_eq_iff]
  constructor
  · rintro ⟨hpass, hfail⟩
    refine ⟨fun i hi => (hget u i).mp (hpass i hi), fun i hi => ?_⟩
    rw [← hget u i, hi]
    exact hfail
  · rintro ⟨hpass, hfail⟩
    refine ⟨fun i hi => (hget u ⟨i, by omega⟩).mpr (hpass ⟨i, by omega⟩ hi), fun h => ?_⟩
    have hjk : j < k := by
      have := (List.getElem?_eq_some_iff.mp h).1
      simpa using this
    exact hfail ⟨j, by omega⟩ rfl ((hget u ⟨j, by omega⟩).mp h)

variable (hmeas : ∀ i, MeasurableSet {v | pass i v = true})
include hmeas

theorem measurableSet_testSet (k i : ℕ) : MeasurableSet (testSet pass k i) := by
  unfold testSet
  split
  · exact hmeas i
  · exact MeasurableSet.empty

theorem measurableSet_leadingRun (hk : k ≤ n) (hj : j ≤ k) :
    MeasurableSet {u : Fin n → ℝ |
      LeadingRun.leadingRun ((List.range k).map fun i => pass i (stream u i)) = j} := by
  have hbox : {u : Fin n → ℝ |
      LeadingRun.leadingRun ((List.range k).map fun i => pass i (stream u i)) = j} =
      univ.pi (fun i : Fin n => runSide (testSet pass k) j i) := by
    rw [setOf_leadingRun pass hk hj]
    ext u
    exact (mem_pi_runSide _ u).symm
  rw [hbox]
  refine MeasurableSet.univ_pi fun i => ?_
  unfold runSide
  split
  · exact measurableSet_testSet pass hmeas k i
  · split
    · exact (measurableSet_testSet pass hmeas k i).compl
    · exact MeasurableSet.univ

/-- **The law of a counted passing run.** -/
theorem coins_real_leadingRun (hk : k ≤ n) (hj : j ≤ k) :
    (coins n).real {u |
        LeadingRun.leadingRun ((List.range k).map fun i => pass i (stream u i)) = j} =
      (∏ i ∈ Finset.range j, coin.real {v | pass i v = true}) *
        if j < k then 1 - coin.real {v | pass j v = true} else 1 := by
  rw [setOf_leadingRun pass hk hj, coins_real_run (hj.trans hk)]
  congr 1
  · refine Finset.prod_congr rfl fun i hi => ?_
    have := Finset.mem_range.mp hi
    rw [testSet, if_pos (by omega)]
  · rw [probReal_compl_eq_one_sub (measurableSet_testSet pass hmeas k j), testSet]
    rcases Nat.lt_or_ge j k with hlt | hge
    · rw [if_pos (by omega), if_pos hlt, if_pos hlt]
    · rw [if_neg (not_lt.mpr hge), if_neg (not_lt.mpr hge)]
      simp

end Tests

end Coins
