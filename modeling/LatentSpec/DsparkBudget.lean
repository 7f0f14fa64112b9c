import Mathlib.Tactic.FinCases
import LatentSpec.DsparkSps
import LatentSpec.DsparkTopk

/-! # The budget of a DSpark step

`compute_verify_token_budget` prices every number of extra tokens: the drafts that survive,
summed from the likeliest on, times the steps per second of the batch they make.  The budget is
the number with the best price.  It decides how many tokens a step may add and not which, and
the schedule is written separately.

The two fit together (`budget_maximises`): the schedule of that budget keeps the drafts that the
prefix sum counted, and no other lengths have a better price, whatever their number of tokens.
-/
namespace LatentSpec
open TiledStores RankSelection

variable {K : Type} [Field K] [LinearOrder K]

/-- `Union[SpsCostTable, SpsAdditiveCostTable]` -/
inductive SpsTable (K : Type) [LT K] [Zero K] where
  | cost (table : SpsCostTable K)
  | additive (table : SpsAdditiveCostTable K)

/-- `VerifyBudgetDecision` -/
structure VerifyBudgetDecision (K : Type) where
  budget : ℕ
  predictedStepSeconds : Option K
  predictedTheta : Option K

/-- `torch.argmax`, the first index of the largest element. -/
def torchArgmax (xs : List K) : ℕ := ((List.range xs.length).argmax (xs.getD · 0)).getD 0

/-- `torch.cumsum` -/
def cumsum (xs : List K) : List K := (List.range xs.length).map fun i => (xs.take (i + 1)).sum

/-- The survival probabilities that the budget may be spent on, in the order of the matrix. -/
def budgetCandidates (cfg : DSparkScheduleConfig K) (numRequests width : ℕ)
    (survival : ℕ → ℕ → K) : List K :=
  ((List.range numRequests).flatMap fun r =>
    (List.range (min cfg.resolvedMaxVerifyLen width)).map (survival r)).filter
      (cfg.survivalEps ≤ ·)

/-- `compute_verify_token_budget` -/
def computeVerifyTokenBudget (table : SpsTable K) (cfg : DSparkScheduleConfig K)
    (numRequests width : ℕ) (survival : ℕ → ℕ → K) : VerifyBudgetDecision K :=
  let candidates := budgetCandidates cfg numRequests width survival
  let candidatesSorted := candidates.mergeSort fun a b => decide (b ≤ a)
  let prefixSum := cumsum candidatesSorted
  let tauStar := (0 :: prefixSum).map ((numRequests : K) + ·)
  match table with
  | .additive table =>
    let stepTime := additiveStepTimeTensor table numRequests tauStar.length
    let theta := List.zipWith (· / ·) tauStar stepTime
    let idx := torchArgmax theta
    { budget := idx
      predictedStepSeconds := stepTime[idx]?
      predictedTheta := theta[idx]? }
  | .cost table =>
    let batchTokens := (List.range tauStar.length).map fun i => ((numRequests + i : ℕ) : ℤ)
    let sps := lookupSpsTensor table batchTokens
    let theta := List.zipWith (· * ·) tauStar sps
    let idx := torchArgmax theta
    { budget := idx
      predictedStepSeconds := sps[idx]?.bind fun s => if 0 < s then some (1 / s) else none
      predictedTheta := theta[idx]? }

/-- The candidates of a survival matrix. -/
def survivalWindow (cfg : DSparkScheduleConfig K) (bs width : ℕ) (survival : ℕ → ℕ → K) :
    TopkWindow K where
  numRequests := bs
  cols := min cfg.resolvedMaxVerifyLen width
  survival := survival
  survivalEps := cfg.survivalEps

/-- `schedule_verify_lens_topk_from_survival` -/
def scheduleVerifyLensTopkFromSurvival (cfg : DSparkScheduleConfig K) (bs width : ℕ)
    (survival : ℕ → ℕ → K) (budget : ℕ) : List ℕ :=
  (List.range bs).map fun r =>
    clampVerifyLen cfg ((survivalWindow cfg bs width survival).selectedExtra budget r)

namespace SpsTable

/-- What the table makes of `tau` tokens accepted in a step of `numReqs + budget` tokens. -/
def theta (table : SpsTable K) (numReqs : ℕ) (tau : K) (budget : ℕ) : K :=
  match table with
  | .cost table => tau * table.lookup (numReqs + budget : ℕ)
  | .additive table => tau / table.stepTime numReqs budget

/-- Rates are not negative, and step times are positive. -/
def Priced (table : SpsTable K) : Prop :=
  match table with
  | .cost table => ∀ s ∈ table.sampleStepsPerSec, 0 ≤ s
  | .additive table => ∀ numReqs budget, 0 < table.stepTime numReqs budget

end SpsTable

/-! ### The prices of a step -/

omit [LinearOrder K] in
theorem zero_cons_cumsum (xs : List K) :
    0 :: cumsum xs = (List.range (xs.length + 1)).map fun k => (xs.take k).sum := by
  rw [List.range_succ_eq_map, List.map_cons, List.map_map]
  rfl

theorem torchArgmax_spec {xs : List K} (h : xs ≠ []) :
    torchArgmax xs < xs.length ∧ ∀ i < xs.length, xs.getD i 0 ≤ xs.getD (torchArgmax xs) 0 := by
  have hne : (List.range xs.length).argmax (xs.getD · 0) ≠ none := by
    rw [Ne, List.argmax_eq_none]
    simpa using h
  obtain ⟨m, hm⟩ := Option.ne_none_iff_exists'.mp hne
  have hidx : torchArgmax xs = m := by rw [torchArgmax, hm, Option.getD_some]
  rw [hidx]
  exact ⟨List.mem_range.mp (List.argmax_mem hm),
    fun i hi => List.le_of_mem_argmax (List.mem_range.mpr hi) hm⟩

/-- The likeliest candidates first. -/
def sortedCandidates (cfg : DSparkScheduleConfig K) (numRequests width : ℕ)
    (survival : ℕ → ℕ → K) : List K :=
  (budgetCandidates cfg numRequests width survival).mergeSort fun a b => decide (b ≤ a)

/-- The price of the first `k` candidates. -/
def price (table : SpsTable K) (cfg : DSparkScheduleConfig K) (numRequests width : ℕ)
    (survival : ℕ → ℕ → K) (k : ℕ) : K :=
  table.theta numRequests
    (numRequests + ((sortedCandidates cfg numRequests width survival).take k).sum) k

section
variable [IsStrictOrderedRing K] (table : SpsTable K) (cfg : DSparkScheduleConfig K)
  (numRequests width : ℕ) (survival : ℕ → ℕ → K)

/-- Either table is evaluated at every number of candidates. -/
theorem computeVerifyTokenBudget_eq :
    let theta := (List.range ((sortedCandidates cfg numRequests width survival).length + 1)).map
      (price table cfg numRequests width survival)
    (computeVerifyTokenBudget table cfg numRequests width survival).budget = torchArgmax theta ∧
      (computeVerifyTokenBudget table cfg numRequests width survival).predictedTheta =
        theta[torchArgmax theta]? := by
  intro theta
  cases table with
  | cost table =>
    have htheta : theta = List.zipWith (· * ·)
        ((0 :: cumsum (sortedCandidates cfg numRequests width survival)).map
          ((numRequests : K) + ·))
        (lookupSpsTensor table ((List.range ((0 :: cumsum (sortedCandidates cfg numRequests width
          survival)).map ((numRequests : K) + ·)).length).map
            fun i => ((numRequests + i : ℕ) : ℤ))) := by
      rw [lookupSpsTensor_eq, zero_cons_cumsum, List.length_map, List.length_map, List.length_range,
        List.map_map, List.map_map, List.zipWith_map, List.zipWith_self]
      rfl
    rw [htheta]
    exact ⟨rfl, rfl⟩
  | additive table =>
    have htheta : theta = List.zipWith (· / ·)
        ((0 :: cumsum (sortedCandidates cfg numRequests width survival)).map
          ((numRequests : K) + ·))
        (additiveStepTimeTensor table numRequests ((0 :: cumsum (sortedCandidates cfg numRequests
          width survival)).map ((numRequests : K) + ·)).length) := by
      rw [additiveStepTimeTensor_eq, zero_cons_cumsum, List.length_map, List.length_map,
        List.length_range, List.map_map, List.zipWith_map, List.zipWith_self]
      rfl
    rw [htheta]
    exact ⟨rfl, rfl⟩

/-- **The budget is the number of candidates with the best price**, and the prediction is that
price. -/
theorem computeVerifyTokenBudget_spec :
    (computeVerifyTokenBudget table cfg numRequests width survival).budget ≤
        (sortedCandidates cfg numRequests width survival).length ∧
      (computeVerifyTokenBudget table cfg numRequests width survival).predictedTheta =
        some (price table cfg numRequests width survival
          (computeVerifyTokenBudget table cfg numRequests width survival).budget) ∧
      ∀ k ≤ (sortedCandidates cfg numRequests width survival).length,
        price table cfg numRequests width survival k ≤ price table cfg numRequests width survival
          (computeVerifyTokenBudget table cfg numRequests width survival).budget := by
  obtain ⟨hbudget, hpredicted⟩ := computeVerifyTokenBudget_eq table cfg numRequests width survival
  generalize htheta :
      (List.range ((sortedCandidates cfg numRequests width survival).length + 1)).map
      (price table cfg numRequests width survival) = theta at hbudget hpredicted
  have hlen : theta.length = (sortedCandidates cfg numRequests width survival).length + 1 := by
    rw [← htheta, List.length_map, List.length_range]
  have hget :
      ∀ k < theta.length, theta[k]? = some (price table cfg numRequests width survival k) := by
    intro k hk
    rw [← htheta, List.getElem?_map, List.getElem?_range (by omega)]
    rfl
  have hne : theta ≠ [] := List.ne_nil_of_length_eq_add_one hlen
  obtain ⟨hlt, hmax⟩ := torchArgmax_spec hne
  rw [hbudget, hpredicted, hget _ hlt]
  refine ⟨by omega, rfl, fun k hk => ?_⟩
  have hle := hmax k (by omega)
  rwa [List.getD_eq_getElem?_getD, List.getD_eq_getElem?_getD, hget k (by omega), hget _ hlt,
    Option.getD_some, Option.getD_some] at hle

end

/-! ### The schedule of the budget -/

section
variable [IsStrictOrderedRing K] {table : SpsTable K} {cfg : DSparkScheduleConfig K}
  {numRequests budget : ℕ} {survival : ℕ → ℕ → K}

/-- Every row of the survival matrix falls, and no entry is negative. -/
structure IsSurvival (numRequests width : ℕ) (survival : ℕ → ℕ → K) : Prop where
  nonneg : ∀ r < numRequests, ∀ p < width, 0 ≤ survival r p
  mono : ∀ r < numRequests, ∀ p q, p ≤ q → q < width → survival r q ≤ survival r p

omit [IsStrictOrderedRing K] in
theorem IsSurvival.falling {width : ℕ} (h : IsSurvival numRequests width survival) :
    (survivalWindow cfg numRequests width survival).Falling where
  mono := fun r hr p q hpq hq => h.mono r hr p q hpq (hq.trans_le (Nat.min_le_right _ _))
  nonneg := fun r hr p hp => h.nonneg r hr p (hp.trans_le (Nat.min_le_right _ _))

omit [Field K] [IsStrictOrderedRing K] in
/-- The candidates of the budget are those of the schedule. -/
theorem budgetCandidates_eq (width : ℕ) :
    budgetCandidates cfg numRequests width survival =
      (survivalWindow cfg numRequests width survival).validCandidates.map
        (survivalWindow cfg numRequests width survival).weight := by
  have hflat : ((List.range numRequests).flatMap fun r =>
        (List.range (min cfg.resolvedMaxVerifyLen width)).map (survival r)) =
      (List.range (numRequests * min cfg.resolvedMaxVerifyLen width)).map
        (survivalWindow cfg numRequests width survival).weight := by
    rw [← flatMap_tiles, List.map_flatMap]
    refine List.flatMap_congr fun r _ => ?_
    rw [List.map_map]
    refine List.map_congr_left fun p hp => ?_
    have hp := List.mem_range.mp hp
    exact (congrArg₂ survival (block_div hp) (block_mod hp)).symm
  rw [budgetCandidates, hflat, List.filter_map]
  rfl

variable {width : ℕ}

omit [Field K] [IsStrictOrderedRing K] in
theorem perm_sortedCandidates :
    (sortedCandidates cfg numRequests width survival).Perm
      ((survivalWindow cfg numRequests width survival).validCandidates.map
        (survivalWindow cfg numRequests width survival).weight) := by
  rw [← budgetCandidates_eq]
  exact List.mergeSort_perm _ _

omit [Field K] [IsStrictOrderedRing K] in
theorem length_sortedCandidates :
    (sortedCandidates cfg numRequests width survival).length =
      (survivalWindow cfg numRequests width survival).validCandidates.length := by
  rw [perm_sortedCandidates.length_eq, List.length_map]

omit [Field K] [IsStrictOrderedRing K] in
theorem pairwise_sortedCandidates :
    (sortedCandidates cfg numRequests width survival).Pairwise (· ≥ ·) := by
  have htrans : ∀ a b c : K, decide (b ≤ a) → decide (c ≤ b) → decide (c ≤ a) := by
    intro a b c hab hbc
    exact decide_eq_true ((of_decide_eq_true hbc).trans (of_decide_eq_true hab))
  have htotal : ∀ a b : K, decide (b ≤ a) || decide (a ≤ b) := by
    intro a b
    simpa using le_total b a
  have hsorted := List.pairwise_mergeSort htrans htotal
    (budgetCandidates cfg numRequests width survival)
  exact hsorted.imp fun hab => by simpa using hab

omit [IsStrictOrderedRing K] in
/-- **The prefix sum of `k` candidates is what the schedule of budget `k` keeps.** -/
theorem sum_take_sortedCandidates (h : IsSurvival numRequests width survival) (k : ℕ) :
    ((sortedCandidates cfg numRequests width survival).take k).sum =
      (survivalWindow cfg numRequests width survival).gain
        ((survivalWindow cfg numRequests width survival).extra k) := by
  rw [h.falling.gain_extra]
  have hperm :
      ((survivalWindow cfg numRequests width survival).valueIndependentDescendingOrder.filter
      (survivalWindow cfg numRequests width survival).valid).Perm
        (survivalWindow cfg numRequests width survival).validCandidates :=
    (TopkWindow.perm_order _).filter _
  exact sum_take (TopkWindow.strictOrder_valid _)
    (fun a ha b hb hab => TopkWindow.weight_le_of_before ha hb hab) hperm
    ((TopkWindow.pairwise_order _).filter _) perm_sortedCandidates pairwise_sortedCandidates k

omit [Field K] [IsStrictOrderedRing K] in
/-- With a floor of one token and the whole window, a budget's length is its selected drafts and
the anchor. -/
theorem fromSurvival_plain (hmin : cfg.minVerifyLen = 1)
    (hmax : cfg.resolvedMaxVerifyLen = cfg.gamma + 1) {r : ℕ} (hr : r < numRequests) :
    (scheduleVerifyLensTopkFromSurvival cfg numRequests cfg.gamma survival budget).getD r 0 =
      1 + (survivalWindow cfg numRequests cfg.gamma survival).extra budget r := by
  have hcols : (survivalWindow cfg numRequests cfg.gamma survival).extra budget r ≤
      min cfg.resolvedMaxVerifyLen cfg.gamma :=
    TopkWindow.extra_le_cols (w := survivalWindow cfg numRequests cfg.gamma survival) hr
  have hget :
      (scheduleVerifyLensTopkFromSurvival cfg numRequests cfg.gamma survival budget).getD r 0 =
      clampVerifyLen cfg ((survivalWindow cfg numRequests cfg.gamma survival).extra budget r) := by
    simp [scheduleVerifyLensTopkFromSurvival, hr, TopkWindow.selectedExtra_eq]
  rw [hget, clampVerifyLen, DSparkScheduleConfig.lowerBound, hmin, hmax]
  omega

/-- Lengths from one token to the whole window that verify only drafts that survive. -/
def VerifiesSurvivors (cfg : DSparkScheduleConfig K) (numRequests : ℕ) (survival : ℕ → ℕ → K)
    (len : ℕ → ℕ) : Prop :=
  ∀ r < numRequests, 1 ≤ len r ∧ len r ≤ cfg.gamma + 1 ∧
    ∀ p < len r - 1, cfg.survivalEps ≤ survival r p

/-- The price of a step with these lengths. -/
def stepTheta (table : SpsTable K) (numRequests : ℕ) (survival : ℕ → ℕ → K) (len : ℕ → ℕ) : K :=
  table.theta numRequests (numRequests + verifyGain numRequests survival len)
    (∑ r ∈ Finset.range numRequests, (len r - 1))

/-- A larger gain has no lower price. -/
theorem SpsTable.Priced.theta_mono (h : table.Priced) {numReqs k : ℕ} {tau tau' : K}
    (hle : tau ≤ tau') : table.theta numReqs tau k ≤ table.theta numReqs tau' k := by
  cases table with
  | cost table =>
    refine mul_le_mul_of_nonneg_right hle ?_
    rw [SpsCostTable.lookup, List.getD_eq_getElem?_getD]
    cases hget : table.sampleStepsPerSec[floorProbeIndex table.sampleBatchTokens
        (numReqs + k : ℕ)]? with
    | none => exact le_rfl
    | some s => exact h s (List.mem_of_getElem? hget)
  | additive table => exact div_le_div_of_nonneg_right hle (h numReqs k).le

/-- **The budget and the schedule maximise the price together**, and the price is the table's at
every number of tokens. -/
theorem budget_maximises (hpriced : table.Priced) (hmin : cfg.minVerifyLen = 1)
    (hmax : cfg.resolvedMaxVerifyLen = cfg.gamma + 1)
    (hsurvival : IsSurvival numRequests cfg.gamma survival) :
    let decision := computeVerifyTokenBudget table cfg numRequests cfg.gamma survival
    let len := fun r =>
      (scheduleVerifyLensTopkFromSurvival cfg numRequests cfg.gamma survival
        decision.budget).getD r 0
    (VerifiesSurvivors cfg numRequests survival len ∧
      decision.predictedTheta = some (stepTheta table numRequests survival len) ∧
      ∀ len', VerifiesSurvivors cfg numRequests survival len' →
        stepTheta table numRequests survival len' ≤ stepTheta table numRequests survival len) ∧
    (∀ (table : SpsCostTable K) (batchTokens : List ℤ),
      lookupSpsTensor table batchTokens = batchTokens.map table.lookup) ∧
    ∀ (table : SpsAdditiveCostTable K) (numReqs numBudgets : ℕ),
      additiveStepTimeTensor table numReqs numBudgets =
        (List.range numBudgets).map (table.stepTime numReqs) := by
  intro decision len
  set w := survivalWindow cfg numRequests cfg.gamma survival with hw
  have hfalling : w.Falling := hsurvival.falling
  obtain ⟨hle, hpredicted, hbest⟩ :=
    computeVerifyTokenBudget_spec table cfg numRequests cfg.gamma survival
  have hlen : ∀ r < numRequests, len r = 1 + w.extra decision.budget r :=
    fun r hr => fromSurvival_plain hmin hmax hr
  have hadmits : w.Admits decision.budget (w.extra decision.budget) := hfalling.admits_extra
  have hgain : verifyGain numRequests survival len = w.gain (w.extra decision.budget) := by
    refine Finset.sum_congr rfl fun r hr => ?_
    rw [hlen r (Finset.mem_range.mp hr), Nat.add_sub_cancel_left]
    rfl
  have hcount : ∑ r ∈ Finset.range numRequests, (len r - 1) = decision.budget := by
    calc ∑ r ∈ Finset.range numRequests, (len r - 1)
        = ∑ r ∈ Finset.range numRequests, w.extra decision.budget r :=
          Finset.sum_congr rfl fun r hr => by
            rw [hlen r (Finset.mem_range.mp hr), Nat.add_sub_cancel_left]
      _ = min decision.budget w.validCandidates.length := hfalling.sum_extra _
      _ = decision.budget := Nat.min_eq_left (hle.trans_eq length_sortedCandidates)
  have hprice : ∀ k, price table cfg numRequests cfg.gamma survival k =
      table.theta numRequests (numRequests + w.gain (w.extra k)) k := by
    intro k
    rw [price, sum_take_sortedCandidates hsurvival]
  refine ⟨⟨fun r hr => ⟨?_, ?_, fun p hp => ?_⟩, ?_, fun len' hlen' => ?_⟩, lookupSpsTensor_eq,
    additiveStepTimeTensor_eq⟩
  · rw [hlen r hr]
    omega
  · have hcols : w.extra decision.budget r ≤ min cfg.resolvedMaxVerifyLen cfg.gamma :=
      hadmits.le_cols r hr
    rw [hlen r hr]
    omega
  · rw [hlen r hr, Nat.add_sub_cancel_left] at hp
    exact hadmits.survives r hr p hp
  · rw [stepTheta, hgain, hcount, hpredicted, hprice]
  · -- the number of drafts that `len'` verifies is one of the budgets that were priced
    have hother : w.Admits (∑ r ∈ Finset.range numRequests, (len' r - 1)) fun r => len' r - 1 := by
      refine ⟨fun r hr => ?_, fun r hr => (hlen' r hr).2.2, le_refl _⟩
      have hwidth := (hlen' r hr).2.1
      change len' r - 1 ≤ min cfg.resolvedMaxVerifyLen cfg.gamma
      omega
    have hfew : ∑ r ∈ Finset.range numRequests, (len' r - 1) ≤
        (sortedCandidates cfg numRequests cfg.gamma survival).length := by
      rw [length_sortedCandidates]
      calc ∑ r ∈ Finset.range numRequests, (len' r - 1)
          = (w.firsts fun r => len' r - 1).card := (TopkWindow.card_firsts hother.le_cols).symm
        _ ≤ w.validCandidates.toFinset.card :=
            Finset.card_le_card fun c hc => List.mem_toFinset.mpr (hother.firsts_subset hc)
        _ ≤ w.validCandidates.length := List.toFinset_card_le _
    calc stepTheta table numRequests survival len'
        ≤ price table cfg numRequests cfg.gamma survival
            (∑ r ∈ Finset.range numRequests, (len' r - 1)) := by
          rw [hprice]
          exact hpriced.theta_mono (add_le_add_right (hother.gain_le hfalling) _)
      _ ≤ price table cfg numRequests cfg.gamma survival decision.budget := hbest _ hfew
      _ = stepTheta table numRequests survival len := by
          rw [stepTheta, hgain, hcount, hprice]

end

/-- Two steps a second below four tokens, and one from there on. -/
def cliffTable : SpsCostTable ℚ where
  sampleBatchTokens := [1, 4]
  sampleStepsPerSec := [2, 1]
  maxBatchTokens := 8
  probes := by decide
  increasing := by decide
  equal_length := rfl
  probe_le_max := by decide

theorem budget_maximises_cliff :
    ∃ tau, (computeVerifyTokenBudget (.cost cliffTable) plainScheduleConfig 2 3
      fun _ p => (1 / 2) ^ (p + 1)).predictedTheta = some tau ∧
        ∀ len', VerifiesSurvivors plainScheduleConfig 2 (fun _ p => (1 / 2) ^ (p + 1)) len' →
          stepTheta (.cost cliffTable) 2 (fun _ p => (1 / 2) ^ (p + 1)) len' ≤ tau := by
  have hpriced : (SpsTable.cost cliffTable).Priced := by
    intro s hs
    fin_cases hs <;> norm_num
  have hsurvival : IsSurvival 2 plainScheduleConfig.gamma fun _ p => ((1 : ℚ) / 2) ^ (p + 1) :=
    ⟨fun _ _ _ _ => by positivity, fun _ _ _ _ hpq _ =>
      pow_le_pow_of_le_one (by norm_num) (by norm_num) (Nat.succ_le_succ hpq)⟩
  obtain ⟨⟨-, hpredicted, hbest⟩, -⟩ := budget_maximises hpriced rfl rfl hsurvival
  exact ⟨_, hpredicted, hbest⟩

end LatentSpec
