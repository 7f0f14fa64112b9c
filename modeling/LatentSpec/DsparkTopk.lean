import Mathlib.Algebra.Order.Field.Basic
import Mathlib.Tactic.IntervalCases
import Mathlib.Tactic.Linarith
import LatentSpec.DsparkSchedule

/-! # What the DSpark schedule maximises

The schedule spends its budget on the candidates that survive most likely.  Survival falls
along a row, so the candidates kept of a request are its first ones (`selected_iff`), and no
other choice of first drafts within the budget survives better (`Admits.gain_le`).

The pool of candidates is every position of the window, whatever the floor of a request is.
With a floor of one token and a cap of `gamma + 1` the drafts kept are the drafts verified and
the lengths are the best ones (`best_of_plain`).  A different floor or cap verifies other
drafts than the ones the budget was spent on, and there are confidences for which other
lengths are better (`not_best_of_cap`, `not_best_of_floor`).
-/
namespace LatentSpec
open TiledStores RankSelection

variable {K : Type} [LinearOrder K]

/-! ### The two selections -/

namespace TopkWindow
variable {w : TopkWindow K} {budget : ℕ}

theorem perm_order (w : TopkWindow K) :
    w.valueIndependentDescendingOrder.Perm (List.range w.numCandidates) :=
  ((List.mergeSort_perm _ _).trans (List.mergeSort_perm _ _)).trans (List.mergeSort_perm _ _)

/-- The three sorts put the candidates in the order the kernel counts by. -/
theorem pairwise_order (w : TopkWindow K) :
    w.valueIndependentDescendingOrder.Pairwise fun a b => w.before a b := by
  have hstart : (List.range w.numCandidates).Nodup := List.nodup_range
  have hdistinct : (List.range w.numCandidates).Pairwise fun a b => a ≠ b := hstart
  have hrequest := pairwise_mergeSort_stable (fun a b => decide (w.request a ≤ w.request b))
    hstart hdistinct (fun a b c => by simpa using le_trans) (fun a b => by simpa using le_total _ _)
  have hposition := pairwise_mergeSort_stable (fun a b => decide (w.position a ≤ w.position b))
    ((List.mergeSort_perm _ _).nodup_iff.mpr hstart) hrequest
    (fun a b c => by simpa using le_trans) (fun a b => by simpa using le_total _ _)
  have hprob := pairwise_mergeSort_stable (fun a b => decide (w.maskedProb b ≤ w.maskedProb a))
    ((List.mergeSort_perm _ _).nodup_iff.mpr ((List.mergeSort_perm _ _).nodup_iff.mpr hstart))
    hposition
    (fun a b c hab hbc => by simpa using le_trans (by simpa using hbc) (by simpa using hab))
    (fun a b => by simpa using le_total _ _)
  refine hprob.imp fun {a b} hab => ?_
  simp only [decide_eq_true_eq] at hab
  obtain ⟨hle, hlevel⟩ := hab
  simp only [before, Bool.or_eq_true, Bool.and_eq_true, decide_eq_true_eq]
  rcases hle.lt_or_eq with hlt | heq
  · exact .inl hlt
  · obtain ⟨hpos, hsame⟩ := hlevel heq.ge
    rcases hpos.lt_or_eq with hlt | hpos
    · exact .inr ⟨heq.symm, .inl hlt⟩
    · obtain ⟨hreq, hne⟩ := hsame hpos.ge
      refine .inr ⟨heq.symm, .inr ⟨hpos, lt_of_le_of_ne hreq fun hreq => hne hreq.ge ?_⟩⟩
      rw [← Nat.div_add_mod a w.cols, ← Nat.div_add_mod b w.cols]
      exact congrArg₂ (fun q m => w.cols * q + m) hreq hpos

/-- Candidate `c` survives at all and is among the first `budget`. -/
def selected (w : TopkWindow K) (budget c : ℕ) : Bool :=
  w.valid c && decide (rank w.before (List.range w.numCandidates) c < budget)

/-- How many candidates of a request are selected. -/
def extra (w : TopkWindow K) (budget r : ℕ) : ℕ :=
  (List.range w.numCandidates).countP fun c => decide (w.request c = r) && w.selected budget c

theorem selectedExtra_eq (w : TopkWindow K) (budget r : ℕ) :
    w.selectedExtra budget r = w.extra budget r := by
  unfold selectedExtra extra
  by_cases hb : 0 < budget
  · rw [if_pos hb, w.strictOrder.countP_take w.perm_order w.pairwise_order]
    refine List.countP_congr fun c hc => ?_
    have hrank := w.strictOrder.rank_lt_length hc
    rw [List.length_range] at hrank
    simp only [selected, Bool.and_eq_true, decide_eq_true_eq, lt_min_iff, hrank, and_true,
      and_assoc]
  · obtain rfl : budget = 0 := by omega
    rw [if_neg hb, List.countP_eq_zero.mpr]
    intro c _
    simp [selected]

theorem selectedExtraTriton_eq (w : TopkWindow K) (budget r : ℕ) :
    w.selectedExtraTriton budget r = w.extra budget r := by
  unfold selectedExtraTriton extra
  simp only [tiles_eq_range (show 0 < blockC by decide),
    tiles_eq_range (show 0 < blockCp by decide)]
  split_ifs with hpos
  · rfl
  · refine (List.countP_eq_zero.mpr fun c hc => ?_).symm
    have hlt := List.mem_range.mp hc
    have hb : budget = 0 := by omega
    simp [selected, hb]

/-- The candidates taken from the sorted list that survive are the selected ones. -/
theorem mem_take_order {c : ℕ} (hc : c < w.numCandidates) :
    c ∈ w.valueIndependentDescendingOrder.take (min budget w.numCandidates) ∧ w.valid c ↔
      w.selected budget c := by
  have hmem := List.mem_range.mpr hc
  have hrank := w.strictOrder.rank_lt_length hmem
  rw [List.length_range] at hrank
  rw [w.strictOrder.mem_take w.perm_order w.pairwise_order]
  simp only [selected, Bool.and_eq_true, decide_eq_true_eq, lt_min_iff, hmem, hrank, true_and,
    and_comm]

/-! ### The candidates kept of a request -/

omit [LinearOrder K] in
theorem request_block {r p : ℕ} (hp : p < w.cols) : w.request (r * w.cols + p) = r :=
  block_div hp

omit [LinearOrder K] in
theorem position_block {r p : ℕ} (hp : p < w.cols) : w.position (r * w.cols + p) = p :=
  block_mod hp

theorem valid_block {r p : ℕ} (hp : p < w.cols) :
    w.valid (r * w.cols + p) ↔ w.survivalEps ≤ w.survival r p := by
  rw [valid, request_block hp, position_block hp, decide_eq_true_iff]

omit [LinearOrder K] in
theorem exists_candidate {c : ℕ} (hc : c < w.numCandidates) :
    ∃ r < w.numRequests, ∃ p < w.cols, c = r * w.cols + p := exists_block hc

/-- What comes before a selected candidate is selected. -/
theorem selected_of_before {a b : ℕ} (ha : a < w.numCandidates) (hab : w.before a b)
    (hvalid : w.valid a) (hb : w.selected budget b) : w.selected budget a := by
  simp only [selected, Bool.and_eq_true, decide_eq_true_eq] at hb ⊢
  exact ⟨hvalid, (w.strictOrder.rank_lt_rank (List.mem_range.mpr ha) hab).trans hb.2⟩

theorem extra_eq {r : ℕ} (hr : r < w.numRequests) :
    w.extra budget r = (List.range w.cols).countP fun j => w.selected budget (r * w.cols + j) :=
  countP_row hr _

theorem extra_le_cols {r : ℕ} (hr : r < w.numRequests) : w.extra budget r ≤ w.cols := by
  rw [extra_eq hr]
  simpa using List.countP_le_length (l := List.range w.cols)
    (p := fun j => w.selected budget (r * w.cols + j))

theorem sum_extra_le (w : TopkWindow K) (budget : ℕ) :
    ∑ r ∈ Finset.range w.numRequests, w.extra budget r ≤ budget := by
  have hsum := w.sum_selectedExtra_le budget w.numRequests
  rw [show w.selectedExtra budget = w.extra budget from funext (w.selectedExtra_eq budget)] at hsum
  exact hsum

variable [Field K] [IsStrictOrderedRing K]

/-- Survival falls along every row of the window, and is never negative. -/
structure Falling (w : TopkWindow K) : Prop where
  mono : ∀ r < w.numRequests, ∀ p q, p ≤ q → q < w.cols → w.survival r q ≤ w.survival r p
  nonneg : ∀ r < w.numRequests, ∀ p < w.cols, 0 ≤ w.survival r p

namespace Falling
variable (h : w.Falling)
include h

omit [IsStrictOrderedRing K] in
/-- An earlier draft of a request is selected when a later one is. -/
theorem selected_mono {r p q : ℕ} (hr : r < w.numRequests) (hpq : p ≤ q) (hq : q < w.cols)
    (hsel : w.selected budget (r * w.cols + q)) : w.selected budget (r * w.cols + p) := by
  rcases hpq.eq_or_lt with rfl | hlt
  · exact hsel
  · have hp := hlt.trans hq
    have hfall := h.mono r hr p q hpq hq
    have hvalid : w.survivalEps ≤ w.survival r q :=
      (valid_block hq).mp (Bool.and_eq_true_iff.mp hsel).1
    have hvalid' := hvalid.trans hfall
    refine selected_of_before (block_lt hr hp) ?_ ((valid_block hp).mpr hvalid') hsel
    simp only [before, maskedProb, (valid_block hp).mpr hvalid', (valid_block hq).mpr hvalid,
      if_true, request_block hp, request_block hq, position_block hp, position_block hq,
      Bool.or_eq_true, Bool.and_eq_true, decide_eq_true_eq, WithBot.coe_lt_coe, WithBot.coe_inj]
    rcases hfall.lt_or_eq with hlt' | heq
    · exact .inl hlt'
    · exact .inr ⟨heq.symm, .inl hlt⟩

omit [IsStrictOrderedRing K] in
/-- **The drafts kept of a request are its first ones.** -/
theorem selected_iff {r p : ℕ} (hr : r < w.numRequests) (hp : p < w.cols) :
    w.selected budget (r * w.cols + p) ↔ p < w.extra budget r := by
  rw [extra_eq hr, lt_countP_range_iff _ hp]
  exact fun i j hij hj hsel => h.selected_mono hr hij hj hsel

end Falling

/-! ### The best choice of first drafts -/

/-- The budget allows the first `extra r` drafts of every request `r`. -/
structure Admits (w : TopkWindow K) (budget : ℕ) (extra : ℕ → ℕ) : Prop where
  le_cols : ∀ r < w.numRequests, extra r ≤ w.cols
  survives : ∀ r < w.numRequests, ∀ p < extra r, w.survivalEps ≤ w.survival r p
  total : ∑ r ∈ Finset.range w.numRequests, extra r ≤ budget

/-- The survival of the first `extra r` drafts of every request `r`. -/
def gain (w : TopkWindow K) (extra : ℕ → ℕ) : K :=
  ∑ r ∈ Finset.range w.numRequests, ∑ p ∈ Finset.range (extra r), w.survival r p

/-- The first `extra r` candidates of every request `r`. -/
def firsts (w : TopkWindow K) (extra : ℕ → ℕ) : Finset ℕ :=
  (Finset.range w.numCandidates).filter fun c => w.position c < extra (w.request c)

omit [LinearOrder K] [Field K] [IsStrictOrderedRing K] in
theorem sum_firsts {M : Type*} [AddCommMonoid M] {extra : ℕ → ℕ}
    (hle : ∀ r < w.numRequests, extra r ≤ w.cols) (f : ℕ → ℕ → M) :
    ∑ c ∈ w.firsts extra, f (w.request c) (w.position c) =
      ∑ r ∈ Finset.range w.numRequests, ∑ p ∈ Finset.range (extra r), f r p := by
  rw [firsts, Finset.sum_filter, numCandidates, sum_rows]
  refine Finset.sum_congr rfl fun r hr => ?_
  have hcols := hle r (Finset.mem_range.mp hr)
  calc ∑ j ∈ Finset.range w.cols,
        (if w.position (r * w.cols + j) < extra (w.request (r * w.cols + j))
          then f (w.request (r * w.cols + j)) (w.position (r * w.cols + j)) else 0)
      = ∑ j ∈ Finset.range w.cols, if j < extra r then f r j else 0 := by
        refine Finset.sum_congr rfl fun j hj => ?_
        rw [request_block (Finset.mem_range.mp hj), position_block (Finset.mem_range.mp hj)]
    _ = ∑ j ∈ (Finset.range w.cols).filter (· < extra r), f r j := (Finset.sum_filter _ _).symm
    _ = ∑ j ∈ Finset.range (extra r), f r j := by
        congr 1
        ext j
        simp only [Finset.mem_filter, Finset.mem_range]
        omega

omit [LinearOrder K] [Field K] [IsStrictOrderedRing K] in
theorem card_firsts {extra : ℕ → ℕ} (hle : ∀ r < w.numRequests, extra r ≤ w.cols) :
    (w.firsts extra).card = ∑ r ∈ Finset.range w.numRequests, extra r := by
  rw [Finset.card_eq_sum_ones, sum_firsts hle fun _ _ => 1]
  simp

/-- The candidates that survive. -/
def validCandidates (w : TopkWindow K) : List ℕ := (List.range w.numCandidates).filter w.valid

omit [Field K] [IsStrictOrderedRing K] in
/-- A candidate that does not survive comes before none that does. -/
theorem rank_validCandidates {c : ℕ} (hc : w.valid c) :
    rank w.before w.validCandidates c = rank w.before (List.range w.numCandidates) c := by
  unfold rank validCandidates
  rw [List.countP_filter]
  refine List.countP_congr fun a _ => ?_
  suffices hmask : w.before a c → w.valid a by
    simp only [Bool.and_eq_true, and_iff_left_iff_imp]
    exact hmask
  intro hbefore
  by_contra hnot
  simp [before, maskedProb, hnot, hc] at hbefore

omit [IsStrictOrderedRing K] in
theorem Falling.firsts_extra (h : w.Falling) :
    w.firsts (w.extra budget) = top w.before w.validCandidates budget := by
  ext c
  simp only [firsts, validCandidates, Finset.mem_filter, Finset.mem_range, mem_top, List.mem_filter,
    List.mem_range]
  by_cases hc : c < w.numCandidates
  · obtain ⟨r, hr, p, hp, rfl⟩ := exists_candidate hc
    rw [request_block hp, position_block hp, ← h.selected_iff hr hp, selected, Bool.and_eq_true,
      decide_eq_true_eq]
    constructor
    · rintro ⟨-, hvalid, hrank⟩
      exact ⟨⟨hc, hvalid⟩, (rank_validCandidates hvalid).trans_lt hrank⟩
    · rintro ⟨⟨-, hvalid⟩, hrank⟩
      exact ⟨hc, hvalid, (rank_validCandidates hvalid).symm.trans_lt hrank⟩
  · simp [hc]

omit [IsStrictOrderedRing K] in
/-- The schedule keeps to what the budget allows. -/
theorem Falling.admits_extra (h : w.Falling) : w.Admits budget (w.extra budget) where
  le_cols := fun _ hr => extra_le_cols hr
  survives := by
    intro r hr p hp
    have hcols := hp.trans_le (extra_le_cols hr)
    have hsel := (h.selected_iff hr hcols).mpr hp
    exact (valid_block hcols).mp (Bool.and_eq_true_iff.mp hsel).1
  total := sum_extra_le w budget

/-- The survival of a candidate. -/
def weight (w : TopkWindow K) (c : ℕ) : K := w.survival (w.request c) (w.position c)

omit [Field K] [IsStrictOrderedRing K] in
theorem mem_validCandidates {c : ℕ} :
    c ∈ w.validCandidates ↔ c < w.numCandidates ∧ w.valid c := by
  simp [validCandidates]

omit [Field K] [IsStrictOrderedRing K] in
theorem strictOrder_valid (w : TopkWindow K) : StrictOrder w.before w.validCandidates :=
  w.strictOrder.sublist List.filter_sublist

omit [Field K] [IsStrictOrderedRing K] in
/-- The likelier candidate comes first. -/
theorem weight_le_of_before {a b : ℕ} (ha : a ∈ w.validCandidates) (hb : b ∈ w.validCandidates)
    (hab : w.before a b) : w.weight b ≤ w.weight a := by
  have ha := (mem_validCandidates.mp ha).2
  have hb := (mem_validCandidates.mp hb).2
  simp only [before, maskedProb, ha, hb, if_true, Bool.or_eq_true, Bool.and_eq_true,
    decide_eq_true_eq, WithBot.coe_lt_coe, WithBot.coe_inj] at hab
  rcases hab with hlt | ⟨heq, -⟩
  · exact hlt.le
  · exact heq.ge

omit [IsStrictOrderedRing K] in
theorem Falling.weight_nonneg (h : w.Falling) {c : ℕ} (hc : c ∈ w.validCandidates) :
    0 ≤ w.weight c := by
  obtain ⟨r, hr, p, hp, rfl⟩ := exists_candidate (mem_validCandidates.mp hc).1
  rw [weight, request_block hp, position_block hp]
  exact h.nonneg r hr p hp

omit [IsStrictOrderedRing K] in
/-- What the schedule keeps weighs as much as the first `budget` candidates. -/
theorem Falling.gain_extra (h : w.Falling) (budget : ℕ) :
    w.gain (w.extra budget) = ∑ c ∈ top w.before w.validCandidates budget, w.weight c := by
  rw [← h.firsts_extra]
  exact (sum_firsts (fun r hr => extra_le_cols hr) _).symm

omit [IsStrictOrderedRing K] in
/-- The schedule keeps as many candidates as the budget and the survivors allow. -/
theorem Falling.sum_extra (h : w.Falling) (budget : ℕ) :
    ∑ r ∈ Finset.range w.numRequests, w.extra budget r = min budget w.validCandidates.length := by
  rw [← card_firsts fun r hr => extra_le_cols hr, h.firsts_extra, card_top w.strictOrder_valid]

omit [Field K] [IsStrictOrderedRing K] in
theorem Admits.firsts_subset {extra : ℕ → ℕ} (ha : w.Admits budget extra) {c : ℕ}
    (hc : c ∈ w.firsts extra) : c ∈ w.validCandidates := by
  simp only [firsts, Finset.mem_filter, Finset.mem_range] at hc
  obtain ⟨r, hr, p, hp, rfl⟩ := exists_candidate hc.1
  rw [request_block hp, position_block hp] at hc
  exact mem_validCandidates.mpr ⟨hc.1, (valid_block hp).mpr (ha.survives r hr p hc.2)⟩

/-- **No choice of first drafts that the budget allows survives better.** -/
theorem Admits.gain_le {extra : ℕ → ℕ} (ha : w.Admits budget extra) (h : w.Falling) :
    w.gain extra ≤ w.gain (w.extra budget) := by
  have hcard : (w.firsts extra).card ≤ budget := (card_firsts ha.le_cols).trans_le ha.total
  calc w.gain extra
      = ∑ c ∈ w.firsts extra, w.weight c := (sum_firsts ha.le_cols _).symm
    _ ≤ ∑ c ∈ top w.before w.validCandidates budget, w.weight c :=
        sum_le_sum_rank_lt w.strictOrder_valid (fun c hc => h.weight_nonneg hc)
          (fun a ha b hb hab => weight_le_of_before ha hb hab)
          (fun c hc => ha.firsts_subset hc) hcard
    _ = w.gain (w.extra budget) := (h.gain_extra budget).symm

end TopkWindow

/-! ### The lengths -/

/-- The lengths that a budget allows: from the floor to the cap, at most `budget` tokens above
the floors in all, and above the floor only drafts that survive. -/
structure DSparkScheduleConfig.Allows (cfg : DSparkScheduleConfig K) (bs : ℕ)
    (survival : ℕ → ℕ → K) (budget : ℕ) (len : ℕ → ℕ) : Prop where
  lower : ∀ r < bs, cfg.lowerBound ≤ len r
  upper : ∀ r < bs, len r ≤ cfg.resolvedMaxVerifyLen
  total : ∑ r ∈ Finset.range bs, (len r - cfg.lowerBound) ≤ budget
  survives : ∀ r < bs, ∀ p, cfg.lowerBound ≤ p + 1 → p + 1 < len r →
    cfg.survivalEps ≤ survival r p

section
variable [Field K] [IsStrictOrderedRing K]

/-- The survival of the drafts that a vector of lengths verifies. -/
def verifyGain (bs : ℕ) (survival : ℕ → ℕ → K) (len : ℕ → ℕ) : K :=
  ∑ r ∈ Finset.range bs, ∑ p ∈ Finset.range (len r - 1), survival r p

/-- The budget allows the lengths, and none that survive better. -/
def DSparkScheduleConfig.Best (cfg : DSparkScheduleConfig K) (bs : ℕ) (survival : ℕ → ℕ → K)
    (budget : ℕ) (len : ℕ → ℕ) : Prop :=
  cfg.Allows bs survival budget len ∧
    ∀ len', cfg.Allows bs survival budget len' → verifyGain bs survival len' ≤
      verifyGain bs survival len

/-- The confidences of `bs` requests, `width` to a request. -/
def IsConfidence (bs width : ℕ) (confidence : ℕ → ℕ → K) : Prop :=
  ∀ r < bs, ∀ p < width, 0 ≤ confidence r p ∧ confidence r p ≤ 1

/-- Request `r`'s length. -/
def verifyLen (onCuda : Bool) (cfg : DSparkScheduleConfig K) (bs width : ℕ)
    (confidence : ℕ → ℕ → K) (budget r : ℕ) : ℕ :=
  (scheduleVerifyLensTopk onCuda cfg bs width confidence budget).getD r 0

variable {onCuda : Bool} {cfg : DSparkScheduleConfig K} {bs width budget : ℕ}
  {confidence : ℕ → ℕ → K}

omit [LinearOrder K] [IsStrictOrderedRing K] in
theorem computeSortSurvival_zero (r : ℕ) : computeSortSurvival confidence r 0 = confidence r 0 := by
  simp [computeSortSurvival]

omit [LinearOrder K] [IsStrictOrderedRing K] in
theorem computeSortSurvival_succ (r p : ℕ) :
    computeSortSurvival confidence r (p + 1) =
      computeSortSurvival confidence r p * confidence r (p + 1) := by
  rw [computeSortSurvival, List.range_succ, List.map_append, List.prod_append]
  simp [computeSortSurvival]

theorem IsConfidence.survival_nonneg (h : IsConfidence bs width confidence) {r p : ℕ} (hr : r < bs)
    (hp : p < width) : 0 ≤ computeSortSurvival confidence r p := by
  induction p with
  | zero =>
    rw [computeSortSurvival_zero]
    exact (h r hr 0 hp).1
  | succ p ih =>
    rw [computeSortSurvival_succ]
    exact mul_nonneg (ih (Nat.lt_of_succ_lt hp)) (h r hr _ hp).1

theorem IsConfidence.survival_mono (h : IsConfidence bs width confidence) {r p q : ℕ} (hr : r < bs)
    (hpq : p ≤ q) (hq : q < width) :
    computeSortSurvival confidence r q ≤ computeSortSurvival confidence r p := by
  induction q, hpq using Nat.le_induction with
  | base => exact le_refl _
  | succ q hpq ih =>
    have hlast := h r hr (q + 1) hq
    calc computeSortSurvival confidence r (q + 1)
        = computeSortSurvival confidence r q * confidence r (q + 1) := computeSortSurvival_succ r q
      _ ≤ computeSortSurvival confidence r q :=
          mul_le_of_le_one_right (h.survival_nonneg hr (Nat.lt_of_succ_lt hq)) hlast.2
      _ ≤ computeSortSurvival confidence r p := ih (Nat.lt_of_succ_lt hq)

theorem IsConfidence.falling (h : IsConfidence bs width confidence) (cfg : DSparkScheduleConfig K) :
    (candidateWindow cfg bs width confidence).Falling where
  mono := fun _ hr _ _ hpq hq => h.survival_mono hr hpq (hq.trans_le (Nat.min_le_right _ _))
  nonneg := fun _ hr _ hp => h.survival_nonneg hr (hp.trans_le (Nat.min_le_right _ _))

omit [IsStrictOrderedRing K] in
/-- A request's length is its floor and its selected candidates, within the cap. -/
theorem verifyLen_eq {r : ℕ} (hr : r < bs) :
    verifyLen onCuda cfg bs width confidence budget r =
      clampVerifyLen cfg ((candidateWindow cfg bs width confidence).extra budget r) := by
  have hextra : (if onCuda then
      (candidateWindow cfg bs width confidence).selectedExtraTriton budget r
      else (candidateWindow cfg bs width confidence).selectedExtra budget r) =
      (candidateWindow cfg bs width confidence).extra budget r := by
    cases onCuda
    · exact TopkWindow.selectedExtra_eq _ _ _
    · exact TopkWindow.selectedExtraTriton_eq _ _ _
  rw [← hextra]
  cases onCuda <;> simp [verifyLen, scheduleVerifyLensTopk, hr]

section
variable (hcfg : cfg.validate = .ok ())
include hcfg

omit [IsStrictOrderedRing K] in
theorem verifyLen_bounds {r : ℕ} (hr : r < bs) :
    cfg.lowerBound ≤ verifyLen onCuda cfg bs width confidence budget r ∧
      verifyLen onCuda cfg bs width confidence budget r ≤ cfg.resolvedMaxVerifyLen := by
  obtain ⟨hle, -⟩ := DSparkScheduleConfig.le_of_validate hcfg
  rw [verifyLen_eq hr, clampVerifyLen]
  omega

omit [IsStrictOrderedRing K] hcfg in
/-- Above the floors the lengths add up to at most the budget. -/
theorem sum_verifyLen_sub_le :
    ∑ r ∈ Finset.range bs, (verifyLen onCuda cfg bs width confidence budget r - cfg.lowerBound) ≤
      budget := by
  refine le_trans (Finset.sum_le_sum fun r hr => ?_)
    ((candidateWindow cfg bs width confidence).sum_extra_le budget)
  have hclamp := clampVerifyLen_le cfg
    ((candidateWindow cfg bs width confidence).extra budget r)
  rw [verifyLen_eq (Finset.mem_range.mp hr)]
  omega

omit [IsStrictOrderedRing K] hcfg in
/-- With a floor of one token and the whole window, the selected candidates are the drafts
verified. -/
theorem verifyLen_plain (hmin : cfg.minVerifyLen = 1)
    (hmax : cfg.resolvedMaxVerifyLen = cfg.gamma + 1) {r : ℕ} (hr : r < bs) :
    verifyLen onCuda cfg bs cfg.gamma confidence budget r =
      1 + (candidateWindow cfg bs cfg.gamma confidence).extra budget r := by
  have hcols : (candidateWindow cfg bs cfg.gamma confidence).extra budget r ≤
      min cfg.resolvedMaxVerifyLen cfg.gamma :=
    TopkWindow.extra_le_cols (w := candidateWindow cfg bs cfg.gamma confidence) hr
  rw [verifyLen_eq hr, clampVerifyLen, DSparkScheduleConfig.lowerBound, hmin, hmax]
  omega

omit hcfg in
/-- **The plain schedule is the best one.** -/
theorem best_of_plain (hmin : cfg.minVerifyLen = 1)
    (hmax : cfg.resolvedMaxVerifyLen = cfg.gamma + 1)
    (hconf : IsConfidence bs cfg.gamma confidence) :
    cfg.Best bs (computeSortSurvival confidence) budget
      (verifyLen onCuda cfg bs cfg.gamma confidence budget) := by
  have hfalling := hconf.falling cfg
  have hadmits : (candidateWindow cfg bs cfg.gamma confidence).Admits budget
      ((candidateWindow cfg bs cfg.gamma confidence).extra budget) := hfalling.admits_extra
  have hfloor : cfg.lowerBound = 1 := by rw [DSparkScheduleConfig.lowerBound, hmin, Nat.max_self]
  have hlen : ∀ r < bs, verifyLen onCuda cfg bs cfg.gamma confidence budget r =
      1 + (candidateWindow cfg bs cfg.gamma confidence).extra budget r :=
    fun r hr => verifyLen_plain hmin hmax hr
  refine ⟨⟨fun r hr => ?_, fun r hr => ?_, sum_verifyLen_sub_le, fun r hr p hle hlt => ?_⟩,
    fun len' hallows => ?_⟩
  · rw [hlen r hr]
    omega
  · have hcols : (candidateWindow cfg bs cfg.gamma confidence).extra budget r ≤
        min cfg.resolvedMaxVerifyLen cfg.gamma := hadmits.le_cols r hr
    rw [hlen r hr]
    omega
  · rw [hlen r hr] at hlt
    exact hadmits.survives r hr p (by omega)
  · -- other lengths verify first drafts the budget admits as well
    have hother : (candidateWindow cfg bs cfg.gamma confidence).Admits budget
        fun r => len' r - 1 := by
      refine ⟨fun r hr => ?_, fun r hr p hp => ?_, ?_⟩
      · have hupper := hallows.upper r hr
        change len' r - 1 ≤ min cfg.resolvedMaxVerifyLen cfg.gamma
        omega
      · exact hallows.survives r hr p (by omega) (by omega)
      · have htotal := hallows.total
        rwa [hfloor] at htotal
    calc verifyGain bs (computeSortSurvival confidence) len'
        = (candidateWindow cfg bs cfg.gamma confidence).gain fun r => len' r - 1 := rfl
      _ ≤ (candidateWindow cfg bs cfg.gamma confidence).gain
            ((candidateWindow cfg bs cfg.gamma confidence).extra budget) := hother.gain_le hfalling
      _ = verifyGain bs (computeSortSurvival confidence)
            (verifyLen onCuda cfg bs cfg.gamma confidence budget) := by
          refine Finset.sum_congr rfl fun r hr => ?_
          rw [hlen r (Finset.mem_range.mp hr), Nat.add_sub_cancel_left]
          rfl

omit [IsStrictOrderedRing K] in
/-- Where the floor is the cap there is nothing to choose. -/
theorem best_of_tight (htight : cfg.resolvedMaxVerifyLen = cfg.lowerBound) :
    cfg.Best bs (computeSortSurvival confidence) budget
      (verifyLen onCuda cfg bs width confidence budget) := by
  have hlen : ∀ r < bs, verifyLen onCuda cfg bs width confidence budget r = cfg.lowerBound := by
    intro r hr
    have hbounds : cfg.lowerBound ≤ verifyLen onCuda cfg bs width confidence budget r ∧
        verifyLen onCuda cfg bs width confidence budget r ≤ cfg.resolvedMaxVerifyLen :=
      verifyLen_bounds hcfg hr
    omega
  refine ⟨⟨fun r hr => (hlen r hr).ge, fun r hr => (hlen r hr).trans_le htight.ge,
    sum_verifyLen_sub_le, fun r hr p hle hlt => ?_⟩, fun len' hallows => ?_⟩
  · rw [hlen r hr] at hlt
    omega
  · refine (Finset.sum_congr rfl fun r hr => ?_).le
    have hr := Finset.mem_range.mp hr
    have hlower := hallows.lower r hr
    have hupper := hallows.upper r hr
    rw [hlen r hr, show len' r = cfg.lowerBound by omega]

/-! ### Other floors and caps -/

/-- The first request is certain of its first `sure` drafts and the other ones gain `c` from every
draft. -/
def rivals (sure : ℕ) (c : K) (r p : ℕ) : K :=
  if r = 0 then (if p < sure then 1 else 0) else (if p = 0 then c else 1)

omit [LinearOrder K] [IsStrictOrderedRing K] hcfg in
theorem survival_rivals_first (sure : ℕ) (c : K) (p : ℕ) :
    computeSortSurvival (rivals sure c) 0 p = if p < sure then 1 else 0 := by
  induction p with
  | zero => simp [computeSortSurvival_zero, rivals]
  | succ p ih =>
    rw [computeSortSurvival_succ, ih]
    by_cases hp : p + 1 < sure
    · simp [rivals, hp, Nat.lt_of_succ_lt hp]
    · simp [rivals, hp]

omit [LinearOrder K] [IsStrictOrderedRing K] hcfg in
theorem survival_rivals_second (sure : ℕ) (c : K) (p : ℕ) :
    computeSortSurvival (rivals sure c) 1 p = c := by
  induction p with
  | zero => simp [computeSortSurvival_zero, rivals]
  | succ p ih => rw [computeSortSurvival_succ, ih]; simp [rivals]

omit hcfg in
theorem isConfidence_rivals {c : K} (hc : 0 ≤ c) (hc' : c ≤ 1) (bs width sure : ℕ) :
    IsConfidence bs width (rivals sure c) := by
  intro r _ p _
  unfold rivals
  split_ifs <;> simp [hc, hc']

omit [LinearOrder K] [IsStrictOrderedRing K] hcfg in
theorem sum_survival_first {sure : ℕ} (c : K) {n : ℕ} :
    ∑ p ∈ Finset.range n, computeSortSurvival (rivals sure c) 0 p = ((min n sure : ℕ) : K) := by
  simp only [survival_rivals_first]
  rw [← Finset.sum_filter, Finset.sum_const, nsmul_eq_mul, mul_one]
  congr 1
  rw [show (Finset.range n).filter (· < sure) = Finset.range (min n sure) by
    ext p
    simp]
  exact Finset.card_range _

omit [LinearOrder K] [IsStrictOrderedRing K] hcfg in
/-- What two lengths gain from the rivals. -/
theorem verifyGain_rivals {sure : ℕ} {c : K} (len : ℕ → ℕ) :
    verifyGain 2 (computeSortSurvival (rivals sure c)) len =
      ((min (len 0 - 1) sure : ℕ) : K) + ((len 1 - 1 : ℕ) : K) * c := by
  rw [verifyGain, Finset.sum_range_succ, Finset.sum_range_one, sum_survival_first]
  simp only [survival_rivals_second, Finset.sum_const, Finset.card_range, nsmul_eq_mul]

omit hcfg in
/-- A budget of `sure` goes to the first request, as long as its drafts are candidates. -/
theorem extra_rivals {sure : ℕ} {c : K} (hc : 0 ≤ c) (hc' : c < 1) (heps : cfg.survivalEps ≤ 1)
    (hsure : sure ≤ min cfg.resolvedMaxVerifyLen cfg.gamma) :
    (candidateWindow cfg 2 cfg.gamma (rivals sure c)).extra sure 0 = sure ∧
      (candidateWindow cfg 2 cfg.gamma (rivals sure c)).extra sure 1 = 0 := by
  have hfalling := (isConfidence_rivals hc hc'.le 2 cfg.gamma sure).falling cfg
  have htotal : (candidateWindow cfg 2 cfg.gamma (rivals sure c)).extra sure 0 +
      (candidateWindow cfg 2 cfg.gamma (rivals sure c)).extra sure 1 ≤ sure := by
    refine (Eq.le ?_).trans
      (TopkWindow.sum_extra_le (candidateWindow cfg 2 cfg.gamma (rivals sure c)) sure)
    exact ((Finset.sum_range_succ _ 1).trans (by rw [Finset.sum_range_one])).symm
  have hbest : (candidateWindow cfg 2 cfg.gamma (rivals sure c)).Admits sure
      fun r => if r = 0 then sure else 0 := by
    refine ⟨fun r _ => ?_, fun r _ p hp => ?_, ?_⟩
    · split_ifs
      · exact hsure
      · exact Nat.zero_le _
    · split_ifs at hp with hr
      · subst hr
        exact heps.trans_eq (by simp [candidateWindow, survival_rivals_first, hp])
      · exact absurd hp (Nat.not_lt_zero p)
    · simp [candidateWindow]
  have hgain : verifyGain 2 (computeSortSurvival (rivals sure c))
        (fun r => (if r = 0 then sure else 0) + 1) ≤
      verifyGain 2 (computeSortSurvival (rivals sure c))
        fun r => (candidateWindow cfg 2 cfg.gamma (rivals sure c)).extra sure r + 1 :=
    hbest.gain_le hfalling
  rw [verifyGain_rivals, verifyGain_rivals] at hgain
  simp only [if_true, Nat.add_sub_cancel, Nat.min_self, one_ne_zero, if_false, Nat.cast_zero,
    zero_mul, add_zero] at hgain
  generalize (candidateWindow cfg 2 cfg.gamma (rivals sure c)).extra sure 0 = a at hgain htotal ⊢
  generalize (candidateWindow cfg 2 cfg.gamma (rivals sure c)).extra sure 1 = b at hgain htotal ⊢
  have hcast : ((min a sure : ℕ) : K) ≤ sure - b := by
    rw [le_sub_iff_add_le]
    exact_mod_cast (by omega : min a sure + b ≤ sure)
  have hb : b = 0 := by
    by_contra hb
    have hpos : (0 : K) < b := by exact_mod_cast Nat.pos_of_ne_zero hb
    have hless : (b : K) * c < b := mul_lt_of_lt_one_right hpos hc'
    linarith only [hgain, hcast, hless]
  subst hb
  simp only [Nat.cast_zero, zero_mul, add_zero, Nat.cast_le] at hgain
  exact ⟨by omega, rfl⟩

omit [IsStrictOrderedRing K] hcfg in
/-- Lengths that a budget allows between the rivals. -/
theorem allows_rivals {sure : ℕ} {c : K} {len : ℕ → ℕ} (hone : cfg.survivalEps ≤ 1)
    (hc : cfg.survivalEps ≤ c)
    (hfirst : cfg.lowerBound ≤ len 0 ∧ len 0 ≤ cfg.resolvedMaxVerifyLen)
    (hsecond : cfg.lowerBound ≤ len 1 ∧ len 1 ≤ cfg.resolvedMaxVerifyLen)
    (htotal : len 0 - cfg.lowerBound + (len 1 - cfg.lowerBound) ≤ budget)
    (hsure : cfg.lowerBound < len 0 → len 0 ≤ sure + 1) :
    cfg.Allows 2 (computeSortSurvival (rivals sure c)) budget len := by
  refine ⟨fun r hr => ?_, fun r hr => ?_, ?_, fun r hr p hle hlt => ?_⟩
  · interval_cases r
    · exact hfirst.1
    · exact hsecond.1
  · interval_cases r
    · exact hfirst.2
    · exact hsecond.2
  · rwa [Finset.sum_range_succ, Finset.sum_range_one]
  · interval_cases r
    · rw [survival_rivals_first, if_pos (by omega)]
      exact hone
    · rw [survival_rivals_second]
      exact hc

omit hcfg in
/-- The rivals refute a schedule whose lengths other lengths of the same budget outdo. -/
theorem not_best_rivals {c : K} (hpos : 0 < c) (hc' : c < 1) (heps : cfg.survivalEps ≤ 1)
    (sure : ℕ) (hsure : sure ≤ min cfg.resolvedMaxVerifyLen cfg.gamma) (len' : ℕ → ℕ)
    (hallows : cfg.Allows 2 (computeSortSurvival (rivals sure c)) sure len')
    (hmore : ((min (clampVerifyLen cfg sure - 1) sure : ℕ) : K) +
        ((clampVerifyLen cfg 0 - 1 : ℕ) : K) * c <
      ((min (len' 0 - 1) sure : ℕ) : K) + ((len' 1 - 1 : ℕ) : K) * c) :
    ∃ bs budget confidence, IsConfidence bs cfg.gamma confidence ∧
      ¬cfg.Best bs (computeSortSurvival confidence) budget
        (verifyLen onCuda cfg bs cfg.gamma confidence budget) := by
  refine ⟨2, sure, rivals sure c, isConfidence_rivals hpos.le hc'.le 2 cfg.gamma sure, ?_⟩
  rintro ⟨-, hbest⟩
  obtain ⟨hfirst, hsecond⟩ := extra_rivals hpos.le hc' heps hsure
  have hgain := hbest len' hallows
  rw [verifyGain_rivals, verifyGain_rivals, verifyLen_eq Nat.zero_lt_two,
    verifyLen_eq Nat.one_lt_two, hfirst, hsecond] at hgain
  exact absurd hmore (not_lt.mpr hgain)

/-- **Any other floor or cap leaves survival on the table**: without a floor a request's first
candidate only reaches its anchor, a floor above one token verifies other drafts than the
candidates that were chosen, and a cap below the window spends budget on a draft that is not
verified. -/
theorem exists_not_best (heps : cfg.survivalEps < 1)
    (htight : cfg.resolvedMaxVerifyLen ≠ cfg.lowerBound)
    (hplain : ¬(cfg.minVerifyLen = 1 ∧ cfg.resolvedMaxVerifyLen = cfg.gamma + 1)) :
    ∃ bs budget confidence, IsConfidence bs cfg.gamma confidence ∧
      ¬cfg.Best bs (computeSortSurvival confidence) budget
        (verifyLen onCuda cfg bs cfg.gamma confidence budget) := by
  obtain ⟨hfloor, hcap⟩ := DSparkScheduleConfig.le_of_validate hcfg
  obtain ⟨c, hc, hc'⟩ : ∃ c : K, max cfg.survivalEps 0 < c ∧ c < 1 :=
    exists_between (max_lt heps zero_lt_one)
  have hpos : 0 < c := (le_max_right _ _).trans_lt hc
  have hsurvives : cfg.survivalEps ≤ c := (le_max_left _ _).trans hc.le
  have hlow : cfg.lowerBound = max cfg.minVerifyLen 1 := rfl
  rcases Nat.lt_trichotomy cfg.minVerifyLen 1 with hmin | hmin | hmin
  · -- the first candidate of a request adds nothing to its anchor
    refine not_best_rivals hpos hc' heps.le 1 (by omega) (fun r => if r = 0 then 2 else 1)
      (allows_rivals heps.le hsurvives ?_ ?_ ?_ ?_) ?_
    · simp only [if_true]
      omega
    · simp only [one_ne_zero, if_false]
      omega
    · simp only [if_true, one_ne_zero, if_false]
      omega
    · intro _
      simp
    · have hlen : clampVerifyLen cfg 1 = 1 ∧ clampVerifyLen cfg 0 = 1 := by
        unfold clampVerifyLen
        omega
      simp [hlen]
  · -- the last draft of the first request is paid for and cut off by the cap
    have hmax : cfg.resolvedMaxVerifyLen ≤ cfg.gamma := by
      have hne : cfg.resolvedMaxVerifyLen ≠ cfg.gamma + 1 := fun heq => hplain ⟨hmin, heq⟩
      omega
    refine not_best_rivals hpos hc' heps.le cfg.resolvedMaxVerifyLen (by omega)
      (fun r => if r = 0 then cfg.resolvedMaxVerifyLen else 2)
      (allows_rivals heps.le hsurvives ?_ ?_ ?_ ?_) ?_
    · simp only [if_true]
      omega
    · simp only [one_ne_zero, if_false]
      omega
    · simp only [if_true, one_ne_zero, if_false]
      omega
    · intro _
      simp
    · have hlen : clampVerifyLen cfg cfg.resolvedMaxVerifyLen = cfg.resolvedMaxVerifyLen ∧
          clampVerifyLen cfg 0 = 1 := by
        unfold clampVerifyLen
        omega
      simp [hlen, hpos]
  · -- the first draft is verified anyway, and the draft it lets in is not a likely one
    refine not_best_rivals hpos hc' heps.le 1 (by omega)
      (fun r => if r = 0 then cfg.minVerifyLen else cfg.minVerifyLen + 1)
      (allows_rivals heps.le hsurvives ?_ ?_ ?_ ?_) ?_
    · simp only [if_true]
      omega
    · simp only [one_ne_zero, if_false]
      omega
    · simp only [if_true, one_ne_zero, if_false]
      omega
    · simp only [if_true]
      omega
    · have hlen : clampVerifyLen cfg 1 = cfg.minVerifyLen + 1 ∧
          clampVerifyLen cfg 0 = cfg.minVerifyLen := by
        unfold clampVerifyLen
        omega
      have hless : ((cfg.minVerifyLen - 1 : ℕ) : K) * c < cfg.minVerifyLen * c := by
        refine mul_lt_mul_of_pos_right ?_ hpos
        exact_mod_cast (by omega : cfg.minVerifyLen - 1 < cfg.minVerifyLen)
      have hone : min (cfg.minVerifyLen - 1) 1 = 1 ∧ min cfg.minVerifyLen 1 = 1 := by omega
      simp [hlen, hone, hless]

end

/-- **What the schedule maximises.**  The extra tokens of the requests are the best first drafts
that the budget admits among all positions below the cap, and every length is the floor and
these, within the cap.  With a floor of one token and the whole window, or no room between floor
and cap, no lengths that the budget allows survive better; for other floors and caps some do. -/
theorem schedule_maximises (hcfg : cfg.validate = .ok ()) :
    (∀ (bs budget : ℕ) (confidence : ℕ → ℕ → K), IsConfidence bs cfg.gamma confidence →
      (∃ extra : ℕ → ℕ,
        (candidateWindow cfg bs cfg.gamma confidence).Admits budget extra ∧
        (∀ extra' : ℕ → ℕ, (candidateWindow cfg bs cfg.gamma confidence).Admits budget extra' →
          (candidateWindow cfg bs cfg.gamma confidence).gain extra' ≤
            (candidateWindow cfg bs cfg.gamma confidence).gain extra) ∧
        scheduleVerifyLensTopk false cfg bs cfg.gamma confidence budget =
          (List.range bs).map fun r => clampVerifyLen cfg (extra r)) ∧
      (∀ r < bs, cfg.lowerBound ≤ verifyLen false cfg bs cfg.gamma confidence budget r ∧
        verifyLen false cfg bs cfg.gamma confidence budget r ≤ cfg.resolvedMaxVerifyLen) ∧
      ∑ r ∈ Finset.range bs,
        (verifyLen false cfg bs cfg.gamma confidence budget r - cfg.lowerBound) ≤ budget) ∧
    ((cfg.minVerifyLen = 1 ∧ cfg.resolvedMaxVerifyLen = cfg.gamma + 1) ∨
        cfg.resolvedMaxVerifyLen = cfg.lowerBound →
      ∀ (bs budget : ℕ) (confidence : ℕ → ℕ → K), IsConfidence bs cfg.gamma confidence →
        cfg.Best bs (computeSortSurvival confidence) budget
          (verifyLen false cfg bs cfg.gamma confidence budget)) ∧
    (cfg.survivalEps < 1 →
      ¬((cfg.minVerifyLen = 1 ∧ cfg.resolvedMaxVerifyLen = cfg.gamma + 1) ∨
        cfg.resolvedMaxVerifyLen = cfg.lowerBound) →
      ∃ (bs budget : ℕ) (confidence : ℕ → ℕ → K), IsConfidence bs cfg.gamma confidence ∧
        ¬cfg.Best bs (computeSortSurvival confidence) budget
          (verifyLen false cfg bs cfg.gamma confidence budget)) := by
  refine ⟨fun bs budget confidence hconf => ⟨?_, ?_, ?_⟩, ?_, ?_⟩
  · have hfalling := hconf.falling cfg
    refine ⟨(candidateWindow cfg bs cfg.gamma confidence).extra budget, hfalling.admits_extra,
      fun extra' hadmits => hadmits.gain_le hfalling, ?_⟩
    simp [scheduleVerifyLensTopk, TopkWindow.selectedExtra_eq]
  · exact fun r hr => verifyLen_bounds hcfg hr
  · exact sum_verifyLen_sub_le
  · rintro (⟨hmin, hmax⟩ | htight) bs budget confidence hconf
    · exact best_of_plain hmin hmax hconf
    · exact best_of_tight hcfg htight
  · intro heps hother
    obtain ⟨hplain, htight⟩ := not_or.mp hother
    exact exists_not_best hcfg heps htight hplain

/-- The configuration of the planner, for three drafts. -/
def plainScheduleConfig : DSparkScheduleConfig ℚ where
  gamma := 3
  minVerifyLen := 1
  maxVerifyLen := 0
  survivalEps := 1 / 1000000

theorem plainScheduleConfig_validate : plainScheduleConfig.validate = .ok () := by
  simp [DSparkScheduleConfig.validate, DSparkScheduleConfig.resolvedMaxVerifyLen,
    plainScheduleConfig]

theorem schedule_maximises_plain :
    plainScheduleConfig.validate = .ok () ∧
      ∀ (bs budget : ℕ) (confidence : ℕ → ℕ → ℚ), IsConfidence bs 3 confidence →
        plainScheduleConfig.Best bs (computeSortSurvival confidence) budget
          (verifyLen false plainScheduleConfig bs 3 confidence budget) :=
  ⟨plainScheduleConfig_validate,
    (schedule_maximises plainScheduleConfig_validate).2.1 (.inl ⟨rfl, rfl⟩)⟩

/-- A floor of two tokens over two drafts. -/
def floorScheduleConfig : DSparkScheduleConfig ℚ where
  gamma := 2
  minVerifyLen := 2
  maxVerifyLen := 0
  survivalEps := 1 / 1000000

/-- Two requests with the confidences `[1, 0]` and `[1/2, 1]` and one token to spend.  The token
goes to the first request, whose first draft is verified anyway: the lengths are `[3, 2]`, worth
`3/2`, and `[2, 3]` are worth `2`. -/
theorem schedule_floor_not_best :
    floorScheduleConfig.validate = .ok () ∧
      IsConfidence 2 2 (rivals 1 (1 / 2 : ℚ)) ∧
      scheduleVerifyLensTopk false floorScheduleConfig 2 2 (rivals 1 (1 / 2)) 1 = [3, 2] ∧
      ¬floorScheduleConfig.Best 2 (computeSortSurvival (rivals 1 (1 / 2))) 1
        (verifyLen false floorScheduleConfig 2 2 (rivals 1 (1 / 2)) 1) := by
  obtain ⟨hfirst, hsecond⟩ :
      (candidateWindow floorScheduleConfig 2 2 (rivals 1 (1 / 2))).extra 1 0 = 1 ∧
      (candidateWindow floorScheduleConfig 2 2 (rivals 1 (1 / 2))).extra 1 1 = 0 :=
    extra_rivals (by norm_num) (by norm_num) (by norm_num [floorScheduleConfig]) (by decide)
  have hallows : floorScheduleConfig.Allows 2 (computeSortSurvival (rivals 1 (1 / 2 : ℚ))) 1
      fun r => if r = 0 then 2 else 3 :=
    allows_rivals (by norm_num [floorScheduleConfig]) (by norm_num [floorScheduleConfig])
      (by decide) (by decide) (by decide) (by decide)
  refine ⟨?_, isConfidence_rivals (by norm_num) (by norm_num) 2 2 1, ?_, ?_⟩
  · simp [DSparkScheduleConfig.validate, DSparkScheduleConfig.resolvedMaxVerifyLen,
      floorScheduleConfig]
  · simp only [scheduleVerifyLensTopk, Bool.false_eq_true, if_false, TopkWindow.selectedExtra_eq,
      List.range_succ_eq_map, List.range_zero, List.map_cons, List.map_nil]
    rw [show Nat.succ 0 = 1 from rfl, hfirst, hsecond]
    decide
  · rintro ⟨-, hbest⟩
    have hgain := hbest _ hallows
    rw [verifyGain_rivals, verifyGain_rivals, verifyLen_eq Nat.zero_lt_two,
      verifyLen_eq Nat.one_lt_two, hfirst, hsecond] at hgain
    revert hgain
    norm_num [clampVerifyLen, floorScheduleConfig, DSparkScheduleConfig.lowerBound,
      DSparkScheduleConfig.resolvedMaxVerifyLen]

end
end LatentSpec
