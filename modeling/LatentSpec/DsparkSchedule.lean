import Mathlib.Algebra.BigOperators.Group.List.Basic
import Mathlib.Order.WithBot
import LatentSpec.RankSelection
import LatentSpec.TiledStores

/-! # The verify lengths of a DSpark step

The drafts of a batch are ranked by survival probability and the best `budget` of them are
verified (`ScheduleVerifyLensTopk`).  The reference sorts the candidates; the kernel counts,
for every candidate, those before it, and keeps the candidate when the count is below the
budget.  Either way at most `budget` candidates are kept, whatever the probabilities are, and
so the lengths add up to at most `budget` above the floor (`verifyLens_sum_le`).
-/
namespace LatentSpec
open TiledStores RankSelection

variable {K : Type} [LinearOrder K]

/-- `DSparkScheduleConfig`. -/
structure DSparkScheduleConfig (K : Type) where
  gamma : ℕ
  minVerifyLen : ℕ
  maxVerifyLen : ℕ
  survivalEps : K

/-- The `ValueError`s of `DSparkScheduleConfig.validate`. -/
inductive ScheduleConfigError (K : Type) where
  /-- `DSpark gamma must be >= 1` -/
  | gamma (gamma : ℕ)
  /-- `DSpark verify-len config must satisfy 0 <= min <= max <= gamma+1` -/
  | verifyLen (minLen maxLen gamma : ℕ)
  /-- `survival_eps must be >= 0` -/
  | survivalEps (eps : K)
  deriving DecidableEq

namespace DSparkScheduleConfig
variable (cfg : DSparkScheduleConfig K)

def resolvedMaxVerifyLen : ℕ := if cfg.maxVerifyLen = 0 then cfg.gamma + 1 else cfg.maxVerifyLen

def validate [Zero K] : Except (ScheduleConfigError K) Unit :=
  let maxLen := cfg.resolvedMaxVerifyLen
  if cfg.gamma < 1 then .error (.gamma cfg.gamma)
  else if ¬(cfg.minVerifyLen ≤ maxLen ∧ maxLen ≤ cfg.gamma + 1) then
    .error (.verifyLen cfg.minVerifyLen maxLen cfg.gamma)
  else if cfg.survivalEps < 0 then .error (.survivalEps cfg.survivalEps)
  else .ok ()

/-- The tokens every request verifies whatever its confidence is. -/
def lowerBound : ℕ := max cfg.minVerifyLen 1

variable {cfg}

omit [LinearOrder K] in
theorem one_le_lowerBound : 1 ≤ cfg.lowerBound := Nat.le_max_right _ _

/-- A validated configuration leaves room for the floor below the cap, and for the cap in
the window. -/
theorem le_of_validate [Zero K] (h : cfg.validate = .ok ()) :
    cfg.lowerBound ≤ cfg.resolvedMaxVerifyLen ∧ cfg.resolvedMaxVerifyLen ≤ cfg.gamma + 1 := by
  obtain ⟨hmin, hmax⟩ : cfg.minVerifyLen ≤ cfg.resolvedMaxVerifyLen ∧
      cfg.resolvedMaxVerifyLen ≤ cfg.gamma + 1 := by
    by_contra hlen
    simp only [validate, hlen, not_false_eq_true, if_true] at h
    split at h <;> cases h
  have hpos : 1 ≤ cfg.resolvedMaxVerifyLen := by
    unfold resolvedMaxVerifyLen
    split_ifs with hzero
    · exact Nat.le_add_left 1 cfg.gamma
    · exact Nat.one_le_iff_ne_zero.mpr hzero
  exact ⟨max_le hmin hpos, hmax⟩

end DSparkScheduleConfig

/-! ### The candidates -/

/-- `compute_sort_survival`: the running products of a row of confidences. -/
def computeSortSurvival [Mul K] [One K] (confidence : ℕ → ℕ → K) (r p : ℕ) : K :=
  ((List.range (p + 1)).map (confidence r)).prod

/-- The candidates of a step: the first `cols` positions of every request, flattened. -/
structure TopkWindow (K : Type) where
  numRequests : ℕ
  cols : ℕ
  survival : ℕ → ℕ → K
  survivalEps : K

/-- `survival_probs[:, :max_len]` -/
def candidateWindow [Mul K] [One K] (cfg : DSparkScheduleConfig K) (bs width : ℕ)
    (confidence : ℕ → ℕ → K) : TopkWindow K where
  numRequests := bs
  cols := min cfg.resolvedMaxVerifyLen width
  survival := computeSortSurvival confidence
  survivalEps := cfg.survivalEps

namespace TopkWindow
variable (w : TopkWindow K)

def numCandidates : ℕ := w.numRequests * w.cols
def request (c : ℕ) : ℕ := c / w.cols
def position (c : ℕ) : ℕ := c % w.cols

def valid (c : ℕ) : Bool := decide (w.survivalEps ≤ w.survival (w.request c) (w.position c))

/-- `torch.where(valid, probs, -inf)` -/
def maskedProb (c : ℕ) : WithBot K :=
  if w.valid c then (w.survival (w.request c) (w.position c) : WithBot K) else ⊥

/-- `_value_independent_descending_order`: three stable sorts, the last one by descending
probability. -/
def valueIndependentDescendingOrder : List ℕ :=
  let order := List.range w.numCandidates
  let order := order.mergeSort fun a b => decide (w.request a ≤ w.request b)
  let order := order.mergeSort fun a b => decide (w.position a ≤ w.position b)
  order.mergeSort fun a b => decide (w.maskedProb b ≤ w.maskedProb a)

/-- The extra tokens of a request in `schedule_verify_lens_topk_from_survival`. -/
def selectedExtra (budget r : ℕ) : ℕ :=
  if 0 < budget then
    let take := min budget w.numCandidates
    let chosen := w.valueIndependentDescendingOrder.take take
    chosen.countP fun c => decide (w.request c = r) && w.valid c
  else 0

/-- `before` in `_schedule_topk_selected_extra_kernel`. -/
def before (cp c : ℕ) : Bool :=
  let gt := decide (w.maskedProb c < w.maskedProb cp)
  let eq := decide (w.maskedProb cp = w.maskedProb c)
  let posLt := decide (w.position cp < w.position c)
  let posEq := decide (w.position cp = w.position c)
  let reqLt := decide (w.request cp < w.request c)
  gt || (eq && (posLt || (posEq && reqLt)))

/-- `BLOCK_C` -/
def blockC : ℕ := 64
/-- `BLOCK_CP` -/
def blockCp : ℕ := 256

/-- `_schedule_topk_selected_extra_kernel`: each lane counts the candidates before its own,
tile by tile, and adds itself to its request when the count is below the budget. -/
def selectedExtraTriton (budget r : ℕ) : ℕ :=
  if 0 < budget ∧ 0 < w.numCandidates then
    (tiles blockC w.numCandidates).countP fun c =>
      decide (w.request c = r) &&
        (w.valid c && decide (rank w.before (tiles blockCp w.numCandidates) c < budget))
  else 0

end TopkWindow

/-! ### The lengths -/

/-- `torch.clamp(min_len + selected_extra, lower_bound, max_len)`, also
`_schedule_topk_finalize_kernel`. -/
def clampVerifyLen (cfg : DSparkScheduleConfig K) (extra : ℕ) : ℕ :=
  min (max (cfg.minVerifyLen + extra) cfg.lowerBound) cfg.resolvedMaxVerifyLen

/-- `ScheduleVerifyLensTopk.execute`: the kernel on a GPU, the reference elsewhere. -/
def scheduleVerifyLensTopk [Mul K] [One K] (onCuda : Bool) (cfg : DSparkScheduleConfig K)
    (bs width : ℕ) (confidence : ℕ → ℕ → K) (budget : ℕ) : List ℕ :=
  let w := candidateWindow cfg bs width confidence
  let extra := if onCuda then w.selectedExtraTriton budget else w.selectedExtra budget
  (List.range bs).map fun r => clampVerifyLen cfg (extra r)

namespace TopkWindow
variable {w : TopkWindow K}

theorem sum_selectedExtra_le (w : TopkWindow K) (budget bs : ℕ) :
    ((List.range bs).map (w.selectedExtra budget)).sum ≤ budget := by
  unfold selectedExtra
  by_cases hb : 0 < budget
  · simp only [hb, if_true]
    have hlabel := sum_countP_label_le
      (w.valueIndependentDescendingOrder.take (min budget w.numCandidates)) w.request w.valid bs
    have hcount := List.countP_le_length (p := w.valid)
      (l := w.valueIndependentDescendingOrder.take (min budget w.numCandidates))
    rw [List.length_take] at hcount
    omega
  · simp [hb]

theorem before_irrefl (c : ℕ) : w.before c c = false := by
  simp [before]

theorem before_trans (a b c : ℕ) (hab : w.before a b) (hbc : w.before b c) : w.before a c := by
  simp only [before, Bool.or_eq_true, Bool.and_eq_true, decide_eq_true_eq] at hab hbc ⊢
  rcases hab with hab | ⟨hab, hab'⟩ <;> rcases hbc with hbc | ⟨hbc, hbc'⟩
  · exact .inl (hbc.trans hab)
  · exact .inl (hbc ▸ hab)
  · exact .inl (hab ▸ hbc)
  · exact .inr ⟨hab.trans hbc, by omega⟩

/-- Two candidates with one probability are told apart by position and request. -/
theorem before_total {a b : ℕ} (hne : a ≠ b) : w.before a b ∨ w.before b a := by
  simp only [before, Bool.or_eq_true, Bool.and_eq_true, decide_eq_true_eq]
  rcases lt_trichotomy (w.maskedProb a) (w.maskedProb b) with hlt | heq | hgt
  · exact .inr (.inl hlt)
  · have hplace : w.position a ≠ w.position b ∨ w.request a ≠ w.request b := by
      by_contra hsame
      push Not at hsame
      apply hne
      rw [← Nat.div_add_mod a w.cols, ← Nat.div_add_mod b w.cols]
      exact congrArg₂ (fun q m => w.cols * q + m) hsame.2 hsame.1
    rcases Nat.lt_trichotomy (w.position a) (w.position b) with hp | hp | hp
    · exact .inl (.inr ⟨heq, .inl hp⟩)
    · rcases Nat.lt_or_gt_of_ne (hplace.resolve_left (not_not.mpr hp)) with hr | hr
      · exact .inl (.inr ⟨heq, .inr ⟨hp, hr⟩⟩)
      · exact .inr (.inr ⟨heq.symm, .inr ⟨hp.symm, hr⟩⟩)
    · exact .inr (.inr ⟨heq.symm, .inl hp⟩)
  · exact .inl (.inl hgt)

/-- The candidates are ordered strictly, and no two are level. -/
theorem strictOrder (w : TopkWindow K) :
    StrictOrder w.before (List.range w.numCandidates) where
  nodup := List.nodup_range
  irrefl := before_irrefl
  trans := before_trans
  total := fun _ _ _ _ hne => before_total hne

theorem sum_selectedExtraTriton_le (w : TopkWindow K) (budget bs : ℕ) :
    ((List.range bs).map (w.selectedExtraTriton budget)).sum ≤ budget := by
  unfold selectedExtraTriton
  by_cases hb : 0 < budget ∧ 0 < w.numCandidates
  · simp only [hb, and_self, if_true, tiles_eq_range (show 0 < blockC by decide),
      tiles_eq_range (show 0 < blockCp by decide)]
    have hrank := w.strictOrder.countP_rank_lt budget
    refine (sum_countP_label_le _ w.request _ bs).trans
      (le_trans ?_ (hrank.le.trans (min_le_left _ _)))
    exact List.countP_mono_left fun c _ hc => (Bool.and_eq_true_iff.mp hc).2
  · simp [hb]

end TopkWindow

omit [LinearOrder K] in
theorem clampVerifyLen_le (cfg : DSparkScheduleConfig K) (extra : ℕ) :
    clampVerifyLen cfg extra ≤ cfg.lowerBound + extra := by
  have hmin : cfg.minVerifyLen ≤ cfg.lowerBound := Nat.le_max_left _ _
  unfold clampVerifyLen
  omega

variable [Mul K] [One K] (onCuda : Bool) (cfg : DSparkScheduleConfig K) (bs width : ℕ)
  (confidence : ℕ → ℕ → K) (budget : ℕ)

@[simp] theorem length_scheduleVerifyLensTopk :
    (scheduleVerifyLensTopk onCuda cfg bs width confidence budget).length = bs := by
  simp [scheduleVerifyLensTopk]

/-- **The schedule keeps to its budget**: above the floor of every request, the lengths add
up to at most `budget`. -/
theorem verifyLens_sum_le :
    (scheduleVerifyLensTopk onCuda cfg bs width confidence budget).sum ≤
      bs * cfg.lowerBound + budget := by
  have hextra : ∀ extra : ℕ → ℕ, ((List.range bs).map extra).sum ≤ budget →
      ((List.range bs).map fun r => clampVerifyLen cfg (extra r)).sum ≤
        bs * cfg.lowerBound + budget := by
    intro extra hle
    calc ((List.range bs).map fun r => clampVerifyLen cfg (extra r)).sum
        ≤ ((List.range bs).map fun r => cfg.lowerBound + extra r).sum :=
          List.sum_le_sum fun r _ => clampVerifyLen_le cfg (extra r)
      _ = bs * cfg.lowerBound + ((List.range bs).map extra).sum := by
          rw [List.sum_map_add]; simp
      _ ≤ bs * cfg.lowerBound + budget := Nat.add_le_add_left hle _
  cases onCuda
  · exact hextra _ (TopkWindow.sum_selectedExtra_le _ budget bs)
  · exact hextra _ (TopkWindow.sum_selectedExtraTriton_le _ budget bs)

variable [Zero K] {cfg} (h : cfg.validate = .ok ())
include h

/-- Every request verifies its anchor, and no more than the window. -/
theorem verifyLens_mem {n : ℕ}
    (hn : n ∈ scheduleVerifyLensTopk onCuda cfg bs width confidence budget) :
    1 ≤ n ∧ n ≤ cfg.gamma + 1 := by
  obtain ⟨r, -, rfl⟩ := List.mem_map.mp hn
  obtain ⟨hfloor, hcap⟩ := DSparkScheduleConfig.le_of_validate h
  have hone := cfg.one_le_lowerBound
  unfold clampVerifyLen
  omega

theorem verifyLens_sum_le_window :
    (scheduleVerifyLensTopk onCuda cfg bs width confidence budget).sum ≤ bs * (cfg.gamma + 1) := by
  have hle := List.sum_le_card_nsmul
    (scheduleVerifyLensTopk onCuda cfg bs width confidence budget) (cfg.gamma + 1)
    fun n hn => (verifyLens_mem onCuda bs width confidence budget h hn).2
  rwa [length_scheduleVerifyLensTopk, smul_eq_mul] at hle

end LatentSpec
