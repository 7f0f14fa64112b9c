import Mathlib.Algebra.Field.Rat
import LatentSpec.DsparkSchedule
import LatentSpec.SortedSearch
import LatentSpec.WhileLoop

/-! # The verify layout of a DSpark step

`schedule_layout` decides twice how many tokens a step is worth.  The budget decides how many
drafts the schedule may add, and the tier decides which captured graph the step replays.
With `align_verify_tokens_to_graph_tier` the budget is first raised to fill the graph, and
under data parallelism the tier is the largest one over the ranks.  On the device path the
lengths never reach the host, and nothing compares their sum with the graph's rows.

They fit (`scheduleLayout_fits`): this rank's own tier bounds the tokens that are scheduled,
and it is never above the floor that the graph is chosen from.
-/
namespace LatentSpec
open SortedSearch WhileLoop

variable {K : Type} [LinearOrder K]

/-! ### Capture grids -/

/-- `RaggedVerifyMode` -/
inductive RaggedVerifyMode where
  | static
  | capAccept
  | compact
  deriving DecidableEq

/-- The decode graph runner, as far as a ragged verify reads it. -/
structure DecodeCudaGraphRunner where
  raggedVerifyMode : Bool
  captureNumTokens : List ℕ
  maxBs : ℕ
  sorted : captureNumTokens.Pairwise (· ≤ ·)

/-- What planning a layout can raise. -/
inductive PlannerError where
  /-- `round_up_grid requires a non-empty grid` -/
  | emptyGrid
  /-- `total {total} exceeds max grid tier {grid[-1]}` -/
  | exceedsGrid (total last : ℕ)
  /-- `capture_num_tokens[-1]` of an empty list -/
  | indexError
  /-- `RaggedVerifyLayout requires at least one request` -/
  | noRequest
  /-- `every request must verify the anchor (verify_len >= 1)` -/
  | anchorNotVerified (verifyLensCpu : List ℕ)
  /-- `total_verify_tokens != sum(verify_lens_cpu)` -/
  | totalMismatch (verifyLensCpu : List ℕ)
  /-- `total_verify_tokens exceeds graph_num_tokens` -/
  | totalExceedsGraph (total graphNumTokens : ℕ)
  /-- `dp tier agreement present but local verify lens are None` -/
  | localLensMissing
  /-- `dp tier agreement requires the dp-global request count` -/
  | globalNumReqsMissing
  deriving DecidableEq

def raggedCaptureNumTokens (runner : Option DecodeCudaGraphRunner) : Option (List ℕ) :=
  runner.bind fun r => if r.raggedVerifyMode then some r.captureNumTokens else none

def raggedCaptureMaxSlots (runner : Option DecodeCudaGraphRunner) : Option ℕ :=
  runner.bind fun r => if r.raggedVerifyMode then some r.maxBs else none

def roundUpGrid (total : ℕ) (grid : List ℕ) : Except PlannerError ℕ :=
  match grid.getLast? with
  | none => .error .emptyGrid
  | some last =>
    if last < total then .error (.exceedsGrid total last)
    else
      match grid[bisectLeft grid total]? with
      | none => .error .indexError
      | some size => .ok size

/-- A total is rounded up, to a size of the grid. -/
theorem roundUpGrid_ok {total size : ℕ} {grid : List ℕ} (h : roundUpGrid total grid = .ok size) :
    size ∈ grid ∧ total ≤ size := by
  unfold roundUpGrid at h
  split at h
  · cases h
  · split_ifs at h
    split at h
    · cases h
    · next hget =>
      cases h
      exact ⟨List.mem_of_getElem? hget, le_of_getElem?_bisectLeft hget⟩

/-! ### Layouts -/

/-- The fields of a `RaggedVerifyLayout` before anything is known of them.  A layout made on
the device has no lengths on the host. -/
structure VerifyLayout where
  verifyLens : List ℕ
  graphNumTokens : ℕ
  verifyLensCpu : Option (List ℕ)
  totalVerifyTokens : Option ℕ
  deriving DecidableEq

/-- `__post_init__`, which checks the lengths where the host has them. -/
def VerifyLayout.postInit (layout : VerifyLayout) : Except PlannerError VerifyLayout :=
  match layout.verifyLensCpu with
  | none => .ok layout
  | some lens =>
    if lens = [] then .error .noRequest
    else if lens.any (· < 1) then .error (.anchorNotVerified lens)
    else if layout.totalVerifyTokens ≠ some lens.sum then .error (.totalMismatch lens)
    else if ¬lens.sum ≤ layout.graphNumTokens then
      .error (.totalExceedsGraph lens.sum layout.graphNumTokens)
    else .ok layout

def fromVerifyLensDevice (verifyLens : List ℕ) (graphNumTokens : ℕ) :
    Except PlannerError VerifyLayout :=
  VerifyLayout.postInit ⟨verifyLens, graphNumTokens, none, none⟩

def fromVerifyLens (verifyLensCpu grid : List ℕ) (graphNumTokensFloor : ℕ) :
    Except PlannerError VerifyLayout := do
  let totalVerifyTokens := verifyLensCpu.sum
  let bucketInput := max totalVerifyTokens graphNumTokensFloor
  let graphNumTokens ← roundUpGrid bucketInput grid
  VerifyLayout.postInit ⟨verifyLensCpu, graphNumTokens, some verifyLensCpu, some totalVerifyTokens⟩

/-- The check passes or raises; it changes nothing. -/
theorem VerifyLayout.postInit_ok {layout layout' : VerifyLayout}
    (h : layout.postInit = .ok layout') : layout' = layout := by
  unfold postInit at h
  split at h
  · cases h; rfl
  · split_ifs at h
    cases h; rfl

theorem fromVerifyLens_ok {lens grid : List ℕ} {floor : ℕ} {layout : VerifyLayout}
    (h : fromVerifyLens lens grid floor = .ok layout) :
    layout.verifyLens = lens ∧ layout.graphNumTokens ∈ grid ∧
      lens.sum ≤ layout.graphNumTokens ∧ layout.verifyLensCpu = some lens := by
  obtain ⟨size, hsize, hlayout⟩ := bind_ok h
  obtain ⟨hmem, hle⟩ := roundUpGrid_ok hsize
  obtain rfl := VerifyLayout.postInit_ok hlayout
  exact ⟨rfl, hmem, (Nat.le_max_left _ _).trans hle, rfl⟩

/-! ### Tiers -/

/-- `local_verify_tier_num_tokens`; `none` is its `-1`. -/
def localVerifyTierNumTokens (bs : ℕ) (verifyTokenBudget : Option ℕ)
    (verifyNumDraftTokens minVerifyLen : ℕ) : Option ℕ :=
  verifyTokenBudget.map fun budget =>
    let floorTokens := bs * max minVerifyLen 1
    min (floorTokens + budget) (bs * verifyNumDraftTokens)

def graphTierFillBudget (graphNumTokens bs verifyNumDraftTokens minVerifyLen : ℕ) : ℕ :=
  let fillTotal := min graphNumTokens (bs * verifyNumDraftTokens)
  let floorTokens := bs * max minVerifyLen 1
  fillTotal - floorTokens

/-- `dp_global_verify_tier_num_tokens`, of the tiers the ranks gathered. -/
def dpGlobalVerifyTierNumTokens (globalTierNumTokens : Option (List (Option ℕ))) : Option ℕ :=
  globalTierNumTokens.bind fun tiers =>
    if tiers.any Option.isNone then none
    else
      let maxTierNumTokens := (tiers.map fun tier => tier.getD 0).foldr max 0
      if 0 < maxTierNumTokens then some maxTierNumTokens else none

/-- The gathered tier is at least the tier of every rank. -/
theorem le_dpGlobalVerifyTierNumTokens {tiers : List (Option ℕ)} {tier own : ℕ}
    (h : dpGlobalVerifyTierNumTokens (some tiers) = some tier) (hown : some own ∈ tiers) :
    own ≤ tier := by
  unfold dpGlobalVerifyTierNumTokens at h
  simp only [Option.bind_some] at h
  split_ifs at h
  cases h
  exact List.le_max_of_le' 0 (List.mem_map.mpr ⟨some own, hown, rfl⟩) (Nat.le_refl own)

def verifyLayoutGrid (verifyLensCpu : List ℕ) (raggedVerifyMode : RaggedVerifyMode)
    (runner : Option DecodeCudaGraphRunner) : List ℕ :=
  let total := verifyLensCpu.sum
  if raggedVerifyMode ≠ .compact then [total]
  else (raggedCaptureNumTokens runner).getD [total]

def verifyLayoutGraphNumTokensFloor (numReqs : ℕ) (raggedVerifyMode : RaggedVerifyMode)
    (verifyNumDraftTokens : ℕ) (runner : Option DecodeCudaGraphRunner)
    (tierNumTokens : Option ℕ) : ℕ :=
  if raggedVerifyMode ≠ .compact ∨ raggedCaptureNumTokens runner = none then 0
  else
    match tierNumTokens with
    | some tier => min tier (numReqs * verifyNumDraftTokens)
    | none => numReqs * verifyNumDraftTokens

/-- A floor above zero is that of a captured graph in compact mode. -/
theorem verifyLayoutGraphNumTokensFloor_of_pos {numReqs verifyNumDraftTokens : ℕ}
    {mode : RaggedVerifyMode} {runner : Option DecodeCudaGraphRunner} {tier : Option ℕ}
    (hpos : 0 < verifyLayoutGraphNumTokensFloor numReqs mode verifyNumDraftTokens runner tier) :
    mode = .compact ∧
      verifyLayoutGraphNumTokensFloor numReqs mode verifyNumDraftTokens runner tier =
        min (tier.getD (numReqs * verifyNumDraftTokens)) (numReqs * verifyNumDraftTokens) := by
  unfold verifyLayoutGraphNumTokensFloor at hpos ⊢
  by_cases hnone : mode ≠ .compact ∨ raggedCaptureNumTokens runner = none
  · rw [if_pos hnone] at hpos
    exact absurd hpos (Nat.lt_irrefl 0)
  · rw [if_neg hnone]
    refine ⟨not_not.mp (not_or.mp hnone).1, ?_⟩
    cases tier with
    | none => exact (Nat.min_self _).symm
    | some tier => rfl

def raggedLayoutExceedsCapturedGrid (numReqs verifyNumDraftTokens : ℕ)
    (runner : Option DecodeCudaGraphRunner) (tierTokensHint : Option ℕ) :
    Except PlannerError Bool :=
  match raggedCaptureNumTokens runner with
  | none => .ok false
  | some grid =>
    if (raggedCaptureMaxSlots runner).any (· < numReqs) then .ok true
    else
      let tierTokens := tierTokensHint.getD (numReqs * verifyNumDraftTokens)
      match grid.getLast? with
      | none => .error .indexError
      | some last => .ok (decide (last < tierTokens))

def uniformRaggedLayout (bs verifyNumDraftTokens : ℕ) (raggedVerifyMode : RaggedVerifyMode)
    (runner : Option DecodeCudaGraphRunner) (tierNumReqs : Option ℕ) :
    Except PlannerError (Option VerifyLayout) := do
  let tierNumReqs := tierNumReqs.getD bs
  let exceeds ← raggedLayoutExceedsCapturedGrid tierNumReqs verifyNumDraftTokens runner none
  if exceeds then pure none
  else
    let verifyLensCpu := List.replicate bs verifyNumDraftTokens
    let grid := verifyLayoutGrid verifyLensCpu raggedVerifyMode runner
    let floor := verifyLayoutGraphNumTokensFloor tierNumReqs raggedVerifyMode
      verifyNumDraftTokens runner none
    let layout ← fromVerifyLens verifyLensCpu grid floor
    pure (some layout)

/-- Requests that verify the whole window. -/
theorem uniformRaggedLayout_ok {bs verifyNumDraftTokens : ℕ} {globalNumReqs : Option ℕ}
    {mode : RaggedVerifyMode}
    {runner : Option DecodeCudaGraphRunner} {layout : VerifyLayout}
    (h : uniformRaggedLayout bs verifyNumDraftTokens mode runner globalNumReqs =
      .ok (some layout)) :
    layout.verifyLens = List.replicate bs verifyNumDraftTokens ∧
      layout.verifyLens.sum ≤ layout.graphNumTokens ∧
      layout.graphNumTokens ∈ verifyLayoutGrid layout.verifyLens mode runner ∧
      layout.verifyLensCpu = some layout.verifyLens := by
  obtain ⟨exceeds, -, h⟩ := bind_ok h
  split_ifs at h
  · cases h
  · obtain ⟨layout', hlayout, h⟩ := bind_ok h
    cases h
    obtain ⟨hlens, hmem, hle, hcpu⟩ := fromVerifyLens_ok hlayout
    rw [hlens]
    exact ⟨rfl, hle, hmem, hcpu⟩

theorem mem_of_verifyLayoutGrid {lens grid : List ℕ} {size : ℕ} {mode : RaggedVerifyMode}
    {runner : Option DecodeCudaGraphRunner} (h : size ∈ verifyLayoutGrid lens mode runner)
    (hmode : mode = .compact) (hgrid : raggedCaptureNumTokens runner = some grid) :
    size ∈ grid := by
  simpa [verifyLayoutGrid, hmode, hgrid] using h

/-! ### The planner -/

/-- The confidences of a batch's drafts, `width` to a request. -/
structure Confidence (K : Type) where
  width : ℕ
  val : ℕ → ℕ → K

/-- `DSparkVerifyPlanner`.  The window holds the anchor and the drafts, and the configuration
is a validated one. -/
structure DSparkVerifyPlanner (K : Type) [LinearOrder K] [Zero K] where
  raggedVerifyMode : RaggedVerifyMode
  isVerifyAll : Bool
  hasBudgetPlanner : Bool
  dynamicGraphTier : Bool
  alignVerifyTokensToGraphTier : Bool
  scheduleCfg : DSparkScheduleConfig K
  verifyNumDraftTokens : ℕ
  decodeCudaGraphRunner : Option DecodeCudaGraphRunner
  onCuda : Bool
  validated : scheduleCfg.validate = .ok ()
  window : verifyNumDraftTokens = scheduleCfg.gamma + 1

namespace DSparkVerifyPlanner
variable [Zero K] (p : DSparkVerifyPlanner K)

/-- `_budget_aligned_to_graph_tier` -/
def budgetAlignedToGraphTier (bs : ℕ) (budget globalNumReqs dpTierNumTokens : Option ℕ) :
    Except PlannerError (Option ℕ) :=
  if !p.alignVerifyTokensToGraphTier || budget.isNone then .ok budget
  else
    let tierNumReqs := globalNumReqs.getD bs
    let tierNumTokens :=
      if dpTierNumTokens.isSome then dpTierNumTokens
      else if p.dynamicGraphTier then
        localVerifyTierNumTokens tierNumReqs budget p.verifyNumDraftTokens
          p.scheduleCfg.minVerifyLen
      else none
    let floor := verifyLayoutGraphNumTokensFloor tierNumReqs p.raggedVerifyMode
      p.verifyNumDraftTokens p.decodeCudaGraphRunner tierNumTokens
    match raggedCaptureNumTokens p.decodeCudaGraphRunner with
    | none => .ok budget
    | some grid =>
      if floor ≤ 0 then .ok budget
      else
        (roundUpGrid floor grid).map fun graphNumTokens =>
          some (graphTierFillBudget graphNumTokens bs p.verifyNumDraftTokens
            p.scheduleCfg.minVerifyLen)

/-- The tier that `schedule_layout` sizes the graph by. -/
def tierNumTokens (tierNumReqs : ℕ) (budget dpTierNumTokens : Option ℕ) : Option ℕ :=
  if dpTierNumTokens.isSome then dpTierNumTokens
  else if p.dynamicGraphTier && budget.isSome then
    localVerifyTierNumTokens tierNumReqs budget p.verifyNumDraftTokens p.scheduleCfg.minVerifyLen
  else none

/-- The rows that the captured graph must at least have. -/
def graphNumTokensFloor (bs : ℕ) (budget globalNumReqs dpTierNumTokens : Option ℕ) : ℕ :=
  let tierNumReqs := globalNumReqs.getD bs
  verifyLayoutGraphNumTokensFloor tierNumReqs p.raggedVerifyMode p.verifyNumDraftTokens
    p.decodeCudaGraphRunner (p.tierNumTokens tierNumReqs budget dpTierNumTokens)

/-- `schedule_layout`, once the lengths are scheduled. -/
def layoutOfVerifyLens (verifyLens : List ℕ) (budget globalNumReqs dpTierNumTokens : Option ℕ) :
    Except PlannerError (Option VerifyLayout) :=
  let bs := verifyLens.length
  let tierNumReqs := globalNumReqs.getD bs
  if dpTierNumTokens.isSome && globalNumReqs.isNone then .error .globalNumReqsMissing
  else do
    let exceeds ← raggedLayoutExceedsCapturedGrid tierNumReqs p.verifyNumDraftTokens
      p.decodeCudaGraphRunner (p.tierNumTokens tierNumReqs budget dpTierNumTokens)
    if exceeds then pure none
    else
      match (if 0 < p.graphNumTokensFloor bs budget globalNumReqs dpTierNumTokens then
        raggedCaptureNumTokens p.decodeCudaGraphRunner else none) with
      | some grid =>
        let graphNumTokens ← roundUpGrid
          (p.graphNumTokensFloor bs budget globalNumReqs dpTierNumTokens) grid
        let layout ← fromVerifyLensDevice verifyLens graphNumTokens
        pure (some layout)
      | none =>
        let grid := verifyLayoutGrid verifyLens p.raggedVerifyMode p.decodeCudaGraphRunner
        let layout ← fromVerifyLens verifyLens grid
          (p.graphNumTokensFloor bs budget globalNumReqs dpTierNumTokens)
        pure (some layout)

section
variable {p} {bs : ℕ} {budget globalNumReqs dpTierNumTokens : Option ℕ}

/-- Both functions read the same tier, so the alignment rounds the layout's own floor up. -/
theorem budgetAlignedToGraphTier_eq (halign : p.alignVerifyTokensToGraphTier = true)
    (hbudget : budget.isSome = true) :
    p.budgetAlignedToGraphTier bs budget globalNumReqs dpTierNumTokens =
      match raggedCaptureNumTokens p.decodeCudaGraphRunner with
      | none => .ok budget
      | some grid =>
        if p.graphNumTokensFloor bs budget globalNumReqs dpTierNumTokens ≤ 0 then .ok budget
        else
          (roundUpGrid (p.graphNumTokensFloor bs budget globalNumReqs dpTierNumTokens) grid).map
            fun size => some (graphTierFillBudget size bs p.verifyNumDraftTokens
              p.scheduleCfg.minVerifyLen) := by
  have hon : (!p.alignVerifyTokensToGraphTier || budget.isNone) = false := by
    rw [halign, ← Option.not_isSome, hbudget]
    rfl
  simp only [budgetAlignedToGraphTier, hon, Bool.false_eq_true, if_false, graphNumTokensFloor,
    tierNumTokens, hbudget, Bool.and_true]

/-- The aligned budget is the budget, or fills the graph that the layout replays. -/
theorem budgetAlignedToGraphTier_ok {aligned : Option ℕ}
    (h : p.budgetAlignedToGraphTier bs budget globalNumReqs dpTierNumTokens = .ok aligned) :
    aligned = budget ∨ budget.isSome ∧ ∃ grid size,
      raggedCaptureNumTokens p.decodeCudaGraphRunner = some grid ∧
      roundUpGrid (p.graphNumTokensFloor bs budget globalNumReqs dpTierNumTokens) grid = .ok size ∧
      aligned = some (graphTierFillBudget size bs p.verifyNumDraftTokens
        p.scheduleCfg.minVerifyLen) := by
  by_cases hon : p.alignVerifyTokensToGraphTier = true ∧ budget.isSome = true
  · obtain ⟨halign, hbudget⟩ := hon
    rw [budgetAlignedToGraphTier_eq halign hbudget] at h
    split at h
    · cases h
      exact .inl rfl
    · next grid hgrid =>
      split_ifs at h
      · cases h
        exact .inl rfl
      · obtain ⟨size, hsize, h⟩ := map_ok h
        exact .inr ⟨hbudget, grid, size, hgrid, hsize, h.symm⟩
  · have hoff : (!p.alignVerifyTokensToGraphTier || budget.isNone) = true := by
      rw [Bool.or_eq_true_iff, Bool.not_eq_true', Option.isNone_iff_eq_none]
      by_contra hboth
      push Not at hboth
      exact hon ⟨eq_true_of_ne_false hboth.1, Option.isSome_iff_ne_none.mpr hboth.2⟩
    unfold budgetAlignedToGraphTier at h
    rw [if_pos hoff] at h
    cases h
    exact .inl rfl

/-- A layout of scheduled lengths is checked on the host, or its graph is the floor rounded
up. -/
theorem layoutOfVerifyLens_ok {verifyLens : List ℕ} {layout : VerifyLayout}
    (h : p.layoutOfVerifyLens verifyLens budget globalNumReqs dpTierNumTokens =
      .ok (some layout)) :
    layout.verifyLens = verifyLens ∧
      ((layout.verifyLensCpu = some verifyLens ∧ verifyLens.sum ≤ layout.graphNumTokens ∧
        layout.graphNumTokens ∈
          verifyLayoutGrid verifyLens p.raggedVerifyMode p.decodeCudaGraphRunner) ∨
      (0 < p.graphNumTokensFloor verifyLens.length budget globalNumReqs dpTierNumTokens ∧
        ∃ grid, raggedCaptureNumTokens p.decodeCudaGraphRunner = some grid ∧
        roundUpGrid (p.graphNumTokensFloor verifyLens.length budget globalNumReqs dpTierNumTokens)
          grid = .ok layout.graphNumTokens)) := by
  unfold layoutOfVerifyLens at h
  dsimp only at h
  split at h
  · cases h
  obtain ⟨exceeds, -, h⟩ := bind_ok h
  split at h
  · cases h
  split at h
  · next grid hgrid =>
    obtain ⟨hpos, hgrid⟩ := Option.ite_none_right_eq_some.mp hgrid
    obtain ⟨size, hsize, h⟩ := bind_ok h
    obtain ⟨layout', hlayout, h⟩ := bind_ok h
    cases h
    obtain rfl := VerifyLayout.postInit_ok hlayout
    exact ⟨rfl, .inr ⟨hpos, grid, hgrid, hsize⟩⟩
  · obtain ⟨layout', hlayout, h⟩ := bind_ok h
    cases h
    obtain ⟨rfl, hmem, hle, hcpu⟩ := fromVerifyLens_ok hlayout
    exact ⟨rfl, .inl ⟨hcpu, hle, hmem⟩⟩

/-- **This rank's own tier is never above the floor of the graph**, whichever tier the floor
comes from. -/
theorem own_le_graphNumTokensFloor {b : ℕ} (hbudget : budget = some b)
    (hglobal : ∀ n ∈ globalNumReqs, bs ≤ n)
    (hdp : ∀ tier ∈ dpTierNumTokens, ∀ own ∈ localVerifyTierNumTokens bs budget
      p.verifyNumDraftTokens p.scheduleCfg.minVerifyLen, own ≤ tier)
    (hpos : 0 < p.graphNumTokensFloor bs budget globalNumReqs dpTierNumTokens) :
    min (bs * p.scheduleCfg.lowerBound + b) (bs * p.verifyNumDraftTokens) ≤
      p.graphNumTokensFloor bs budget globalNumReqs dpTierNumTokens := by
  have hreqs : bs ≤ globalNumReqs.getD bs := by
    cases globalNumReqs with
    | none => exact Nat.le_refl bs
    | some n => exact hglobal n rfl
  have hfloor := Nat.mul_le_mul_right p.scheduleCfg.lowerBound hreqs
  have hwindow := Nat.mul_le_mul_right p.verifyNumDraftTokens hreqs
  subst hbudget
  unfold graphNumTokensFloor at hpos ⊢
  rw [(verifyLayoutGraphNumTokensFloor_of_pos hpos).2]
  unfold DSparkScheduleConfig.lowerBound at hfloor ⊢
  -- the floor is the gathered tier, the tier of all requests, or the whole window of each
  cases dpTierNumTokens with
  | some tier =>
    have hown : min (bs * max p.scheduleCfg.minVerifyLen 1 + b) (bs * p.verifyNumDraftTokens) ≤
        tier := hdp tier rfl _ rfl
    simp only [tierNumTokens, Option.isSome_some, if_true, Option.getD_some]
    omega
  | none =>
    by_cases hdynamic : p.dynamicGraphTier
    · simp only [tierNumTokens, hdynamic, Option.isSome_none, Option.isSome_some, Bool.and_self,
        Bool.false_eq_true, if_false, if_true, localVerifyTierNumTokens, Option.map_some,
        Option.getD_some]
      omega
    · simp only [tierNumTokens, hdynamic, Option.isSome_none, Bool.false_and, Bool.false_eq_true,
        if_false, Option.getD_none]
      omega

end

/-! ### The schedule -/

variable [One K] [Mul K]

/-- `_schedule_verify_lens` -/
def scheduleVerifyLens (bs : ℕ) (confidence : Option (Confidence K)) (budget : Option ℕ) :
    Option (List ℕ) :=
  match p.hasBudgetPlanner, confidence, budget with
  | true, some c, some budget =>
    some (scheduleVerifyLensTopk p.onCuda p.scheduleCfg bs c.width c.val budget)
  | _, _, _ => none

def scheduleLayout (bs : ℕ) (confidence : Option (Confidence K))
    (budget globalNumReqs dpTierNumTokens : Option ℕ) :
    Except PlannerError (Option VerifyLayout) :=
  if p.raggedVerifyMode = .static then pure none
  else if p.isVerifyAll && p.raggedVerifyMode = .compact then
    uniformRaggedLayout bs p.verifyNumDraftTokens p.raggedVerifyMode p.decodeCudaGraphRunner
      globalNumReqs
  else do
    let aligned ← p.budgetAlignedToGraphTier bs budget globalNumReqs dpTierNumTokens
    match p.scheduleVerifyLens bs confidence aligned with
    | none =>
      if dpTierNumTokens.isSome then .error .localLensMissing
      else if p.raggedVerifyMode = .compact then
        uniformRaggedLayout bs p.verifyNumDraftTokens p.raggedVerifyMode p.decodeCudaGraphRunner
          globalNumReqs
      else pure none
    | some verifyLens => p.layoutOfVerifyLens verifyLens budget globalNumReqs dpTierNumTokens

/-! ### What a layout can be -/

variable {p} {bs : ℕ} {confidence : Option (Confidence K)}
  {budget globalNumReqs dpTierNumTokens : Option ℕ}

theorem scheduleVerifyLens_ok {lens : List ℕ}
    (h : p.scheduleVerifyLens bs confidence budget = some lens) :
    ∃ b, budget = some b ∧ lens.length = bs ∧
      (∀ n ∈ lens, 1 ≤ n ∧ n ≤ p.verifyNumDraftTokens) ∧
      lens.sum ≤ bs * p.scheduleCfg.lowerBound + b ∧ lens.sum ≤ bs * p.verifyNumDraftTokens := by
  unfold scheduleVerifyLens at h
  split at h
  · next c b _ =>
    cases h
    rw [p.window]
    exact ⟨b, rfl, length_scheduleVerifyLensTopk ..,
      fun n hn => verifyLens_mem _ _ _ _ _ p.validated hn,
      verifyLens_sum_le .., verifyLens_sum_le_window _ _ _ _ _ p.validated⟩
  · cases h

/-- The lengths scheduled under the aligned budget fit a graph of the floor's size. -/
theorem verifyLens_sum_le_graph {size : ℕ} {aligned : Option ℕ} {grid lens : List ℕ}
    (hglobal : ∀ n ∈ globalNumReqs, bs ≤ n)
    (hdp : ∀ tier ∈ dpTierNumTokens, ∀ own ∈ localVerifyTierNumTokens bs budget
      p.verifyNumDraftTokens p.scheduleCfg.minVerifyLen, own ≤ tier)
    (halign : p.budgetAlignedToGraphTier bs budget globalNumReqs dpTierNumTokens = .ok aligned)
    (hlens : p.scheduleVerifyLens bs confidence aligned = some lens)
    (hgrid : raggedCaptureNumTokens p.decodeCudaGraphRunner = some grid)
    (hpos : 0 < p.graphNumTokensFloor bs budget globalNumReqs dpTierNumTokens)
    (hsize : roundUpGrid (p.graphNumTokensFloor bs budget globalNumReqs dpTierNumTokens) grid =
      .ok size) :
    lens.sum ≤ size := by
  obtain ⟨-, hle⟩ := roundUpGrid_ok hsize
  obtain ⟨b, haligned, -, -, hbudgeted, hwindow⟩ := scheduleVerifyLens_ok hlens
  rcases budgetAlignedToGraphTier_ok halign with heq | ⟨hsome, grid', size', hgrid', hsize', hfill⟩
  · have hown := own_le_graphNumTokensFloor (heq.symm.trans haligned) hglobal hdp hpos
    omega
  · -- the budget fills the graph that is replayed, up to the floor of every request
    obtain ⟨b', hb'⟩ := Option.isSome_iff_exists.mp hsome
    have hown := own_le_graphNumTokensFloor hb' hglobal hdp hpos
    obtain rfl : grid' = grid := Option.some.inj (hgrid'.symm.trans hgrid)
    obtain rfl : size' = size := Except.ok.inj (hsize'.symm.trans hsize)
    obtain rfl : b = graphTierFillBudget size' bs p.verifyNumDraftTokens
        p.scheduleCfg.minVerifyLen := Option.some.inj (haligned.symm.trans hfill)
    have hfloor := Nat.mul_le_mul_left bs
      (p.window ▸ (DSparkScheduleConfig.le_of_validate p.validated).1.trans
        (DSparkScheduleConfig.le_of_validate p.validated).2 :
        p.scheduleCfg.lowerBound ≤ p.verifyNumDraftTokens)
    unfold graphTierFillBudget at hbudgeted
    dsimp only at hbudgeted
    unfold DSparkScheduleConfig.lowerBound at hbudgeted hown hfloor
    omega

end DSparkVerifyPlanner

/-- What a layout must meet to be verified in one forward. -/
structure VerifyLayout.Fits (layout : VerifyLayout) (verifyNumDraftTokens : ℕ)
    (mode : RaggedVerifyMode) (runner : Option DecodeCudaGraphRunner) : Prop where
  lens_mem : ∀ n ∈ layout.verifyLens, 1 ≤ n ∧ n ≤ verifyNumDraftTokens
  total_le : layout.verifyLens.sum ≤ layout.graphNumTokens
  /-- A layout made on the device replays a captured graph. -/
  device : layout.verifyLensCpu = none → ∃ grid,
    raggedCaptureNumTokens runner = some grid ∧ layout.graphNumTokens ∈ grid
  /-- In compact mode every layout replays one, when there is any. -/
  captured : mode = .compact → ∀ grid ∈ raggedCaptureNumTokens runner,
    layout.graphNumTokens ∈ grid

theorem uniformRaggedLayout_fits {bs verifyNumDraftTokens : ℕ} {mode : RaggedVerifyMode}
    {runner : Option DecodeCudaGraphRunner} {globalNumReqs : Option ℕ} {layout : VerifyLayout}
    (hwindow : 1 ≤ verifyNumDraftTokens)
    (h : uniformRaggedLayout bs verifyNumDraftTokens mode runner globalNumReqs =
      .ok (some layout)) :
    layout.Fits verifyNumDraftTokens mode runner := by
  obtain ⟨hlens, hle, hmem, hcpu⟩ := uniformRaggedLayout_ok h
  refine ⟨fun n hn => ?_, hle, fun hdevice => ?_, fun hmode grid hgrid => ?_⟩
  · rw [hlens] at hn
    obtain rfl := List.eq_of_mem_replicate hn
    exact ⟨hwindow, Nat.le_refl n⟩
  · rw [hcpu] at hdevice
    cases hdevice
  · exact mem_of_verifyLayoutGrid hmem hmode hgrid

namespace DSparkVerifyPlanner
variable [Zero K] [One K] [Mul K]

/-- **Scheduled layouts fit**: every request verifies between its anchor and the window, the
tokens have rows in the graph, and the graph is a captured one. -/
theorem scheduleLayout_fits (p : DSparkVerifyPlanner K) (bs : ℕ)
    (confidence : Option (Confidence K)) (budget globalNumReqs dpTierNumTokens : Option ℕ)
    (hglobal : ∀ n ∈ globalNumReqs, bs ≤ n)
    (hdp : ∀ tier ∈ dpTierNumTokens, ∀ own ∈ localVerifyTierNumTokens bs budget
      p.verifyNumDraftTokens p.scheduleCfg.minVerifyLen, own ≤ tier)
    (layout : VerifyLayout)
    (hlayout : p.scheduleLayout bs confidence budget globalNumReqs dpTierNumTokens =
      .ok (some layout)) :
    layout.Fits p.verifyNumDraftTokens p.raggedVerifyMode p.decodeCudaGraphRunner := by
  have hwindow : 1 ≤ p.verifyNumDraftTokens := p.window ▸ Nat.le_add_left 1 _
  unfold scheduleLayout at hlayout
  split at hlayout
  · cases hlayout
  split at hlayout
  · exact uniformRaggedLayout_fits hwindow hlayout
  obtain ⟨aligned, halign, hsched⟩ := bind_ok hlayout
  clear hlayout
  split at hsched
  · split at hsched
    · cases hsched
    split at hsched
    · exact uniformRaggedLayout_fits hwindow hsched
    · cases hsched
  · next lens hlens =>
    obtain ⟨b, -, rfl, hmem, -⟩ := scheduleVerifyLens_ok hlens
    rcases layoutOfVerifyLens_ok hsched with ⟨rfl, ⟨hcpu, hle, hgrid⟩ | ⟨hpos, grid, hgrid, hsize⟩⟩
    · refine ⟨hmem, hle, fun hdevice => ?_, fun hmode grid hg => ?_⟩
      · rw [hcpu] at hdevice
        cases hdevice
      · exact mem_of_verifyLayoutGrid hgrid hmode hg
    · have hin := (roundUpGrid_ok hsize).1
      refine ⟨hmem, verifyLens_sum_le_graph hglobal hdp halign hlens hgrid hpos hsize,
        fun _ => ⟨grid, hgrid, hin⟩, fun _ grid' hg => ?_⟩
      obtain rfl : grid = grid' := Option.some.inj (hgrid.symm.trans hg)
      exact hin

/-- Two requests of two drafts, a budget of one, and graphs of four and six rows. -/
def alignedPlanner : DSparkVerifyPlanner ℚ where
  raggedVerifyMode := .compact
  isVerifyAll := false
  hasBudgetPlanner := true
  dynamicGraphTier := true
  alignVerifyTokensToGraphTier := true
  scheduleCfg := ⟨2, 1, 0, 1 / 1000000⟩
  verifyNumDraftTokens := 3
  decodeCudaGraphRunner := some ⟨true, [4, 6], 8, by decide⟩
  onCuda := true
  validated := by decide +kernel
  window := rfl

/-- The other rank's tier is four. -/
theorem scheduleLayout_fits_aligned :
    VerifyLayout.Fits ⟨[2, 2], 4, none, none⟩ alignedPlanner.verifyNumDraftTokens
      alignedPlanner.raggedVerifyMode alignedPlanner.decodeCudaGraphRunner := by
  refine scheduleLayout_fits alignedPlanner 2 (some ⟨2, fun r _ => if r = 0 then 1 / 2 else 1 / 4⟩)
    (some 1) (some 2) (dpGlobalVerifyTierNumTokens (some [some 3, some 4]))
    (fun n hn => (Option.some.inj hn).le) (fun tier htier own hown => ?_)
    ⟨[2, 2], 4, none, none⟩ ?_
  · refine le_dpGlobalVerifyTierNumTokens htier ?_
    obtain rfl : 3 = own := Option.some.inj hown
    decide
  · decide +kernel

end DSparkVerifyPlanner

end LatentSpec
