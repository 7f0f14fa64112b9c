import Mathlib.Data.Rat.Floor
import Mathlib.Tactic.Positivity
import LatentSpec.Histograms

/-! # Confidence metrics at every position

`PerPositionConfidenceMetrics` judges the predicted acceptance probabilities of a block.  It
never keeps an observation: every update is scattered into histograms that are flattened over
the positions of the block, the ranks add their histograms up, and `compute` derives its report
from the sums (`deepspec/eval/myspec/confidence_head.py`).

The report is compared with `report`, which is defined from the list of the observations.
Numbers are exact here.
-/
namespace LatentSpec
open Histograms TiledStores
open scoped Histograms

variable {K : Type} [Field K] [LinearOrder K] [FloorRing K]

/-! ### The metrics -/

/-- `EPS_PROB` -/
def epsProb : K := 1 / 10 ^ 8

/-- The sizes `PerPositionConfidenceMetrics` is constructed with.  The evaluators pass positive
constants for the two numbers of bins. -/
structure ConfidenceConfig where
  blockSize : ℕ
  numCoarseBins : ℕ
  numFineBins : ℕ
  coarse_pos : 0 < numCoarseBins
  fine_pos : 0 < numFineBins

/-- `PerPositionConfidenceMetrics`; the tables are read through `view(-1)`. -/
structure PerPositionConfidenceMetrics (K : Type) where
  coarseCount : ℕ → K
  coarsePred : ℕ → K
  coarseTarget : ℕ → K
  finePos : ℕ → K
  fineNeg : ℕ → K
  brierNum : ℕ → K

/-- `probs.clamp(EPS_PROB, 1.0 - EPS_PROB)` -/
def clampProb (p : K) : K := min (max p epsProb) (1 - epsProb)

/-- `.long()`, which rounds towards zero. -/
def toLong (x : K) : ℤ := if 0 ≤ x then ⌊x⌋ else ⌈x⌉

/-- `(p * num_bins).long().clamp_(0, num_bins - 1)` -/
def binIdx (numBins : ℕ) (p : K) : ℤ := min (max (toLong (p * numBins)) 0) (numBins - 1)

/-- `pos_idx * num_bins + idx` -/
def flatIdx (numBins : ℕ) (probs : List K) : List ℤ :=
  (probs.map (binIdx numBins)).zipIdx.map fun p => p.2 * numBins + p.1

/-- `self.view(-1).scatter_add_(0, index, src)` -/
def scatterAdd (size : ℕ) (self : ℕ → K) (index : List ℤ) (src : List K) :
    Except String (ℕ → K) :=
  if ∀ i ∈ index, 0 ≤ i ∧ i < size then
    .ok (addAll self ((index.map Int.toNat).zip src))
  else .error "index out of bounds"

namespace PerPositionConfidenceMetrics

def init : PerPositionConfidenceMetrics K := ⟨0, 0, 0, 0, 0, 0⟩

/-- `update` -/
def update (config : ConfidenceConfig) (m : PerPositionConfidenceMetrics K)
    (probs targets : List K) : Except String (PerPositionConfidenceMetrics K) := do
  let probs := probs.map clampProb
  if probs.length ≠ targets.length then throw "assert probs.shape == targets.shape"
  let posCount := probs.length
  if ¬ posCount ≤ config.blockSize then throw "assert pos_count <= self.block_size"
  let weights : List K := probs.map fun _ => 1
  let flatCoarse := flatIdx config.numCoarseBins probs
  let coarseSize := config.blockSize * config.numCoarseBins
  let coarseCount ← scatterAdd coarseSize m.coarseCount flatCoarse weights
  let coarsePred ← scatterAdd coarseSize m.coarsePred flatCoarse
    (List.zipWith (fun p w => p * w) probs weights)
  let coarseTarget ← scatterAdd coarseSize m.coarseTarget flatCoarse
    (List.zipWith (fun y w => y * w) targets weights)
  let flatFine := flatIdx config.numFineBins probs
  let fineSize := config.blockSize * config.numFineBins
  let finePos ← scatterAdd fineSize m.finePos flatFine
    (List.zipWith (fun w y => w * y) weights targets)
  let fineNeg ← scatterAdd fineSize m.fineNeg flatFine
    (List.zipWith (fun w y => w * (1 - y)) weights targets)
  let squares := List.zipWith (fun p y => (p - y) ^ 2) probs targets
  let added := List.zipWith (fun w s => w * s) weights squares
  let brierNum := fun pos => m.brierNum pos + added[pos]?.getD 0
  return ⟨coarseCount, coarsePred, coarseTarget, finePos, fineNeg, brierNum⟩

/-- `all_reduce`: what every rank has afterwards. -/
def allReduce (ranks : List (PerPositionConfidenceMetrics K)) : PerPositionConfidenceMetrics K :=
  let sum (tensor : PerPositionConfidenceMetrics K → ℕ → K) : ℕ → K :=
    fun i => (ranks.map fun m => tensor m i).sum
  ⟨sum coarseCount, sum coarsePred, sum coarseTarget, sum finePos, sum fineNeg, sum brierNum⟩

end PerPositionConfidenceMetrics

/-- `torch.cumsum(xs, dim=0)` -/
def cumsumRow (xs : List K) : List K := (List.range xs.length).map fun i => (xs.take (i + 1)).sum

/-- `_auroc_from_hist`, where `none` is nan. -/
def aurocFromHist (posHist negHist : List K) : Option K :=
  let totalPos := posHist.sum
  let totalNeg := negHist.sum
  if totalPos ≤ 0 ∨ totalNeg ≤ 0 then none
  else
    let cumNeg := cumsumRow negHist
    let cumNegBefore := List.zipWith (fun c n => c - n) cumNeg negHist
    let pair := (List.zipWith (fun p c => p * c) posHist cumNegBefore).sum +
      1 / 2 * (List.zipWith (fun p n => p * n) posHist negHist).sum
    some (pair / (totalPos * totalNeg))

/-- An entry of a row's `reliability`. -/
structure ReliabilityBin (K : Type) where
  bin : ℕ
  range : K × K
  avgPred : K
  avgTarget : K
  weight : K

/-- An entry of what `compute` returns, where `none` is nan. -/
structure PositionRow (K : Type) where
  position : ℕ
  totalWeight : K
  ece : Option K
  auc : Option K
  brier : Option K
  predMean : Option K
  targetMean : Option K
  reliability : List (ReliabilityBin K)

/-- The row of a position without observations. -/
def PositionRow.empty (pos : ℕ) : PositionRow K := ⟨pos, 0, none, none, none, none, none, []⟩

/-- Row `pos` of a flattened table. -/
def tableRow (width : ℕ) (table : ℕ → K) (pos : ℕ) : List K :=
  (List.range width).map fun j => table (pos * width + j)

namespace PerPositionConfidenceMetrics

/-- The body of the loop of `compute`. -/
def computeRow (config : ConfidenceConfig) (m : PerPositionConfidenceMetrics K) (pos : ℕ) :
    PositionRow K :=
  let weights := tableRow config.numCoarseBins m.coarseCount pos
  let total := weights.sum
  if total ≤ 1 / 10 ^ 12 then .empty pos
  else
    let denom := weights.map fun w => max w (1 / 10 ^ 12)
    let avgPred := List.zipWith (fun x d => x / d)
      (tableRow config.numCoarseBins m.coarsePred pos) denom
    let avgTarget := List.zipWith (fun x d => x / d)
      (tableRow config.numCoarseBins m.coarseTarget pos) denom
    let binErr := List.zipWith (fun p y => |p - y|) avgPred avgTarget
    { position := pos
      totalWeight := total
      ece := some ((List.zipWith (fun e w => e * w) binErr weights).sum / total)
      auc := aurocFromHist (tableRow config.numFineBins m.finePos pos)
        (tableRow config.numFineBins m.fineNeg pos)
      brier := some (m.brierNum pos / total)
      predMean := some ((tableRow config.numCoarseBins m.coarsePred pos).sum / total)
      targetMean := some ((tableRow config.numCoarseBins m.coarseTarget pos).sum / total)
      reliability := (List.range config.numCoarseBins).filterMap fun binIdx =>
        let weight := weights.getD binIdx 0
        if weight ≤ 0 then none
        else some
          { bin := binIdx
            range := ((binIdx : K) / config.numCoarseBins, (binIdx + 1 : K) / config.numCoarseBins)
            avgPred := avgPred.getD binIdx 0
            avgTarget := avgTarget.getD binIdx 0
            weight := weight } }

/-- `compute` -/
def compute (config : ConfidenceConfig) (m : PerPositionConfidenceMetrics K) :
    List (PositionRow K) := (List.range config.blockSize).map (m.computeRow config)

end PerPositionConfidenceMetrics

/-! ### The runs -/

/-- The arguments of an `update` call. -/
structure ConfidenceUpdate (K : Type) where
  probs : List K
  targets : List K

namespace ConfidenceUpdate

/-- What the callers pass: a target for every probability, each 0 or 1, at most a block. -/
structure Valid (config : ConfidenceConfig) (u : ConfidenceUpdate K) : Prop where
  length_eq : u.probs.length = u.targets.length
  length_le : u.probs.length ≤ config.blockSize
  target : ∀ y ∈ u.targets, y = 0 ∨ y = 1

/-- The clamped probabilities with their targets. -/
def pairs (u : ConfidenceUpdate K) : List (K × K) := (u.probs.map clampProb).zip u.targets

/-- What an update observes at a position. -/
def observed (u : ConfidenceUpdate K) (pos : ℕ) : List (K × K) := u.pairs[pos]?.toList

end ConfidenceUpdate

/-- The updates of one rank. -/
def runRank (config : ConfidenceConfig) (updates : List (ConfidenceUpdate K)) :
    Except String (PerPositionConfidenceMetrics K) :=
  updates.foldlM (fun m u => m.update config u.probs u.targets) .init

/-- The updates of all ranks, then `all_reduce`. -/
def reducedMetrics (config : ConfidenceConfig) (ranks : List (List (ConfidenceUpdate K))) :
    Except String (PerPositionConfidenceMetrics K) :=
  (ranks.mapM (runRank config)).map .allReduce

/-! ### The report of a list of observations -/

/-- The bin of an observation. -/
def binOf (numBins : ℕ) (o : K × K) : ℕ := (binIdx numBins o.1).toNat

/-- The fine bins of the observations with a target. -/
def scoresOf (numBins : ℕ) (target : K) (obs : List (K × K)) : List ℕ :=
  (obs.filter fun o => o.2 = target).map (binOf numBins)

/-- The observations of a coarse bin. -/
def inBin (numBins : ℕ) (obs : List (K × K)) (j : ℕ) : List (K × K) :=
  obs.filter fun o => binOf numBins o = j

/-- The row of a position, from what was observed there. -/
def report (config : ConfidenceConfig) (pos : ℕ) (obs : List (K × K)) : PositionRow K :=
  if obs = [] then .empty pos
  else
    let total : K := obs.length
    let positives := scoresOf config.numFineBins 1 obs
    let negatives := scoresOf config.numFineBins 0 obs
    { position := pos
      totalWeight := total
      ece := some ((∑ j ∈ Finset.range config.numCoarseBins,
        |((inBin config.numCoarseBins obs j).map fun o => o.1 - o.2).sum|) / total)
      auc := if positives = [] ∨ negatives = [] then none
        else some (mannWhitney positives negatives)
      brier := some ((obs.map fun o => (o.1 - o.2) ^ 2).sum / total)
      predMean := some ((obs.map fun o => o.1).sum / total)
      targetMean := some ((obs.map fun o => o.2).sum / total)
      reliability := (List.range config.numCoarseBins).filterMap fun j =>
        let binned := inBin config.numCoarseBins obs j
        if binned = [] then none
        else some
          { bin := j
            range := ((j : K) / config.numCoarseBins, (j + 1 : K) / config.numCoarseBins)
            avgPred := (binned.map fun o => o.1).sum / binned.length
            avgTarget := (binned.map fun o => o.2).sum / binned.length
            weight := binned.length } }

/-! ### Scattering -/

theorem binIdx_range {numBins : ℕ} (h : 0 < numBins) (p : K) :
    0 ≤ binIdx numBins p ∧ binIdx numBins p < numBins := by
  unfold binIdx
  omega

theorem binOf_lt {numBins : ℕ} (h : 0 < numBins) (o : K × K) : binOf numBins o < numBins := by
  have hrange := binIdx_range h o.1
  unfold binOf
  omega

theorem flatIdx_eq (numBins : ℕ) (obs : List (K × K)) :
    flatIdx numBins (obs.map Prod.fst) =
      obs.zipIdx.map fun p => (p.2 * numBins + binIdx numBins p.1.1 : ℤ) := by
  rw [flatIdx, List.zipIdx_map, List.zipIdx_map, List.map_map, List.map_map]
  rfl

/-- The addresses a scatter of one value for each observation stores to. -/
theorem adds_eq {numBins : ℕ} (h : 0 < numBins) (obs : List (K × K)) (value : K × K → K) :
    ((flatIdx numBins (obs.map Prod.fst)).map Int.toNat).zip (obs.map value) =
      obs.zipIdx.map fun p => (p.2 * numBins + binOf numBins p.1, value p.1) := by
  have hvalues : obs.map value = obs.zipIdx.map fun p => value p.1 := by
    conv_lhs => rw [← List.zipIdx_map_fst 0 obs]
    rw [List.map_map]
    rfl
  rw [flatIdx_eq, List.map_map, hvalues, List.zip_map']
  refine List.map_congr_left fun p _ => ?_
  have hrange := binIdx_range h p.1.1
  simp only [Function.comp_apply, binOf]
  congr 1
  have hnonneg : (0 : ℤ) ≤ p.2 * numBins := by positivity
  rw [Int.toNat_add hnonneg hrange.1]
  congr 1

/-- **A scatter of one value for each observation** puts the value of an observation at `pos`
into row `pos`, in the column of its bin. -/
theorem exists_scatterAdd {blockSize numBins : ℕ} (h : 0 < numBins) {obs : List (K × K)}
    (hlen : obs.length ≤ blockSize) (self : ℕ → K) (value : K × K → K) :
    ∃ table, scatterAdd (blockSize * numBins) self (flatIdx numBins (obs.map Prod.fst))
        (obs.map value) = .ok table ∧
      ∀ pos, ∀ j < numBins, table (pos * numBins + j) =
        self (pos * numBins + j) + binned obs[pos]?.toList (binOf numBins) value j := by
  have hindex : ∀ i ∈ flatIdx numBins (obs.map Prod.fst),
      0 ≤ i ∧ i < (blockSize * numBins : ℕ) := by
    intro i hi
    rw [flatIdx_eq] at hi
    obtain ⟨⟨o, pos⟩, hmem, rfl⟩ := List.mem_map.mp hi
    have hrange := binIdx_range h o.1
    have hpos : pos < blockSize := by
      have := List.snd_lt_of_mem_zipIdx hmem
      omega
    have hflat := block_lt (w := numBins) hpos (j := (binIdx numBins o.1).toNat) (by omega)
    have hcast : ((pos * numBins + (binIdx numBins o.1).toNat : ℕ) : ℤ) <
        (blockSize * numBins : ℕ) := by exact_mod_cast hflat
    have hnonneg : (0 : ℤ) ≤ pos * numBins := by positivity
    push_cast at hcast ⊢
    omega
  refine ⟨_, if_pos hindex, fun pos j hj => ?_⟩
  rw [adds_eq h]
  exact addAll_row self (fun o _ => binOf_lt h o) value hj

/-! ### What the tables hold -/

/-- The tables hold the plain sums over the observations of every position. -/
structure Records (config : ConfidenceConfig) (m : PerPositionConfidenceMetrics K)
    (obs : ℕ → List (K × K)) : Prop where
  coarseCount : ∀ pos, ∀ j < config.numCoarseBins,
    m.coarseCount (pos * config.numCoarseBins + j) =
      binned (obs pos) (binOf config.numCoarseBins) (fun _ => 1) j
  coarsePred : ∀ pos, ∀ j < config.numCoarseBins,
    m.coarsePred (pos * config.numCoarseBins + j) =
      binned (obs pos) (binOf config.numCoarseBins) (fun o => o.1) j
  coarseTarget : ∀ pos, ∀ j < config.numCoarseBins,
    m.coarseTarget (pos * config.numCoarseBins + j) =
      binned (obs pos) (binOf config.numCoarseBins) (fun o => o.2) j
  finePos : ∀ pos, ∀ j < config.numFineBins,
    m.finePos (pos * config.numFineBins + j) =
      binned (obs pos) (binOf config.numFineBins) (fun o => o.2) j
  fineNeg : ∀ pos, ∀ j < config.numFineBins,
    m.fineNeg (pos * config.numFineBins + j) =
      binned (obs pos) (binOf config.numFineBins) (fun o => 1 - o.2) j
  brierNum : ∀ pos, m.brierNum pos = ((obs pos).map fun o => (o.1 - o.2) ^ 2).sum

theorem records_init (config : ConfidenceConfig) :
    Records (K := K) config .init fun _ => [] := by
  constructor <;> intros <;> rfl

/-- **An update adds its observations.** -/
theorem exists_update {config : ConfidenceConfig} {m : PerPositionConfidenceMetrics K}
    {obs : ℕ → List (K × K)} (hm : Records config m obs) {u : ConfidenceUpdate K}
    (hu : u.Valid config) :
    ∃ m', m.update config u.probs u.targets = .ok m' ∧
      Records config m' fun pos => obs pos ++ u.observed pos := by
  have hlength : (u.probs.map clampProb).length = u.targets.length := by
    rw [List.length_map, hu.length_eq]
  have hprobs : u.probs.map clampProb = u.pairs.map Prod.fst :=
    (List.map_fst_zip hlength.le).symm
  have htargets : u.targets = u.pairs.map Prod.snd := (List.map_snd_zip hlength.ge).symm
  have hlen : u.pairs.length ≤ config.blockSize := by
    have heq := congrArg List.length hprobs
    rw [List.length_map, List.length_map] at heq
    exact heq ▸ hu.length_le
  obtain ⟨coarseCount, hcount, hcount'⟩ :=
    exists_scatterAdd config.coarse_pos hlen m.coarseCount fun _ => 1
  obtain ⟨coarsePred, hpred, hpred'⟩ :=
    exists_scatterAdd config.coarse_pos hlen m.coarsePred fun o => o.1
  obtain ⟨coarseTarget, htarget, htarget'⟩ :=
    exists_scatterAdd config.coarse_pos hlen m.coarseTarget fun o => o.2
  obtain ⟨finePos, hpos, hpos'⟩ :=
    exists_scatterAdd config.fine_pos hlen m.finePos fun o => o.2
  obtain ⟨fineNeg, hneg, hneg'⟩ :=
    exists_scatterAdd config.fine_pos hlen m.fineNeg fun o => 1 - o.2
  refine ⟨⟨coarseCount, coarsePred, coarseTarget, finePos, fineNeg, fun pos =>
    m.brierNum pos + (u.pairs.map fun o => (o.1 - o.2) ^ 2)[pos]?.getD 0⟩, ?_, ?_⟩
  · unfold PerPositionConfidenceMetrics.update
    rw [hprobs, htargets]
    simp only [List.length_map, ne_eq, not_true, if_false, hlen, List.map_map, List.zipWith_map,
      List.zipWith_self, Function.comp_def, mul_one, one_mul, hcount, hpred, htarget, hpos, hneg]
    rfl
  · constructor
    · intro pos j hj
      rw [binned_append, ← hm.coarseCount pos j hj]
      exact hcount' pos j hj
    · intro pos j hj
      rw [binned_append, ← hm.coarsePred pos j hj]
      exact hpred' pos j hj
    · intro pos j hj
      rw [binned_append, ← hm.coarseTarget pos j hj]
      exact htarget' pos j hj
    · intro pos j hj
      rw [binned_append, ← hm.finePos pos j hj]
      exact hpos' pos j hj
    · intro pos j hj
      rw [binned_append, ← hm.fineNeg pos j hj]
      exact hneg' pos j hj
    · intro pos
      have hadded : (u.pairs.map fun o => (o.1 - o.2) ^ 2)[pos]?.getD 0 =
          ((u.observed pos).map fun o => (o.1 - o.2) ^ 2).sum := by
        rw [ConfidenceUpdate.observed, List.getElem?_map]
        cases u.pairs[pos]? <;> simp
      rw [List.map_append, List.sum_append, ← hm.brierNum pos, ← hadded]

/-- What a rank observes at a position. -/
def observedBy (updates : List (ConfidenceUpdate K)) (pos : ℕ) : List (K × K) :=
  updates.flatMap fun u => u.observed pos

omit [FloorRing K] in
theorem observedBy_append (updates updates' : List (ConfidenceUpdate K)) :
    observedBy (updates ++ updates') = fun pos =>
      observedBy updates pos ++ observedBy updates' pos :=
  funext fun _ => List.flatMap_append

theorem exists_runRank {config : ConfidenceConfig} {updates : List (ConfidenceUpdate K)}
    (hvalid : ∀ u ∈ updates, u.Valid config) :
    ∃ m, runRank config updates = .ok m ∧ Records config m (observedBy updates) := by
  -- the updates so far are in the tables
  have hrun : ∀ (m : PerPositionConfidenceMetrics K) (obs : ℕ → List (K × K)),
      Records config m obs → ∃ m', updates.foldlM (fun m u => m.update config u.probs u.targets) m =
        Except.ok m' ∧ Records config m' fun pos => obs pos ++ observedBy updates pos := by
    induction updates with
    | nil =>
      intro m obs hm
      refine ⟨m, rfl, ?_⟩
      simpa [observedBy] using hm
    | cons u updates ih =>
      intro m obs hm
      obtain ⟨m', hupdate, hm'⟩ := exists_update hm (hvalid u List.mem_cons_self)
      obtain ⟨m'', hrest, hm''⟩ := ih (fun u' hu' => hvalid u' (List.mem_cons_of_mem _ hu')) _ _ hm'
      refine ⟨m'', ?_, ?_⟩
      · rw [List.foldlM_cons, hupdate]
        exact hrest
      · simpa [observedBy] using hm''
  obtain ⟨m, hrank, hm⟩ := hrun .init _ (records_init config)
  exact ⟨m, hrank, by simpa using hm⟩

/-- The tables of a rank added to the sums of the others. -/
theorem records_allReduce_cons {config : ConfidenceConfig} {m : PerPositionConfidenceMetrics K}
    {ranks : List (PerPositionConfidenceMetrics K)} {obs obs' : ℕ → List (K × K)}
    (hm : Records config m obs) (hranks : Records config (.allReduce ranks) obs') :
    Records config (.allReduce (m :: ranks)) fun pos => obs pos ++ obs' pos := by
  constructor
  · intro pos j hj
    rw [binned_append, ← hm.coarseCount pos j hj, ← hranks.coarseCount pos j hj]
    rfl
  · intro pos j hj
    rw [binned_append, ← hm.coarsePred pos j hj, ← hranks.coarsePred pos j hj]
    rfl
  · intro pos j hj
    rw [binned_append, ← hm.coarseTarget pos j hj, ← hranks.coarseTarget pos j hj]
    rfl
  · intro pos j hj
    rw [binned_append, ← hm.finePos pos j hj, ← hranks.finePos pos j hj]
    rfl
  · intro pos j hj
    rw [binned_append, ← hm.fineNeg pos j hj, ← hranks.fineNeg pos j hj]
    rfl
  · intro pos
    rw [List.map_append, List.sum_append, ← hm.brierNum pos, ← hranks.brierNum pos]
    rfl

/-- **After `all_reduce` the tables hold the observations of all ranks.** -/
theorem exists_reducedMetrics {config : ConfidenceConfig}
    {ranks : List (List (ConfidenceUpdate K))}
    (hvalid : ∀ updates ∈ ranks, ∀ u ∈ updates, u.Valid config) :
    ∃ m, reducedMetrics config ranks = .ok m ∧ Records config m (observedBy ranks.flatten) := by
  have hranks : ∃ ms, ranks.mapM (runRank config) = .ok ms ∧
      Records config (.allReduce ms) (observedBy ranks.flatten) := by
    induction ranks with
    | nil => exact ⟨[], rfl, records_init config⟩
    | cons updates ranks ih =>
      obtain ⟨m, hrank, hm⟩ := exists_runRank (hvalid updates List.mem_cons_self)
      obtain ⟨ms, hmapM, hms⟩ := ih fun updates' h => hvalid updates' (List.mem_cons_of_mem _ h)
      refine ⟨m :: ms, ?_, ?_⟩
      · rw [List.mapM_cons, hrank, hmapM]
        rfl
      · rw [List.flatten_cons, observedBy_append]
        exact records_allReduce_cons hm hms
  obtain ⟨ms, hmapM, hms⟩ := hranks
  refine ⟨.allReduce ms, ?_, hms⟩
  rw [reducedMetrics, hmapM]
  rfl

/-- The order of the observations does not matter. -/
theorem Records.perm {config : ConfidenceConfig} {m : PerPositionConfidenceMetrics K}
    {obs obs' : ℕ → List (K × K)} (hm : Records config m obs)
    (hperm : ∀ pos, (obs pos).Perm (obs' pos)) : Records config m obs' where
  coarseCount pos j hj := (hm.coarseCount pos j hj).trans (binned_perm (hperm pos) _ _ j)
  coarsePred pos j hj := (hm.coarsePred pos j hj).trans (binned_perm (hperm pos) _ _ j)
  coarseTarget pos j hj := (hm.coarseTarget pos j hj).trans (binned_perm (hperm pos) _ _ j)
  finePos pos j hj := (hm.finePos pos j hj).trans (binned_perm (hperm pos) _ _ j)
  fineNeg pos j hj := (hm.fineNeg pos j hj).trans (binned_perm (hperm pos) _ _ j)
  brierNum pos := (hm.brierNum pos).trans ((hperm pos).map _).sum_eq

/-! ### What is computed from the tables -/

omit [LinearOrder K] [FloorRing K] in
theorem cumsumRow_range (n : ℕ) (h : ℕ → K) :
    cumsumRow ((List.range n).map h) =
      (List.range n).map fun i => ∑ c ∈ Finset.range (i + 1), h c := by
  rw [cumsumRow, List.length_map, List.length_range]
  refine List.map_congr_left fun i hi => ?_
  have hi' := List.mem_range.mp hi
  rw [← List.map_take, List.take_range, Nat.min_eq_left hi', sum_map_range]

variable [IsStrictOrderedRing K]

/-- **The shifted cumulative sum is the rank statistic.** -/
theorem aurocFromHist_eq {n : ℕ} {pos neg : List ℕ} (hpos : ∀ x ∈ pos, x < n)
    (hneg : ∀ x ∈ neg, x < n) :
    aurocFromHist ((List.range n).map fun j => (pos.count j : K))
        ((List.range n).map fun j => (neg.count j : K)) =
      if pos = [] ∨ neg = [] then none else some (mannWhitney pos neg) := by
  have htotal : ∀ xs : List ℕ, (∀ x ∈ xs, x < n) →
      ((List.range n).map fun j => (xs.count j : K)).sum = xs.length := by
    intro xs hxs
    have hsum := sum_count_mul (K := K) hxs fun _ => 1
    simp only [mul_one, List.map_const', List.sum_replicate, nsmul_eq_mul] at hsum
    rw [sum_map_range, hsum]
  have hempty : ∀ xs : List ℕ, (xs.length : K) ≤ 0 ↔ xs = [] := by
    intro xs
    rw [← List.length_eq_zero_iff, ← Nat.cast_zero, Nat.cast_le, Nat.le_zero]
  rw [aurocFromHist]
  simp only [htotal pos hpos, htotal neg hneg, hempty]
  by_cases h : pos = [] ∨ neg = []
  · rw [if_pos h, if_pos h]
  · rw [if_neg h, if_neg h, mannWhitney_eq_hist hpos, cumsumRow_range]
    -- the cumulative sum without the bin itself is the sum over the bins before
    have hbefore : ∀ j, ∑ c ∈ Finset.range (j + 1), (neg.count c : K) - neg.count j =
        ((∑ c ∈ Finset.range j, neg.count c : ℕ) : K) := by
      intro j
      rw [Finset.sum_range_succ, add_sub_cancel_right, Nat.cast_sum]
    simp only [List.zipWith_map, List.zipWith_self, sum_map_range, hbefore]

omit [Field K] [LinearOrder K] [FloorRing K] [IsStrictOrderedRing K] in
theorem tableRow_eq {width pos : ℕ} {table : ℕ → K} {h : ℕ → K}
    (htable : ∀ j < width, table (pos * width + j) = h j) :
    tableRow width table pos = (List.range width).map h :=
  List.map_congr_left fun j hj => htable j (List.mem_range.mp hj)

omit [IsStrictOrderedRing K] in
theorem binned_one (numBins : ℕ) (obs : List (K × K)) (j : ℕ) :
    binned obs (binOf numBins) (fun _ => (1 : K)) j = (inBin numBins obs j).length := by
  rw [binned_eq_filter, List.map_const', List.sum_replicate, nsmul_eq_mul, mul_one, inBin]

omit [IsStrictOrderedRing K] in
/-- With targets 0 and 1 the fine histograms count the scores. -/
theorem binned_target (numBins : ℕ) {obs : List (K × K)} (htarget : ∀ o ∈ obs, o.2 = 0 ∨ o.2 = 1)
    (j : ℕ) :
    binned obs (binOf numBins) (fun o => o.2) j = ((scoresOf numBins 1 obs).count j : K) ∧
      binned obs (binOf numBins) (fun o => 1 - o.2) j = ((scoresOf numBins 0 obs).count j : K) := by
  induction obs with
  | nil => simp [scoresOf]
  | cons o obs ih =>
    obtain ⟨ihpos, ihneg⟩ := ih fun o' ho' => htarget o' (List.mem_cons_of_mem _ ho')
    have hcons : ∀ value : K × K → K, binned (o :: obs) (binOf numBins) value j =
        (if binOf numBins o = j then value o else 0) + binned obs (binOf numBins) value j :=
      fun value => by rw [binned, List.map_cons, List.sum_cons]; rfl
    rw [hcons, hcons, ihpos, ihneg]
    unfold scoresOf
    rw [List.filter_cons, List.filter_cons]
    rcases htarget o List.mem_cons_self with h | h
    · simp [h, List.count_cons, add_comm]
    · simp [h, List.count_cons, add_comm]

omit [IsStrictOrderedRing K] in
theorem scoresOf_lt {numBins : ℕ} (h : 0 < numBins) (target : K) (obs : List (K × K)) :
    ∀ x ∈ scoresOf numBins target obs, x < numBins := by
  intro x hx
  obtain ⟨o, -, rfl⟩ := List.mem_map.mp hx
  exact binOf_lt h o

/-- Observations that are there weigh at least one, so no bound from below changes the weight. -/
theorem weight_of_ne_nil {xs : List (K × K)} (h : xs ≠ []) :
    (0 : K) < xs.length ∧ ¬ (xs.length : K) ≤ 1 / 10 ^ 12 ∧
      max (xs.length : K) (1 / 10 ^ 12) = xs.length := by
  have hlen : (1 : K) ≤ xs.length := by exact_mod_cast List.length_pos_iff.mpr h
  have hsmall : (1 / 10 ^ 12 : K) < xs.length := lt_of_lt_of_le (by norm_num) hlen
  exact ⟨lt_of_lt_of_le one_pos hlen, not_le.mpr hsmall, max_eq_left hsmall.le⟩

/-- The error of a bin, weighted by its observations. -/
theorem weighted_binErr (xs : List (K × K)) :
    |(xs.map fun o => o.1).sum / max (xs.length : K) (1 / 10 ^ 12) -
        (xs.map fun o => o.2).sum / max (xs.length : K) (1 / 10 ^ 12)| * xs.length =
      |(xs.map fun o => o.1 - o.2).sum| := by
  have hsub : (xs.map fun o => o.1 - o.2).sum =
      (xs.map fun o => o.1).sum - (xs.map fun o => o.2).sum := by
    induction xs with
    | nil => simp
    | cons o xs ih =>
      rw [List.map_cons, List.map_cons, List.map_cons, List.sum_cons, List.sum_cons,
        List.sum_cons, ih]
      ring
  rw [hsub]
  by_cases hxs : xs = []
  · simp [hxs]
  · obtain ⟨hpos, -, hmax⟩ := weight_of_ne_nil hxs
    rw [hmax, ← sub_div, abs_div, abs_of_pos hpos, div_mul_cancel₀ _ hpos.ne']

/-- **A row of `compute` is the report of the observations.** -/
theorem computeRow_eq {config : ConfidenceConfig} {m : PerPositionConfidenceMetrics K}
    {obs : ℕ → List (K × K)} (hm : Records config m obs) {pos : ℕ}
    (htarget : ∀ o ∈ obs pos, o.2 = 0 ∨ o.2 = 1) :
    m.computeRow config pos = report config pos (obs pos) := by
  have hweights : tableRow config.numCoarseBins m.coarseCount pos =
      (List.range config.numCoarseBins).map fun j =>
        ((inBin config.numCoarseBins (obs pos) j).length : K) :=
    tableRow_eq fun j hj => by rw [hm.coarseCount pos j hj, binned_one]
  have hpred : tableRow config.numCoarseBins m.coarsePred pos =
      (List.range config.numCoarseBins).map fun j =>
        ((inBin config.numCoarseBins (obs pos) j).map fun o => o.1).sum :=
    tableRow_eq fun j hj => by rw [hm.coarsePred pos j hj, binned_eq_filter, inBin]
  have htargets : tableRow config.numCoarseBins m.coarseTarget pos =
      (List.range config.numCoarseBins).map fun j =>
        ((inBin config.numCoarseBins (obs pos) j).map fun o => o.2).sum :=
    tableRow_eq fun j hj => by rw [hm.coarseTarget pos j hj, binned_eq_filter, inBin]
  have hfinePos : tableRow config.numFineBins m.finePos pos =
      (List.range config.numFineBins).map fun j =>
        ((scoresOf config.numFineBins 1 (obs pos)).count j : K) :=
    tableRow_eq fun j hj => by rw [hm.finePos pos j hj, (binned_target _ htarget j).1]
  have hfineNeg : tableRow config.numFineBins m.fineNeg pos =
      (List.range config.numFineBins).map fun j =>
        ((scoresOf config.numFineBins 0 (obs pos)).count j : K) :=
    tableRow_eq fun j hj => by rw [hm.fineNeg pos j hj, (binned_target _ htarget j).2]
  -- the coarse bins together hold every observation
  have hsum : ∀ value : K × K → K, ∑ j ∈ Finset.range config.numCoarseBins,
      ((inBin config.numCoarseBins (obs pos) j).map value).sum = ((obs pos).map value).sum := by
    intro value
    rw [← sum_binned (fun o _ => binOf_lt config.coarse_pos o) value]
    exact Finset.sum_congr rfl fun j _ => (binned_eq_filter _ _ _ j).symm
  have htotal : ∑ j ∈ Finset.range config.numCoarseBins,
      ((inBin config.numCoarseBins (obs pos) j).length : K) = (obs pos).length := by
    have hone := hsum fun _ => 1
    simpa only [List.map_const', List.sum_replicate, nsmul_eq_mul, mul_one] using hone
  rw [PerPositionConfidenceMetrics.computeRow, report]
  simp only [hweights, hpred, htargets, hfinePos, hfineNeg, sum_map_range, htotal]
  by_cases hobs : obs pos = []
  · have hzero : ((obs pos).length : K) ≤ 1 / 10 ^ 12 := by
      rw [hobs, List.length_nil, Nat.cast_zero]
      positivity
    rw [if_pos hobs, if_pos hzero]
  · rw [if_neg hobs, if_neg (weight_of_ne_nil hobs).2.1]
    congr 1
    · simp only [List.map_map, List.zipWith_map, List.zipWith_self, sum_map_range,
        Function.comp_apply, weighted_binErr]
    · exact aurocFromHist_eq (scoresOf_lt config.fine_pos 1 _) (scoresOf_lt config.fine_pos 0 _)
    · rw [hm.brierNum]
    · rw [hsum]
    · rw [hsum]
    · refine List.filterMap_congr fun j hj => ?_
      have hj' := List.mem_range.mp hj
      simp only [List.map_map, List.zipWith_map, List.zipWith_self, List.getD_eq_getElem?_getD,
        List.getElem?_map, List.getElem?_range hj', Option.map_some, Option.getD_some,
        Function.comp_apply]
      by_cases hempty : inBin config.numCoarseBins (obs pos) j = []
      · rw [if_pos hempty, if_pos (by simp [hempty])]
      · obtain ⟨hpos, -, hmax⟩ := weight_of_ne_nil hempty
        rw [if_neg hempty, if_neg (not_le.mpr hpos), hmax]

/-! ### Every run, split over any ranks -/

omit [FloorRing K] [IsStrictOrderedRing K] in
theorem observedBy_target {config : ConfidenceConfig} {updates : List (ConfidenceUpdate K)}
    (hvalid : ∀ u ∈ updates, u.Valid config) {pos : ℕ} :
    ∀ o ∈ observedBy updates pos, o.2 = 0 ∨ o.2 = 1 := by
  intro o ho
  obtain ⟨u, hu, hobs⟩ := List.mem_flatMap.mp ho
  have hpair : o ∈ u.pairs := List.mem_of_getElem? (Option.mem_toList.mp hobs)
  exact (hvalid u hu).target o.2 (List.of_mem_zip hpair).2

/-- **The metrics are the statistics of the observations.**  After the updates of any number of
ranks and `all_reduce`, the tables hold the plain sums over the clamped probabilities and the
targets observed at each position, and every row is the report of these observations, with the
Mann-Whitney statistic of their fine bins.  Neither the order of the updates nor their split
over the ranks changes what is computed. -/
theorem confidence_metrics_report (config : ConfidenceConfig)
    (ranks : List (List (ConfidenceUpdate K)))
    (hvalid : ∀ updates ∈ ranks, ∀ u ∈ updates, u.Valid config) :
    (∃ m, reducedMetrics config ranks = .ok m ∧
      Records config m (observedBy ranks.flatten) ∧
      m.compute config = (List.range config.blockSize).map fun pos =>
        report config pos (observedBy ranks.flatten pos)) ∧
    ∀ ranks', ranks'.flatten.Perm ranks.flatten →
      ∃ m m', reducedMetrics config ranks = .ok m ∧ reducedMetrics config ranks' = .ok m' ∧
        m'.compute config = m.compute config := by
  have hflatten : ∀ u ∈ ranks.flatten, u.Valid config := by
    intro u hu
    obtain ⟨updates, hupdates, hmem⟩ := List.mem_flatten.mp hu
    exact hvalid updates hupdates u hmem
  have hcompute : ∀ m : PerPositionConfidenceMetrics K,
      Records config m (observedBy ranks.flatten) →
        m.compute config = (List.range config.blockSize).map fun pos =>
          report config pos (observedBy ranks.flatten pos) := fun m hm =>
    List.map_congr_left fun pos _ => computeRow_eq hm (observedBy_target hflatten)
  obtain ⟨m, hranks, hm⟩ := exists_reducedMetrics hvalid
  refine ⟨⟨m, hranks, hm, hcompute m hm⟩, fun ranks' hperm => ?_⟩
  have hvalid' : ∀ updates ∈ ranks', ∀ u ∈ updates, u.Valid config := by
    intro updates hupdates u hu
    apply hflatten
    rw [← hperm.mem_iff]
    exact List.mem_flatten.mpr ⟨updates, hupdates, hu⟩
  obtain ⟨m', hranks', hm'⟩ := exists_reducedMetrics hvalid'
  -- the other split records the same observations in another order
  have hsame : Records config m' (observedBy ranks.flatten) :=
    hm'.perm fun pos => hperm.flatMap_right _
  exact ⟨m, m', hranks, hranks', (hcompute m' hsame).trans (hcompute m hm).symm⟩

/-- Blocks of two positions. -/
def pairConfig : ConfidenceConfig := ⟨2, 2, 4, Nat.two_pos, by decide⟩

/-- A rank with a block of two, and one with a shorter block. -/
def pairRanks : List (List (ConfidenceUpdate ℚ)) :=
  [[⟨[3 / 4, 1 / 2], [1, 0]⟩], [⟨[1 / 4], [0]⟩]]

theorem confidence_metrics_report_pair :
    ∃ m, reducedMetrics pairConfig pairRanks = .ok m ∧
      (m.compute pairConfig).map PositionRow.auc = [some 1, none] ∧
      (m.compute pairConfig).map PositionRow.brier = [some (1 / 16), some (1 / 4)] := by
  have hvalid : ∀ updates ∈ pairRanks, ∀ u ∈ updates, u.Valid pairConfig := by
    simp only [pairRanks, List.forall_mem_cons, List.not_mem_nil, false_implies, implies_true,
      and_true]
    exact ⟨⟨rfl, by decide, by decide +kernel⟩, ⟨rfl, by decide, by decide +kernel⟩⟩
  obtain ⟨⟨m, hranks, -, hcompute⟩, -⟩ := confidence_metrics_report pairConfig pairRanks hvalid
  refine ⟨m, hranks, ?_, ?_⟩
  · rw [hcompute]
    decide +kernel
  · rw [hcompute]
    decide +kernel

/-- The probabilities are clamped before they are summed: a certain prediction that comes true
is charged for the distance of the clamp. -/
theorem confidence_sums_clamped :
    ¬ ∀ (config : ConfidenceConfig) (ranks : List (List (ConfidenceUpdate ℚ))),
      (∀ updates ∈ ranks, ∀ u ∈ updates, u.Valid config ∧ ∀ p ∈ u.probs, 0 ≤ p ∧ p ≤ 1) →
      ∃ m, reducedMetrics config ranks = .ok m ∧ ∀ pos < config.blockSize,
        m.brierNum pos = ((ranks.flatten.flatMap fun u =>
          (u.probs.zip u.targets)[pos]?.toList).map fun o => (o.1 - o.2) ^ 2).sum := by
  intro h
  obtain ⟨m, hranks, hbrier⟩ := h ⟨1, 1, 1, by decide, by decide⟩ [[⟨[1], [1]⟩]] (by
    simp only [List.forall_mem_cons, List.not_mem_nil, false_implies, implies_true, and_true]
    exact ⟨⟨rfl, by decide, by decide +kernel⟩, by decide +kernel⟩)
  have hcharged : (reducedMetrics ⟨1, 1, 1, by decide, by decide⟩
      [[(⟨[1], [1]⟩ : ConfidenceUpdate ℚ)]]).map (fun m => m.brierNum 0) =
        .ok (1 / 10 ^ 16) := by decide +kernel
  rw [hranks] at hcharged
  have hzero := hbrier 0 (by decide)
  have hvalue : m.brierNum 0 = 1 / 10 ^ 16 := Except.ok.inj hcharged
  rw [hvalue] at hzero
  norm_num at hzero

end LatentSpec
