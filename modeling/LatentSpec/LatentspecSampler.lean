import LatentSpec.BlockSearch
import LatentSpec.DflashAccept

/-! # LatentSpec's samplers

Two pairs of kernels of `dflash_utils.py` draw one token for each row: the categorical pair from
a row of weights, the logits pair from a row of logits and a temperature.  The first kernel of a
pair stores the totals of the blocks of every row, the second searches these totals and then the
block it has found.  The logits pair keeps every block shifted by the block's own maximum, and
leaves the log-normaliser of the row behind for the verification.

Both return what a search of the whole row returns (`Selection.Draws`).  Arithmetic is exact; the
exponential is any positive function that turns differences into quotients (`ExpLaw`), and a
masked lane holds `⊥`, the logit of weight zero.
-/
namespace LatentSpec
open BlockSearch TiledStores
open scoped Coins

variable {V : ℕ} {K : Type} [Field K] [LinearOrder K]

/-- `triton.cdiv` -/
def cdiv (n d : ℕ) : ℕ := (n + d - 1) / d

/-- The stores of a grid of programs, one for each block of each row. -/
def gridStores {α : Type} (numRows numBlocks : ℕ) (value : ℕ → ℕ → α) : List (ℕ × α) :=
  scatter numRows (fun _ => numBlocks) (fun row block => row * numBlocks + block) value

/-- The stores of one program for each row. -/
def rowStores {α : Type} (numRows : ℕ) (value : ℕ → α) : List (ℕ × α) := stretch 0 numRows value

/-- What a select kernel finds: its two counts before they are clamped, and its token. -/
structure Selection where
  selectedBlock : ℕ
  selectedLocal : ℕ
  token : ℤ

/-- The last lines of a select kernel. -/
def Selection.ofCounts (vocabSize blockSize selectedBlock : ℕ) (selectedLocal : ℕ → ℕ) :
    Selection :=
  let block := min selectedBlock (cdiv vocabSize blockSize - 1)
  { selectedBlock := selectedBlock
    selectedLocal := selectedLocal block
    token := block * blockSize + min (selectedLocal block : ℤ) (vocabSize - 1 - block * blockSize) }

/-! ### Sampling from weights -/

/-- What the categorical kernels are launched on. -/
structure CategoricalArgs (V : ℕ) (K : Type) [Field K] [LinearOrder K] where
  probs : ℕ → Fin V → K
  uniforms : ℕ → Set.Ico (0 : K) 1
  numRows : ℕ
  blockSize : ℕ
  blockSize_pos : 0 < blockSize

namespace CategoricalArgs
variable (a : CategoricalArgs V K)

/-- `N_BLOCKS` -/
def numBlocks : ℕ := cdiv V a.blockSize

/-- `N_BLOCK_LANES` -/
def numBlockLanes : ℕ := nextPowerOf2 a.numBlocks

/-- `tl.load(probs_ptr + row * row_stride + offsets, mask=offsets < VOCAB_SIZE, other=0.0)` -/
def loadProb (row offset : ℕ) : K := if h : offset < V then a.probs row ⟨offset, h⟩ else 0

/-- `_latentspec_categorical_block_sums_kernel`, program `(row, block)`. -/
def blockSum (row block : ℕ) : K :=
  ∑ lane ∈ Finset.range a.blockSize, a.loadProb row (block * a.blockSize + lane)

/-- The buffer of block sums after the launch; `stale` is what it held before. -/
def blockSums (stale : ℕ → K) : ℕ → K :=
  writeAll stale (gridStores a.numRows a.numBlocks a.blockSum)

/-- `block_values` -/
def blockValues (blockSums : ℕ → K) (row block : ℕ) : K :=
  if block < a.numBlocks then blockSums (row * a.numBlocks + block) else 0

/-- `_latentspec_categorical_select_kernel`, one row. -/
def select (blockSums : ℕ → K) (row : ℕ) : Selection :=
  let validBlocks := fun block => decide (block < a.numBlocks)
  let blockValues := a.blockValues blockSums row
  let total := ∑ block ∈ Finset.range a.numBlockLanes, blockValues block
  let target := a.uniforms row * total
  Selection.ofCounts V a.blockSize (countBelow a.numBlockLanes validBlocks blockValues target)
    fun selectedBlock =>
      let prefixBefore := ∑ block ∈ Finset.range a.numBlockLanes,
        if block < selectedBlock then blockValues block else 0
      let validTokens := fun lane => decide (selectedBlock * a.blockSize + lane < V)
      let tokenValues := fun lane => a.loadProb row (selectedBlock * a.blockSize + lane)
      countBelow a.blockSize validTokens tokenValues (target - prefixBefore)

/-- `_sample_latentspec_categorical_cuda`: the buffer of tokens after both launches. -/
def tokens (staleSums : ℕ → K) (staleTokens : ℕ → ℤ) : ℕ → ℤ :=
  writeAll staleTokens (rowStores a.numRows fun row => (a.select (a.blockSums staleSums) row).token)

end CategoricalArgs

/-! ### Sampling from logits -/

/-- What the logits kernels are launched on. -/
structure LogitSampleArgs (V : ℕ) (K : Type) [Field K] [LinearOrder K] where
  exp : K → K
  log : K → K
  draftLogits : ℕ → Fin V → K
  temperatures : ℕ → {t : K // 0 < t}
  uniforms : ℕ → Set.Ico (0 : K) 1
  numRows : ℕ
  rowsPerRequest : ℕ
  blockSize : ℕ
  blockSize_pos : 0 < blockSize

/-- `tl.exp(x - shift)` -/
def expDiff (exp : K → K) (shift : K) (x : WithBot K) : K := x.recBotCoe 0 fun x => exp (x - shift)

/-- The buffers of the first kernel. -/
structure LogitStats (K : Type) where
  blockMax : ℕ → WithBot K
  blockSum : ℕ → K

/-- What the second kernel stores for a row. -/
structure LogitSelection (K : Type) extends Selection where
  logNorm : K

/-- The buffers of the second kernel. -/
structure LogitSamples (K : Type) where
  tokens : ℕ → ℤ
  logNorm : ℕ → K

namespace LogitSampleArgs
variable (a : LogitSampleArgs V K)

/-- `N_BLOCKS` -/
def numBlocks : ℕ := cdiv V a.blockSize

/-- `N_BLOCK_LANES` -/
def numBlockLanes : ℕ := nextPowerOf2 a.numBlocks

/-- The temperature of a row. -/
def temperature (row : ℕ) : K := a.temperatures (row / a.rowsPerRequest)

/-- A masked load of logits, divided by the temperature. -/
def loadValue (row offset : ℕ) : WithBot K :=
  if h : offset < V then ((a.draftLogits row ⟨offset, h⟩ / a.temperature row : K) : WithBot K)
  else ⊥

/-- `block_max` of program `(row, block)`. -/
def blockMax (row block : ℕ) : WithBot K :=
  (Finset.range a.blockSize).sup fun lane => a.loadValue row (block * a.blockSize + lane)

/-- The sum of the exponentials of program `(row, block)`. -/
def blockSum (row block : ℕ) : K :=
  ∑ lane ∈ Finset.range a.blockSize,
    if block * a.blockSize + lane < V then
      expDiff a.exp ((a.blockMax row block).unbotD 0) (a.loadValue row (block * a.blockSize + lane))
    else 0

/-- `_latentspec_logit_block_stats_kernel`, launched on its grid. -/
def blockStats (stale : LogitStats K) : LogitStats K where
  blockMax := writeAll stale.blockMax (gridStores a.numRows a.numBlocks a.blockMax)
  blockSum := writeAll stale.blockSum (gridStores a.numRows a.numBlocks a.blockSum)

/-- `maxima` -/
def maxima (stats : LogitStats K) (row block : ℕ) : WithBot K :=
  if block < a.numBlocks then stats.blockMax (row * a.numBlocks + block) else ⊥

/-- `sums` -/
def sums (stats : LogitStats K) (row block : ℕ) : K :=
  if block < a.numBlocks then stats.blockSum (row * a.numBlocks + block) else 0

/-- `global_max` -/
def globalMax (stats : LogitStats K) (row : ℕ) : K :=
  ((Finset.range a.numBlockLanes).sup (a.maxima stats row)).unbotD 0

/-- `block_weights` -/
def blockWeights (stats : LogitStats K) (row block : ℕ) : K :=
  a.sums stats row block * expDiff a.exp (a.globalMax stats row) (a.maxima stats row block)

/-- `_latentspec_logit_select_kernel`, one row. -/
def select (stats : LogitStats K) (row : ℕ) : LogitSelection K :=
  let validBlocks := fun block => decide (block < a.numBlocks)
  let blockWeights := a.blockWeights stats row
  let total := ∑ block ∈ Finset.range a.numBlockLanes, blockWeights block
  let target := a.uniforms row * total
  { Selection.ofCounts V a.blockSize (countBelow a.numBlockLanes validBlocks blockWeights target)
      fun selectedBlock =>
        let prefixBefore := ∑ block ∈ Finset.range a.numBlockLanes,
          if block < selectedBlock then blockWeights block else 0
        let selectedMax : WithBot K := ∑ block ∈ Finset.range a.numBlockLanes,
          if block = selectedBlock then a.maxima stats row block else 0
        let selectedScale := expDiff a.exp (a.globalMax stats row) selectedMax
        let localTarget := (target - prefixBefore) / selectedScale
        let validTokens := fun lane => decide (selectedBlock * a.blockSize + lane < V)
        let tokenWeights := fun lane => if validTokens lane then
          expDiff a.exp (selectedMax.unbotD 0)
          (a.loadValue row (selectedBlock * a.blockSize + lane))
          else 0
        countBelow a.blockSize validTokens tokenWeights localTarget with
    logNorm := a.globalMax stats row + a.log total }

/-- `sample_latentspec_draft_logits_cuda`: the buffers after both launches. -/
def samples (staleStats : LogitStats K) (stale : LogitSamples K) : LogitSamples K where
  tokens := writeAll stale.tokens (rowStores a.numRows fun row =>
    (a.select (a.blockStats staleStats) row).token)
  logNorm := writeAll stale.logNorm (rowStores a.numRows fun row =>
    (a.select (a.blockStats staleStats) row).logNorm)

/-- The weight of a token, before any shift. -/
def weight (row : ℕ) (v : Fin V) : K := a.exp (a.draftLogits row v / a.temperature row)

end LogitSampleArgs

/-! ### One draw -/

/-- A row, zero from the vocabulary on. -/
def rowValue (w : Fin V → K) (v : ℕ) : K := if h : v < V then w ⟨v, h⟩ else 0

/-- **What a selection draws from a row of weights with a uniform `u`**: the least token whose
cumulative weight is above `u` times the total.  It carries weight, and neither clamp did
anything. -/
structure Selection.Draws (s : Selection) (blockSize : ℕ) (w : Fin V → K) (u : K) (t : Fin V) :
    Prop where
  token_eq : s.token = t.val
  least : IsLeast {v | u * ∑ x, w x < ∑ x ∈ Finset.Iic v, w x} t
  weight_pos : 0 < w t
  block_le : s.selectedBlock ≤ cdiv V blockSize - 1
  local_le : (s.selectedLocal : ℤ) ≤ V - 1 - s.selectedBlock * blockSize

section Draw
variable {w : Fin V → K} {u : K} {blockSize : ℕ}

theorem load_grid {α : Type} {numRows numBlocks row block : ℕ} (value : ℕ → ℕ → α) (stale : ℕ → α)
    (hrow : row < numRows) (hblock : block < numBlocks) :
    writeAll stale (gridStores numRows numBlocks value) (row * numBlocks + block) =
      value row block := by
  refine writeAll_scatter_of_mem (b := row) (j := block) value stale hrow hblock ?_
  intro row' _ block' hblock' heq
  obtain ⟨hrow', hblock''⟩ := block_inj hblock hblock' heq
  exact ⟨hrow'.symm, hblock''.symm⟩

theorem load_row {α : Type} {numRows row : ℕ} (value : ℕ → α) (stale : ℕ → α)
    (hrow : row < numRows) : writeAll stale (rowStores numRows value) row = value row := by
  rw [rowStores, writeAll_stretch, if_pos ⟨Nat.zero_le row, by omega⟩, Nat.sub_zero]

omit [LinearOrder K] in
theorem sum_rowValue (w : Fin V → K) : ∑ v ∈ Finset.range V, rowValue w v = ∑ v, w v := by
  rw [Finset.sum_range]
  exact Finset.sum_congr rfl fun v _ => dif_pos v.isLt

omit [LinearOrder K] in
theorem sum_Iic_eq (w : Fin V → K) (t : Fin V) :
    ∑ v ∈ Finset.Iic t, w v = ∑ v ∈ Finset.range (t.val + 1), rowValue w v := by
  rw [Nat.range_succ_eq_Iic, ← Fin.map_valEmbedding_Iic, Finset.sum_map]
  refine Finset.sum_congr rfl fun v _ => ?_
  have hv : rowValue w v.val = w v := dif_pos v.isLt
  exact hv.symm

omit [LinearOrder K] in
theorem rowValue_of_le (w : Fin V → K) {v : ℕ} (hv : V ≤ v) : rowValue w v = 0 :=
  dif_neg (not_lt.mpr hv)

theorem rowValue_nonneg (hw : ∀ v, 0 ≤ w v) (v : ℕ) : 0 ≤ rowValue w v := by
  unfold rowValue
  split
  · exact hw _
  · exact le_rfl

omit [LinearOrder K] in
/-- Blocks past the row are empty. -/
theorem blockTotal_of_le (w : Fin V → K) {block : ℕ} (hblockSize : 0 < blockSize)
    (h : cdiv V blockSize ≤ block) : blockTotal blockSize (rowValue w) block = 0 := by
  refine Finset.sum_eq_zero fun lane _ => rowValue_of_le _ ?_
  have hcover := Nat.lt_mul_div_succ (V + blockSize - 1) hblockSize
  have hle := Nat.mul_le_mul_left blockSize h
  rw [cdiv] at hle
  rw [Nat.mul_add, Nat.mul_one] at hcover
  rw [Nat.mul_comm block]
  omega

omit [LinearOrder K] in
theorem sum_before {lanes b : ℕ} (h : b ≤ lanes) (f : ℕ → K) :
    (∑ block ∈ Finset.range lanes, if block < b then f block else 0) =
      ∑ block ∈ Finset.range b, f block := by
  rw [← Finset.sum_filter]
  refine Finset.sum_congr ?_ fun _ _ => rfl
  ext block
  rw [Finset.mem_filter, Finset.mem_range, Finset.mem_range]
  omega

variable [IsStrictOrderedRing K]

/-- **Two counts make a draw**: the block whose total crosses the level, and the token in it. -/
theorem Selection.exists_draws (hblockSize : 0 < blockSize) (hw : ∀ v, 0 ≤ w v)
    (hpos : 0 < ∑ v, w v) (hu : u ∈ Set.Ico 0 1) {blockCount : ℕ} {localCount : ℕ → ℕ}
    (hblock : ∀ b < cdiv V blockSize,
      Crosses (blockTotal blockSize (rowValue w)) (u * ∑ v, w v) b → blockCount = b)
    (hlocal : ∀ b < cdiv V blockSize, ∀ i < blockSize,
      Crosses (fun j => rowValue w (b * blockSize + j))
        (u * ∑ v, w v - ∑ k ∈ Finset.range b, blockTotal blockSize (rowValue w) k) i →
      b * blockSize + i < V → localCount b = i) :
    ∃ t, (Selection.ofCounts V blockSize blockCount localCount).Draws blockSize w u t := by
  have hrow := rowValue_nonneg hw
  have hlevel : u * ∑ v, w v < ∑ v ∈ Finset.range V, rowValue w v := by
    rw [sum_rowValue]
    exact mul_lt_of_lt_one_left hpos hu.2
  obtain ⟨b, i, hb, hi, hlt, hcross, hcross'⟩ := exists_block hblockSize
    (fun v => rowValue_of_le w) (mul_nonneg hu.1 hpos.le) hlevel
  have hwhole := Crosses.block hcross'
  obtain rfl := hblock b hb hcross
  have hloc := hlocal blockCount hb i hi hcross' hlt
  have hmin : min blockCount (cdiv V blockSize - 1) = blockCount := by
    have : blockCount < cdiv V blockSize := hb
    omega
  have hclamp : (i : ℤ) ≤ V - 1 - blockCount * blockSize := by
    have : ((blockCount * blockSize + i : ℕ) : ℤ) < V := by exact_mod_cast hlt
    push_cast at this
    omega
  have hleast := hwhole.isLeast hrow
  refine ⟨⟨blockCount * blockSize + i, hlt⟩, ?_, ?_, ?_, ?_, ?_⟩
  · simp only [Selection.ofCounts, hmin, hloc, min_eq_left hclamp]
    push_cast
    rfl
  · refine ⟨?_, fun v hv => ?_⟩
    · rw [Set.mem_ofPred_eq, sum_Iic_eq]
      exact hleast.1
    · rw [Set.mem_ofPred_eq, sum_Iic_eq] at hv
      exact hleast.2 hv
  · have := hwhole.pos
    rwa [rowValue, dif_pos hlt] at this
  · simp only [Selection.ofCounts]
    omega
  · simp only [Selection.ofCounts, hmin, hloc]
    exact hclamp

/-- Scaling the weights does not change the draw. -/
theorem Selection.Draws.of_mul {s : Selection} {t : Fin V} {c : K} (hc : 0 < c)
    (h : s.Draws blockSize (fun v => w v * c) u t) : s.Draws blockSize w u t := by
  have hset : {v | u * ∑ x, w x * c < ∑ x ∈ Finset.Iic v, w x * c} =
      {v | u * ∑ x, w x < ∑ x ∈ Finset.Iic v, w x} := by
    ext v
    rw [Set.mem_ofPred_eq, Set.mem_ofPred_eq, ← Finset.sum_mul, ← Finset.sum_mul, ← mul_assoc,
      mul_lt_mul_iff_left₀ hc]
  refine ⟨h.token_eq, ?_, pos_of_mul_pos_left h.weight_pos hc.le, h.block_le, h.local_le⟩
  rw [← hset]
  exact h.least

omit [IsStrictOrderedRing K] in
/-- A row and a uniform determine the token. -/
theorem Selection.Draws.unique {s s' : Selection} {bs bs' : ℕ} {t t' : Fin V}
    (h : s.Draws bs w u t) (h' : s'.Draws bs' w u t') : t = t' :=
  h.least.unique h'.least

/-- The token drawn is the one a search of the row finds. -/
theorem Selection.Draws.searchFrom_eq {s : Selection} {t : Fin V} (hw : ∀ v, 0 ≤ w v)
    (hpos : 0 < ∑ v, w v) (hu : 0 ≤ u) (h : s.Draws blockSize w u t) :
    Categorical.searchFrom 0 (List.ofFn w) (u * ∑ v, w v) = some t.val := by
  have hcross : Crosses (rowValue w) (u * ∑ v, w v) t := by
    refine ⟨?_, ?_⟩
    · rcases Nat.eq_zero_or_pos t.val with hzero | hprev
      · rw [hzero, Finset.range_zero, Finset.sum_empty]
        exact mul_nonneg hu hpos.le
      · -- the token before is not above the level, or it would be less than the least
        by_contra hlt
        have hmem : (⟨t.val - 1, by omega⟩ : Fin V) ∈
            {v | u * ∑ x, w x < ∑ x ∈ Finset.Iic v, w x} := by
          rw [Set.mem_ofPred_eq, sum_Iic_eq, Nat.sub_add_cancel hprev]
          exact not_le.mp hlt
        have hle : t.val ≤ t.val - 1 := h.least.2 hmem
        omega
    · have hmem := h.least.1
      rwa [Set.mem_ofPred_eq, sum_Iic_eq] at hmem
  have hrow : List.ofFn w = (List.range V).map (rowValue w) := by
    refine List.ext_getElem (by simp) fun v hv _ => ?_
    have hlt : v < V := by simpa using hv
    simp [rowValue, hlt]
  rw [hrow]
  exact hcross.searchFrom (rowValue_nonneg hw) t.isLt (mul_nonneg hu hpos.le)

end Draw

/-! ### The categorical kernels -/

section Categorical
variable {a : CategoricalArgs V K} {row : ℕ}

/-- The lanes the select kernel reads hold the block totals of the row. -/
theorem CategoricalArgs.blockValues_eq (hrow : row < a.numRows) (stale : ℕ → K) (block : ℕ) :
    a.blockValues (a.blockSums stale) row block =
      blockTotal a.blockSize (rowValue (a.probs row)) block := by
  unfold blockValues
  by_cases hblock : block < a.numBlocks
  · rw [if_pos hblock, blockSums, load_grid _ _ hrow hblock]
    rfl
  · rw [if_neg hblock, blockTotal_of_le _ a.blockSize_pos (not_lt.mp hblock)]

variable [IsStrictOrderedRing K]

/-- **The categorical pair draws from the row.** -/
theorem CategoricalArgs.exists_draws (hrow : row < a.numRows) (hnonneg : ∀ v, 0 ≤ a.probs row v)
    (hpos : 0 < ∑ v, a.probs row v) (stale : ℕ → K) :
    ∃ t, (a.select (a.blockSums stale) row).Draws a.blockSize (a.probs row) (a.uniforms row) t := by
  have hvalues := funext (CategoricalArgs.blockValues_eq hrow stale)
  have hlanes : cdiv V a.blockSize ≤ a.numBlockLanes := le_nextPowerOf2 _
  have htotal : ∑ block ∈ Finset.range a.numBlockLanes,
      blockTotal a.blockSize (rowValue (a.probs row)) block = ∑ v, a.probs row v := by
    rw [sum_blockTotal_eq a.blockSize_pos (fun v => rowValue_of_le _) hlanes, sum_rowValue]
  have hload := rowValue_nonneg hnonneg
  unfold select
  simp only [hvalues, htotal]
  refine Selection.exists_draws a.blockSize_pos hnonneg hpos (a.uniforms row).2 ?_ ?_
  · intro b hb hcross
    refine countBelow_eq (fun j => Finset.sum_nonneg fun i _ => hload _) hcross
      (hb.le.trans hlanes) fun j hj => decide_eq_true ?_
    exact hj.trans hb
  · intro b hb i hi hcross hlt
    rw [sum_before (hb.le.trans hlanes)]
    refine countBelow_eq (fun j => hload _) hcross hi.le fun j hj => decide_eq_true ?_
    omega

end Categorical

/-! ### The logits kernels -/

/-- An exponential: positive, and it turns differences into quotients. -/
structure ExpLaw (exp : K → K) : Prop where
  pos : ∀ x, 0 < exp x
  sub_mul_sub : ∀ a b c, exp (a - b) * exp (b - c) = exp (a - c)

section Logits
variable {exp : K → K}

theorem ExpLaw.expDiff_nonneg (h : ExpLaw exp) (shift : K) (x : WithBot K) :
    0 ≤ expDiff exp shift x := by
  cases x with
  | bot => exact le_rfl
  | coe x => exact (h.pos _).le

/-- A shifted weight is shifted again by a factor. -/
theorem ExpLaw.expDiff_mul (h : ExpLaw exp) (a b : K) (x : WithBot K) :
    expDiff exp a x * exp (a - b) = expDiff exp b x := by
  cases x with
  | bot => exact zero_mul _
  | coe x => exact h.sub_mul_sub x a b

variable {a : LogitSampleArgs V K} {row : ℕ}

/-- The row's weights, shifted. -/
def LogitSampleArgs.shifted (a : LogitSampleArgs V K) (shift : K) (row : ℕ) (v : Fin V) : K :=
  a.exp (a.draftLogits row v / a.temperature row - shift)

theorem LogitSampleArgs.rowValue_shifted (shift : K) (row v : ℕ) :
    rowValue (a.shifted shift row) v = expDiff a.exp shift (a.loadValue row v) := by
  unfold rowValue loadValue
  by_cases hv : v < V
  · rw [dif_pos hv, dif_pos hv]
    rfl
  · rw [dif_neg hv, dif_neg hv]
    rfl

/-- A block that starts inside the row has a largest value. -/
theorem LogitSampleArgs.blockMax_ne_bot (row : ℕ) {block : ℕ} (h : block < a.numBlocks) :
    a.blockMax row block ≠ ⊥ := by
  have hstart : block * a.blockSize + 0 < V := by
    have hle := Nat.div_mul_le_self (V + a.blockSize - 1) a.blockSize
    have hmul := Nat.mul_le_mul_right a.blockSize (Nat.succ_le_of_lt h)
    have hpos := a.blockSize_pos
    rw [Nat.succ_mul] at hmul
    unfold numBlocks cdiv at hmul
    omega
  intro hbot
  have hle : a.loadValue row (block * a.blockSize + 0) ≤ a.blockMax row block :=
    Finset.le_sup (f := fun lane => a.loadValue row (block * a.blockSize + lane))
      (Finset.mem_range.mpr a.blockSize_pos)
  rw [hbot, loadValue, dif_pos hstart] at hle
  exact WithBot.coe_ne_bot (le_bot_iff.mp hle)

/-- **A block's sum, shifted again from its own maximum**, is the block's total of the row. -/
theorem LogitSampleArgs.blockSum_mul (h : ExpLaw a.exp) (shift : K) {block : ℕ}
    (hblock : block < a.numBlocks) :
    a.blockSum row block * expDiff a.exp shift (a.blockMax row block) =
      blockTotal a.blockSize (rowValue (a.shifted shift row)) block := by
  obtain ⟨m, hm⟩ := WithBot.ne_bot_iff_exists.mp (a.blockMax_ne_bot row hblock)
  rw [blockSum, ← hm, WithBot.unbotD_coe, Finset.sum_mul, blockTotal]
  refine Finset.sum_congr rfl fun lane _ => ?_
  by_cases hlane : block * a.blockSize + lane < V
  · rw [if_pos hlane, rowValue_shifted]
    exact h.expDiff_mul m shift _
  · rw [if_neg hlane, zero_mul, rowValue_of_le _ (not_lt.mp hlane)]

theorem LogitSampleArgs.maxima_eq {block : ℕ} (hrow : row < a.numRows)
    (hblock : block < a.numBlocks)
    (stale : LogitStats K) : a.maxima (a.blockStats stale) row block = a.blockMax row block := by
  rw [maxima, if_pos hblock]
  exact load_grid _ _ hrow hblock

/-- **The lanes the select kernel searches** are the block totals of the row shifted by its
maximum. -/
theorem LogitSampleArgs.blockWeights_eq (h : ExpLaw a.exp) (hrow : row < a.numRows)
    (stale : LogitStats K) (block : ℕ) :
    a.blockWeights (a.blockStats stale) row block = blockTotal a.blockSize
      (rowValue (a.shifted (a.globalMax (a.blockStats stale) row) row)) block := by
  unfold blockWeights sums
  by_cases hblock : block < a.numBlocks
  · have hsum : (a.blockStats stale).blockSum (row * a.numBlocks + block) = a.blockSum row block :=
      load_grid _ _ hrow hblock
    rw [if_pos hblock, hsum, LogitSampleArgs.maxima_eq hrow hblock]
    exact LogitSampleArgs.blockSum_mul h _ hblock
  · rw [if_neg hblock, zero_mul, blockTotal_of_le _ a.blockSize_pos (not_lt.mp hblock)]

variable [IsStrictOrderedRing K]

/-- **The logits pair draws from the row of exponentials.** -/
theorem LogitSampleArgs.exists_draws (h : ExpLaw a.exp) (hV : 0 < V) (hrow : row < a.numRows)
    (stale : LogitStats K) :
    ∃ t, (a.select (a.blockStats stale) row).Draws a.blockSize (a.weight row)
      (a.uniforms row) t := by
  have hlanes : cdiv V a.blockSize ≤ a.numBlockLanes := le_nextPowerOf2 _
  have hweights := funext (LogitSampleArgs.blockWeights_eq h hrow stale)
  generalize hmax : a.globalMax (a.blockStats stale) row = globalMax at hweights
  have hnonneg : ∀ v, 0 ≤ a.shifted globalMax row v := fun v => (h.pos _).le
  have hload := rowValue_nonneg hnonneg
  have htotal : ∑ block ∈ Finset.range a.numBlockLanes,
      blockTotal a.blockSize (rowValue (a.shifted globalMax row)) block =
        ∑ v, a.shifted globalMax row v := by
    rw [sum_blockTotal_eq a.blockSize_pos (fun v => rowValue_of_le _) hlanes, sum_rowValue]
  have hpos : 0 < ∑ v, a.shifted globalMax row v :=
    Finset.sum_pos (fun v _ => h.pos _) ⟨⟨0, hV⟩, Finset.mem_univ _⟩
  have hshifted : ∀ v, a.weight row v * a.exp (0 - globalMax) = a.shifted globalMax row v := by
    intro v
    have hmul := h.sub_mul_sub (a.draftLogits row v / a.temperature row) 0 globalMax
    rwa [sub_zero] at hmul
  unfold select
  simp only [hweights, hmax, htotal]
  refine Exists.imp (fun t => Selection.Draws.of_mul (h.pos (0 - globalMax))) ?_
  rw [funext hshifted]
  refine Selection.exists_draws a.blockSize_pos hnonneg hpos (a.uniforms row).2 ?_ ?_
  · intro b hb hcross
    refine countBelow_eq (fun j => Finset.sum_nonneg fun i _ => hload _) hcross
      (hb.le.trans hlanes) fun j hj => decide_eq_true ?_
    exact hj.trans hb
  · intro b hb i hi hcross hlt
    have hblock : b < a.numBlocks := hb
    obtain ⟨m, hm⟩ := WithBot.ne_bot_iff_exists.mp (a.blockMax_ne_bot row hblock)
    have hselected : (∑ block ∈ Finset.range a.numBlockLanes,
        if block = b then a.maxima (a.blockStats stale) row block else 0) = (m : WithBot K) := by
      rw [Finset.sum_ite_eq', if_pos (Finset.mem_range.mpr (hb.trans_le hlanes)),
        LogitSampleArgs.maxima_eq hrow hblock, hm]
    have hscale : 0 < a.exp (m - globalMax) := h.pos _
    rw [sum_before (hb.le.trans hlanes), hselected]
    -- the block is held in the scale of its own maximum
    have htokens : ∀ lane, (if decide (b * a.blockSize + lane < V) then
        expDiff a.exp m (a.loadValue row (b * a.blockSize + lane)) else 0) * a.exp (m - globalMax) =
          rowValue (a.shifted globalMax row) (b * a.blockSize + lane) := by
      intro lane
      by_cases hlane : b * a.blockSize + lane < V
      · rw [if_pos (decide_eq_true hlane), h.expDiff_mul, rowValue_shifted]
      · rw [if_neg (by simpa using hlane), zero_mul, rowValue_of_le _ (not_lt.mp hlane)]
    have hlocal : Crosses (fun lane => if decide (b * a.blockSize + lane < V) then
        expDiff a.exp m (a.loadValue row (b * a.blockSize + lane)) else 0)
        ((a.uniforms row * ∑ v, a.shifted globalMax row v -
          ∑ k ∈ Finset.range b, blockTotal a.blockSize (rowValue (a.shifted globalMax row)) k) /
            a.exp (m - globalMax)) i := by
      rw [← crosses_mul_iff hscale, div_mul_cancel₀ _ hscale.ne', funext htokens]
      exact hcross
    refine countBelow_eq ?_ hlocal hi.le fun j hj => decide_eq_true ?_
    · intro lane
      split
      · exact h.expDiff_nonneg _ _
      · exact le_rfl
    · omega

/-- **The log-normaliser it leaves** is the logarithm of the row's partition sum. -/
theorem LogitSampleArgs.select_logNorm (h : ExpLaw a.exp) (hV : 0 < V) (hrow : row < a.numRows)
    (hlog : ∀ x t, 0 < t → a.log (a.exp x * t) = x + a.log t) (stale : LogitStats K) :
    (a.select (a.blockStats stale) row).logNorm = a.log (∑ v, a.weight row v) := by
  have hlanes : cdiv V a.blockSize ≤ a.numBlockLanes := le_nextPowerOf2 _
  have hweights := funext (LogitSampleArgs.blockWeights_eq h hrow stale)
  generalize hmax : a.globalMax (a.blockStats stale) row = globalMax at hweights
  have hpos : 0 < ∑ v, a.shifted globalMax row v :=
    Finset.sum_pos (fun v _ => h.pos _) ⟨⟨0, hV⟩, Finset.mem_univ _⟩
  have hshifted : ∀ v, a.exp globalMax * a.shifted globalMax row v = a.weight row v := by
    intro v
    have hmul := h.sub_mul_sub (a.draftLogits row v / a.temperature row) globalMax 0
    rwa [sub_zero, sub_zero, mul_comm] at hmul
  unfold select
  simp only [hweights, hmax]
  rw [sum_blockTotal_eq a.blockSize_pos (fun v => rowValue_of_le _) hlanes, sum_rowValue,
    ← hlog _ _ hpos, Finset.mul_sum]
  exact congrArg a.log (Finset.sum_congr rfl fun v _ => hshifted v)

end Logits

/-- **Both samplers return the token of the one-level search**, in every row of a launch, for
every vocabulary and block size and whatever the buffers held before; the logits pair leaves the
logarithm of the row's partition sum. -/
theorem samplers_draw (V : ℕ) (K : Type) [Field K] [LinearOrder K] [IsStrictOrderedRing K] :
    (∀ (a : CategoricalArgs V K) (row : ℕ) (staleSums : ℕ → K) (staleTokens : ℕ → ℤ),
      row < a.numRows → (∀ v, 0 ≤ a.probs row v) → 0 < ∑ v, a.probs row v →
      ∃ t : Fin V, a.tokens staleSums staleTokens row = t.val ∧
        (a.select (a.blockSums staleSums) row).Draws a.blockSize (a.probs row)
          (a.uniforms row) t) ∧
    (∀ (a : LogitSampleArgs V K) (row : ℕ) (staleStats : LogitStats K) (stale : LogitSamples K),
      ExpLaw a.exp → 0 < V → row < a.numRows →
      (∃ t : Fin V, (a.samples staleStats stale).tokens row = t.val ∧
        (a.select (a.blockStats staleStats) row).Draws a.blockSize (a.weight row)
          (a.uniforms row) t) ∧
      ((∀ x t, 0 < t → a.log (a.exp x * t) = x + a.log t) →
        (a.samples staleStats stale).logNorm row = a.log (∑ v, a.weight row v))) := by
  refine ⟨fun a row staleSums staleTokens hrow hnonneg hpos => ?_,
    fun a row staleStats stale hexp hV hrow => ⟨?_, fun hlog => ?_⟩⟩
  · obtain ⟨t, ht⟩ := CategoricalArgs.exists_draws hrow hnonneg hpos staleSums
    exact ⟨t, (load_row _ _ hrow).trans ht.token_eq, ht⟩
  · obtain ⟨t, ht⟩ := LogitSampleArgs.exists_draws hexp hV hrow staleStats
    exact ⟨t, (load_row _ _ hrow).trans ht.token_eq, ht⟩
  · exact (load_row _ _ hrow).trans (LogitSampleArgs.select_logNorm hexp hV hrow hlog staleStats)

theorem expLaw_exp : ExpLaw Real.exp where
  pos := Real.exp_pos
  sub_mul_sub a b c := by rw [← Real.exp_add, sub_add_sub_cancel]

theorem log_exp_mul (x t : ℝ) (ht : 0 < t) : Real.log (Real.exp x * t) = x + Real.log t := by
  rw [Real.log_mul (Real.exp_ne_zero x) ht.ne', Real.log_exp]

/-- Three tokens in blocks of two: the last block is partial, and the middle token has no weight. -/
noncomputable def threeWeights : CategoricalArgs 3 ℝ where
  probs _ v := if v.val = 1 then 0 else 1
  uniforms _ := Coins.half
  numRows := 1
  blockSize := 2
  blockSize_pos := Nat.two_pos

/-- Three logits in blocks of two. -/
noncomputable def threeLogits : LogitSampleArgs 3 ℝ where
  exp := Real.exp
  log := Real.log
  draftLogits _ v := v.val
  temperatures _ := ⟨2, by norm_num⟩
  uniforms _ := Coins.half
  numRows := 1
  rowsPerRequest := 1
  blockSize := 2
  blockSize_pos := Nat.two_pos

/-- Both samplers at work: each draws a token of weight, and the normaliser is left behind. -/
theorem samplers_draw_three :
    (∃ t : Fin 3, threeWeights.tokens (fun _ => 0) (fun _ => 0) 0 = t.val ∧
      0 < threeWeights.probs 0 t) ∧
    (∃ t : Fin 3, (threeLogits.samples ⟨fun _ => ⊥, fun _ => 0⟩ ⟨fun _ => 0, fun _ => 0⟩).tokens 0 =
      t.val) ∧
    (threeLogits.samples ⟨fun _ => ⊥, fun _ => 0⟩ ⟨fun _ => 0, fun _ => 0⟩).logNorm 0 =
      Real.log (∑ v, threeLogits.weight 0 v) := by
  obtain ⟨hcategorical, hlogits⟩ := samplers_draw 3 ℝ
  have hnonneg : ∀ v, 0 ≤ threeWeights.probs 0 v := by
    intro v
    unfold threeWeights
    dsimp only
    split <;> norm_num
  have hpos : 0 < ∑ v, threeWeights.probs 0 v := by
    rw [Fin.sum_univ_three]
    norm_num [threeWeights]
  obtain ⟨t, ht, hdraws⟩ := hcategorical threeWeights 0 (fun _ => 0) (fun _ => 0) Nat.one_pos
    hnonneg hpos
  obtain ⟨⟨t', ht', -⟩, hnorm⟩ := hlogits threeLogits 0 ⟨fun _ => ⊥, fun _ => 0⟩
    ⟨fun _ => 0, fun _ => 0⟩ expLaw_exp (by decide) Nat.one_pos
  exact ⟨⟨t, ht, hdraws.weight_pos⟩, ⟨t', ht'⟩, hnorm log_exp_mul⟩

end LatentSpec
