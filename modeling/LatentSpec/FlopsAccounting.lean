import LatentSpec.ExchangeableDraws
import LatentSpec.OrderedDict
import LatentSpec.TrainingMask

/-! # Counting the FLOPs of training

`training_breakdown` charges the attention of a training forward for a number of visible
query and key pairs that it computes from two numbers, how many anchors are active and where
they stand on average (`scripts/flops/flops_core.py`).  The forward itself derives the visible
pairs from its masks.  The two are compared for every choice of anchors, and the average
position that is assumed when none is given with the mean over all choices.

The floats of the breakdown are rational numbers here.
-/
namespace LatentSpec
open TiledStores

/-! ### The analytical model -/

/-- `ModelDimensions`, with its defaults. -/
structure ModelDimensions where
  hiddenSize : ℤ := 2560
  intermediateSize : ℤ := 9728
  numAttentionHeads : ℤ := 32
  numKeyValueHeads : ℤ := 8
  headDim : ℤ := 128
  vocabSize : ℤ := 151936

namespace ModelDimensions
variable (dims : ModelDimensions)

def queryProjectionSize : ℤ := dims.numAttentionHeads * dims.headDim

def kvProjectionSize : ℤ := dims.numKeyValueHeads * dims.headDim

end ModelDimensions

/-- `DraftArchitecture`, with its defaults. -/
structure DraftArchitecture where
  name : String
  kind : String
  numFeatureLayers : ℤ
  numAnchors : ℤ
  blockSize : ℤ
  numDraftLayers : ℤ
  numLatentLayers : ℤ := 0
  numLatentTokens : ℤ := 0
  markovRank : ℤ := 0
  confidenceEnabled : Bool := false
  confidenceWithMarkov : Bool := false

namespace DraftArchitecture
variable (architecture : DraftArchitecture)

def trainingDraftTokens : ℤ := architecture.numAnchors * architecture.blockSize

def trainingLatentTokens : ℤ := architecture.numAnchors * architecture.numLatentTokens

def hasMarkov : Bool := decide (0 < architecture.markovRank)

/-- The fields `validate_architecture` requires to be positive, in its order. -/
def positive : List (String × ℤ) :=
  [("num_feature_layers", architecture.numFeatureLayers),
    ("num_anchors", architecture.numAnchors),
    ("block_size", architecture.blockSize),
    ("num_draft_layers", architecture.numDraftLayers)]

end DraftArchitecture

/-- `validate_architecture`. -/
def validateArchitecture (architecture : DraftArchitecture) : Except String Unit :=
  let name := architecture.name
  if ¬ (architecture.kind = "myspec" ∨ architecture.kind = "dspark") then
    let kind := architecture.kind
    .error s!"unsupported architecture kind: {kind}"
  else
    match architecture.positive.find? fun p => p.2 ≤ 0 with
    | some (field, _) => .error s!"{name}: {field} must be positive"
    | none =>
      if architecture.kind = "myspec" ∧
          (architecture.numLatentLayers ≤ 0 ∨ architecture.numLatentTokens ≤ 0) then
        .error s!"{name}: MySpec requires positive latent layers/tokens"
      else if architecture.kind ≠ "myspec" ∧
          (architecture.numLatentLayers ≠ 0 ∨ architecture.numLatentTokens ≠ 0) then
        .error s!"{name}: DSpark/DFlash cannot have latent layers"
      else if architecture.markovRank < 0 then
        .error s!"{name}: markov_rank must be non-negative"
      else if architecture.confidenceWithMarkov && !architecture.hasMarkov then
        .error s!"{name}: confidence_with_markov requires a Markov head"
      else .ok ()

/-- `_linear_training`: forward and weight gradient, and the input gradient when the source
requires it. -/
def linearTraining (tokens inputSize outputSize : ℤ) (inputGradient : Bool) : ℚ :=
  let multiplier : ℚ := if inputGradient then 6 else 4
  multiplier * tokens * inputSize * outputSize

/-- `feature_fusion_training_flops`. -/
def featureFusionTrainingFlops (sequenceLength : ℤ) (dims : ModelDimensions)
    (architecture : DraftArchitecture) : ℚ :=
  linearTraining sequenceLength (architecture.numFeatureLayers * dims.hiddenSize) dims.hiddenSize
    false

/-- `decoder_layer_training_linear_flops`. -/
def decoderLayerTrainingLinearFlops (queryTokens : ℤ) (externalKvTokens : List ℤ)
    (dims : ModelDimensions) (firstLayerInStack : Bool) : ℚ :=
  let d := dims.hiddenSize
  let f := dims.intermediateSize
  let dq := dims.queryProjectionSize
  let dkv := dims.kvProjectionSize
  let queryInputGradient := !firstLayerInStack
  linearTraining queryTokens d dq queryInputGradient + linearTraining queryTokens dq d true +
    2 * linearTraining queryTokens d dkv queryInputGradient +
    (externalKvTokens.map fun tokenCount => 2 * linearTraining tokenCount d dkv true).sum +
    3 * linearTraining queryTokens d f true

/-- The loop over the layers of a stack. -/
def stackTrainingLinearFlops (numLayers queryTokens : ℤ) (externalKvTokens : List ℤ)
    (dims : ModelDimensions) : ℚ :=
  ((List.range numLayers.toNat).map fun layerIndex =>
    decoderLayerTrainingLinearFlops queryTokens externalKvTokens dims (layerIndex == 0)).sum

/-- `attention_training_flops`. -/
def attentionTrainingFlops (visibleQueryKeyPairs : ℚ) (dims : ModelDimensions) : ℚ :=
  12 * visibleQueryKeyPairs * dims.queryProjectionSize

/-- `output_heads_training_breakdown`. -/
def outputHeadsTrainingBreakdown (tokens : ℤ) (dims : ModelDimensions)
    (architecture : DraftArchitecture) : OrderedDict String ℚ :=
  let d := dims.hiddenSize
  let vocab := dims.vocabSize
  let result : OrderedDict String ℚ := OrderedDict.empty.set "draft LM head"
    (4 * tokens * d * vocab)
  let result := result.set "aligned target LM head" (2 * tokens * d * vocab)
  let result :=
    if architecture.hasMarkov then
      result.set "Markov head" (6 * tokens * architecture.markovRank * vocab)
    else result
  if architecture.confidenceEnabled then
    let inputSize := if architecture.confidenceWithMarkov then d + architecture.markovRank else d
    result.set "confidence head" (6 * tokens * inputSize)
  else result

/-- `_active_anchor_expectation`. -/
def activeAnchorExpectation (sequenceLength : ℤ) (architecture : DraftArchitecture)
    (meanAnchorPosition : Option ℚ) : Except String (ℤ × ℚ) :=
  if sequenceLength < 2 then .error "sequence length must be at least 2"
  else
    let activeAnchors := min architecture.numAnchors (sequenceLength - 1)
    let meanAnchor := meanAnchorPosition.getD ((sequenceLength - 2) / 2)
    if ¬ (0 ≤ meanAnchor ∧ meanAnchor ≤ sequenceLength - 2) then
      .error s!"mean anchor position must lie in [0, {sequenceLength - 2}]"
    else .ok (activeAnchors, meanAnchor)

/-- `latent_pairs`. -/
def latentPairs (activeAnchors : ℤ) (meanAnchor : ℚ) (architecture : DraftArchitecture) : ℚ :=
  activeAnchors * architecture.numLatentTokens * (meanAnchor + architecture.numLatentTokens)

/-- `mask_pairs`. -/
def maskPairs (activeAnchors : ℤ) (meanAnchor : ℚ) (architecture : DraftArchitecture) : ℚ :=
  activeAnchors * architecture.blockSize *
    (meanAnchor + architecture.numLatentTokens + architecture.blockSize)

/-- `draft_pairs`, of an architecture without latents. -/
def draftPairs (activeAnchors : ℤ) (meanAnchor : ℚ) (architecture : DraftArchitecture) : ℚ :=
  activeAnchors * architecture.blockSize * (meanAnchor + architecture.blockSize)

/-- `training_breakdown`. -/
def trainingBreakdown (sequenceLength : ℤ) (dims : ModelDimensions)
    (architecture : DraftArchitecture) (meanAnchorPosition : Option ℚ) :
    Except String (OrderedDict String ℚ) :=
  match validateArchitecture architecture with
  | .error e => .error e
  | .ok () =>
    match activeAnchorExpectation sequenceLength architecture meanAnchorPosition with
    | .error e => .error e
    | .ok (activeAnchors, meanAnchor) =>
      let draftTokens := architecture.trainingDraftTokens
      let result := OrderedDict.empty.set "target-feature fusion"
        (featureFusionTrainingFlops sequenceLength dims architecture)
      let result :=
        if architecture.kind = "myspec" then
          let latentTokens := architecture.trainingLatentTokens
          let result := result.set "latent-layer linears" (stackTrainingLinearFlops
            architecture.numLatentLayers latentTokens [sequenceLength] dims)
          let result := result.set "latent attention" (architecture.numLatentLayers *
            attentionTrainingFlops (latentPairs activeAnchors meanAnchor architecture) dims)
          let result := result.set "mask-layer linears" (stackTrainingLinearFlops
            architecture.numDraftLayers draftTokens [sequenceLength, latentTokens] dims)
          result.set "mask attention" (architecture.numDraftLayers *
            attentionTrainingFlops (maskPairs activeAnchors meanAnchor architecture) dims)
        else
          let result := result.set "draft-layer linears" (stackTrainingLinearFlops
            architecture.numDraftLayers draftTokens [sequenceLength] dims)
          result.set "draft attention" (architecture.numDraftLayers *
            attentionTrainingFlops (draftPairs activeAnchors meanAnchor architecture) dims)
      .ok (result.update (outputHeadsTrainingBreakdown draftTokens dims architecture))

/-! ### What the breakdown charges -/

theorem activeAnchorExpectation_ok {sequenceLength : ℤ} {architecture : DraftArchitecture}
    {meanAnchorPosition : Option ℚ} (hlen : 2 ≤ sequenceLength)
    (hmean : ∀ m ∈ meanAnchorPosition, 0 ≤ m ∧ m ≤ sequenceLength - 2) :
    activeAnchorExpectation sequenceLength architecture meanAnchorPosition =
      .ok (min architecture.numAnchors (sequenceLength - 1),
        meanAnchorPosition.getD ((sequenceLength - 2) / 2)) := by
  have hrange : 0 ≤ meanAnchorPosition.getD ((sequenceLength - 2) / 2) ∧
      meanAnchorPosition.getD ((sequenceLength - 2) / 2) ≤ (sequenceLength : ℚ) - 2 := by
    cases meanAnchorPosition with
    | none =>
      have hlen' : (2 : ℚ) ≤ sequenceLength := by exact_mod_cast hlen
      constructor
      · rw [Option.getD_none]
        linarith
      · rw [Option.getD_none]
        linarith
    | some m => exact hmean m rfl
  rw [activeAnchorExpectation, if_neg (by omega)]
  exact if_neg (not_not.mpr hrange)

theorem get?_outputHeads {tokens : ℤ} {dims : ModelDimensions} {architecture : DraftArchitecture}
    {k : String} (h : k ∉ ["draft LM head", "aligned target LM head", "Markov head",
      "confidence head"]) :
    (outputHeadsTrainingBreakdown tokens dims architecture).get? k = none := by
  simp only [List.mem_cons, List.not_mem_nil, or_false, not_or] at h
  obtain ⟨hdraft, haligned, hmarkov, hconfidence⟩ := h
  unfold outputHeadsTrainingBreakdown
  cases hmarkovHead : architecture.hasMarkov <;>
    cases hconfidenceHead : architecture.confidenceEnabled <;>
      simp [OrderedDict.get?_set, hdraft, haligned, hmarkov, hconfidence]

/-- The attention entries of a valid architecture with latents. -/
theorem trainingBreakdown_attention {sequenceLength : ℤ} {dims : ModelDimensions}
    {architecture : DraftArchitecture} {meanAnchorPosition : Option ℚ} {activeAnchors : ℤ}
    {meanAnchor : ℚ} (hvalid : validateArchitecture architecture = .ok ())
    (hkind : architecture.kind = "myspec")
    (hactive : activeAnchorExpectation sequenceLength architecture meanAnchorPosition =
      .ok (activeAnchors, meanAnchor)) :
    ∃ result, trainingBreakdown sequenceLength dims architecture meanAnchorPosition = .ok result ∧
      result.get? "latent attention" = some (architecture.numLatentLayers *
        attentionTrainingFlops (latentPairs activeAnchors meanAnchor architecture) dims) ∧
      result.get? "mask attention" = some (architecture.numDraftLayers *
        attentionTrainingFlops (maskPairs activeAnchors meanAnchor architecture) dims) := by
  unfold trainingBreakdown
  rw [hvalid]
  dsimp only
  rw [hactive]
  dsimp only
  rw [if_pos hkind]
  refine ⟨_, rfl, ?_, ?_⟩
  · rw [OrderedDict.get?_update_of_eq_none (get?_outputHeads (by decide))]
    simp [OrderedDict.get?_set]
  · rw [OrderedDict.get?_update_of_eq_none (get?_outputHeads (by decide))]
    simp [OrderedDict.get?_set]

theorem validateArchitecture_anchors {architecture : DraftArchitecture}
    (hvalid : validateArchitecture architecture = .ok ()) : 0 < architecture.numAnchors := by
  unfold validateArchitecture at hvalid
  dsimp only at hvalid
  split at hvalid
  · cases hvalid
  · split at hvalid
    · cases hvalid
    · rename_i hfind
      have hmem : ("num_anchors", architecture.numAnchors) ∈ architecture.positive := by
        simp [DraftArchitecture.positive]
      have hpos := List.find?_eq_none.mp hfind _ hmem
      simpa using hpos

/-! ### What the masks allow -/

/-- The query and key pairs that a mask of `create_block_mask` allows. -/
def visiblePairs (qLen kvLen : ℕ) (maskMod : ℕ → ℕ → Bool) : Finset (ℕ × ℕ) :=
  (Finset.range qLen ×ˢ Finset.range kvLen).filter fun p => maskMod p.1 p.2

theorem card_visiblePairs (qLen kvLen : ℕ) (maskMod : ℕ → ℕ → Bool) :
    (visiblePairs qLen kvLen maskMod).card =
      ∑ qIdx ∈ Finset.range qLen, ∑ kvIdx ∈ Finset.range kvLen,
        if maskMod qIdx kvIdx then 1 else 0 := by
  rw [visiblePairs, Finset.card_filter, Finset.sum_product]

/-- The keys of one's own block. -/
theorem sum_ownBlock {n m w : ℕ} (hn : n < m) :
    ∑ c ∈ Finset.range (m * w), (if n = c / w then 1 else 0) = w := by
  have hrow : ∀ r, ∑ j ∈ Finset.range w, (if n = (r * w + j) / w then 1 else 0) =
      if n = r then w else 0 := by
    intro r
    rw [Finset.sum_congr rfl fun j hj => by rw [block_div (Finset.mem_range.mp hj)],
      Finset.sum_const, Finset.card_range]
    split <;> simp
  rw [sum_rows, Finset.sum_congr rfl fun r _ => hrow r, Finset.sum_ite_eq,
    if_pos (Finset.mem_range.mpr hn)]

namespace TrainingBatch
variable {F : Type} (t : TrainingBatch F) (b : ℕ)

/-- The blocks that train. -/
def keptBlocks : Finset ℕ := (Finset.range t.numBlocks).filter fun n => t.blockKeepMask b n

/-- The average position of the anchors that train. -/
def meanAnchorPosition : ℚ :=
  (∑ n ∈ t.keptBlocks b, (t.anchorPositions b n : ℚ)) / (t.keptBlocks b).card

/-- What `create_myspec_latent_attention_mask` allows. -/
def latentVisiblePairs : Finset (ℕ × ℕ) :=
  visiblePairs (t.numBlocks * t.numLatentTokens) (t.seqLen + t.numBlocks * t.numLatentTokens)
    (t.latentMaskMod b)

/-- What `create_myspec_mask_attention_mask` allows. -/
def maskVisiblePairs : Finset (ℕ × ℕ) :=
  visiblePairs (t.numBlocks * t.blockSize)
    (t.seqLen + t.numBlocks * t.numLatentTokens + t.numBlocks * t.blockSize) (t.maskMaskMod b)

variable {b}

/-- The keys one latent query sees. -/
theorem sum_latentMaskMod {n j : ℕ} (hn : n < t.numBlocks) (hj : j < t.numLatentTokens) :
    ∑ kvIdx ∈ Finset.range (t.seqLen + t.numBlocks * t.numLatentTokens),
        (if t.latentMaskMod b (n * t.numLatentTokens + j) kvIdx then 1 else 0) =
      if t.blockKeepMask b n then t.anchorPositions b n + t.numLatentTokens else 0 := by
  cases hkeep : t.blockKeepMask b n with
  | false => simp [latentMaskMod, block_div hj, hkeep]
  | true =>
    have hanchor := t.anchor_le b n hn hkeep
    -- the context ends where the latents begin
    rw [Finset.sum_range_add, if_pos rfl]
    congr 1
    · rw [← sum_below hanchor]
      refine Finset.sum_congr rfl fun i hi => ?_
      have hi' := Finset.mem_range.mp hi
      simp [latentMaskMod, block_div hj, hkeep, hi', Nat.not_le.mpr hi']
    · refine (Finset.sum_congr rfl fun c _ => ?_).trans (sum_ownBlock hn)
      simp [latentMaskMod, block_div hj, hkeep]

/-- The keys one mask query sees. -/
theorem sum_maskMaskMod {n j : ℕ} (hn : n < t.numBlocks) (hj : j < t.blockSize) :
    ∑ kvIdx ∈ Finset.range
        (t.seqLen + t.numBlocks * t.numLatentTokens + t.numBlocks * t.blockSize),
        (if t.maskMaskMod b (n * t.blockSize + j) kvIdx then 1 else 0) =
      if t.blockKeepMask b n then
        t.anchorPositions b n + t.numLatentTokens + t.blockSize else 0 := by
  cases hkeep : t.blockKeepMask b n with
  | false => simp [maskMaskMod, block_div hj, hkeep]
  | true =>
    have hanchor := t.anchor_le b n hn hkeep
    rw [Finset.sum_range_add, Finset.sum_range_add, if_pos rfl]
    congr 1
    · congr 1
      · rw [← sum_below hanchor]
        refine Finset.sum_congr rfl fun i hi => ?_
        have hi' := Finset.mem_range.mp hi
        have hend : ¬ t.latentEnd ≤ i := by
          rw [latentEnd]
          omega
        simp [maskMaskMod, block_div hj, hkeep, hi', Nat.not_le.mpr hi', hend]
      · refine (Finset.sum_congr rfl fun c hc => ?_).trans (sum_ownBlock hn)
        have hc' : t.seqLen + c < t.latentEnd := by
          have hlt := Finset.mem_range.mp hc
          rw [latentEnd]
          omega
        simp [maskMaskMod, block_div hj, hkeep, hc', Nat.not_le.mpr hc']
    · refine (Finset.sum_congr rfl fun c _ => ?_).trans (sum_ownBlock hn)
      rw [← latentEnd]
      have hlt : ¬ t.latentEnd + c < t.seqLen := by
        rw [latentEnd]
        omega
      simp [maskMaskMod, block_div hj, hkeep, hlt]

/-- A count that is the same for every query of a kept block. -/
theorem sum_queries {width : ℕ} {keys : ℕ → ℕ} {count : ℕ → ℕ}
    (h : ∀ n < t.numBlocks, ∀ j < width,
      count (n * width + j) = if t.blockKeepMask b n then keys n else 0) :
    ∑ qIdx ∈ Finset.range (t.numBlocks * width), count qIdx =
      ∑ n ∈ t.keptBlocks b, width * keys n := by
  rw [sum_rows, keptBlocks, Finset.sum_filter]
  refine Finset.sum_congr rfl fun n hn => ?_
  rw [Finset.sum_congr rfl fun j hj => h n (Finset.mem_range.mp hn) j (Finset.mem_range.mp hj),
    Finset.sum_const, Finset.card_range, smul_eq_mul, mul_ite, mul_zero]

/-- A total over the kept blocks, from their number and their mean position. -/
theorem sum_keptBlocks (width extra : ℕ) :
    ((∑ n ∈ t.keptBlocks b, width * (t.anchorPositions b n + extra) : ℕ) : ℚ) =
      (t.keptBlocks b).card * width * (t.meanAnchorPosition b + extra) := by
  rw [Nat.cast_sum]
  push_cast
  rw [← Finset.mul_sum, Finset.sum_add_distrib, Finset.sum_const, nsmul_eq_mul,
    meanAnchorPosition]
  rcases Finset.eq_empty_or_nonempty (t.keptBlocks b) with hempty | hne
  · simp [hempty]
  · have hcard : ((t.keptBlocks b).card : ℚ) ≠ 0 := by
      exact_mod_cast hne.card_pos.ne'
    field_simp

theorem card_latentVisiblePairs :
    ((t.latentVisiblePairs b).card : ℚ) = (t.keptBlocks b).card * t.numLatentTokens *
      (t.meanAnchorPosition b + t.numLatentTokens) := by
  rw [latentVisiblePairs, card_visiblePairs,
    t.sum_queries fun n hn j hj => t.sum_latentMaskMod hn hj, sum_keptBlocks]

theorem card_maskVisiblePairs :
    ((t.maskVisiblePairs b).card : ℚ) = (t.keptBlocks b).card * t.blockSize *
      (t.meanAnchorPosition b + t.numLatentTokens + t.blockSize) := by
  rw [maskVisiblePairs, card_visiblePairs,
    t.sum_queries fun n hn j hj => t.sum_maskMaskMod hn hj]
  simp only [Nat.add_assoc]
  rw [sum_keptBlocks]
  push_cast
  ring

/-- Distinct anchors at which a next token exists are at most `seq_len - 1`. -/
theorem card_keptBlocks_le (hlen : 2 ≤ t.seqLen)
    (hrange : ∀ n ∈ t.keptBlocks b, t.anchorPositions b n ≤ t.seqLen - 2)
    (hdistinct : Set.InjOn (t.anchorPositions b) (t.keptBlocks b)) :
    (t.keptBlocks b).card ≤ t.seqLen - 1 := by
  have hsub : (t.keptBlocks b).image (t.anchorPositions b) ⊆ Finset.range (t.seqLen - 1) := by
    intro a ha
    obtain ⟨n, hn, rfl⟩ := Finset.mem_image.mp ha
    have hle := hrange n hn
    rw [Finset.mem_range]
    omega
  have hcard := Finset.card_le_card hsub
  rwa [Finset.card_image_of_injOn hdistinct, Finset.card_range] at hcard

/-- The average position lies where the anchors lie. -/
theorem meanAnchorPosition_mem (hlen : 2 ≤ t.seqLen)
    (hrange : ∀ n ∈ t.keptBlocks b, t.anchorPositions b n ≤ t.seqLen - 2) :
    0 ≤ t.meanAnchorPosition b ∧ t.meanAnchorPosition b ≤ (t.seqLen : ℚ) - 2 := by
  have hlen' : (2 : ℚ) ≤ t.seqLen := by exact_mod_cast hlen
  constructor
  · exact div_nonneg (Finset.sum_nonneg fun n _ => Nat.cast_nonneg _) (Nat.cast_nonneg _)
  · refine div_le_of_le_mul₀ (Nat.cast_nonneg _) (by linarith) ?_
    have hbound : ∀ n ∈ t.keptBlocks b, (t.anchorPositions b n : ℚ) ≤ (t.seqLen : ℚ) - 2 := by
      intro n hn
      have hle : t.anchorPositions b n + 2 ≤ t.seqLen := by
        have := hrange n hn
        omega
      have hcast : (t.anchorPositions b n : ℚ) + 2 ≤ t.seqLen := by exact_mod_cast hle
      linarith
    have hsum := Finset.sum_le_card_nsmul (t.keptBlocks b) _ _ hbound
    rw [nsmul_eq_mul] at hsum
    linarith

end TrainingBatch

/-! ### The mean over all choices -/

/-- All choices of `k` anchors in a sequence. -/
def anchorSets (seqLen k : ℕ) : Finset (Finset ℕ) := (Finset.range (seqLen - 1)).powersetCard k

/-- The mean position, averaged over all choices of `k` anchors. -/
def averageMeanAnchor (seqLen k : ℕ) : ℚ :=
  (∑ S ∈ anchorSets seqLen k, (∑ a ∈ S, (a : ℚ)) / S.card) / (anchorSets seqLen k).card

theorem averageMeanAnchor_eq {seqLen k : ℕ} (hlen : 2 ≤ seqLen) (hk : 0 < k)
    (hk' : k ≤ seqLen - 1) : averageMeanAnchor seqLen k = ((seqLen : ℚ) - 2) / 2 := by
  have hmem : ∀ a ∈ Finset.range (seqLen - 1), seqLen - 2 - a ∈ Finset.range (seqLen - 1) := by
    intro a ha
    rw [Finset.mem_range] at ha ⊢
    omega
  have hinv : ∀ a ∈ Finset.range (seqLen - 1), seqLen - 2 - (seqLen - 2 - a) = a := by
    intro a ha
    rw [Finset.mem_range] at ha
    omega
  -- an anchor and its mirror image add up to `seq_len - 2`
  have hmirror : ∀ a ∈ Finset.range (seqLen - 1),
      (a : ℚ) + (seqLen - 2 - a : ℕ) = (seqLen : ℚ) - 2 := by
    intro a ha
    rw [Finset.mem_range] at ha
    rw [Nat.cast_sub (by omega), Nat.cast_sub hlen]
    push_cast
    ring
  have htotal := ExchangeableDraws.two_nsmul_sum_powersetCard hmem hinv hmirror k
  have hcard : ((anchorSets seqLen k).card : ℚ) ≠ 0 := by
    rw [anchorSets, Finset.card_powersetCard, Finset.card_range]
    exact_mod_cast (Nat.choose_pos hk').ne'
  have hkne : (k : ℚ) ≠ 0 := by exact_mod_cast hk.ne'
  have hmeans : ∑ S ∈ anchorSets seqLen k, (∑ a ∈ S, (a : ℚ)) / S.card =
      (∑ S ∈ anchorSets seqLen k, ∑ a ∈ S, (a : ℚ)) / k := by
    rw [Finset.sum_div]
    refine Finset.sum_congr rfl fun S hS => ?_
    rw [(Finset.mem_powersetCard.mp hS).2]
  rw [← anchorSets, nsmul_eq_mul, nsmul_eq_mul, nsmul_eq_mul] at htotal
  rw [averageMeanAnchor, hmeans, div_eq_iff hcard, div_eq_iff hkne]
  push_cast at htotal
  linarith

/-! ### The breakdown and the masks agree -/

/-- **The breakdown charges for the visible pairs.**  With distinct anchors at which a next
token exists, the pairs that the two masks allow are `latent_pairs` and `mask_pairs` of their
number and mean position, which is what the attention entries are computed from when that many
anchors are active; and the position assumed when none is given is the mean over all choices of
as many anchors. -/
theorem breakdown_counts_visible_pairs {F : Type} (t : TrainingBatch F) (b : ℕ)
    (hlen : 2 ≤ t.seqLen)
    (hrange : ∀ n ∈ t.keptBlocks b, t.anchorPositions b n ≤ t.seqLen - 2)
    (hdistinct : Set.InjOn (t.anchorPositions b) (t.keptBlocks b)) :
    (∀ architecture : DraftArchitecture, architecture.blockSize = t.blockSize →
      architecture.numLatentTokens = t.numLatentTokens →
      ((t.latentVisiblePairs b).card : ℚ) =
          latentPairs (t.keptBlocks b).card (t.meanAnchorPosition b) architecture ∧
        ((t.maskVisiblePairs b).card : ℚ) =
          maskPairs (t.keptBlocks b).card (t.meanAnchorPosition b) architecture ∧
        (validateArchitecture architecture = .ok () → architecture.kind = "myspec" →
          min architecture.numAnchors (t.seqLen - 1) = (t.keptBlocks b).card →
          ∀ dims, ∃ result,
            trainingBreakdown t.seqLen dims architecture (some (t.meanAnchorPosition b)) =
              .ok result ∧
            result.get? "latent attention" = some (architecture.numLatentLayers *
              attentionTrainingFlops (t.latentVisiblePairs b).card dims) ∧
            result.get? "mask attention" = some (architecture.numDraftLayers *
              attentionTrainingFlops (t.maskVisiblePairs b).card dims))) ∧
    min ((t.keptBlocks b).card : ℤ) (t.seqLen - 1) = (t.keptBlocks b).card ∧
    ∀ architecture : DraftArchitecture, validateArchitecture architecture = .ok () →
      ∃ k : ℕ, activeAnchorExpectation t.seqLen architecture none =
        .ok (k, averageMeanAnchor t.seqLen k) := by
  have hle := t.card_keptBlocks_le hlen hrange hdistinct
  refine ⟨fun architecture hblock hlatent => ?_, by omega, fun architecture hvalid => ?_⟩
  · have hlatentPairs : ((t.latentVisiblePairs b).card : ℚ) =
        latentPairs (t.keptBlocks b).card (t.meanAnchorPosition b) architecture := by
      rw [latentPairs, hlatent, t.card_latentVisiblePairs]
      push_cast
      ring
    have hmaskPairs : ((t.maskVisiblePairs b).card : ℚ) =
        maskPairs (t.keptBlocks b).card (t.meanAnchorPosition b) architecture := by
      rw [maskPairs, hlatent, hblock, t.card_maskVisiblePairs]
      push_cast
      ring
    refine ⟨hlatentPairs, hmaskPairs, fun hvalid hkind hactive dims => ?_⟩
    have hexpect : activeAnchorExpectation t.seqLen architecture
        (some (t.meanAnchorPosition b)) =
          .ok ((t.keptBlocks b).card, t.meanAnchorPosition b) := by
      rw [activeAnchorExpectation_ok (by exact_mod_cast hlen), hactive]
      · rfl
      · rintro m ⟨⟩
        exact_mod_cast t.meanAnchorPosition_mem hlen hrange
    rw [hlatentPairs, hmaskPairs]
    exact trainingBreakdown_attention hvalid hkind hexpect
  · have hanchors := validateArchitecture_anchors hvalid
    have hexpect : activeAnchorExpectation t.seqLen architecture none = _ :=
      activeAnchorExpectation_ok (by exact_mod_cast hlen) (by simp)
    obtain ⟨k, hk⟩ := Int.eq_ofNat_of_zero_le
      (a := min architecture.numAnchors ((t.seqLen : ℤ) - 1)) (by omega)
    rw [hk] at hexpect
    refine ⟨k, ?_⟩
    rw [hexpect, averageMeanAnchor_eq hlen (by omega) (by omega)]
    rfl

/-- An architecture for the batch of two blocks, of which one trains. -/
def pairArchitecture : DraftArchitecture where
  name := "tiny"
  kind := "myspec"
  numFeatureLayers := 2
  numAnchors := 1
  blockSize := 2
  numDraftLayers := 2
  numLatentLayers := 1
  numLatentTokens := 1

/-- One latent sees a token and itself, two draft tokens see a token, the latent and each
other. -/
theorem breakdown_counts_visible_pairs_tiny :
    pairBatch.keptBlocks 0 = {0} ∧
    latentPairs 1 1 pairArchitecture = 2 ∧ maskPairs 1 1 pairArchitecture = 8 ∧
    ∃ result, trainingBreakdown 4 {} pairArchitecture (some (pairBatch.meanAnchorPosition 0)) =
        .ok result ∧
      result.get? "latent attention" = some (1 * attentionTrainingFlops
        (pairBatch.latentVisiblePairs 0).card {}) ∧
      result.get? "mask attention" = some (2 * attentionTrainingFlops
        (pairBatch.maskVisiblePairs 0).card {}) := by
  have hkept : pairBatch.keptBlocks 0 = {0} := by decide
  refine ⟨hkept, by norm_num [latentPairs, pairArchitecture],
    by norm_num [maskPairs, pairArchitecture], ?_⟩
  have hcounts := (breakdown_counts_visible_pairs pairBatch 0 (by decide) (by decide)
    (by rw [hkept]; simp)).1 pairArchitecture rfl rfl
  have hmin : min pairArchitecture.numAnchors (pairBatch.seqLen - 1) =
      (pairBatch.keptBlocks 0).card := by
    rw [hkept]
    rfl
  have hresult := hcounts.2.2 rfl rfl hmin {}
  simpa [pairArchitecture, pairBatch] using hresult

end LatentSpec
