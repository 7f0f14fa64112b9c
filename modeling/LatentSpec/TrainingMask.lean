import LatentSpec.DraftBlock
import LatentSpec.TiledStores

/-! # The attention masks of training

In training many blocks of one sequence are drafted in a single forward.  Their keys
stand behind each other in one tensor, first the context, then the latents of all
blocks, then the draft tokens of all blocks, and `create_myspec_latent_attention_mask`
and `create_myspec_mask_attention_mask` decide from flat indices which of them a query
attends to (`deepspec/modeling/myspec/common.py`).

The masks are modelled as the `mask_mod` predicates they are built from, and the keys
with the positions `create_position_ids` and `create_latent_position_ids` give them.
-/
namespace LatentSpec
open TiledStores

/-- What the training forward derives its masks and keys from.  `anchor_le` is what
`sample_anchor_positions` guarantees of the blocks it keeps. -/
structure TrainingBatch (F : Type) where
  seqLen : ℕ
  numBlocks : ℕ
  blockSize : ℕ
  numLatentTokens : ℕ
  anchorPositions : ℕ → ℕ → ℕ
  blockKeepMask : ℕ → ℕ → Bool
  targetHiddenStates : ℕ → ℕ → F
  anchor_le : ∀ b n, n < numBlocks → blockKeepMask b n = true → anchorPositions b n ≤ seqLen

/-- A `[num_blocks, width]` table flattened by `view`. -/
def flattenBlocks {α : Type} (numBlocks width : ℕ) (f : ℕ → ℕ → α) : List α :=
  (List.range numBlocks).flatMap fun n => (List.range width).map (f n)

namespace TrainingBatch
variable {F : Type} (t : TrainingBatch F) (b : ℕ)

/-! ### Masks -/

/-- `mask_mod` of `create_myspec_latent_attention_mask`, whose block size is the number
of latent tokens. -/
def latentMaskMod (qIdx kvIdx : ℕ) : Bool :=
  let qBlockId := qIdx / t.numLatentTokens
  let anchorPos := t.anchorPositions b qBlockId
  let isContext := decide (kvIdx < t.seqLen)
  let maskContext := isContext && decide (kvIdx < anchorPos)
  let isDraft := decide (t.seqLen ≤ kvIdx)
  let kvBlockId := (kvIdx - t.seqLen) / t.numLatentTokens
  let maskDraft := isDraft && decide (qBlockId = kvBlockId)
  let isValidBlock := t.blockKeepMask b qBlockId
  (maskContext || maskDraft) && isValidBlock

/-- Where the draft tokens start among the keys of the mask layers. -/
def latentEnd : ℕ := t.seqLen + t.numBlocks * t.numLatentTokens

/-- `mask_mod` of `create_myspec_mask_attention_mask`. -/
def maskMaskMod (qIdx kvIdx : ℕ) : Bool :=
  let qBlockId := qIdx / t.blockSize
  let anchorPos := t.anchorPositions b qBlockId
  let isContext := decide (kvIdx < t.seqLen)
  let maskContext := isContext && decide (kvIdx < anchorPos)
  let isLatent := decide (t.seqLen ≤ kvIdx) && decide (kvIdx < t.latentEnd)
  let latentBlockId := (kvIdx - t.seqLen) / t.numLatentTokens
  let maskLatent := isLatent && decide (qBlockId = latentBlockId)
  let isDraft := decide (t.latentEnd ≤ kvIdx)
  let kvBlockId := (kvIdx - t.latentEnd) / t.blockSize
  let maskDraft := isDraft && decide (qBlockId = kvBlockId)
  let isValidBlock := t.blockKeepMask b qBlockId
  (maskContext || maskLatent || maskDraft) && isValidBlock

/-! ### Keys -/

/-- `create_position_ids`. -/
def positionIds : List ℕ :=
  flattenBlocks t.numBlocks t.blockSize fun n j => t.anchorPositions b n + j

/-- `create_latent_position_ids`. -/
def latentPositionIds : List ℕ :=
  flattenBlocks t.numBlocks t.numLatentTokens fun n j => t.anchorPositions b n + j

/-- `latent_full_position_ids`. -/
def latentFullPositionIds : List ℕ := List.range t.seqLen ++ t.latentPositionIds b

/-- `mask_full_position_ids`. -/
def maskFullPositionIds : List ℕ := t.latentFullPositionIds b ++ t.positionIds b

/-- What the keys of a latent layer are projected from. -/
def latentSources : List (DraftSource F ℕ) :=
  (List.range t.seqLen).map (fun i => .context (t.targetHiddenStates b i)) ++
    flattenBlocks t.numBlocks t.numLatentTokens .latent

/-- What the keys of a mask layer are projected from. -/
def maskSources : List (DraftSource F ℕ) :=
  t.latentSources b ++ flattenBlocks t.numBlocks t.blockSize .mask

/-- The keys a latent query attends to. -/
def latentVisible (qIdx : ℕ) : Set (DraftKey F ℕ) :=
  {key | ∃ keys, rotaryKeys (t.latentSources b) (t.latentFullPositionIds b) = .ok keys ∧
    ∃ kvIdx, t.latentMaskMod b qIdx kvIdx = true ∧ keys[kvIdx]? = some key}

/-- The keys a mask query attends to. -/
def maskVisible (qIdx : ℕ) : Set (DraftKey F ℕ) :=
  {key | ∃ keys, rotaryKeys (t.maskSources b) (t.maskFullPositionIds b) = .ok keys ∧
    ∃ kvIdx, t.maskMaskMod b qIdx kvIdx = true ∧ keys[kvIdx]? = some key}

/-- The rotary positions of the latent queries. -/
def latentQueries : List ℕ :=
  rotaryQueries (t.numBlocks * t.numLatentTokens) (t.latentFullPositionIds b)

/-- The rotary positions of the mask queries. -/
def maskQueries : List ℕ := rotaryQueries (t.numBlocks * t.blockSize) (t.maskFullPositionIds b)

/-! ### Flat indices -/

theorem flattenBlocks_eq {α : Type} (numBlocks width : ℕ) (f : ℕ → ℕ → α) :
    flattenBlocks numBlocks width f =
      (List.range (numBlocks * width)).map fun k => f (k / width) (k % width) := by
  rw [flattenBlocks, ← flatMap_tiles, List.map_flatMap]
  refine List.flatMap_congr fun n _ => ?_
  rw [List.map_map]
  refine List.map_congr_left fun j hj => ?_
  have hj' := List.mem_range.mp hj
  rw [Function.comp_apply, block_div hj', block_mod hj']

theorem getElem?_flattenBlocks {α : Type} {numBlocks width k : ℕ} {f : ℕ → ℕ → α} {a : α} :
    (flattenBlocks numBlocks width f)[k]? = some a ↔
      k < numBlocks * width ∧ a = f (k / width) (k % width) := by
  rw [flattenBlocks_eq, List.getElem?_map]
  by_cases h : k < numBlocks * width
  · rw [List.getElem?_range h]
    simp [h, eq_comm]
  · rw [List.getElem?_eq_none (by simpa using h)]
    simp [h]

/-- The keys of a latent layer: the context, then every block's latents at the positions
behind its anchor. -/
def latentRow : List (DraftKey F ℕ) :=
  contextKeys (t.targetHiddenStates b) 0 t.seqLen ++
    flattenBlocks t.numBlocks t.numLatentTokens fun n j => ⟨.latent n j, t.anchorPositions b n + j⟩

/-- The keys of a mask layer: those of a latent layer, then every block's draft tokens. -/
def maskRow : List (DraftKey F ℕ) :=
  t.latentRow b ++
    flattenBlocks t.numBlocks t.blockSize fun n j => ⟨.mask n j, t.anchorPositions b n + j⟩

theorem zipWith_flattenBlocks (numBlocks width : ℕ) (source : ℕ → ℕ → DraftSource F ℕ)
    (position : ℕ → ℕ → ℕ) :
    List.zipWith DraftKey.mk (flattenBlocks numBlocks width source)
      (flattenBlocks numBlocks width position) =
        flattenBlocks numBlocks width fun n j => ⟨source n j, position n j⟩ := by
  rw [flattenBlocks_eq, flattenBlocks_eq, flattenBlocks_eq, List.zipWith_map_left,
    List.zipWith_map_right, List.zipWith_self]

theorem length_flattenBlocks {α : Type} (numBlocks width : ℕ) (f : ℕ → ℕ → α) :
    (flattenBlocks numBlocks width f).length = numBlocks * width := by
  rw [flattenBlocks_eq, List.length_map, List.length_range]

theorem zipWith_context :
    List.zipWith DraftKey.mk ((List.range t.seqLen).map fun i =>
      (.context (t.targetHiddenStates b i) : DraftSource F ℕ)) (List.range t.seqLen) =
        contextKeys (t.targetHiddenStates b) 0 t.seqLen := by
  rw [List.zipWith_map_left, List.zipWith_self, contextKeys, List.range_eq_range']

theorem rotaryKeys_latent :
    rotaryKeys (t.latentSources b) (t.latentFullPositionIds b) = .ok (t.latentRow b) := by
  rw [rotaryKeys_ok (by simp [latentSources, latentFullPositionIds, latentPositionIds,
    length_flattenBlocks])]
  rw [latentSources, latentFullPositionIds, List.zipWith_append (by simp), zipWith_context,
    latentPositionIds, zipWith_flattenBlocks, latentRow]

theorem rotaryKeys_mask :
    rotaryKeys (t.maskSources b) (t.maskFullPositionIds b) = .ok (t.maskRow b) := by
  have hlen : (t.latentSources b).length = (t.latentFullPositionIds b).length := by
    simp [latentSources, latentFullPositionIds, latentPositionIds, length_flattenBlocks]
  have hlatent := t.rotaryKeys_latent b
  rw [rotaryKeys_ok hlen, Except.ok.injEq] at hlatent
  rw [rotaryKeys_ok (by simp [maskSources, maskFullPositionIds, positionIds, hlen,
    length_flattenBlocks]), maskSources, maskFullPositionIds, List.zipWith_append hlen, hlatent,
    positionIds, zipWith_flattenBlocks, maskRow]

/-! ### What a block's queries attend to -/

theorem mem_contextKeys {B : Type} {feature : ℕ → F} {n : ℕ} {key : DraftKey F B} :
    key ∈ contextKeys feature 0 n ↔ ∃ i < n, key = ⟨.context (feature i), i⟩ := by
  simp only [contextKeys, List.mem_map, List.mem_range'_1, Nat.zero_le, Nat.zero_add, true_and,
    eq_comm]

theorem mem_latentKeys {B : Type} {owner : B} {start n : ℕ} {key : DraftKey F B} :
    key ∈ latentKeys owner start n ↔ ∃ i < n, key = ⟨.latent owner i, start + i⟩ := by
  simp only [latentKeys, List.mem_map, List.mem_range, eq_comm]

theorem mem_maskKeys {B : Type} {owner : B} {start n : ℕ} {key : DraftKey F B} :
    key ∈ maskKeys owner start n ↔ ∃ i < n, key = ⟨.mask owner i, start + i⟩ := by
  simp only [maskKeys, List.mem_map, List.mem_range, eq_comm]

/-- The key at a flat index of a latent layer. -/
theorem getElem?_latentRow {kvIdx : ℕ} {key : DraftKey F ℕ} :
    (t.latentRow b)[kvIdx]? = some key ↔
      (kvIdx < t.seqLen ∧ key = ⟨.context (t.targetHiddenStates b kvIdx), kvIdx⟩) ∨
      (t.seqLen ≤ kvIdx ∧ kvIdx < t.latentEnd ∧
        key = ⟨.latent ((kvIdx - t.seqLen) / t.numLatentTokens)
            ((kvIdx - t.seqLen) % t.numLatentTokens),
          t.anchorPositions b ((kvIdx - t.seqLen) / t.numLatentTokens) +
            (kvIdx - t.seqLen) % t.numLatentTokens⟩) := by
  rw [latentRow, latentEnd]
  rcases Nat.lt_or_ge kvIdx t.seqLen with h | h
  · rw [List.getElem?_append_left (by simpa using h), contextKeys, List.getElem?_map,
      List.getElem?_range' h]
    simp [h, Nat.not_le.mpr h, eq_comm]
  · rw [List.getElem?_append_right (by simpa using h), length_contextKeys, getElem?_flattenBlocks]
    simp only [h, Nat.not_lt.mpr h, false_and, true_and, false_or]
    rw [Nat.sub_lt_iff_lt_add h, Nat.add_comm]

/-- The key at a flat index of a mask layer. -/
theorem getElem?_maskRow {kvIdx : ℕ} {key : DraftKey F ℕ} :
    (t.maskRow b)[kvIdx]? = some key ↔
      (kvIdx < t.latentEnd ∧ (t.latentRow b)[kvIdx]? = some key) ∨
      (t.latentEnd ≤ kvIdx ∧ kvIdx < t.latentEnd + t.numBlocks * t.blockSize ∧
        key = ⟨.mask ((kvIdx - t.latentEnd) / t.blockSize) ((kvIdx - t.latentEnd) % t.blockSize),
          t.anchorPositions b ((kvIdx - t.latentEnd) / t.blockSize) +
            (kvIdx - t.latentEnd) % t.blockSize⟩) := by
  have hlen : (t.latentRow b).length = t.latentEnd := by
    rw [latentRow, List.length_append, length_contextKeys, length_flattenBlocks, latentEnd]
  rw [maskRow]
  rcases Nat.lt_or_ge kvIdx t.latentEnd with h | h
  · rw [List.getElem?_append_left (by omega)]
    simp [h, Nat.not_le.mpr h]
  · rw [List.getElem?_append_right (by omega), hlen, getElem?_flattenBlocks]
    simp only [h, Nat.not_lt.mpr h, false_and, true_and, false_or]
    rw [Nat.sub_lt_iff_lt_add h, Nat.add_comm]

variable {b}

/-- A dropped block's latents attend to nothing. -/
theorem latentVisible_dropped {n j : ℕ} (hj : j < t.numLatentTokens)
    (hdrop : t.blockKeepMask b n = false) :
    t.latentVisible b (n * t.numLatentTokens + j) = ∅ := by
  refine Set.eq_empty_of_forall_notMem ?_
  rintro key ⟨keys, -, kvIdx, hmask, -⟩
  simp [latentMaskMod, block_div hj, hdrop] at hmask

/-- A dropped block's draft tokens attend to nothing. -/
theorem maskVisible_dropped {n j : ℕ} (hj : j < t.blockSize)
    (hdrop : t.blockKeepMask b n = false) :
    t.maskVisible b (n * t.blockSize + j) = ∅ := by
  refine Set.eq_empty_of_forall_notMem ?_
  rintro key ⟨keys, -, kvIdx, hmask, -⟩
  simp [maskMaskMod, block_div hj, hdrop] at hmask

/-- The latents of a kept block attend to the context before its anchor and to the
block's latents. -/
theorem latentVisible_kept {n j : ℕ} (hn : n < t.numBlocks) (hj : j < t.numLatentTokens)
    (hkeep : t.blockKeepMask b n = true) :
    t.latentVisible b (n * t.numLatentTokens + j) =
      {key | key ∈ contextKeys (t.targetHiddenStates b) 0 (t.anchorPositions b n) ++
        latentKeys n (t.anchorPositions b n) t.numLatentTokens} := by
  have hanchor := t.anchor_le b n hn hkeep
  ext key
  simp only [latentVisible, rotaryKeys_latent, Except.ok.injEq, exists_eq_left', Set.mem_ofPred_eq,
    List.mem_append, mem_contextKeys, mem_latentKeys, getElem?_latentRow]
  constructor
  · rintro ⟨kvIdx, hmask, ⟨hlt, rfl⟩ | ⟨hge, hlt, rfl⟩⟩
    · simp only [latentMaskMod, block_div hj, hlt, Nat.not_le.mpr hlt] at hmask
      exact .inl ⟨kvIdx, by simpa [hkeep] using hmask, rfl⟩
    · simp only [latentMaskMod, block_div hj, hge, Nat.not_lt.mpr hge] at hmask
      have hblock : n = (kvIdx - t.seqLen) / t.numLatentTokens := by simpa [hkeep] using hmask
      rw [← hblock]
      exact .inr ⟨(kvIdx - t.seqLen) % t.numLatentTokens, Nat.mod_lt _ (by omega), rfl⟩
  · rintro (⟨i, hi, rfl⟩ | ⟨i, hi, rfl⟩)
    · refine ⟨i, ?_, .inl ⟨by omega, rfl⟩⟩
      have hlt : i < t.seqLen := by omega
      simp [latentMaskMod, block_div hj, hlt, hi, hkeep]
    · have hlt := block_lt hn hi
      refine ⟨t.seqLen + (n * t.numLatentTokens + i), ?_, .inr ⟨by omega, ?_, ?_⟩⟩
      · simp [latentMaskMod, block_div hj, block_div hi, hkeep]
      · rw [latentEnd]
        omega
      · rw [Nat.add_sub_cancel_left, block_div hi, block_mod hi]

/-- The draft tokens of a kept block attend to what its latents attend to and to the
block's draft tokens. -/
theorem maskVisible_kept {n j : ℕ} (hn : n < t.numBlocks) (hj : j < t.blockSize)
    (hkeep : t.blockKeepMask b n = true) :
    t.maskVisible b (n * t.blockSize + j) =
      {key | key ∈ contextKeys (t.targetHiddenStates b) 0 (t.anchorPositions b n) ++
        latentKeys n (t.anchorPositions b n) t.numLatentTokens ++
          maskKeys n (t.anchorPositions b n) t.blockSize} := by
  have hanchor := t.anchor_le b n hn hkeep
  have hend : t.seqLen ≤ t.latentEnd := Nat.le_add_right _ _
  ext key
  simp only [maskVisible, rotaryKeys_mask, Except.ok.injEq, exists_eq_left', Set.mem_ofPred_eq,
    List.mem_append, mem_contextKeys, mem_latentKeys, mem_maskKeys, getElem?_maskRow,
    getElem?_latentRow]
  constructor
  · rintro ⟨kvIdx, hmask, ⟨hlt, ⟨hctx, rfl⟩ | ⟨hge, -, rfl⟩⟩ | ⟨hge, hlt, rfl⟩⟩
    · simp only [maskMaskMod, block_div hj, hctx, Nat.not_le.mpr hctx, Nat.not_le.mpr hlt] at hmask
      exact .inl (.inl ⟨kvIdx, by simpa [hkeep] using hmask, rfl⟩)
    · simp only [maskMaskMod, block_div hj, hge, Nat.not_lt.mpr hge, hlt,
        Nat.not_le.mpr hlt] at hmask
      have hblock : n = (kvIdx - t.seqLen) / t.numLatentTokens := by simpa [hkeep] using hmask
      have hpos : 0 < t.numLatentTokens := by
        by_contra h0
        have hzero : t.numLatentTokens = 0 := by omega
        rw [latentEnd, hzero] at hlt
        omega
      rw [← hblock]
      exact .inl (.inr ⟨(kvIdx - t.seqLen) % t.numLatentTokens, Nat.mod_lt _ hpos, rfl⟩)
    · have hge' : t.seqLen ≤ kvIdx := hend.trans hge
      simp only [maskMaskMod, block_div hj, hge, hge', Nat.not_lt.mpr hge', Nat.not_lt.mpr hge]
        at hmask
      have hblock : n = (kvIdx - t.latentEnd) / t.blockSize := by simpa [hkeep] using hmask
      rw [← hblock]
      exact .inr ⟨(kvIdx - t.latentEnd) % t.blockSize, Nat.mod_lt _ (by omega), rfl⟩
  · rintro ((⟨i, hi, rfl⟩ | ⟨i, hi, rfl⟩) | ⟨i, hi, rfl⟩)
    · have hlt : i < t.seqLen := by omega
      refine ⟨i, ?_, .inl ⟨by omega, .inl ⟨hlt, rfl⟩⟩⟩
      simp [maskMaskMod, block_div hj, hlt, hi, hkeep]
    · have hlt := block_lt hn hi
      have hlt' : t.seqLen + (n * t.numLatentTokens + i) < t.latentEnd := by
        rw [latentEnd]
        omega
      refine ⟨t.seqLen + (n * t.numLatentTokens + i), ?_,
        .inl ⟨hlt', .inr ⟨by omega, hlt', ?_⟩⟩⟩
      · simp [maskMaskMod, block_div hj, block_div hi, hkeep, hlt']
      · rw [Nat.add_sub_cancel_left, block_div hi, block_mod hi]
    · have hlt := block_lt hn hi
      refine ⟨t.latentEnd + (n * t.blockSize + i), ?_, .inr ⟨by omega, by omega, ?_⟩⟩
      · simp [maskMaskMod, block_div hj, block_div hi, hkeep]
      · rw [Nat.add_sub_cancel_left, block_div hi, block_mod hi]

/-! ### Positions of the queries -/

theorem getElem?_latentQueries {n j : ℕ} (hn : n < t.numBlocks) (hj : j < t.numLatentTokens) :
    (t.latentQueries b)[n * t.numLatentTokens + j]? = some (t.anchorPositions b n + j) := by
  have hqueries := rotaryQueries_append (List.range t.seqLen) (t.latentPositionIds b)
  rw [latentPositionIds, length_flattenBlocks] at hqueries
  rw [latentQueries, latentFullPositionIds, latentPositionIds, hqueries, getElem?_flattenBlocks,
    block_div hj, block_mod hj]
  exact ⟨block_lt hn hj, rfl⟩

theorem getElem?_maskQueries {n j : ℕ} (hn : n < t.numBlocks) (hj : j < t.blockSize) :
    (t.maskQueries b)[n * t.blockSize + j]? = some (t.anchorPositions b n + j) := by
  have hqueries := rotaryQueries_append (t.latentFullPositionIds b) (t.positionIds b)
  rw [positionIds, length_flattenBlocks] at hqueries
  rw [maskQueries, maskFullPositionIds, positionIds, hqueries, getElem?_flattenBlocks,
    block_div hj, block_mod hj]
  exact ⟨block_lt hn hj, rfl⟩

end TrainingBatch

/-! ### Training and inference agree -/

/-- A source that is context, or belongs to the block `owner`. -/
def DraftSource.OfBlock {F B : Type} (owner : B) : DraftSource F B → Prop
  | .context _ => True
  | .latent owner' _ => owner' = owner
  | .mask owner' _ => owner' = owner

variable {V : ℕ} {F Hd : Type}

theorem ofBlock_of_mem_block {B : Type} {feature : ℕ → F} {owner : B} {start latents masks : ℕ}
    {key : DraftKey F B} (h : key ∈ contextKeys feature 0 start ++ latentKeys owner start latents ++
      maskKeys owner start masks) : key.source.OfBlock owner := by
  rw [List.mem_append, List.mem_append, TrainingBatch.mem_contextKeys,
    TrainingBatch.mem_latentKeys, TrainingBatch.mem_maskKeys] at h
  rcases h with (⟨i, -, rfl⟩ | ⟨i, -, rfl⟩) | ⟨i, -, rfl⟩
  · trivial
  · rfl
  · rfl

/-- **Training attends to what inference attends to.**  A kept block's latent and mask
queries have the positions, and attend to exactly the keys, that a block forward at the
block's anchor gives them, however the context is split between its cache and its new
features; a dropped block's queries attend to nothing; and no query attends to another
block's latents or tokens. -/
theorem trainingVisible_eq_forward (t : TrainingBatch F) (b n : ℕ) (hn : n < t.numBlocks) :
    (t.blockKeepMask b n = true →
      ∀ (model : MySpecBackbone V F ℕ Hd) (_ : model.numLatentTokens = t.numLatentTokens)
        (call : model.DraftCall (t.targetHiddenStates b) (t.anchorPositions b n) t.blockSize),
      ∃ out cache', call.forward n = .ok (out, cache') ∧
        (∀ j < t.numLatentTokens,
          (t.latentQueries b)[n * t.numLatentTokens + j]? = out.latentPositions[j]? ∧
          t.latentVisible b (n * t.numLatentTokens + j) =
            {key | key ∈ contextKeys (t.targetHiddenStates b) 0 (t.anchorPositions b n) ++
              latentKeys n (t.anchorPositions b n) t.numLatentTokens} ∧
          ∀ keys ∈ out.latentKeys,
            t.latentVisible b (n * t.numLatentTokens + j) = {key | key ∈ keys}) ∧
        ∀ j < t.blockSize,
          (t.maskQueries b)[n * t.blockSize + j]? = out.maskPositions[j]? ∧
          t.maskVisible b (n * t.blockSize + j) =
            {key | key ∈ contextKeys (t.targetHiddenStates b) 0 (t.anchorPositions b n) ++
              latentKeys n (t.anchorPositions b n) t.numLatentTokens ++
                maskKeys n (t.anchorPositions b n) t.blockSize} ∧
          ∀ keys ∈ out.maskKeys,
            t.maskVisible b (n * t.blockSize + j) = {key | key ∈ keys}) ∧
    (t.blockKeepMask b n = false →
      (∀ j < t.numLatentTokens, t.latentVisible b (n * t.numLatentTokens + j) = ∅) ∧
        ∀ j < t.blockSize, t.maskVisible b (n * t.blockSize + j) = ∅) ∧
    (∀ j < t.numLatentTokens, ∀ key ∈ t.latentVisible b (n * t.numLatentTokens + j),
      key.source.OfBlock n) ∧
    ∀ j < t.blockSize, ∀ key ∈ t.maskVisible b (n * t.blockSize + j), key.source.OfBlock n := by
  refine ⟨fun hkeep model hL call => ?_, fun hdrop => ?_, fun j hj key hkey => ?_,
    fun j hj key hkey => ?_⟩
  · obtain ⟨cache', -, hforward⟩ := call.forward_ok n
    refine ⟨_, cache', hforward, fun j hj => ⟨?_, t.latentVisible_kept hn hj hkeep, ?_⟩,
      fun j hj => ⟨?_, t.maskVisible_kept hn hj hkeep, ?_⟩⟩
    · rw [t.getElem?_latentQueries hn hj, MySpecBackbone.blockForward, hL, List.getElem?_range' hj,
        Nat.one_mul]
    · intro keys hkeys
      rw [t.latentVisible_kept hn hj hkeep, (List.mem_replicate.mp hkeys).2, hL]
    · rw [t.getElem?_maskQueries hn hj, MySpecBackbone.blockForward, List.getElem?_range' hj,
        Nat.one_mul]
    · intro keys hkeys
      rw [t.maskVisible_kept hn hj hkeep, (List.mem_replicate.mp hkeys).2, hL]
  · exact ⟨fun j hj => t.latentVisible_dropped hj hdrop, fun j hj => t.maskVisible_dropped hj hdrop⟩
  · cases hkeep : t.blockKeepMask b n with
    | false => simp [t.latentVisible_dropped hj hkeep] at hkey
    | true =>
      rw [t.latentVisible_kept hn hj hkeep] at hkey
      exact ofBlock_of_mem_block
        (List.mem_append_left (maskKeys n (t.anchorPositions b n) t.blockSize) hkey)
  · cases hkeep : t.blockKeepMask b n with
    | false => simp [t.maskVisible_dropped hj hkeep] at hkey
    | true =>
      rw [t.maskVisible_kept hn hj hkeep] at hkey
      exact ofBlock_of_mem_block hkey

/-- A sequence of four tokens with a kept block at the second and a dropped one. -/
def pairBatch : TrainingBatch ℕ where
  seqLen := 4
  numBlocks := 2
  blockSize := 2
  numLatentTokens := 1
  anchorPositions := fun _ n => if n = 0 then 1 else 0
  blockKeepMask := fun _ n => decide (n = 0)
  targetHiddenStates := fun _ i => 10 + i
  anchor_le := by
    intro _ n _ _
    split <;> omega

/-- A draft model with one latent and two mask layers. -/
def pairModel : MySpecBackbone 2 ℕ ℕ Unit where
  numLatentLayers := 1
  numHiddenLayers := 2
  numLatentTokens := 1
  latentTokenId := Fin.last 1
  maskTokenId := Fin.last 1
  layers_pos := by decide
  network := fun _ ids _ _ => ids.map fun _ => ()
  length_network := fun _ _ _ _ => List.length_map _

/-- The first block forward after a prompt of one token. -/
def pairCall : pairModel.DraftCall (pairBatch.targetHiddenStates 0)
    (pairBatch.anchorPositions 0 0) pairBatch.blockSize where
  latentIds := [Fin.last 1]
  ids := [Fin.last 1, Fin.last 1]
  cache := DraftCache.empty
  cached := 0
  numPositions := 8
  contextOnly := fun _ _ => rfl
  cached_le := Nat.zero_le _
  length_latentIds := rfl
  length_ids := rfl
  room := by decide

theorem trainingVisible_eq_forward_pair :
    (∃ out cache', pairCall.forward 0 = .ok (out, cache') ∧
      ∀ keys ∈ out.maskKeys, pairBatch.maskVisible 0 (0 * 2 + 1) = {key | key ∈ keys}) ∧
    pairBatch.latentVisible 0 (1 * 1 + 0) = ∅ := by
  obtain ⟨out, cache', hforward, -, hmask⟩ :=
    (trainingVisible_eq_forward pairBatch 0 0 (by decide)).1 rfl pairModel rfl pairCall
  have hdropped := (@trainingVisible_eq_forward 2 ℕ Unit pairBatch 0 1 (by decide)).2.1 rfl
  exact ⟨⟨out, cache', hforward, (hmask 1 (by decide)).2.2⟩, hdropped.1 0 (by decide)⟩

end LatentSpec
