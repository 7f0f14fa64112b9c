import LatentSpec.AnchorSampling
import LatentSpec.ByteLayout
import LatentSpec.LeadingRun

/-! # Labels, teachers and previous tokens of a training block

The forward of the draft model gathers what a block is trained on through index tensors that are
clamped at the end of the sequence and zeroed for dropped blocks
(`deepspec/modeling/myspec/qwen3/modeling.py`).  Where the evaluation mask is set, nothing was
clamped, and draft index `k` of a block sees what decoding from its anchor sees there.
-/
namespace LatentSpec
open LeadingRun

variable {K : Type} [Field K] [LinearOrder K] {T H L : Type}

/-- One entry of `torch.gather`, which raises outside of the tensor. -/
def gatherAt {α : Type} (xs : List α) (i : ℤ) : Option α := if 0 ≤ i then xs[i.toNat]? else none

def gather {α : Type} (xs : List α) (indices : List ℤ) : Option (List α) :=
  indices.mapM (gatherAt xs)

/-- `label_indices` of a block. -/
def labelIndices (blockSize anchor : ℕ) : List ℤ :=
  (List.range blockSize).map fun j => anchor + (1 + j : ℕ)

/-- `safe_label_indices` of a block. -/
def safeLabelIndices (seqLen : ℕ) (keep : Bool) (labels : List ℤ) : List ℤ :=
  labels.map fun i => if keep then min i (seqLen - 1) else 0

/-- `build_eval_mask` on a block. -/
def buildEvalMask (seqLen : ℕ) (lossMask : List K) (labels safeLabels : List ℤ) (keep : Bool) :
    Option (List Bool) := do
  let targetValid := labels.map fun i : ℤ => decide (i < seqLen)
  let targetLossMask ← gather lossMask safeLabels
  let evalMask := List.zipWith (· && ·) targetValid (targetLossMask.map isSupervised)
  pure ((cumprod ((evalMask.map (· && keep)).map Bool.toNat)).map (· != 0))

/-- What a block is trained on. -/
structure BlockSupervision (T L : Type) where
  targetIds : List T
  alignedTargetLogits : Option (List L)
  evalMask : List Bool
  prevTokenIds : List T

/-- A row of a training batch, with the random values that its anchors are sampled by. -/
structure TrainingRow (T H K : Type) where
  inputIds : List T
  lossMask : List K
  targetLastHiddenStates : Option (List H)
  randomVals : List K

/-- `aligned_target_logits` of a block, which is absent without target hidden states. -/
def alignedTargetLogits (computeLogits : H → L) (safeLabels : List ℤ) :
    Option (List H) → Option (Option (List L))
  | none => some none
  | some hiddenStates =>
    let targetPredIndices := safeLabels.map fun i => max (i - 1) 0
    (gather hiddenStates targetPredIndices).map fun alignedTargetHidden =>
      some (alignedTargetHidden.map computeLogits)

/-- The part of `forward` behind the backbone, on a block; `none` when a gather raises. -/
def superviseBlock (computeLogits : H → L) (seqLen blockSize : ℕ) (row : TrainingRow T H K)
    (anchor : ℕ) (keep : Bool) : Option (BlockSupervision T L) := do
  let labels := labelIndices blockSize anchor
  let safeLabels := safeLabelIndices seqLen keep labels
  let targetIds ← gather row.inputIds safeLabels
  let alignedTargetLogits ←
    alignedTargetLogits computeLogits safeLabels row.targetLastHiddenStates
  let evalMask ← buildEvalMask seqLen row.lossMask labels safeLabels keep
  let anchorTokenId ← gatherAt row.inputIds anchor
  pure
    { targetIds
      alignedTargetLogits
      evalMask
      prevTokenIds := anchorTokenId :: targetIds.dropLast }

/-- The blocks of a row. -/
def superviseRow (sort : TorchSort K) (computeLogits : H → L) (seqLen blockSize numAnchors : ℕ)
    (row : TrainingRow T H K) : Option (List (BlockSupervision T L)) :=
  let (anchorPositions, blockKeepMask) :=
    sampleAnchorRow sort seqLen row.lossMask numAnchors row.randomVals
  (anchorPositions.zip blockKeepMask).mapM fun block =>
    superviseBlock computeLogits seqLen blockSize row block.1 block.2

/-- The blocks of a batch. -/
def superviseBatch (sort : TorchSort K) (computeLogits : H → L)
    (seqLen blockSize numAnchors : ℕ) (rows : List (TrainingRow T H K)) :
    Option (List (List (BlockSupervision T L))) :=
  rows.mapM (superviseRow sort computeLogits seqLen blockSize numAnchors)

/-! ## Alignment -/

/-- A row of the batch has the batch's shape. -/
structure TrainingRow.Shaped (row : TrainingRow T H K) (seqLen : ℕ) : Prop where
  inputIds : row.inputIds.length = seqLen
  lossMask : row.lossMask.length = seqLen
  hiddenStates : ∀ hs, row.targetLastHiddenStates = some hs → hs.length = seqLen
  draw : UnitDraw seqLen row.randomVals

/-- The block is evaluated at draft index `k`. -/
def Evaluated (seqLen : ℕ) (lossMask : List K) (anchor : ℕ) (keep : Bool) (k : ℕ) : Prop :=
  keep = true ∧ ∀ j ≤ k, anchor + 1 + j < seqLen ∧ lossAt lossMask (anchor + 1 + j) = true

/-- A block is trained on what decoding from its anchor sees: at draft index `k` the next token is
the one at `anchor + 1 + k`, the teacher is the hidden state at `anchor + k`, and the token
before is the one at `anchor + k`. -/
structure BlockAligned (computeLogits : H → L) (seqLen blockSize : ℕ) (row : TrainingRow T H K)
    (anchor : ℕ) (keep : Bool) (s : BlockSupervision T L) : Prop where
  length : s.evalMask.length = blockSize
  evalMask : ∀ k < blockSize,
    (s.evalMask[k]? = some true ↔ Evaluated seqLen row.lossMask anchor keep k)
  target : ∀ k, s.evalMask[k]? = some true →
    s.targetIds[k]? = row.inputIds[anchor + 1 + k]? ∧ anchor + 1 + k < row.inputIds.length
  teacher : ∀ hs, row.targetLastHiddenStates = some hs →
    ∃ logits, s.alignedTargetLogits = some logits ∧
      ∀ k, s.evalMask[k]? = some true →
        logits[k]? = (hs[anchor + k]?).map computeLogits ∧ anchor + k < hs.length
  prev : ∀ k, s.evalMask[k]? = some true →
    s.prevTokenIds[k]? = row.inputIds[anchor + k]? ∧ anchor + k < row.inputIds.length

/-! ## Gathers -/

theorem gatherAt_natCast {α : Type} (xs : List α) (i : ℕ) : gatherAt xs i = xs[i]? := by
  rw [gatherAt, if_pos (Int.natCast_nonneg i), Int.toNat_natCast]

/-- A gather inside of the tensor, entry by entry. -/
theorem exists_gather {α : Type} (xs : List α) {indices : List ℤ}
    (h : ∀ i ∈ indices, 0 ≤ i ∧ i < xs.length) :
    ∃ ys, gather xs indices = some ys ∧ ys.length = indices.length ∧
      ∀ k : ℕ, ys[k]? = (indices[k]?).bind (gatherAt xs) := by
  induction indices with
  | nil => exact ⟨[], rfl, rfl, fun k => by simp⟩
  | cons i indices ih =>
    obtain ⟨ys, hys, hlen, hentry⟩ := ih fun j hj => h j (List.mem_cons_of_mem i hj)
    obtain ⟨hnonneg, hlt⟩ := h i List.mem_cons_self
    obtain ⟨n, rfl⟩ := Int.eq_ofNat_of_zero_le hnonneg
    have hn : n < xs.length := by omega
    refine ⟨xs[n] :: ys, ?_, by rw [List.length_cons, List.length_cons, hlen], fun k => ?_⟩
    · rw [gather, List.mapM_cons, gatherAt_natCast, List.getElem?_eq_getElem hn]
      rw [gather] at hys
      rw [hys]
      rfl
    · cases k with
      | zero =>
        rw [List.getElem?_cons_zero, List.getElem?_cons_zero, Option.bind_some, gatherAt_natCast,
          List.getElem?_eq_getElem hn]
      | succ k =>
        rw [List.getElem?_cons_succ, List.getElem?_cons_succ]
        exact hentry k

/-! ## One block -/

section Block
variable {seqLen blockSize anchor : ℕ} {keep : Bool}

theorem getElem?_labelIndices {k : ℕ} (hk : k < blockSize) :
    (labelIndices blockSize anchor)[k]? = some ((anchor + 1 + k : ℕ) : ℤ) := by
  rw [labelIndices, List.getElem?_map, List.getElem?_range hk, Option.map_some]
  congr 1
  omega

theorem length_labelIndices : (labelIndices blockSize anchor).length = blockSize := by
  rw [labelIndices, List.length_map, List.length_range]

theorem getElem?_safeLabelIndices {k : ℕ} (hk : k < blockSize) :
    (safeLabelIndices seqLen keep (labelIndices blockSize anchor))[k]? =
      some (if keep then min ((anchor + 1 + k : ℕ) : ℤ) (seqLen - 1) else 0) := by
  rw [safeLabelIndices, List.getElem?_map, getElem?_labelIndices hk, Option.map_some]

/-- A label before the end of the sequence is not clamped. -/
theorem getElem?_safeLabelIndices_of_lt {k : ℕ} (hk : k < blockSize)
    (hlt : anchor + 1 + k < seqLen) :
    (safeLabelIndices seqLen true (labelIndices blockSize anchor))[k]? =
      some ((anchor + 1 + k : ℕ) : ℤ) := by
  rw [getElem?_safeLabelIndices hk, if_pos rfl, min_eq_left (by omega)]

/-- Every index stays inside the sequence, those of dropped blocks included. -/
theorem safeLabelIndices_range (hpos : 0 < seqLen) :
    ∀ i ∈ safeLabelIndices seqLen keep (labelIndices blockSize anchor), 0 ≤ i ∧ i < seqLen := by
  intro i hi
  rw [safeLabelIndices, labelIndices, List.map_map, List.mem_map] at hi
  obtain ⟨j, -, rfl⟩ := hi
  rw [Function.comp_apply]
  split <;> omega

variable {row : TrainingRow T H K}

variable (row blockSize anchor keep) in
/-- The evaluation mask, by the factors of its running product. -/
theorem exists_evalMask (hshape : row.lossMask.length = seqLen) (hpos : 0 < seqLen) :
    ∃ evalMask, buildEvalMask seqLen row.lossMask (labelIndices blockSize anchor)
        (safeLabelIndices seqLen keep (labelIndices blockSize anchor)) keep = some evalMask ∧
      evalMask.length = blockSize ∧
      ∀ k < blockSize,
        (evalMask[k]? = some true ↔ Evaluated seqLen row.lossMask anchor keep k) := by
  have hrange : ∀ i ∈ safeLabelIndices seqLen keep (labelIndices blockSize anchor),
      0 ≤ i ∧ i < row.lossMask.length := hshape.symm ▸ safeLabelIndices_range hpos
  obtain ⟨loss, hloss, hlen, hentry⟩ := exists_gather row.lossMask hrange
  have hlength : loss.length = blockSize := by
    rw [hlen, safeLabelIndices, List.length_map, length_labelIndices]
  let factors := (List.zipWith (· && ·)
    ((labelIndices blockSize anchor).map fun i : ℤ => decide (i < seqLen))
    (loss.map isSupervised)).map (· && keep)
  have hfactors : factors.length = blockSize := by
    simp [factors, hlength, length_labelIndices]
  have hfactor : ∀ k < blockSize, (factors[k]? = some true ↔ keep = true ∧
      anchor + 1 + k < seqLen ∧ lossAt row.lossMask (anchor + 1 + k) = true) := by
    intro k hk
    have hget : loss[k]? = some loss[k] := List.getElem?_eq_getElem (hlength ▸ hk)
    have hvalue : factors[k]? =
        some (decide (anchor + 1 + k < seqLen) && isSupervised loss[k] && keep) := by
      simp only [factors, List.getElem?_map, List.getElem?_zipWith, getElem?_labelIndices hk, hget,
        Option.map_some, Nat.cast_lt]
    rw [hvalue, Option.some.injEq, Bool.and_eq_true, Bool.and_eq_true, decide_eq_true_eq]
    -- before the end of the sequence the loss mask is read at the label itself
    have hread : keep = true → anchor + 1 + k < seqLen →
        (lossAt row.lossMask (anchor + 1 + k) = true ↔ isSupervised loss[k] = true) := by
      rintro rfl hlt
      have := hentry k
      rw [hget, getElem?_safeLabelIndices_of_lt hk hlt, Option.bind_some, gatherAt_natCast] at this
      rw [lossAt, ← this, Option.any_some]
    constructor
    · rintro ⟨⟨hlt, hloss⟩, hkeep⟩
      exact ⟨hkeep, hlt, (hread hkeep hlt).2 hloss⟩
    · rintro ⟨hkeep, hlt, hloss⟩
      exact ⟨⟨hlt, (hread hkeep hlt).1 hloss⟩, hkeep⟩
  refine ⟨(cumprod (factors.map Bool.toNat)).map (· != 0), ?_,
    by rw [List.length_map, length_cumprod, List.length_map, hfactors], fun k hk => ?_⟩
  · rw [buildEvalMask, hloss]
    rfl
  · rw [cumprod_ne_zero, hfactors, Evaluated]
    constructor
    · rintro ⟨-, h⟩
      exact ⟨((hfactor k hk).1 (h k le_rfl)).1, fun j hj =>
        ((hfactor j (hj.trans_lt hk)).1 (h j hj)).2⟩
    · rintro ⟨hkeep, h⟩
      exact ⟨hk, fun j hj => (hfactor j (hj.trans_lt hk)).2 ⟨hkeep, h j hj⟩⟩

variable (blockSize anchor keep) in
/-- The teachers, which stand one position before the labels. -/
theorem exists_alignedTargetLogits (computeLogits : H → L) (hpos : 0 < seqLen)
    {hidden : Option (List H)} (hshape : ∀ hs, hidden = some hs → hs.length = seqLen) :
    ∃ out, alignedTargetLogits computeLogits
        (safeLabelIndices seqLen keep (labelIndices blockSize anchor)) hidden = some out ∧
      ∀ hs, hidden = some hs → ∃ logits, out = some logits ∧
        ∀ k < blockSize, keep = true → anchor + 1 + k < seqLen →
          logits[k]? = (hs[anchor + k]?).map computeLogits := by
  cases hidden with
  | none => exact ⟨none, rfl, fun hs hhs => by cases hhs⟩
  | some hs =>
    have hrange : ∀ i ∈ (safeLabelIndices seqLen keep (labelIndices blockSize anchor)).map
        fun i : ℤ => max (i - 1) 0, 0 ≤ i ∧ i < hs.length := by
      intro i hi
      obtain ⟨j, hj, rfl⟩ := List.mem_map.1 hi
      have hlabel := safeLabelIndices_range hpos j hj
      rw [hshape hs rfl]
      omega
    obtain ⟨aligned, haligned, -, hentry⟩ := exists_gather hs hrange
    refine ⟨some (aligned.map computeLogits), ?_, ?_⟩
    · rw [alignedTargetLogits, haligned, Option.map_some]
    · rintro _ ⟨⟩
      refine ⟨_, rfl, fun k hk hkeep hlt => ?_⟩
      subst hkeep
      have hpred : max (((anchor + 1 + k : ℕ) : ℤ) - 1) 0 = ((anchor + k : ℕ) : ℤ) := by omega
      rw [List.getElem?_map, hentry, List.getElem?_map, getElem?_safeLabelIndices_of_lt hk hlt,
        Option.map_some, Option.bind_some, hpred, gatherAt_natCast]

/-- **One block**: all gathers are in range, and what is evaluated is aligned with decoding. -/
theorem superviseBlock_aligned (computeLogits : H → L) (hshape : row.Shaped seqLen)
    (hanchor : anchor < seqLen) :
    ∃ s, superviseBlock computeLogits seqLen blockSize row anchor keep = some s ∧
      BlockAligned computeLogits seqLen blockSize row anchor keep s := by
  have hpos : 0 < seqLen := by omega
  have hrange : ∀ i ∈ safeLabelIndices seqLen keep (labelIndices blockSize anchor),
      0 ≤ i ∧ i < row.inputIds.length := hshape.inputIds.symm ▸ safeLabelIndices_range hpos
  obtain ⟨ids, hids, hidsLen, hid⟩ := exists_gather row.inputIds hrange
  obtain ⟨logits, hlogits, hteacher⟩ :=
    exists_alignedTargetLogits blockSize anchor keep computeLogits hpos hshape.hiddenStates
  obtain ⟨evalMask, heval, hlen, hmask⟩ :=
    exists_evalMask blockSize anchor keep row hshape.lossMask hpos
  have hlength : ids.length = blockSize := by
    rw [hidsLen, safeLabelIndices, List.length_map, length_labelIndices]
  obtain ⟨token, htoken⟩ : ∃ token, row.inputIds[anchor]? = some token :=
    ⟨_, List.getElem?_eq_getElem (hshape.inputIds.symm ▸ hanchor)⟩
  -- where the block is evaluated, its label is a position of the sequence
  have hseen : ∀ k, evalMask[k]? = some true →
      k < blockSize ∧ keep = true ∧ anchor + 1 + k < seqLen := by
    intro k hk
    have hlt : k < blockSize := hlen ▸ (List.getElem?_eq_some_iff.1 hk).1
    obtain ⟨hkeep, h⟩ := (hmask k hlt).1 hk
    exact ⟨hlt, hkeep, (h k le_rfl).1⟩
  have hidAt : ∀ k < blockSize, keep = true → anchor + 1 + k < seqLen →
      ids[k]? = row.inputIds[anchor + 1 + k]? := by
    rintro k hk rfl hlt
    rw [hid, getElem?_safeLabelIndices_of_lt hk hlt, Option.bind_some, gatherAt_natCast]
  refine ⟨⟨ids, logits, evalMask, token :: ids.dropLast⟩, ?_, ?_⟩
  · rw [superviseBlock, hids, hlogits, heval, gatherAt_natCast, htoken]
    rfl
  · refine ⟨hlen, hmask, fun k hk => ?_, fun hs hhs => ?_, fun k hk => ?_⟩
    · obtain ⟨hlt, hkeep, hin⟩ := hseen k hk
      exact ⟨hidAt k hlt hkeep hin, hshape.inputIds.symm ▸ hin⟩
    · obtain ⟨out, rfl, hout⟩ := hteacher hs hhs
      refine ⟨out, rfl, fun k hk => ?_⟩
      obtain ⟨hlt, hkeep, hin⟩ := hseen k hk
      have hhsLen := hshape.hiddenStates hs hhs
      exact ⟨hout k hlt hkeep hin, by omega⟩
    · obtain ⟨hlt, hkeep, hin⟩ := hseen k hk
      have hidsLen := hshape.inputIds
      refine ⟨?_, by omega⟩
      cases k with
      | zero => exact htoken.symm
      | succ k =>
        -- the label of the draft index before
        have hbefore : ids[k]? = row.inputIds[anchor + 1 + k]? :=
          hidAt k (by omega) hkeep (by omega)
        rw [List.getElem?_cons_succ, List.getElem?_dropLast, if_pos (by omega), hbefore]
        congr 1
        omega

end Block

/-! ## Rows and batches -/

/-- The blocks of a row are aligned, each with the anchor sampled for it. -/
def RowAligned (sort : TorchSort K) (computeLogits : H → L) (seqLen blockSize numAnchors : ℕ)
    (row : TrainingRow T H K) (blocks : List (BlockSupervision T L)) : Prop :=
  let (anchorPositions, blockKeepMask) :=
    sampleAnchorRow sort seqLen row.lossMask numAnchors row.randomVals
  List.Forall₂ (fun block s => BlockAligned computeLogits seqLen blockSize row block.1 block.2 s)
    (anchorPositions.zip blockKeepMask) blocks

variable [IsStrictOrderedRing K]

theorem sampleAnchorRow_lt (sort : TorchSort K) {seqLen : ℕ} (hpos : 0 < seqLen)
    {row : TrainingRow T H K} (hrow : row.Shaped seqLen) (numAnchors : ℕ) :
    ∀ a ∈ (sampleAnchorRow sort seqLen row.lossMask numAnchors row.randomVals).1, a < seqLen := by
  obtain ⟨drawn, kept, hperm, -, rfl, hout, -, -⟩ :=
    sampleAnchorRow_drawn sort hrow.lossMask numAnchors hrow.draw
  intro a ha
  rw [hout] at ha
  rcases List.mem_append.1 ha with ha | ha
  · have hdrawn : a ∈ drawn := List.mem_of_mem_take (List.mem_mergeSort.1 ha)
    have hlt := List.mem_range.1 (List.mem_of_mem_filter (hperm.mem_iff.1 hdrawn))
    omega
  · rw [(List.mem_replicate.1 ha).2]
    exact hpos

theorem superviseRow_aligned (sort : TorchSort K) (computeLogits : H → L) {seqLen : ℕ}
    (hpos : 0 < seqLen) (blockSize numAnchors : ℕ) {row : TrainingRow T H K}
    (hrow : row.Shaped seqLen) :
    ∃ blocks, superviseRow sort computeLogits seqLen blockSize numAnchors row = some blocks ∧
      RowAligned sort computeLogits seqLen blockSize numAnchors row blocks :=
  ByteLayout.exists_mapM_forall₂ fun block hblock =>
    superviseBlock_aligned computeLogits hrow
      (sampleAnchorRow_lt sort hpos hrow numAnchors block.1 (List.of_mem_zip hblock).1)

/-- **Supervision is aligned with decoding**: no gather of a batch raises, and every block of every
row is evaluated where its labels are in the sequence with the loss mask set up to there, and has
there the label, the teacher and the previous token that decoding from its anchor has. -/
theorem training_supervision_aligned (sort : TorchSort K) (computeLogits : H → L) {seqLen : ℕ}
    (hpos : 0 < seqLen) (blockSize numAnchors : ℕ) {rows : List (TrainingRow T H K)}
    (hrows : ∀ row ∈ rows, row.Shaped seqLen) :
    ∃ out, superviseBatch sort computeLogits seqLen blockSize numAnchors rows = some out ∧
      List.Forall₂ (RowAligned sort computeLogits seqLen blockSize numAnchors) rows out :=
  ByteLayout.exists_mapM_forall₂ fun row hrow =>
    superviseRow_aligned sort computeLogits hpos blockSize numAnchors (hrows row hrow)

/-- A row of four tokens with candidates at `0` and `1`, whose values are equal. -/
def fourTokenRow : TrainingRow ℕ ℕ ℚ where
  inputIds := [7, 8, 9, 10]
  lossMask := [1, 1, 1, 0]
  targetLastHiddenStates := some [0, 1, 2, 3]
  randomVals := [1 / 4, 1 / 4, 3 / 4]

theorem training_supervision_aligned_four :
    ∃ blocks, superviseBatch TorchSort.stable id 4 3 2 [fourTokenRow] = some [blocks] ∧
      RowAligned TorchSort.stable id 4 3 2 fourTokenRow blocks := by
  have hshaped : fourTokenRow.Shaped 4 :=
    { inputIds := rfl
      lossMask := rfl
      hiddenStates := by
        rintro _ ⟨⟩
        rfl
      draw := ⟨rfl, by decide +kernel, by decide +kernel⟩ }
  obtain ⟨out, hout, hrows⟩ := training_supervision_aligned TorchSort.stable id (by decide) 3 2
    (List.forall_mem_singleton.2 hshaped)
  obtain ⟨blocks, rest, hblocks, hrest, rfl⟩ := List.forall₂_cons_left_iff.1 hrows
  obtain rfl := List.forall₂_nil_left_iff.1 hrest
  exact ⟨blocks, hout, hblocks⟩

end LatentSpec
