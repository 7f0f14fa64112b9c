import LatentSpec.CacheLocs

/-! # Preparing a draft block of DFlash

Before a draft forward the worker fills five reused buffers: the block of token ids (the bonus
token and masks behind it), its positions and cache slots, and the positions and slots of the
verify window, which is at least as wide.  A kernel fills the three of the block in one pass,
and those of the window are copied from them or computed, depending on whether the sizes are
the same.  If any of this raises, the eager path starts over in the buffers as they stand.

The eager path does not read what the buffers held (`eager_views`), so both paths, and a path
that fails anywhere, leave the same rows.
-/
namespace LatentSpec
open TiledStores

/-- The buffers, each a flat matrix. -/
structure DraftBuffers where
  blockIds : ℕ → ℤ
  draftPositions : ℕ → ℤ
  draftOutCacheLoc : ℕ → ℤ
  verifyPositions : ℕ → ℤ
  verifyOutCacheLoc : ℕ → ℤ

/-- The rows of the batch in the buffers. -/
structure DraftViews where
  blockIds : List ℤ
  draftPositions : List ℤ
  draftOutCacheLoc : List ℤ
  verifyPositions : List ℤ
  verifyOutCacheLoc : List ℤ
  deriving DecidableEq, Repr

/-- What a block is prepared from.  A block has at least the bonus token, the window is at least
as wide, and a row of `req_to_token` holds the window; `cacheLoc` is what the tensor holds that
`assign_extend_cache_locs_func` allocates. -/
structure DraftBlockInputs where
  bs : ℕ
  draftInputSize : ℕ
  verifySize : ℕ
  maskTokenId : ℤ
  bonusTokens : ℕ → ℤ
  prefixLens : ℕ → ℕ
  reqPoolIndices : ℕ → ℕ
  reqToToken : ℕ → ℤ
  tableWidth : ℕ
  cacheLoc : ℕ → ℤ
  draft_pos : 1 ≤ draftInputSize
  draft_le_verify : draftInputSize ≤ verifySize
  fits : ∀ r < bs, prefixLens r + verifySize ≤ tableWidth

/-! ### Matrices -/

/-- A value for every entry of the first `bs` rows of a matrix of `w` columns. -/
def storeMatrix (mem : ℕ → ℤ) (bs w : ℕ) (val : ℕ → ℕ → ℤ) : ℕ → ℤ :=
  writeAll mem (scatter bs (fun _ => w) (fun r c => r * w + c) val)

/-- The entries of `bs` rows of `w` columns. -/
def matrixView (bs w : ℕ) (val : ℕ → ℕ → ℤ) : List ℤ :=
  (List.range bs).flatMap fun r => (List.range w).map (val r)

theorem storeMatrix_apply (mem : ℕ → ℤ) (val : ℕ → ℕ → ℤ) {bs w r c : ℕ} (hr : r < bs)
    (hc : c < w) :
    storeMatrix mem bs w val (r * w + c) = val r c :=
  writeAll_matrix val mem hr hc

theorem view_eq_matrixView {mem : ℕ → ℤ} {val : ℕ → ℕ → ℤ} {bs w : ℕ}
    (h : ∀ r < bs, ∀ c < w, mem (r * w + c) = val r c) :
    (List.range (bs * w)).map mem = matrixView bs w val := by
  rw [map_range_mul, matrixView]
  refine List.flatMap_congr fun r hr => List.map_congr_left fun c hc => ?_
  exact h r (List.mem_range.mp hr) c (List.mem_range.mp hc)

theorem matrixView_getElem? (val : ℕ → ℕ → ℤ) {bs w r c : ℕ} (hr : r < bs) (hc : c < w) :
    (matrixView bs w val)[r * w + c]? = some (val r c) := by
  have hentry := ragged_getElem? (fun _ => w) val hr hc
  rwa [offset_const] at hentry

namespace DraftBlockInputs
variable (x : DraftBlockInputs)

/-! ### The two paths -/

/-- `_prepare_dflash_draft_block_contig_kernel`, the programs of all rows. -/
def kernelRow (bufs : DraftBuffers) : DraftBuffers :=
  let cols := (List.range (nextPowerOf2 x.draftInputSize)).filter (· < x.draftInputSize)
  let stores := fun (val : ℕ → ℕ → ℤ) => (List.range x.bs).flatMap fun r => cols.map fun c =>
    (r * x.draftInputSize + c, val r c)
  let logicalPos := fun r c => x.prefixLens r + c
  { bufs with
    blockIds := writeAll bufs.blockIds <| stores fun r c =>
      if c = 0 then x.bonusTokens r else x.maskTokenId
    draftPositions := writeAll bufs.draftPositions <| stores fun r c => logicalPos r c
    draftOutCacheLoc := writeAll bufs.draftOutCacheLoc <| stores fun r c =>
      let valid := decide (c < x.draftInputSize) && decide (logicalPos r c < x.tableWidth)
      if valid then readRow x.reqToToken x.tableWidth (x.reqPoolIndices r) (logicalPos r c) else 0 }

/-- `torch.add(prefix_lens.unsqueeze(1), pos_offsets, out=...)` -/
def addPositions (mem : ℕ → ℤ) (w : ℕ) : ℕ → ℤ :=
  storeMatrix mem x.bs w fun r c => x.prefixLens r + c

/-- `verify_out_cache_loc`, as `assign_extend_cache_locs_func` returns it. -/
def assignedCacheLoc : List ℤ :=
  assignExtendCacheLocs x.cacheLoc x.reqPoolIndices x.reqToToken x.tableWidth x.prefixLens
    (fun r => x.prefixLens r + x.verifySize) x.bs x.verifySize

/-- `verify_out_cache_loc_2d.copy_(verify_out_cache_loc.view(bs, verify_size))` -/
def copyCacheLoc (mem : ℕ → ℤ) : ℕ → ℤ :=
  storeMatrix mem x.bs x.verifySize fun r c => x.assignedCacheLoc.getD (r * x.verifySize + c) 0

/-- The steps of the triton path. -/
def tritonSteps : List (DraftBuffers → DraftBuffers) :=
  [x.kernelRow,
    fun bufs =>
      { bufs with
        verifyPositions :=
          if x.verifySize = x.draftInputSize then
            storeMatrix bufs.verifyPositions x.bs x.verifySize fun r c =>
              bufs.draftPositions (r * x.draftInputSize + c)
          else x.addPositions bufs.verifyPositions x.verifySize },
    fun bufs =>
      { bufs with
        verifyOutCacheLoc :=
          if x.verifySize = x.draftInputSize then
            storeMatrix bufs.verifyOutCacheLoc x.bs x.verifySize fun r c =>
              bufs.draftOutCacheLoc (r * x.draftInputSize + c)
          else x.copyCacheLoc bufs.verifyOutCacheLoc }]

/-- The eager path. -/
def eager (bufs : DraftBuffers) : DraftBuffers :=
  let blockIds := storeMatrix bufs.blockIds x.bs x.draftInputSize fun _ _ => x.maskTokenId
  let verifyOutCacheLoc := x.copyCacheLoc bufs.verifyOutCacheLoc
  { blockIds := writeAll blockIds ((List.range x.bs).map fun r =>
      (r * x.draftInputSize, x.bonusTokens r))
    draftPositions := x.addPositions bufs.draftPositions x.draftInputSize
    draftOutCacheLoc := storeMatrix bufs.draftOutCacheLoc x.bs x.draftInputSize fun r c =>
      verifyOutCacheLoc (r * x.verifySize + c)
    verifyPositions := x.addPositions bufs.verifyPositions x.verifySize
    verifyOutCacheLoc := verifyOutCacheLoc }

/-- An exception in the triton path: how many steps were done, and what the failing one left. -/
structure Fault where
  completed : ℕ
  partialWrite : DraftBuffers → DraftBuffers

/-- The preparation of a block: the buffers, and whether the triton path stays in use. -/
def prepareDraftBlock (useTritonPrepareBlock : Bool) (fault : Option Fault) (bufs : DraftBuffers) :
    DraftBuffers × Bool :=
  let run := fun (steps : List (DraftBuffers → DraftBuffers)) =>
    steps.foldl (fun b step => step b) bufs
  if useTritonPrepareBlock then
    match fault with
    | none => (run x.tritonSteps, true)
    | some fault =>
      (x.eager (fault.partialWrite (run (x.tritonSteps.take fault.completed))), false)
  else (x.eager bufs, false)

/-! ### What they leave -/

/-- The rows of the batch in the buffers. -/
def views (bufs : DraftBuffers) : DraftViews where
  blockIds := (List.range (x.bs * x.draftInputSize)).map bufs.blockIds
  draftPositions := (List.range (x.bs * x.draftInputSize)).map bufs.draftPositions
  draftOutCacheLoc := (List.range (x.bs * x.draftInputSize)).map bufs.draftOutCacheLoc
  verifyPositions := (List.range (x.bs * x.verifySize)).map bufs.verifyPositions
  verifyOutCacheLoc := (List.range (x.bs * x.verifySize)).map bufs.verifyOutCacheLoc

/-- Slot of entry `i` of request `r`. -/
def slot (r i : ℕ) : ℤ :=
  readRow x.reqToToken x.tableWidth (x.reqPoolIndices r) (x.prefixLens r + i)

/-- The block: bonus token and masks, and for it and the window the positions from the prefix on
and their slots. -/
def block : DraftViews where
  blockIds := matrixView x.bs x.draftInputSize fun r c =>
    if c = 0 then x.bonusTokens r else x.maskTokenId
  draftPositions := matrixView x.bs x.draftInputSize fun r c => x.prefixLens r + c
  draftOutCacheLoc := matrixView x.bs x.draftInputSize x.slot
  verifyPositions := matrixView x.bs x.verifySize fun r c => x.prefixLens r + c
  verifyOutCacheLoc := matrixView x.bs x.verifySize x.slot

variable {x}

theorem assignedCacheLoc_eq :
    x.assignedCacheLoc = matrixView x.bs x.verifySize x.slot :=
  assignExtendCacheLocs_uniform x.cacheLoc x.reqPoolIndices x.reqToToken x.tableWidth x.prefixLens
    x.bs x.verifySize

theorem copyCacheLoc_apply (mem : ℕ → ℤ) {r c : ℕ} (hr : r < x.bs) (hc : c < x.verifySize) :
    x.copyCacheLoc mem (r * x.verifySize + c) = x.slot r c := by
  rw [copyCacheLoc, storeMatrix_apply _ _ hr hc, assignedCacheLoc_eq, List.getD_eq_getElem?_getD,
    matrixView_getElem? _ hr hc, Option.getD_some]

/-- The kernel's padded lanes store nothing, and the table holds every position of the block. -/
theorem kernelRow_apply (bufs : DraftBuffers) {r c : ℕ} (hr : r < x.bs)
    (hc : c < x.draftInputSize) :
    (x.kernelRow bufs).blockIds (r * x.draftInputSize + c) =
        (if c = 0 then x.bonusTokens r else x.maskTokenId) ∧
      (x.kernelRow bufs).draftPositions (r * x.draftInputSize + c) = x.prefixLens r + c ∧
      (x.kernelRow bufs).draftOutCacheLoc (r * x.draftInputSize + c) = x.slot r c := by
  have hcols : (List.range (nextPowerOf2 x.draftInputSize)).filter (· < x.draftInputSize) =
      List.range x.draftInputSize := filter_range_lt (le_nextPowerOf2 _)
  have hstore : ∀ (mem : ℕ → ℤ) (val : ℕ → ℕ → ℤ),
      writeAll mem ((List.range x.bs).flatMap fun r =>
        ((List.range (nextPowerOf2 x.draftInputSize)).filter (· < x.draftInputSize)).map fun c =>
          (r * x.draftInputSize + c, val r c)) (r * x.draftInputSize + c) = val r c := by
    intro mem val
    rw [hcols]
    exact storeMatrix_apply mem val hr hc
  have hvalid : x.prefixLens r + c < x.tableWidth := by
    have hfit := x.fits r hr
    have hle := x.draft_le_verify
    omega
  refine ⟨hstore _ _, ?_, ?_⟩
  · exact (hstore _ _).trans (by push_cast; rfl)
  · refine (hstore _ _).trans (if_pos ?_)
    rw [decide_eq_true hc, decide_eq_true hvalid, Bool.and_self]

theorem addPositions_apply (mem : ℕ → ℤ) {w r c : ℕ} (hr : r < x.bs) (hc : c < w) :
    x.addPositions mem w (r * w + c) = x.prefixLens r + c :=
  storeMatrix_apply _ _ hr hc

/-- Buffers that hold the block in the rows of the batch. -/
theorem views_eq_block {bufs : DraftBuffers}
    (hdraft : ∀ r < x.bs, ∀ c < x.draftInputSize,
      bufs.blockIds (r * x.draftInputSize + c) =
          (if c = 0 then x.bonusTokens r else x.maskTokenId) ∧
        bufs.draftPositions (r * x.draftInputSize + c) = x.prefixLens r + c ∧
        bufs.draftOutCacheLoc (r * x.draftInputSize + c) = x.slot r c)
    (hverify : ∀ r < x.bs, ∀ c < x.verifySize,
      bufs.verifyPositions (r * x.verifySize + c) = x.prefixLens r + c ∧
        bufs.verifyOutCacheLoc (r * x.verifySize + c) = x.slot r c) :
    x.views bufs = x.block := by
  unfold views block
  rw [view_eq_matrixView fun r hr c hc => (hdraft r hr c hc).1,
    view_eq_matrixView fun r hr c hc => (hdraft r hr c hc).2.1,
    view_eq_matrixView fun r hr c hc => (hdraft r hr c hc).2.2,
    view_eq_matrixView fun r hr c hc => (hverify r hr c hc).1,
    view_eq_matrixView fun r hr c hc => (hverify r hr c hc).2]

/-- **The triton path leaves the block**, whether the two sizes are the same or not. -/
theorem triton_views (bufs : DraftBuffers) :
    x.views (x.tritonSteps.foldl (fun b step => step b) bufs) = x.block := by
  refine views_eq_block (fun r hr c hc => kernelRow_apply bufs hr hc) fun r hr c hc => ?_
  have hpositions : (x.tritonSteps.foldl (fun b step => step b) bufs).verifyPositions =
      if x.verifySize = x.draftInputSize then
        storeMatrix bufs.verifyPositions x.bs x.verifySize fun r c =>
          (x.kernelRow bufs).draftPositions (r * x.draftInputSize + c)
      else x.addPositions bufs.verifyPositions x.verifySize := rfl
  have hslots : (x.tritonSteps.foldl (fun b step => step b) bufs).verifyOutCacheLoc =
      if x.verifySize = x.draftInputSize then
        storeMatrix bufs.verifyOutCacheLoc x.bs x.verifySize fun r c =>
          (x.kernelRow bufs).draftOutCacheLoc (r * x.draftInputSize + c)
      else x.copyCacheLoc bufs.verifyOutCacheLoc := rfl
  rw [hpositions, hslots]
  by_cases hsame : x.verifySize = x.draftInputSize
  · obtain ⟨-, hposition, hslot⟩ := kernelRow_apply bufs hr (hsame ▸ hc)
    rw [if_pos hsame, if_pos hsame, storeMatrix_apply _ _ hr hc, storeMatrix_apply _ _ hr hc]
    exact ⟨hposition, hslot⟩
  · rw [if_neg hsame, if_neg hsame]
    exact ⟨addPositions_apply _ hr hc, copyCacheLoc_apply _ hr hc⟩

/-- **The eager path leaves the block**, from any buffers. -/
theorem eager_views (bufs : DraftBuffers) : x.views (x.eager bufs) = x.block := by
  refine views_eq_block (fun r hr c hc => ⟨?_, addPositions_apply _ hr hc, ?_⟩)
    fun r hr c hc => ⟨addPositions_apply _ hr hc, copyCacheLoc_apply _ hr hc⟩
  · by_cases hzero : c = 0
    · subst hzero
      -- the bonus tokens are copied to the first column
      rw [if_pos rfl, Nat.add_zero]
      refine writeAll_of_mem _ (.inr ?_) fun w hw heq => ?_
      · exact List.mem_map.mpr ⟨_, List.mem_map.mpr ⟨r, List.mem_range.mpr hr, rfl⟩, rfl⟩
      · obtain ⟨r', -, rfl⟩ := List.mem_map.mp hw
        obtain ⟨rfl, -⟩ := block_inj (i := 0) (j := 0) x.draft_pos x.draft_pos heq
        rfl
    · rw [if_neg hzero]
      refine (writeAll_of_notMem _ ?_).trans (storeMatrix_apply _ _ hr hc)
      intro hmem
      obtain ⟨w, hw, heq⟩ := List.mem_map.mp hmem
      obtain ⟨r', -, rfl⟩ := List.mem_map.mp hw
      obtain ⟨-, hcol⟩ := block_inj (i := 0) x.draft_pos hc heq
      exact hzero hcol.symm
  · refine (storeMatrix_apply _ _ hr hc).trans ?_
    exact copyCacheLoc_apply _ hr (hc.trans_le x.draft_le_verify)

/-- **Both paths prepare the same block**, and so does a triton path that raises at any of its
steps: block ids, positions and slots of the rows of the batch.  The draft's slots are the first
ones of the window's, slot `(r, i)` is that of position `prefix + i`, and the ragged and the
uniform kernel return the window's slots. -/
theorem prepareDraftBlock_views (x : DraftBlockInputs) (useTritonPrepareBlock : Bool)
    (fault : Option Fault) (bufs : DraftBuffers) :
    x.views (x.prepareDraftBlock useTritonPrepareBlock fault bufs).1 = x.block ∧
      (∀ r < x.bs, ∀ i < x.draftInputSize,
        x.block.draftOutCacheLoc[r * x.draftInputSize + i]? =
          x.block.verifyOutCacheLoc[r * x.verifySize + i]?) ∧
      (∀ r < x.bs, ∀ i < x.verifySize,
        x.block.verifyOutCacheLoc[r * x.verifySize + i]? = some (readRow x.reqToToken x.tableWidth
          (x.reqPoolIndices r) (x.prefixLens r + i))) ∧
      ∀ out, assignExtendCacheLocs out x.reqPoolIndices x.reqToToken x.tableWidth x.prefixLens
          (fun r => x.prefixLens r + x.verifySize) x.bs x.verifySize = x.block.verifyOutCacheLoc ∧
        assignExtendCacheLocsUniform out x.reqPoolIndices x.reqToToken x.tableWidth x.prefixLens
          x.bs x.verifySize = x.block.verifyOutCacheLoc := by
  refine ⟨?_, fun r hr i hi => ?_, fun r hr i hi => matrixView_getElem? x.slot hr hi, fun out =>
    ⟨assignExtendCacheLocs_uniform out _ _ _ _ _ _,
    assignExtendCacheLocsUniform_eq out _ _ _ _ _ _⟩⟩
  · unfold prepareDraftBlock
    cases useTritonPrepareBlock with
    | false => exact eager_views bufs
    | true =>
      cases fault with
      | none => exact triton_views bufs
      | some fault => exact eager_views _
  · exact (matrixView_getElem? x.slot hr hi).trans
      (matrixView_getElem? x.slot hr (hi.trans_le x.draft_le_verify)).symm

/-- Two requests in rows 1 and 0 of a table of eight slots each; a block of two in a window of
three. -/
def twoRequests : DraftBlockInputs where
  bs := 2
  draftInputSize := 2
  verifySize := 3
  maskTokenId := 99
  bonusTokens r := 7 + r
  prefixLens r := 4 + r
  reqPoolIndices r := 1 - r
  reqToToken i := 100 + i
  tableWidth := 8
  cacheLoc _ := 0
  draft_pos := Nat.two_pos
  draft_le_verify := Nat.le_add_right 2 1
  fits _ hr := Nat.add_le_add_right (Nat.add_le_add_left (Nat.le_of_lt_succ hr) 4) 3

/-- The kernel's own pass is done, and the positions of the window are overwritten when the triton
path raises. -/
def positionsFault : Fault := ⟨1, fun bufs => { bufs with verifyPositions := fun _ => -1 }⟩

/-- The eager path starts over, and the triton path is out of use. -/
theorem prepareDraftBlock_views_twoRequests :
    (∀ bufs, (twoRequests.views
        (twoRequests.prepareDraftBlock true (some positionsFault) bufs).1 = twoRequests.block)) ∧
      (∀ bufs, (twoRequests.prepareDraftBlock true (some positionsFault) bufs).2 = false) ∧
      twoRequests.block =
        { blockIds := [7, 99, 8, 99]
          draftPositions := [4, 5, 5, 6]
          draftOutCacheLoc := [112, 113, 105, 106]
          verifyPositions := [4, 5, 6, 5, 6, 7]
          verifyOutCacheLoc := [112, 113, 114, 105, 106, 107] } :=
  ⟨fun bufs => (prepareDraftBlock_views twoRequests true (some positionsFault) bufs).1,
    fun _ => rfl, by decide⟩

end DraftBlockInputs

end LatentSpec
