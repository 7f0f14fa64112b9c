import LatentSpec.DflashAccept
import LatentSpec.TiledStores

/-! # Cache slots of a batch

Row `req` of `req_to_token` holds the cache slots of a request by position; the table is one
flat buffer of rows of `pool_len` slots.  The kernels of this module copy stretches of such
rows, a tile at a time and one program a request, into a buffer nobody has cleared: the ragged
kernel finds where its request starts by a masked sum over the whole batch, the uniform one
multiplies.  `readRow` is what all of them copy.
-/
namespace LatentSpec
open TiledStores

variable {α : Type}

/-- Entry `[row, col]` of a flat table of rows of `width` entries. -/
def readRow (table : ℕ → α) (width row col : ℕ) : α := table (row * width + col)

/-! ### The ragged kernel -/

/-- `tl.sum(end - start, axis=0)` over the lanes before the program. -/
def extendOutOffset (startOffset endOffset : ℕ → ℕ) (bsUpper pid : ℕ) : ℕ :=
  ((List.range bsUpper).map fun lane =>
    (if lane < pid then endOffset lane else 0) - if lane < pid then startOffset lane else 0).sum

/-- What program `pid` of `assign_extend_cache_locs` stores. -/
def assignExtendStores (reqPoolIndices : ℕ → ℕ) (reqToToken : ℕ → α) (poolLen bsUpper : ℕ)
    (startOffset endOffset : ℕ → ℕ) (pid : ℕ) : List (ℕ × α) :=
  let outOffset := extendOutOffset startOffset endOffset bsUpper pid
  (tiles 32 (endOffset pid - startOffset pid)).map fun o =>
    (outOffset + o, readRow reqToToken poolLen (reqPoolIndices pid) (startOffset pid + o))

/-- `assign_extend_cache_locs_func`; `out` is what the allocated buffer holds. -/
def assignExtendCacheLocs (out : ℕ → α) (reqPoolIndices : ℕ → ℕ) (reqToToken : ℕ → α) (poolLen : ℕ)
    (startOffset endOffset : ℕ → ℕ) (batchSize draftTokenNum : ℕ) : List α :=
  (List.range (batchSize * draftTokenNum)).map <|
    writeAll out <| (List.range batchSize).flatMap <|
      assignExtendStores reqPoolIndices reqToToken poolLen (nextPowerOf2 batchSize) startOffset
        endOffset

/-- A program's masked sum is where its ragged row starts. -/
theorem extendOutOffset_eq (startOffset endOffset : ℕ → ℕ) {bsUpper pid : ℕ} (h : pid ≤ bsUpper) :
    extendOutOffset startOffset endOffset bsUpper pid =
      offset (fun b => endOffset b - startOffset b) pid := by
  obtain ⟨d, rfl⟩ := Nat.exists_eq_add_of_le h
  have hbefore : (List.range pid).map (fun lane =>
      (if lane < pid then endOffset lane else 0) - if lane < pid then startOffset lane else 0) =
      (List.range pid).map fun b => endOffset b - startOffset b := by
    refine List.map_congr_left fun lane hlane => ?_
    have hlt := List.mem_range.mp hlane
    rw [if_pos hlt, if_pos hlt]
  -- the masked lanes load zero at both ends
  have hafter : ((List.range d).map fun lane => pid + lane).map (fun lane =>
      (if lane < pid then endOffset lane else 0) - if lane < pid then startOffset lane else 0) =
      (List.range d).map fun _ => 0 := by
    rw [List.map_map]
    refine List.map_congr_left fun lane _ => ?_
    have hge : ¬ pid + lane < pid := by omega
    simp only [Function.comp_apply, if_neg hge, Nat.sub_zero]
  rw [extendOutOffset, List.range_add, List.map_append, List.sum_append, hbefore, hafter, offset]
  simp

theorem assignExtendStores_eq (reqPoolIndices : ℕ → ℕ) (reqToToken : ℕ → α) (poolLen : ℕ)
    (startOffset endOffset : ℕ → ℕ) {bsUpper pid : ℕ} (h : pid ≤ bsUpper) :
    assignExtendStores reqPoolIndices reqToToken poolLen bsUpper startOffset endOffset pid =
      stretch (offset (fun b => endOffset b - startOffset b) pid)
        (endOffset pid - startOffset pid) fun o =>
          readRow reqToToken poolLen (reqPoolIndices pid) (startOffset pid + o) := by
  rw [assignExtendStores, tiles_eq_range (by decide), extendOutOffset_eq _ _ h, stretch]

theorem length_assignExtendCacheLocs (out : ℕ → α) (reqPoolIndices : ℕ → ℕ) (reqToToken : ℕ → α)
    (poolLen : ℕ) (startOffset endOffset : ℕ → ℕ) (batchSize draftTokenNum : ℕ) :
    (assignExtendCacheLocs out reqPoolIndices reqToToken poolLen startOffset endOffset batchSize
      draftTokenNum).length = batchSize * draftTokenNum := by
  rw [assignExtendCacheLocs, List.length_map, List.length_range]

/-- **The ragged kernel packs the slots**: entry `j` of request `b` lands behind the entries of
the requests before it. -/
theorem assignExtendCacheLocs_getElem? (out : ℕ → α) (reqPoolIndices : ℕ → ℕ)
    (reqToToken : ℕ → α) (poolLen : ℕ) (startOffset endOffset : ℕ → ℕ)
    {batchSize draftTokenNum b j : ℕ} (hb : b < batchSize) (hj : j < endOffset b - startOffset b)
    (hfit : offset (fun b => endOffset b - startOffset b) b + j < batchSize * draftTokenNum) :
    (assignExtendCacheLocs out reqPoolIndices reqToToken poolLen startOffset endOffset batchSize
      draftTokenNum)[offset (fun b => endOffset b - startOffset b) b + j]? =
      some (readRow reqToToken poolLen (reqPoolIndices b) (startOffset b + j)) := by
  have hstores :
      (List.range batchSize).flatMap (assignExtendStores reqPoolIndices reqToToken poolLen
      (nextPowerOf2 batchSize) startOffset endOffset) =
      stretches (offset fun b => endOffset b - startOffset b) (fun b => endOffset b - startOffset b)
        (fun b o => readRow reqToToken poolLen (reqPoolIndices b) (startOffset b + o))
          batchSize := by
    rw [stretches]
    refine List.flatMap_congr fun pid hpid => assignExtendStores_eq _ _ _ _ _ ?_
    exact (List.mem_range.mp hpid).le.trans (le_nextPowerOf2 _)
  rw [assignExtendCacheLocs, List.getElem?_map, List.getElem?_range hfit, Option.map_some, hstores,
    writeAll_ragged (fun b => endOffset b - startOffset b) _ _ hb hj]

/-- What the ragged kernel stores, request after request. -/
theorem flatMap_assignExtendStores (reqPoolIndices : ℕ → ℕ) (reqToToken : ℕ → α) (poolLen : ℕ)
    (startOffset endOffset : ℕ → ℕ) (batchSize : ℕ) :
    (List.range batchSize).flatMap (assignExtendStores reqPoolIndices reqToToken poolLen
      (nextPowerOf2 batchSize) startOffset endOffset) =
      stretches (offset fun b => endOffset b - startOffset b) (fun b => endOffset b - startOffset b)
        (fun b o => readRow reqToToken poolLen (reqPoolIndices b) (startOffset b + o))
          batchSize := by
  rw [stretches]
  refine List.flatMap_congr fun pid hpid => assignExtendStores_eq _ _ _ _ _ ?_
  exact (List.mem_range.mp hpid).le.trans (le_nextPowerOf2 _)

/-- The entries behind the last request are left as they were. -/
theorem assignExtendCacheLocs_getElem?_behind (out : ℕ → α) (reqPoolIndices : ℕ → ℕ)
    (reqToToken : ℕ → α) (poolLen : ℕ) (startOffset endOffset : ℕ → ℕ)
    {batchSize draftTokenNum i : ℕ} (hi : i < batchSize * draftTokenNum)
    (hbehind : offset (fun b => endOffset b - startOffset b) batchSize ≤ i) :
    (assignExtendCacheLocs out reqPoolIndices reqToToken poolLen startOffset endOffset batchSize
      draftTokenNum)[i]? = some (out i) := by
  rw [assignExtendCacheLocs, List.getElem?_map, List.getElem?_range hi, Option.map_some,
    flatMap_assignExtendStores]
  refine congrArg some (writeAll_stretches_of_notMem _ _ _ _ fun b hb hmem => ?_)
  have hrow : offset (fun b => endOffset b - startOffset b) (b + 1) ≤
      offset (fun b => endOffset b - startOffset b) batchSize := offset_mono _ hb
  rw [offset_succ] at hrow
  omega

/-! ### The uniform kernel -/

/-- What program `pid` of `assign_extend_cache_locs_uniform` stores. -/
def assignUniformStores (reqPoolIndices : ℕ → ℕ) (reqToToken : ℕ → α) (poolLen draftTokenNum : ℕ)
    (startOffset : ℕ → ℕ) (pid : ℕ) : List (ℕ × α) :=
  (tiles 64 draftTokenNum).map fun o =>
    (pid * draftTokenNum + o, readRow reqToToken poolLen (reqPoolIndices pid) (startOffset pid + o))

/-- `assign_extend_cache_locs_uniform_func`; `out` is what the allocated buffer holds. -/
def assignExtendCacheLocsUniform (out : ℕ → α) (reqPoolIndices : ℕ → ℕ) (reqToToken : ℕ → α)
    (poolLen : ℕ) (startOffset : ℕ → ℕ) (batchSize draftTokenNum : ℕ) : List α :=
  (List.range (batchSize * draftTokenNum)).map <|
    writeAll out <| (List.range batchSize).flatMap <|
      assignUniformStores reqPoolIndices reqToToken poolLen draftTokenNum startOffset

/-- The slots of `draft_token_num` positions of every request, row after row. -/
def extendSlots (reqPoolIndices : ℕ → ℕ) (reqToToken : ℕ → α) (poolLen : ℕ) (startOffset : ℕ → ℕ)
    (batchSize draftTokenNum : ℕ) : List α :=
  (List.range batchSize).flatMap fun b => (List.range draftTokenNum).map fun o =>
    readRow reqToToken poolLen (reqPoolIndices b) (startOffset b + o)

/-- A buffer of full rows, read back row after row. -/
theorem map_range_mul (n w : ℕ) (f : ℕ → α) :
    (List.range (n * w)).map f =
      (List.range n).flatMap fun b => (List.range w).map fun o => f (b * w + o) := by
  rw [← flatMap_tiles, List.map_flatMap]
  simp only [List.map_map, Function.comp_def]

theorem assignExtendCacheLocsUniform_eq (out : ℕ → α) (reqPoolIndices : ℕ → ℕ) (reqToToken : ℕ → α)
    (poolLen : ℕ) (startOffset : ℕ → ℕ) (batchSize draftTokenNum : ℕ) :
    assignExtendCacheLocsUniform out reqPoolIndices reqToToken poolLen startOffset batchSize
      draftTokenNum =
      extendSlots reqPoolIndices reqToToken poolLen startOffset batchSize draftTokenNum := by
  have hstores : (List.range batchSize).flatMap
      (assignUniformStores reqPoolIndices reqToToken poolLen draftTokenNum startOffset) =
      scatter batchSize (fun _ => draftTokenNum) (fun b o => b * draftTokenNum + o)
        fun b o => readRow reqToToken poolLen (reqPoolIndices b) (startOffset b + o) := by
    rw [scatter]
    refine List.flatMap_congr fun b _ => ?_
    rw [assignUniformStores, tiles_eq_range (by decide)]
  rw [assignExtendCacheLocsUniform, hstores, map_range_mul, extendSlots]
  refine List.flatMap_congr fun b hb => List.map_congr_left fun o ho => ?_
  exact writeAll_matrix _ _ (List.mem_range.mp hb) (List.mem_range.mp ho)

/-- **Both kernels agree** where every request extends by the same number of tokens. -/
theorem assignExtendCacheLocs_uniform (out : ℕ → α) (reqPoolIndices : ℕ → ℕ) (reqToToken : ℕ → α)
    (poolLen : ℕ) (startOffset : ℕ → ℕ) (batchSize draftTokenNum : ℕ) :
    assignExtendCacheLocs out reqPoolIndices reqToToken poolLen startOffset
      (fun b => startOffset b + draftTokenNum) batchSize draftTokenNum =
      extendSlots reqPoolIndices reqToToken poolLen startOffset batchSize draftTokenNum := by
  have hlen : (fun b => startOffset b + draftTokenNum - startOffset b) = fun _ => draftTokenNum :=
    funext fun b => Nat.add_sub_cancel_left ..
  have hstores :
      (List.range batchSize).flatMap (assignExtendStores reqPoolIndices reqToToken poolLen
      (nextPowerOf2 batchSize) startOffset fun b => startOffset b + draftTokenNum) =
      (List.range batchSize).flatMap
        (assignUniformStores reqPoolIndices reqToToken poolLen draftTokenNum startOffset) := by
    refine List.flatMap_congr fun pid hpid => ?_
    rw [assignExtendStores_eq _ _ _ _ _
      ((List.mem_range.mp hpid).le.trans (le_nextPowerOf2 batchSize))]
    rw [hlen, offset_const, Nat.add_sub_cancel_left, assignUniformStores,
      tiles_eq_range (by decide),
      stretch]
  rw [assignExtendCacheLocs, hstores]
  exact assignExtendCacheLocsUniform_eq out reqPoolIndices reqToToken poolLen startOffset batchSize
    draftTokenNum

/-! ### Writing rows of a pool -/

/-- What program `pid` of `assign_req_to_token_pool` stores. -/
def assignPoolStores (reqPoolIndices : ℕ → ℕ) (poolLen bsUpper : ℕ) (startOffset endOffset : ℕ → ℕ)
    (outCacheLoc : ℕ → α) (pid : ℕ) : List (ℕ × α) :=
  let outOffset := extendOutOffset startOffset endOffset bsUpper pid
  (tiles 32 (endOffset pid - startOffset pid)).map fun o =>
    (reqPoolIndices pid * poolLen + (startOffset pid + o), outCacheLoc (outOffset + o))

/-- `assign_req_to_token_pool_func` -/
def assignReqToTokenPool (reqToToken : ℕ → α) (reqPoolIndices : ℕ → ℕ) (poolLen : ℕ)
    (startOffset endOffset : ℕ → ℕ) (outCacheLoc : ℕ → α) (batchSize : ℕ) : ℕ → α :=
  writeAll reqToToken <| (List.range batchSize).flatMap <|
    assignPoolStores reqPoolIndices poolLen
      (nextPowerOf2 batchSize) startOffset endOffset outCacheLoc

/-- What program `pid` of `rebuild_compact_draft_req_to_token` stores. -/
def rebuildCompactStores (targetReqToToken : ℕ → α)
    (reqPoolIndices suffixStart draftPrefixLens : ℕ → ℕ)
    (verifyOutCacheLoc : ℕ → α) (verifyLocStride draftPoolLen targetPoolLen blockSize pid : ℕ) :
    List (ℕ × α) :=
  (tiles 256 (draftPrefixLens pid + blockSize)).map fun col =>
    (reqPoolIndices pid * draftPoolLen + col,
      if col < draftPrefixLens pid then
        readRow targetReqToToken targetPoolLen (reqPoolIndices pid) (suffixStart pid + col)
      else readRow verifyOutCacheLoc verifyLocStride pid (col - draftPrefixLens pid))

/-- Stretches of distinct rows of a pool of `poolLen` entries a row. -/
structure PoolRows (n poolLen : ℕ) (row start len : ℕ → ℕ) : Prop where
  distinct : ∀ b < n, ∀ b' < n, row b = row b' → b = b'
  fits : ∀ b < n, start b + len b ≤ poolLen

namespace PoolRows
variable {n poolLen : ℕ} {row start len : ℕ → ℕ} (h : PoolRows n poolLen row start len)
include h

/-- A cell of a stretch determines the stretch and the place in it. -/
theorem cell_inj {b j b' j' : ℕ} (hb : b < n) (hj : j < len b) (hb' : b' < n) (hj' : j' < len b')
    (heq : row b * poolLen + (start b + j) = row b' * poolLen + (start b' + j')) :
    b' = b ∧ j' = j := by
  have hfit := h.fits b hb
  have hfit' := h.fits b' hb'
  obtain ⟨hrow, hcol⟩ := block_inj (by omega) (by omega) heq
  obtain rfl := h.distinct b hb b' hb' hrow
  exact ⟨rfl, by omega⟩

theorem writeAll_mem (mem : ℕ → α) (val : ℕ → ℕ → α) {b j : ℕ} (hb : b < n) (hj : j < len b) :
    writeAll mem (scatter n len (fun b j => row b * poolLen + (start b + j)) val)
      (row b * poolLen + (start b + j)) = val b j :=
  writeAll_scatter_of_mem val mem hb hj fun _ hb' _ hj' heq => h.cell_inj hb hj hb' hj' heq

end PoolRows

theorem assignReqToTokenPool_eq (reqToToken : ℕ → α) (reqPoolIndices : ℕ → ℕ) (poolLen : ℕ)
    (startOffset endOffset : ℕ → ℕ) (outCacheLoc : ℕ → α) (batchSize : ℕ) :
    assignReqToTokenPool reqToToken reqPoolIndices poolLen startOffset endOffset outCacheLoc
      batchSize =
      writeAll reqToToken (scatter batchSize (fun b => endOffset b - startOffset b)
        (fun b j => reqPoolIndices b * poolLen + (startOffset b + j)) fun b j =>
          outCacheLoc (offset (fun b => endOffset b - startOffset b) b + j)) := by
  rw [assignReqToTokenPool, scatter]
  refine congrArg (writeAll reqToToken) (List.flatMap_congr fun b hb => ?_)
  have hle := (List.mem_range.mp hb).le.trans (le_nextPowerOf2 batchSize)
  rw [assignPoolStores, tiles_eq_range (by decide), extendOutOffset_eq _ _ hle]

end LatentSpec
