import Mathlib.Data.Finset.Lattice.Fold
import Mathlib.Order.Lattice.Nat
import LatentSpec.CacheLocs

/-! # The compact draft cache of DFlash

With a draft window the draft attends only to the newest tokens of a request.  Its own row of
slots is rebuilt before each draft forward: the slots of a suffix of the sequence that covers
the window and starts on a page boundary, and behind them the slots of the verify block.  A
kernel writes a row in one pass; without it the suffixes are gathered into one ragged list, and
two scatters write first the suffixes and then the blocks.

The length of the suffix goes up and down with the length of the sequence, so the host plans
with a monotone bound of it (`computeCompactDraftSeqLens_le_host`), which may be evaluated at a
length that the sequence has not reached yet.
-/
namespace LatentSpec
open TiledStores

/-! ### The length of the suffix -/

/-- `_compute_compact_draft_seq_lens` -/
def computeCompactDraftSeqLens (draftWindowSize pageSize seqLen : ℕ) : ℕ :=
  let visibleLen := min seqLen draftWindowSize
  if pageSize ≤ 1 then visibleLen
  else
    let visibleStart := seqLen - visibleLen
    let alignedStart := visibleStart - visibleStart % pageSize
    seqLen - alignedStart

/-- `_compute_compact_draft_seq_lens_host` -/
def computeCompactDraftSeqLensHost (draftWindowSize pageSize hostSeqLen : ℕ) : ℕ :=
  let bound := draftWindowSize + if 1 < pageSize then pageSize else 0
  min hostSeqLen bound

section Lengths
variable (draftWindowSize : ℕ) {pageSize : ℕ} (seqLen : ℕ)

/-- Where the suffix starts: the start of the window, rounded down to a page. -/
theorem sub_computeCompactDraftSeqLens (hpage : 1 ≤ pageSize) :
    seqLen - computeCompactDraftSeqLens draftWindowSize pageSize seqLen =
      (seqLen - draftWindowSize) / pageSize * pageSize := by
  have hstart : seqLen - min seqLen draftWindowSize = seqLen - draftWindowSize := by omega
  have hdiv := Nat.div_add_mod (seqLen - draftWindowSize) pageSize
  rw [Nat.mul_comm] at hdiv
  unfold computeCompactDraftSeqLens
  by_cases hone : pageSize ≤ 1
  · obtain rfl : pageSize = 1 := by omega
    rw [if_pos hone, hstart, Nat.div_one, Nat.mul_one]
  · rw [if_neg hone]
    dsimp only
    rw [hstart]
    omega

theorem computeCompactDraftSeqLens_le :
    computeCompactDraftSeqLens draftWindowSize pageSize seqLen ≤ seqLen := by
  unfold computeCompactDraftSeqLens
  split
  · exact Nat.min_le_left _ _
  · exact Nat.sub_le _ _

theorem min_le_computeCompactDraftSeqLens :
    min seqLen draftWindowSize ≤ computeCompactDraftSeqLens draftWindowSize pageSize seqLen := by
  unfold computeCompactDraftSeqLens
  split
  · exact Nat.le_refl _
  · dsimp only
    omega

theorem computeCompactDraftSeqLens_lt (hpage : 1 ≤ pageSize) :
    computeCompactDraftSeqLens draftWindowSize pageSize seqLen < draftWindowSize + pageSize := by
  have hmod := Nat.mod_lt (seqLen - min seqLen draftWindowSize) hpage
  unfold computeCompactDraftSeqLens
  dsimp only
  split <;> omega

/-- **The host's bound**, at any length the sequence may have grown to. -/
theorem computeCompactDraftSeqLens_le_host (hpage : 1 ≤ pageSize) {hostSeqLen : ℕ}
    (hhost : seqLen ≤ hostSeqLen) :
    computeCompactDraftSeqLens draftWindowSize pageSize seqLen ≤
      computeCompactDraftSeqLensHost draftWindowSize pageSize hostSeqLen := by
  have hle : computeCompactDraftSeqLens draftWindowSize pageSize seqLen ≤ seqLen :=
    computeCompactDraftSeqLens_le _ _
  have hlt := computeCompactDraftSeqLens_lt draftWindowSize seqLen hpage
  have hone : pageSize ≤ 1 → computeCompactDraftSeqLens draftWindowSize pageSize seqLen ≤
      draftWindowSize := by
    intro hone
    omega
  unfold computeCompactDraftSeqLensHost
  dsimp only
  split <;> omega

end Lengths

/-! ### The rows of the draft -/

/-- `_gather_req_to_token_masked` on the positions `start + column`, whose mask is
`column < lengths`; a masked position outside the table is an error. -/
def gatherReqToTokenMasked (reqToToken : ℕ → ℤ) (tableWidth : ℕ)
    (reqPoolIndices start lengths : ℕ → ℕ) (bs maxLen : ℕ) : Option (List ℤ) :=
  let mask := fun b col => decide (col < lengths b)
  let columns := fun b => (List.range maxLen).filter (mask b)
  if tableWidth = 0 then
    if (List.range bs).any (fun b => (List.range maxLen).any (mask b)) then none else some []
  else if (List.range bs).all fun b => (columns b).all fun col =>
    decide (start b + col < tableWidth)
  then
    some ((List.range bs).flatMap fun b => (columns b).map fun col =>
      readRow reqToToken tableWidth (reqPoolIndices b) (start b + col))
  else none

/-- `_gather_req_to_token_segments` -/
def gatherReqToTokenSegments (reqToToken : ℕ → ℤ) (tableWidth : ℕ)
    (reqPoolIndices start lengths : ℕ → ℕ) (bs : ℕ) : Option (List ℤ) :=
  let maxLen := (Finset.range bs).sup lengths
  if maxLen = 0 then some []
  else gatherReqToTokenMasked reqToToken tableWidth reqPoolIndices start lengths bs maxLen

/-- What a rebuild of the draft's rows is called with. -/
structure CompactRebuild where
  draftWindowSize : ℕ
  pageSize : ℕ
  draftReqToToken : ℕ → ℤ
  draftPoolLen : ℕ
  targetReqToToken : ℕ → ℤ
  targetPoolLen : ℕ
  reqPoolIndices : ℕ → ℕ
  prefixLens : ℕ → ℕ
  verifyOutCacheLoc : ℕ → ℤ
  bs : ℕ
  blockSize : ℕ

namespace CompactRebuild
variable (x : CompactRebuild)

/-- `draft_prefix_lens` -/
def draftPrefixLens (b : ℕ) : ℕ :=
  computeCompactDraftSeqLens x.draftWindowSize x.pageSize (x.prefixLens b)

/-- `suffix_start` -/
def suffixStart (b : ℕ) : ℕ := x.prefixLens b - x.draftPrefixLens b

/-- `_rebuild_compact_draft_cache`, by the kernel or by a gather and two scatters. -/
def rebuildCompactDraftCache (useTritonCompactRebuild : Bool) : Option (ℕ → ℤ) :=
  if useTritonCompactRebuild then
    some <| writeAll x.draftReqToToken <| (List.range x.bs).flatMap <|
      rebuildCompactStores x.targetReqToToken x.reqPoolIndices x.suffixStart x.draftPrefixLens
        x.verifyOutCacheLoc x.blockSize x.draftPoolLen x.targetPoolLen x.blockSize
  else do
    let suffixCacheLoc ← gatherReqToTokenSegments x.targetReqToToken x.targetPoolLen
      x.reqPoolIndices x.suffixStart x.draftPrefixLens x.bs
    let draft := assignReqToTokenPool x.draftReqToToken x.reqPoolIndices x.draftPoolLen
      (fun _ => 0) x.draftPrefixLens (suffixCacheLoc.getD · 0) x.bs
    let blockEnd := fun b => x.draftPrefixLens b + x.blockSize
    return assignReqToTokenPool draft x.reqPoolIndices x.draftPoolLen x.draftPrefixLens blockEnd
      x.verifyOutCacheLoc x.bs

/-- What the pools promise: requests have rows of their own, a row of the target holds the context,
and one of the draft the compact prefix and a block of drafts behind it. -/
structure WellFormed : Prop where
  page_pos : 1 ≤ x.pageSize
  distinct : ∀ b < x.bs, ∀ b' < x.bs, x.reqPoolIndices b = x.reqPoolIndices b' → b = b'
  target_fits : ∀ b < x.bs, x.prefixLens b ≤ x.targetPoolLen
  draft_fits : ∀ b < x.bs, x.draftPrefixLens b + x.blockSize ≤ x.draftPoolLen

/-- Entry `j` of the rebuilt row of request `b`: the slot of a position of the suffix, or of the
verify block. -/
def rowEntry (b j : ℕ) : ℤ :=
  if j < x.draftPrefixLens b then
    readRow x.targetReqToToken x.targetPoolLen (x.reqPoolIndices b)
      (x.prefixLens b - x.draftPrefixLens b + j)
  else readRow x.verifyOutCacheLoc x.blockSize b (j - x.draftPrefixLens b)

/-- A draft pool whose rows are rebuilt, and nothing else changed. -/
structure Rebuilt (pool : ℕ → ℤ) : Prop where
  entry : ∀ b < x.bs, ∀ j < x.draftPrefixLens b + x.blockSize,
    readRow pool x.draftPoolLen (x.reqPoolIndices b) j = x.rowEntry b j
  frame : ∀ cell, (∀ b < x.bs, ∀ j < x.draftPrefixLens b + x.blockSize,
    x.reqPoolIndices b * x.draftPoolLen + j ≠ cell) → pool cell = x.draftReqToToken cell

variable {x}

/-- Rebuilt pools are equal. -/
theorem Rebuilt.unique {pool pool' : ℕ → ℤ} (h : x.Rebuilt pool) (h' : x.Rebuilt pool') :
    pool = pool' := by
  funext cell
  by_cases hcell : ∀ b < x.bs, ∀ j < x.draftPrefixLens b + x.blockSize,
      x.reqPoolIndices b * x.draftPoolLen + j ≠ cell
  · rw [h.frame cell hcell, h'.frame cell hcell]
  · push Not at hcell
    obtain ⟨b, hb, j, hj, rfl⟩ := hcell
    exact (h.entry b hb j hj).trans (h'.entry b hb j hj).symm

theorem draftPrefixLens_le (b : ℕ) : x.draftPrefixLens b ≤ x.prefixLens b :=
  computeCompactDraftSeqLens_le _ _

/-- **The kernel rebuilds the rows.** -/
theorem rebuild_triton (h : x.WellFormed) :
    ∃ pool, x.rebuildCompactDraftCache true = some pool ∧ x.Rebuilt pool := by
  have hrows : PoolRows x.bs x.draftPoolLen x.reqPoolIndices (fun _ => 0)
      fun b => x.draftPrefixLens b + x.blockSize := by
    refine ⟨h.distinct, fun b hb => ?_⟩
    have hfit := h.draft_fits b hb
    omega
  have hstores : (List.range x.bs).flatMap (rebuildCompactStores x.targetReqToToken x.reqPoolIndices
      x.suffixStart x.draftPrefixLens x.verifyOutCacheLoc x.blockSize x.draftPoolLen x.targetPoolLen
      x.blockSize) =
      scatter x.bs (fun b => x.draftPrefixLens b + x.blockSize)
        (fun b j => x.reqPoolIndices b * x.draftPoolLen + (0 + j)) x.rowEntry := by
    rw [scatter]
    refine List.flatMap_congr fun b _ => ?_
    rw [rebuildCompactStores, tiles_eq_range (by decide)]
    simp only [Nat.zero_add]
    rfl
  refine ⟨_, if_pos rfl, fun b hb j hj => ?_, fun cell hcell => ?_⟩
  · rw [readRow, hstores, ← hrows.writeAll_mem x.draftReqToToken x.rowEntry hb hj, Nat.zero_add]
  · rw [hstores]
    refine writeAll_scatter_of_ne _ _ fun b hb j hj => ?_
    rw [Nat.zero_add]
    exact hcell b hb j hj

/-- The gathered suffixes, packed behind one another. -/
theorem gatherReqToTokenSegments_eq (h : x.WellFormed) :
    ∃ suffix, gatherReqToTokenSegments x.targetReqToToken x.targetPoolLen x.reqPoolIndices
        x.suffixStart x.draftPrefixLens x.bs = some suffix ∧
      ∀ b < x.bs, ∀ j < x.draftPrefixLens b,
        suffix.getD (offset x.draftPrefixLens b + j) 0 =
          readRow x.targetReqToToken x.targetPoolLen (x.reqPoolIndices b)
            (x.suffixStart b + j) := by
  have hmax : ∀ b < x.bs, x.draftPrefixLens b ≤ (Finset.range x.bs).sup x.draftPrefixLens :=
    fun b hb => Finset.le_sup (f := x.draftPrefixLens) (Finset.mem_range.mpr hb)
  unfold gatherReqToTokenSegments
  by_cases hzero : (Finset.range x.bs).sup x.draftPrefixLens = 0
  · refine ⟨[], if_pos hzero, fun b hb j hj => ?_⟩
    have := hmax b hb
    omega
  · have hwidth : x.targetPoolLen ≠ 0 := by
      intro hwidth
      refine hzero (Nat.eq_zero_of_le_zero (Finset.sup_le fun b hb => ?_))
      have hfit := h.target_fits b (Finset.mem_range.mp hb)
      have hle := draftPrefixLens_le (x := x) b
      omega
    have hcolumns : ∀ b < x.bs, (List.range ((Finset.range x.bs).sup x.draftPrefixLens)).filter
        (fun col => decide (col < x.draftPrefixLens b)) = List.range (x.draftPrefixLens b) :=
      fun b hb => filter_range_lt (hmax b hb)
    have hbound : ((List.range x.bs).all fun b =>
        ((List.range ((Finset.range x.bs).sup x.draftPrefixLens)).filter
          fun col => decide (col < x.draftPrefixLens b)).all
            fun col => decide (x.suffixStart b + col < x.targetPoolLen)) = true := by
      refine List.all_eq_true.mpr fun b hb => ?_
      rw [hcolumns b (List.mem_range.mp hb)]
      refine List.all_eq_true.mpr fun col hcol => decide_eq_true ?_
      have hfit := h.target_fits b (List.mem_range.mp hb)
      have hlt := List.mem_range.mp hcol
      have hle := draftPrefixLens_le (x := x) b
      rw [suffixStart]
      omega
    refine ⟨(List.range x.bs).flatMap fun b => (List.range (x.draftPrefixLens b)).map fun j =>
      readRow x.targetReqToToken x.targetPoolLen (x.reqPoolIndices b) (x.suffixStart b + j), ?_,
      fun b hb j hj => ?_⟩
    · rw [if_neg hzero, gatherReqToTokenMasked, if_neg hwidth, if_pos hbound]
      refine congrArg some (List.flatMap_congr fun b hb => ?_)
      exact congrArg _ (hcolumns b (List.mem_range.mp hb))
    · rw [List.getD_eq_getElem?_getD, ragged_getElem? x.draftPrefixLens (fun b j =>
        readRow x.targetReqToToken x.targetPoolLen (x.reqPoolIndices b)
        (x.suffixStart b + j)) hb hj]
      rfl

/-- **So do the gather and the two scatters.** -/
theorem rebuild_fallback (h : x.WellFormed) :
    ∃ pool, x.rebuildCompactDraftCache false = some pool ∧ x.Rebuilt pool := by
  obtain ⟨suffix, hsuffix, hslots⟩ := gatherReqToTokenSegments_eq h
  have hprefix : PoolRows x.bs x.draftPoolLen x.reqPoolIndices (fun _ => 0) x.draftPrefixLens :=
    ⟨h.distinct, fun b hb => by have := h.draft_fits b hb; omega⟩
  have hblock : PoolRows x.bs x.draftPoolLen x.reqPoolIndices x.draftPrefixLens
      fun _ => x.blockSize := ⟨h.distinct, h.draft_fits⟩
  have hlen : (fun b => x.draftPrefixLens b + x.blockSize - x.draftPrefixLens b) =
      fun _ => x.blockSize := funext fun b => Nat.add_sub_cancel_left _ _
  refine ⟨_, by rw [rebuildCompactDraftCache, if_neg Bool.false_ne_true, hsuffix]; rfl,
    fun b hb j hj => ?_, fun cell hcell => ?_⟩
  · rw [readRow, assignReqToTokenPool_eq, assignReqToTokenPool_eq, hlen]
    by_cases hsuf : j < x.draftPrefixLens b
    · rw [rowEntry, if_pos hsuf, ← suffixStart, ← hslots b hb j hsuf]
      -- the blocks lie behind the suffixes
      rw [writeAll_scatter_of_ne]
      · have hcell := hprefix.writeAll_mem x.draftReqToToken
          (fun b j => suffix.getD (offset x.draftPrefixLens b + j) 0) hb hsuf
        rwa [Nat.zero_add] at hcell
      · intro b' hb' j' hj' heq
        have hb_fit := h.draft_fits b hb
        have hb_fit' := h.draft_fits b' hb'
        obtain ⟨hrow, hcol⟩ := block_inj (by omega) (by omega) heq
        obtain rfl := h.distinct b' hb' b hb hrow
        omega
    · obtain ⟨i, rfl⟩ := Nat.exists_eq_add_of_le (Nat.not_lt.mp hsuf)
      rw [rowEntry, if_neg hsuf, hblock.writeAll_mem _ _ hb (by omega), offset_const,
        Nat.add_sub_cancel_left, readRow]
  · rw [assignReqToTokenPool_eq, assignReqToTokenPool_eq, hlen, writeAll_scatter_of_ne,
      writeAll_scatter_of_ne]
    · intro b hb j hj
      rw [Nat.zero_add]
      exact hcell b hb j (by omega)
    · intro b hb j hj
      exact hcell b hb _ (by omega)

/-- **The compact draft window**: the suffix of a sequence of length `s` is at most the
sequence, covers the window, exceeds it by less than a page and starts on a page; the host's
bound at a later length covers it; and both rebuilds return one pool, whose rows hold the slots
of the suffix and then those of the verify block, nothing else being changed. -/
theorem compact_draft_window (x : CompactRebuild) (h : x.WellFormed) :
    (∀ s, computeCompactDraftSeqLens x.draftWindowSize x.pageSize s ≤ s ∧
      min s x.draftWindowSize ≤ computeCompactDraftSeqLens x.draftWindowSize x.pageSize s ∧
      computeCompactDraftSeqLens x.draftWindowSize x.pageSize s < x.draftWindowSize + x.pageSize ∧
      x.pageSize ∣ s - computeCompactDraftSeqLens x.draftWindowSize x.pageSize s ∧
      ∀ hostSeqLen, s ≤ hostSeqLen →
        computeCompactDraftSeqLens x.draftWindowSize x.pageSize s ≤
          computeCompactDraftSeqLensHost x.draftWindowSize x.pageSize hostSeqLen) ∧
    ∃ pool, x.rebuildCompactDraftCache true = some pool ∧
      x.rebuildCompactDraftCache false = some pool ∧ x.Rebuilt pool := by
  refine ⟨fun s => ⟨computeCompactDraftSeqLens_le _ s, min_le_computeCompactDraftSeqLens _ s,
    computeCompactDraftSeqLens_lt _ s h.page_pos, ?_, fun hostSeqLen hhost =>
      computeCompactDraftSeqLens_le_host _ s h.page_pos hhost⟩, ?_⟩
  · rw [sub_computeCompactDraftSeqLens _ s h.page_pos]
    exact Nat.dvd_mul_left _ _
  · obtain ⟨pool, hpool, hrebuilt⟩ := rebuild_triton h
    obtain ⟨pool', hpool', hrebuilt'⟩ := rebuild_fallback h
    obtain rfl := hrebuilt.unique hrebuilt'
    exact ⟨pool, hpool, hpool', hrebuilt⟩

end CompactRebuild

/-! ### Two requests -/

/-- Two requests with a window of four tokens on pages of four, and blocks of two. -/
def pagedRebuild : CompactRebuild where
  draftWindowSize := 4
  pageSize := 4
  draftReqToToken _ := -1
  draftPoolLen := 8
  targetReqToToken a := a
  targetPoolLen := 12
  reqPoolIndices b := 1 - b
  prefixLens b := if b = 0 then 10 else 3
  verifyOutCacheLoc a := 100 + a
  bs := 2
  blockSize := 2

theorem pagedRebuild_wellFormed : pagedRebuild.WellFormed where
  page_pos := by decide
  distinct := by decide
  target_fits := by decide
  draft_fits := by decide

theorem compact_draft_window_paged :
    ∃ pool, pagedRebuild.rebuildCompactDraftCache true = some pool ∧
      (List.range 8).map (readRow pool 8 1) = [16, 17, 18, 19, 20, 21, 100, 101] := by
  obtain ⟨-, pool, hpool, -, hrebuilt⟩ :=
    CompactRebuild.compact_draft_window pagedRebuild pagedRebuild_wellFormed
  have hentry : ∀ j ∈ List.range 8, readRow pool 8 1 j = pagedRebuild.rowEntry 0 j :=
    fun j hj => hrebuilt.entry 0 (by decide) j (List.mem_range.mp hj)
  exact ⟨pool, hpool, (List.map_congr_left hentry).trans (by decide)⟩

end LatentSpec
