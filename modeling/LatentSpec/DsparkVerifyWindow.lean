import LatentSpec.CacheLocs
import LatentSpec.DsparkEpilogue

/-! # The ragged verify window of DSpark

A compact verify step packs the verified slots of all requests behind one another, in a bucket
that may be longer than what is packed.  Everything about a packed row is found from its
number: `compact_row_index` returns its request and its slot there, by a prefix sum and a
search, and the positions, the cache slots and the token ids of the window are gathered at
them.  After the forward pass `scatter_compact_to_strided` puts row `(r, w)` at `r * W + w`.

All of it exists twice, as torch operations and as kernels over buffers nobody has cleared.
`packedRows` lists the pairs in order, and `compactRowIndexTorch_eq` and
`compactRowIndexTriton_eq` say that both index tensors are that list and then padding; the
other results read it.
-/
namespace LatentSpec
open TiledStores

/-! ### The index -/

/-- Row of the index tensors: request, slot and validity. -/
structure PackedRow where
  reqId : ℕ
  within : ℕ
  valid : Bool
  deriving DecidableEq, Repr

/-- The order of the packed rows: by request, then by slot. -/
def PackedRow.Precedes (a b : PackedRow) : Prop :=
  a.reqId < b.reqId ∨ a.reqId = b.reqId ∧ a.within < b.within

/-- `torch.searchsorted(incl, row, right=True)` -/
def searchsortedRight (incl : ℕ → ℕ) (bs row : ℕ) : ℕ :=
  (List.range bs).countP fun i => decide (incl i ≤ row)

/-- `compact_row_index` -/
def compactRowIndexTorch (verifyLens : ℕ → ℕ) (bs paddedTotal : ℕ) : List PackedRow :=
  let incl := fun b => offset verifyLens (b + 1)
  let start := fun b => incl b - verifyLens b
  let realTotal := incl (bs - 1)
  (List.range paddedTotal).map fun row =>
    let valid := decide (row < realTotal)
    let reqId := if valid then searchsortedRight incl bs row else bs
    { reqId := reqId
      within := if valid then row - start (min reqId (bs - 1)) else 0
      valid := valid }

/-- What the tensors that `compact_row_index_triton` allocates happen to hold. -/
structure IndexBuffers where
  req : ℕ → ℕ
  within : ℕ → ℕ
  valid : ℕ → Bool

/-- `compact_row_index_triton`; it refuses a batch beyond what its search can cover. -/
def compactRowIndexTriton (bufs : IndexBuffers) (verifyLens : ℕ → ℕ) (bs paddedTotal : ℕ) :
    Option (List PackedRow) :=
  if bs ≤ 2 ^ (searchNbits - 1) then
    let lanes := tiles 256 paddedTotal
    let req := writeAll bufs.req (lanes.map fun offs =>
      (offs, (compactRowIndex verifyLens bs offs).1))
    let within := writeAll bufs.within (lanes.map fun offs =>
      (offs, (compactRowIndex verifyLens bs offs).2))
    let valid := writeAll bufs.valid (lanes.map fun offs =>
      (offs, decide (offs < offset verifyLens (bs - 1 + 1))))
    some ((List.range paddedTotal).map fun row => ⟨req row, within row, valid row⟩)
  else none

/-- The verified slots of all requests, in order. -/
def packedRows (verifyLens : ℕ → ℕ) (bs : ℕ) : List PackedRow :=
  (List.range bs).flatMap fun r => (List.range (verifyLens r)).map fun w => ⟨r, w, true⟩

section Index
variable {verifyLens : ℕ → ℕ} {bs paddedTotal : ℕ}

theorem packedRows_succ (verifyLens : ℕ → ℕ) (bs : ℕ) :
    packedRows verifyLens (bs + 1) =
      packedRows verifyLens bs ++ (List.range (verifyLens bs)).map fun w => ⟨bs, w, true⟩ := by
  rw [packedRows, List.range_succ, List.flatMap_append, List.flatMap_singleton, packedRows]

theorem mem_packedRows {row : PackedRow} :
    row ∈ packedRows verifyLens bs ↔
      row.reqId < bs ∧ row.within < verifyLens row.reqId ∧ row.valid = true := by
  simp only [packedRows, List.mem_flatMap, List.mem_map, List.mem_range]
  constructor
  · rintro ⟨r, hr, w, hw, rfl⟩
    exact ⟨hr, hw, rfl⟩
  · rintro ⟨hr, hw, hvalid⟩
    exact ⟨row.reqId, hr, row.within, hw, by rw [← hvalid]⟩

/-- No pair is listed twice, and they are listed in order. -/
theorem pairwise_packedRows (verifyLens : ℕ → ℕ) (bs : ℕ) :
    (packedRows verifyLens bs).Pairwise PackedRow.Precedes := by
  apply List.pairwise_flatMap.mpr
  constructor
  · intro r _
    apply List.pairwise_map.mpr
    apply List.pairwise_lt_range.imp
    intro w w' hw
    exact .inr ⟨rfl, hw⟩
  · apply List.pairwise_lt_range.imp
    intro r r' hr a ha b hb
    obtain ⟨w, -, rfl⟩ := List.mem_map.mp ha
    obtain ⟨w', -, rfl⟩ := List.mem_map.mp hb
    exact .inl hr

theorem length_packedRows (verifyLens : ℕ → ℕ) (bs : ℕ) :
    (packedRows verifyLens bs).length = offset verifyLens bs := by
  simp only [packedRows, List.length_flatMap, List.length_map, List.length_range, offset]

/-- A list of `offset bs` packed values is a list over the packed rows. -/
theorem map_range_offset {β : Type} (f : ℕ → β) (bs : ℕ) :
    (List.range (offset verifyLens bs)).map f =
      (packedRows verifyLens bs).map fun row => f (offset verifyLens row.reqId + row.within) := by
  induction bs with
  | zero => rfl
  | succ bs ih =>
    rw [offset_succ, List.range_add, List.map_append, ih, packedRows_succ, List.map_append]
    simp [Function.comp_def]

theorem packedRows_getElem? {r w : ℕ} (hr : r < bs) (hw : w < verifyLens r) :
    (packedRows verifyLens bs)[offset verifyLens r + w]? = some ⟨r, w, true⟩ :=
  ragged_getElem? verifyLens (fun r w => PackedRow.mk r w true) hr hw

/-- The prefix sums at most a packed row are those of the requests before its own. -/
theorem incl_le_iff {r w : ℕ} (hw : w < verifyLens r) (i : ℕ) :
    offset verifyLens (i + 1) ≤ offset verifyLens r + w ↔ i < r := by
  constructor
  · intro hle
    by_contra hge
    have hmono : offset verifyLens (r + 1) ≤ offset verifyLens (i + 1) :=
      offset_mono verifyLens (by omega)
    rw [offset_succ] at hmono
    omega
  · intro hlt
    exact (offset_mono verifyLens hlt).trans (Nat.le_add_right _ _)

theorem searchsortedRight_eq {r w : ℕ} (hr : r < bs) (hw : w < verifyLens r) :
    searchsortedRight (fun b => offset verifyLens (b + 1)) bs (offset verifyLens r + w) = r := by
  have hcount : (List.range bs).countP
      (fun i => decide (offset verifyLens (i + 1) ≤ offset verifyLens r + w)) =
      (List.range bs).countP fun i => decide (i < r) :=
    List.countP_congr fun i _ => by simp [incl_le_iff hw i]
  rw [searchsortedRight, hcount, List.countP_eq_length_filter, filter_range_lt hr.le,
    List.length_range]

/-- The rows of a bucket are the packed rows and then padding. -/
theorem map_range_bucket {β : Type} {f : ℕ → β} {pad : β} {g : PackedRow → β}
    (htotal : offset verifyLens bs ≤ paddedTotal)
    (hreal : ∀ r < bs, ∀ w < verifyLens r, f (offset verifyLens r + w) = g ⟨r, w, true⟩)
    (hpad : ∀ row, offset verifyLens bs ≤ row → row < paddedTotal → f row = pad) :
    (List.range paddedTotal).map f =
      (packedRows verifyLens bs).map g ++
        List.replicate (paddedTotal - offset verifyLens bs) pad := by
  obtain ⟨d, rfl⟩ := Nat.exists_eq_add_of_le htotal
  rw [List.range_add, List.map_append, map_range_offset, Nat.add_sub_cancel_left]
  congr 1
  · apply List.map_congr_left
    intro row hrow
    obtain ⟨hr, hw, hvalid⟩ := mem_packedRows.mp hrow
    rw [hreal _ hr _ hw, ← hvalid]
  · rw [List.map_map, List.eq_replicate_iff]
    refine ⟨by rw [List.length_map, List.length_range], fun x hx => ?_⟩
    obtain ⟨i, hi, rfl⟩ := List.mem_map.mp hx
    exact hpad _ (Nat.le_add_right _ _) (Nat.add_lt_add_left (List.mem_range.mp hi) _)

variable (hbs : 1 ≤ bs) (htotal : offset verifyLens bs ≤ paddedTotal)
include hbs htotal

/-- **The torch index**: the packed rows in order, and then invalid rows. -/
theorem compactRowIndexTorch_eq :
    compactRowIndexTorch verifyLens bs paddedTotal =
      packedRows verifyLens bs ++
        List.replicate (paddedTotal - offset verifyLens bs) ⟨bs, 0, false⟩ := by
  have hlast : bs - 1 + 1 = bs := Nat.sub_add_cancel hbs
  refine (map_range_bucket htotal (g := id) ?_ ?_).trans (by rw [List.map_id])
  · intro r hr w hw
    have hvalid := offset_add_lt hr hw
    have hsafe : min r (bs - 1) = r := by omega
    have hstart : offset verifyLens (r + 1) - verifyLens r = offset verifyLens r := by
      rw [offset_succ, Nat.add_sub_cancel]
    simp only [hlast, hvalid, decide_true, if_true, searchsortedRight_eq hr hw, hsafe, hstart,
      Nat.add_sub_cancel_left, id]
  · intro row hrow _
    simp only [hlast, Nat.not_lt.mpr hrow, decide_false, Bool.false_eq_true, if_false]

/-- **The search of the kernel returns the torch index**, whatever its buffers held. -/
theorem compactRowIndexTriton_eq (bufs : IndexBuffers) (hcap : bs ≤ 2 ^ (searchNbits - 1)) :
    compactRowIndexTriton bufs verifyLens bs paddedTotal =
      some (compactRowIndexTorch verifyLens bs paddedTotal) := by
  have hlast : bs - 1 + 1 = bs := Nat.sub_add_cancel hbs
  have hsearch : bs < 2 ^ searchNbits := lt_of_le_of_lt hcap (by decide)
  rw [compactRowIndexTriton, if_pos hcap, compactRowIndexTorch_eq hbs htotal]
  -- every lane stores its own row, so the buffers are read back as the lanes computed them
  have hread : ∀ row ∈ List.range paddedTotal,
      PackedRow.mk
        (writeAll bufs.req ((tiles 256 paddedTotal).map fun offs =>
          (offs, (compactRowIndex verifyLens bs offs).1)) row)
        (writeAll bufs.within ((tiles 256 paddedTotal).map fun offs =>
          (offs, (compactRowIndex verifyLens bs offs).2)) row)
        (writeAll bufs.valid ((tiles 256 paddedTotal).map fun offs =>
          (offs, decide (offs < offset verifyLens (bs - 1 + 1)))) row) =
      ⟨(compactRowIndex verifyLens bs row).1, (compactRowIndex verifyLens bs row).2,
        decide (row < offset verifyLens (bs - 1 + 1))⟩ := by
    intro row hrow
    have hlt := List.mem_range.mp hrow
    rw [writeAll_tiles _ (fun offs => (compactRowIndex verifyLens bs offs).1) (by decide) hlt,
      writeAll_tiles _ (fun offs => (compactRowIndex verifyLens bs offs).2) (by decide) hlt,
      writeAll_tiles _ (fun offs => decide (offs < offset verifyLens (bs - 1 + 1))) (by decide) hlt]
  refine congrArg some ((List.map_congr_left hread).trans ?_)
  refine (map_range_bucket htotal (g := id) ?_ ?_).trans (by rw [List.map_id])
  · intro r hr w hw
    have hvalid := offset_add_lt hr hw
    simp only [compactRowIndex_eq hsearch hr hw, hlast, hvalid, decide_true, id]
  · intro row hrow _
    simp only [compactRowIndex, hlast, Nat.not_lt.mpr hrow, decide_false, Bool.false_eq_true,
      if_false]

theorem compactRowIndexTorch_real {r w : ℕ} (hr : r < bs) (hw : w < verifyLens r) :
    (compactRowIndexTorch verifyLens bs paddedTotal)[offset verifyLens r + w]? =
      some ⟨r, w, true⟩ := by
  rw [compactRowIndexTorch_eq hbs htotal, List.getElem?_append_left]
  · exact packedRows_getElem? hr hw
  · rw [length_packedRows]
    exact offset_add_lt hr hw

theorem compactRowIndexTorch_pad {row : ℕ} (hrow : offset verifyLens bs ≤ row)
    (hlt : row < paddedTotal) :
    (compactRowIndexTorch verifyLens bs paddedTotal)[row]? = some ⟨bs, 0, false⟩ := by
  rw [compactRowIndexTorch_eq hbs htotal, List.getElem?_append_right, length_packedRows,
    List.getElem?_replicate, if_pos (by omega)]
  rwa [length_packedRows]

end Index

theorem length_compactRowIndexTorch (verifyLens : ℕ → ℕ) (bs paddedTotal : ℕ) :
    (compactRowIndexTorch verifyLens bs paddedTotal).length = paddedTotal := by
  simp only [compactRowIndexTorch, List.length_map, List.length_range]

/-! ### The window -/

/-- What the window of a verify step is built from: the batch, the slot table and the draft,
whose two matrices have `gamma` columns. -/
structure WindowInputs where
  seqLens : ℕ → ℕ
  reqPoolIndices : ℕ → ℕ
  reqToToken : ℕ → ℤ
  poolLen : ℕ
  gamma : ℕ
  draftBlockIds : ℕ → ℤ
  draftTokens : ℕ → ℤ

structure RaggedVerifyWindow where
  positions : List ℕ
  verifyCacheLoc : List ℤ
  verifyIds : List ℤ
  deriving DecidableEq, Repr

/-- `torch.nn.functional.pad(xs, (0, n - len(xs)))`, which crops where the difference is
negative. -/
def padTo (xs : List ℤ) (n : ℕ) : List ℤ := (xs ++ List.replicate (n - xs.length) 0).take n

namespace RaggedVerifyLayout
variable {stride : ℕ} (layout : RaggedVerifyLayout stride) {β : Type}

/-- A value for every packed row, and then padding. -/
def placed (f : ℕ → ℕ → β) (pad : β) : List β :=
  (packedRows layout.lens layout.bs).map (fun row => f row.reqId row.within) ++
    List.replicate (layout.graphNumTokens - layout.verifyLens.sum) pad

/-- The index tensors of a layout. -/
def rows : List PackedRow := compactRowIndexTorch layout.lens layout.bs layout.graphNumTokens

end RaggedVerifyLayout

namespace WindowInputs
variable (x : WindowInputs) (layout : RaggedVerifyLayout (x.gamma + 1))

/-- `real_cache_loc`; `out` is what the allocated buffer holds. -/
def realCacheLoc (out : ℕ → ℤ) : List ℤ :=
  assignExtendCacheLocs out x.reqPoolIndices x.reqToToken x.poolLen x.seqLens
    (fun b => x.seqLens b + layout.lens b) layout.bs (x.gamma + 1)

/-- The token `compact_verify_ids` puts in a row, the validity decided by its caller. -/
def verifyId (bs : ℕ) (row : PackedRow) (valid : Bool) : ℤ :=
  let safeReq := min row.reqId (bs - 1)
  let anchors := readRow x.draftBlockIds x.gamma safeReq 0
  let drafts := readRow x.draftTokens x.gamma safeReq (row.within - 1)
  let verifyIds := if row.within = 0 then anchors else drafts
  if valid then verifyIds else 0

/-- `compact_verify_ids` -/
def compactVerifyIdsTorch : List ℤ :=
  layout.rows.map fun row => x.verifyId layout.bs row row.valid

/-- `build_ragged_verify_window` -/
def buildRaggedVerifyWindow (out : ℕ → ℤ) : RaggedVerifyWindow :=
  { positions := layout.rows.map fun row =>
      if row.valid then x.seqLens (min row.reqId (layout.bs - 1)) + row.within else 0
    verifyCacheLoc := List.zipWith (fun row slot => if row.valid then slot else 0) layout.rows
      (padTo (x.realCacheLoc layout out) layout.graphNumTokens)
    verifyIds := x.compactVerifyIdsTorch layout }

/-- What the tensors that `build_ragged_verify_window_triton` allocates happen to hold. -/
structure WindowBuffers where
  index : IndexBuffers
  idsIndex : IndexBuffers
  cacheLoc : ℕ → ℤ
  positions : ℕ → ℕ
  verifyCacheLoc : ℕ → ℤ
  verifyIds : ℕ → ℤ

/-- `compact_verify_ids_triton` -/
def compactVerifyIdsTriton (bufs : WindowBuffers) : Option (List ℤ) := do
  let rows ← compactRowIndexTriton bufs.idsIndex layout.lens layout.bs layout.graphNumTokens
  let out := writeAll bufs.verifyIds ((tiles 256 layout.graphNumTokens).map fun offs =>
    let row := rows.getD offs ⟨0, 0, false⟩
    (offs, x.verifyId layout.bs row (decide (row.reqId < layout.bs))))
  return (List.range layout.graphNumTokens).map out

/-- `build_ragged_verify_window_triton` -/
def buildRaggedVerifyWindowTriton (bufs : WindowBuffers) : Option RaggedVerifyWindow := do
  let rows ← compactRowIndexTriton bufs.index layout.lens layout.bs layout.graphNumTokens
  let realCacheLoc := x.realCacheLoc layout bufs.cacheLoc
  let lanes := tiles 256 layout.graphNumTokens
  let positions := writeAll bufs.positions (lanes.map fun offs =>
    let row := rows.getD offs ⟨0, 0, false⟩
    let pos := x.seqLens (min row.reqId (layout.bs - 1)) + row.within
    (offs, if row.reqId < layout.bs then pos else 0))
  let verifyCacheLoc := writeAll bufs.verifyCacheLoc (lanes.map fun offs =>
    let row := rows.getD offs ⟨0, 0, false⟩
    let cl := if offs < realCacheLoc.length then realCacheLoc.getD offs 0 else 0
    (offs, if row.reqId < layout.bs then cl else 0))
  let verifyIds ← x.compactVerifyIdsTriton layout bufs
  return { positions := (List.range layout.graphNumTokens).map positions
           verifyCacheLoc := (List.range layout.graphNumTokens).map verifyCacheLoc
           verifyIds := verifyIds }

/-- The window of a step: row `(r, w)` holds position `prefix + w` of request `r`, its slot and
the token to verify there. -/
def window : RaggedVerifyWindow :=
  { positions := layout.placed (fun r w => x.seqLens r + w) 0
    verifyCacheLoc := layout.placed
      (fun r w => readRow x.reqToToken x.poolLen (x.reqPoolIndices r) (x.seqLens r + w)) 0
    verifyIds := layout.placed
      (fun r w => if w = 0 then readRow x.draftBlockIds x.gamma r 0
        else readRow x.draftTokens x.gamma r (w - 1)) 0 }

end WindowInputs

/-! ### What the window holds -/

theorem map_eq_map_range {β γ : Type} (f : β → γ) (xs : List β) (default : β) :
    xs.map f = (List.range xs.length).map fun i => f (xs.getD i default) := by
  refine List.ext_getElem (by simp) fun i hi _ => ?_
  have hlt : i < xs.length := by simpa using hi
  simp [hlt]

theorem zipWith_eq_map_range {β γ δ : Type} (f : β → γ → δ) {xs : List β} {ys : List γ}
    (h : ys.length = xs.length) (default : β) (default' : γ) :
    List.zipWith f xs ys =
      (List.range xs.length).map fun i => f (xs.getD i default) (ys.getD i default') := by
  refine List.ext_getElem (by simp [h]) fun i hi _ => ?_
  have hlt : i < xs.length := by simp only [List.length_zipWith] at hi; omega
  have hlt' : i < ys.length := by omega
  simp [hlt, hlt']

theorem length_padTo (xs : List ℤ) (n : ℕ) : (padTo xs n).length = n := by
  rw [padTo, List.length_take, List.length_append, List.length_replicate]
  omega

/-- Padding and cropping are invisible to a load that yields zero outside the tensor. -/
theorem padTo_getD (xs : List ℤ) {n i : ℕ} (hi : i < n) : (padTo xs n).getD i 0 = xs.getD i 0 := by
  rw [List.getD_eq_getElem?_getD, List.getD_eq_getElem?_getD, padTo, List.getElem?_take, if_pos hi]
  by_cases hlt : i < xs.length
  · rw [List.getElem?_append_left hlt]
  · rw [List.getElem?_append_right (Nat.not_lt.mp hlt), List.getElem?_eq_none (Nat.not_lt.mp hlt),
      List.getElem?_replicate]
    split <;> rfl

namespace RaggedVerifyLayout
variable {stride : ℕ} {layout : RaggedVerifyLayout stride} {β : Type}

theorem offset_le (layout : RaggedVerifyLayout stride) :
    offset layout.lens layout.bs ≤ layout.graphNumTokens :=
  layout.offset_bs.trans_le layout.total_le

theorem lens_le {r : ℕ} (hr : r < layout.bs) : layout.lens r ≤ stride :=
  layout.le_stride _ (lens_mem hr)

theorem map_range_eq_placed (layout : RaggedVerifyLayout stride) {f : ℕ → β} {g : ℕ → ℕ → β}
    {pad : β}
    (hreal : ∀ r < layout.bs, ∀ w < layout.lens r, f (offset layout.lens r + w) = g r w)
    (hpad : ∀ row, offset layout.lens layout.bs ≤ row → row < layout.graphNumTokens → f row = pad) :
    (List.range layout.graphNumTokens).map f = layout.placed g pad := by
  rw [placed, ← layout.offset_bs]
  exact map_range_bucket layout.offset_le hreal hpad

theorem length_rows : layout.rows.length = layout.graphNumTokens :=
  length_compactRowIndexTorch _ _ _

theorem rows_real (hbs : 1 ≤ layout.bs) {r w : ℕ} (hr : r < layout.bs) (hw : w < layout.lens r) :
    layout.rows.getD (offset layout.lens r + w) ⟨0, 0, false⟩ = ⟨r, w, true⟩ := by
  have hrow : layout.rows[offset layout.lens r + w]? = some ⟨r, w, true⟩ :=
    compactRowIndexTorch_real hbs layout.offset_le hr hw
  rw [List.getD_eq_getElem?_getD, hrow, Option.getD_some]

theorem rows_pad (hbs : 1 ≤ layout.bs) {row : ℕ} (hrow : offset layout.lens layout.bs ≤ row)
    (hlt : row < layout.graphNumTokens) :
    layout.rows.getD row ⟨0, 0, false⟩ = ⟨layout.bs, 0, false⟩ := by
  have hpad : layout.rows[row]? = some ⟨layout.bs, 0, false⟩ :=
    compactRowIndexTorch_pad hbs layout.offset_le hrow hlt
  rw [List.getD_eq_getElem?_getD, hpad, Option.getD_some]

end RaggedVerifyLayout

namespace WindowInputs
variable {x : WindowInputs} {layout : RaggedVerifyLayout (x.gamma + 1)}

theorem realCacheLoc_getD (out : ℕ → ℤ) {r w : ℕ} (hr : r < layout.bs) (hw : w < layout.lens r) :
    (x.realCacheLoc layout out).getD (offset layout.lens r + w) 0 =
      readRow x.reqToToken x.poolLen (x.reqPoolIndices r) (x.seqLens r + w) := by
  have hlens : (fun b => x.seqLens b + layout.lens b - x.seqLens b) = layout.lens :=
    funext fun b => Nat.add_sub_cancel_left _ _
  have hfit : offset layout.lens r + w < layout.bs * (x.gamma + 1) :=
    (offset_add_lt hr hw).trans_le (offset_le_mul _ fun b hb => RaggedVerifyLayout.lens_le hb)
  have hslot := assignExtendCacheLocs_getElem? out x.reqPoolIndices x.reqToToken x.poolLen
    x.seqLens (fun b => x.seqLens b + layout.lens b) hr (by rwa [Nat.add_sub_cancel_left])
    (by rwa [hlens])
  rw [hlens] at hslot
  rw [List.getD_eq_getElem?_getD, realCacheLoc, hslot, Option.getD_some]

theorem verifyId_real {r w : ℕ} (hr : r < layout.bs) :
    x.verifyId layout.bs ⟨r, w, true⟩ true =
      if w = 0 then readRow x.draftBlockIds x.gamma r 0
      else readRow x.draftTokens x.gamma r (w - 1) := by
  have hsafe : min r (layout.bs - 1) = r := by omega
  simp only [verifyId, hsafe, if_true]

variable (hbs : 1 ≤ layout.bs)
include hbs

theorem compactVerifyIdsTorch_eq :
    x.compactVerifyIdsTorch layout = (x.window layout).verifyIds := by
  rw [compactVerifyIdsTorch, map_eq_map_range _ _ ⟨0, 0, false⟩, RaggedVerifyLayout.length_rows]
  dsimp only [window]
  refine layout.map_range_eq_placed ?_ ?_
  · intro r hr w hw
    rw [RaggedVerifyLayout.rows_real hbs hr hw]
    exact verifyId_real hr
  · intro row hrow hlt
    rw [RaggedVerifyLayout.rows_pad hbs hrow hlt]
    rfl

/-- **The torch window** holds the window of the step. -/
theorem buildRaggedVerifyWindow_eq (out : ℕ → ℤ) :
    x.buildRaggedVerifyWindow layout out = x.window layout := by
  have hpositions : (x.buildRaggedVerifyWindow layout out).positions =
      (x.window layout).positions := by
    refine (map_eq_map_range _ _ ⟨0, 0, false⟩).trans ?_
    rw [RaggedVerifyLayout.length_rows]
    dsimp only [window]
    refine layout.map_range_eq_placed ?_ ?_
    · intro r hr w hw
      have hsafe : min r (layout.bs - 1) = r := by omega
      simp only [RaggedVerifyLayout.rows_real hbs hr hw, hsafe, if_true]
    · intro row hrow hlt
      rw [RaggedVerifyLayout.rows_pad hbs hrow hlt]
      rfl
  have hcache : (x.buildRaggedVerifyWindow layout out).verifyCacheLoc =
      (x.window layout).verifyCacheLoc := by
    refine (zipWith_eq_map_range _ ?_ ⟨0, 0, false⟩ 0).trans ?_
    · rw [length_padTo, RaggedVerifyLayout.length_rows]
    rw [RaggedVerifyLayout.length_rows]
    dsimp only [window]
    refine layout.map_range_eq_placed ?_ ?_
    · intro r hr w hw
      have hlt := (offset_add_lt hr hw).trans_le layout.offset_le
      simp only [RaggedVerifyLayout.rows_real hbs hr hw, padTo_getD _ hlt,
        realCacheLoc_getD _ hr hw,
        if_true]
    · intro row hrow hlt
      rw [RaggedVerifyLayout.rows_pad hbs hrow hlt]
      rfl
  exact congr (congrArg₂ RaggedVerifyWindow.mk hpositions hcache) (compactVerifyIdsTorch_eq hbs)

variable (hcap : layout.bs ≤ 2 ^ (searchNbits - 1))
include hcap

theorem compactVerifyIdsTriton_eq (bufs : WindowBuffers) :
    x.compactVerifyIdsTriton layout bufs = some (x.window layout).verifyIds := by
  have hrows : compactRowIndexTriton bufs.idsIndex layout.lens layout.bs layout.graphNumTokens =
      some layout.rows := compactRowIndexTriton_eq hbs layout.offset_le _ hcap
  rw [compactVerifyIdsTriton, hrows]
  refine congrArg some ?_
  dsimp only [window]
  refine layout.map_range_eq_placed ?_ ?_
  · intro r hr w hw
    have hlt := (offset_add_lt hr hw).trans_le layout.offset_le
    rw [writeAll_tiles _ _ (by decide) hlt, RaggedVerifyLayout.rows_real hbs hr hw,
      decide_eq_true hr]
    exact verifyId_real hr
  · intro row hrow hlt
    rw [writeAll_tiles _ _ (by decide) hlt, RaggedVerifyLayout.rows_pad hbs hrow hlt,
      decide_eq_false (Nat.lt_irrefl _)]
    rfl

/-- **The window of the kernels** is the same, whatever their buffers held. -/
theorem buildRaggedVerifyWindowTriton_eq (bufs : WindowBuffers) :
    x.buildRaggedVerifyWindowTriton layout bufs = some (x.window layout) := by
  have hrows : compactRowIndexTriton bufs.index layout.lens layout.bs layout.graphNumTokens =
      some layout.rows := compactRowIndexTriton_eq hbs layout.offset_le _ hcap
  rw [buildRaggedVerifyWindowTriton, hrows, Option.bind_eq_bind, Option.bind_some,
    compactVerifyIdsTriton_eq hbs hcap]
  refine congrArg some (congr (congrArg₂ RaggedVerifyWindow.mk ?_ ?_) rfl)
  · dsimp only [window]
    refine layout.map_range_eq_placed ?_ ?_
    · intro r hr w hw
      have hlt := (offset_add_lt hr hw).trans_le layout.offset_le
      have hsafe : min r (layout.bs - 1) = r := by omega
      rw [writeAll_tiles _ _ (by decide) hlt, RaggedVerifyLayout.rows_real hbs hr hw]
      simp only [hsafe, hr, if_true]
    · intro row hrow hlt
      rw [writeAll_tiles _ _ (by decide) hlt, RaggedVerifyLayout.rows_pad hbs hrow hlt]
      exact if_neg (Nat.lt_irrefl _)
  · dsimp only [window]
    refine layout.map_range_eq_placed ?_ ?_
    · intro r hr w hw
      have hlt := (offset_add_lt hr hw).trans_le layout.offset_le
      have hlen : offset layout.lens r + w < (x.realCacheLoc layout bufs.cacheLoc).length := by
        rw [realCacheLoc, length_assignExtendCacheLocs]
        exact (offset_add_lt hr hw).trans_le
          (offset_le_mul _ fun b hb => RaggedVerifyLayout.lens_le hb)
      rw [writeAll_tiles _ _ (by decide) hlt, RaggedVerifyLayout.rows_real hbs hr hw]
      simp only [hr, hlen, if_true, realCacheLoc_getD _ hr hw]
    · intro row hrow hlt
      rw [writeAll_tiles _ _ (by decide) hlt, RaggedVerifyLayout.rows_pad hbs hrow hlt]
      exact if_neg (Nat.lt_irrefl _)

end WindowInputs

/-! ### Back to the strided rows -/

section Scatter
variable {α : Type} {stride : ℕ} (layout : RaggedVerifyLayout stride)

/-- The strided row a packed row is copied to; the invalid ones go to the sink. -/
def stridedPos (layout : RaggedVerifyLayout stride) (row : PackedRow) : ℕ :=
  if row.valid then min row.reqId (layout.bs - 1) * stride + row.within else layout.bs * stride

/-- `scatter_compact_to_strided`, over flat matrices of `dim` columns: a filled matrix with a
sink row, the copy by index, and the rows before the sink. -/
def scatterCompactTorch (compact : ℕ → α) (dim : ℕ) (fillValue : α) : List α :=
  let strided := writeAll (fun _ => fillValue) <|
    scatter layout.graphNumTokens (fun _ => dim)
      (fun i d => stridedPos layout (layout.rows.getD i ⟨0, 0, false⟩) * dim + d)
      (readRow compact dim)
  (List.range (layout.bs * stride * dim)).map strided

/-- `scatter_compact_to_strided_triton`: one program for a strided row and a block of columns;
`out` is what the allocated matrix holds. -/
def scatterCompactTriton (out compact : ℕ → α) (dim : ℕ) (fillValue : α) : List α :=
  let strided := writeAll out <|
    (List.range (layout.bs * stride)).flatMap fun o => (tiles 1024 dim).map fun d =>
      (o * dim + d, scatterCompactToStrided (fun row => readRow compact dim row d) layout.lens
        fillValue stride o)
  (List.range (layout.bs * stride * dim)).map strided

/-- The strided matrix: row `(r, w)` at `r * stride + w` where it was verified, and the fill
elsewhere. -/
def stridedRows (compact : ℕ → α) (dim : ℕ) (fillValue : α) : List α :=
  (List.range layout.bs).flatMap fun r => (List.range stride).flatMap fun w =>
    (List.range dim).map fun d =>
      if w < layout.lens r then readRow compact dim (offset layout.lens r + w) d else fillValue

theorem map_range_strided (bs stride dim : ℕ) (f : ℕ → α) :
    (List.range (bs * stride * dim)).map f =
      (List.range bs).flatMap fun r => (List.range stride).flatMap fun w =>
        (List.range dim).map fun d => f ((r * stride + w) * dim + d) := by
  rw [map_range_mul, ← flatMap_tiles, List.flatMap_assoc]
  refine List.flatMap_congr fun r _ => ?_
  rw [List.flatMap_map]

theorem scatterCompactTriton_eq (out compact : ℕ → α) (dim : ℕ) (fillValue : α) :
    scatterCompactTriton layout out compact dim fillValue =
      stridedRows layout compact dim fillValue := by
  have hstores : ((List.range (layout.bs * stride)).flatMap fun o => (tiles 1024 dim).map fun d =>
      (o * dim + d, scatterCompactToStrided (fun row => readRow compact dim row d) layout.lens
        fillValue stride o)) =
      scatter (layout.bs * stride) (fun _ => dim) (fun o d => o * dim + d) fun o d =>
        scatterCompactToStrided (fun row => readRow compact dim row d) layout.lens fillValue stride
          o := by
    rw [scatter]
    refine List.flatMap_congr fun o _ => ?_
    rw [tiles_eq_range (by decide)]
  rw [scatterCompactTriton, hstores, map_range_strided, stridedRows]
  refine List.flatMap_congr fun r hr => List.flatMap_congr fun w hw =>
    List.map_congr_left fun d hd => ?_
  have hw := List.mem_range.mp hw
  refine (writeAll_matrix _ _ (block_lt (List.mem_range.mp hr) hw) (List.mem_range.mp hd)).trans ?_
  exact scatterCompactToStrided_row _ _ _ hw

variable {layout} in
/-- A packed row is copied to its own strided row, and padding to the sink. -/
theorem stridedPos_eq_iff (hbs : 1 ≤ layout.bs) {i r w : ℕ} (hi : i < layout.graphNumTokens)
    (hr : r < layout.bs) (hw : w < stride) :
    stridedPos layout (layout.rows.getD i ⟨0, 0, false⟩) = r * stride + w ↔
      w < layout.lens r ∧ i = offset layout.lens r + w := by
  by_cases hreal : i < offset layout.lens layout.bs
  · obtain ⟨r', hr', w', hw', rfl⟩ := exists_row hreal
    have hsafe : min r' (layout.bs - 1) = r' := by omega
    have hstride := hw'.trans_le (RaggedVerifyLayout.lens_le hr')
    rw [RaggedVerifyLayout.rows_real hbs hr' hw', stridedPos, if_pos rfl, hsafe]
    constructor
    · intro hpos
      obtain ⟨rfl, rfl⟩ := block_inj hstride hw hpos
      exact ⟨hw', rfl⟩
    · rintro ⟨hlens, heq⟩
      -- two packed rows with one number are the same row
      have hrow := (packedRows_getElem? hr' hw').symm.trans (heq ▸ packedRows_getElem? hr hlens)
      obtain ⟨rfl, rfl, -⟩ := PackedRow.mk.inj (Option.some.inj hrow)
      rfl
  · rw [RaggedVerifyLayout.rows_pad hbs (Nat.not_lt.mp hreal) hi, stridedPos,
      if_neg Bool.false_ne_true]
    constructor
    · intro hpos
      exact absurd hpos (block_lt hr hw).ne'
    · rintro ⟨hlens, rfl⟩
      exact absurd (offset_add_lt hr hlens) hreal

theorem scatterCompactTorch_eq (hbs : 1 ≤ layout.bs) (compact : ℕ → α) (dim : ℕ) (fillValue : α) :
    scatterCompactTorch layout compact dim fillValue =
      stridedRows layout compact dim fillValue := by
  rw [scatterCompactTorch, map_range_strided, stridedRows]
  refine List.flatMap_congr fun r hr => List.flatMap_congr fun w hw =>
    List.map_congr_left fun d hd => ?_
  have hr := List.mem_range.mp hr
  have hw := List.mem_range.mp hw
  have hd := List.mem_range.mp hd
  by_cases hlens : w < layout.lens r
  · have hi : offset layout.lens r + w < layout.graphNumTokens :=
      (offset_add_lt hr hlens).trans_le layout.offset_le
    have hpos := (stridedPos_eq_iff hbs hi hr hw).mpr ⟨hlens, rfl⟩
    rw [if_pos hlens, ← hpos]
    refine writeAll_scatter_of_mem (readRow compact dim) _ hi hd fun i' hi' d' hd' hcell => ?_
    obtain ⟨hrow, rfl⟩ := block_inj hd hd' hcell
    rw [hpos] at hrow
    exact ⟨((stridedPos_eq_iff hbs hi' hr hw).mp hrow.symm).2, rfl⟩
  · rw [if_neg hlens]
    refine writeAll_scatter_of_ne _ _ fun i hi d' hd' hcell => hlens ?_
    obtain ⟨hrow, -⟩ := block_inj hd' hd hcell
    exact ((stridedPos_eq_iff hbs hi hr hw).mp hrow).1

variable {layout} in
theorem stridedRows_getElem? (compact : ℕ → α) {dim r w d : ℕ} (fillValue : α) (hr : r < layout.bs)
    (hw : w < stride) (hd : d < dim) :
    (stridedRows layout compact dim fillValue)[(r * stride + w) * dim + d]? =
      some (if w < layout.lens r then readRow compact dim (offset layout.lens r + w) d
        else fillValue) := by
  have hcell : (r * stride + w) * dim + d < layout.bs * stride * dim := block_lt (block_lt hr hw) hd
  have hrows : stridedRows layout compact dim fillValue =
      (List.range (layout.bs * stride * dim)).map fun c =>
        scatterCompactToStrided (fun row => readRow compact dim row (c % dim)) layout.lens fillValue
          stride (c / dim) := by
    rw [map_range_strided, stridedRows]
    refine List.flatMap_congr fun r hr => List.flatMap_congr fun w hw =>
      List.map_congr_left fun d hd => ?_
    rw [block_div (List.mem_range.mp hd), block_mod (List.mem_range.mp hd),
      scatterCompactToStrided_row _ _ _ (List.mem_range.mp hw)]
  rw [hrows, List.getElem?_map, List.getElem?_range hcell, Option.map_some, block_div hd,
    block_mod hd, scatterCompactToStrided_row _ _ _ hw]

variable {layout} in
/-- **Gathering through the same index undoes the scatter.** -/
theorem stridedRows_gather (hbs : 1 ≤ layout.bs) (compact : ℕ → α) {dim i d : ℕ} (fillValue : α)
    (hi : i < layout.verifyLens.sum) (hd : d < dim) :
    (stridedRows layout compact dim fillValue)[
      stridedPos layout (layout.rows.getD i ⟨0, 0, false⟩) * dim + d]? =
      some (readRow compact dim i d) := by
  rw [← layout.offset_bs] at hi
  obtain ⟨r, hr, w, hw, rfl⟩ := exists_row hi
  have hstride := hw.trans_le (RaggedVerifyLayout.lens_le hr)
  have hpos := (stridedPos_eq_iff hbs (hi.trans_le layout.offset_le) hr hstride).mpr ⟨hw, rfl⟩
  rw [hpos, stridedRows_getElem? _ _ hr hstride hd, if_pos hw]

end Scatter

/-! ### The algebra of a step -/

/-- **Compact and strided rows.**  The kernel's search returns the torch index, which lists the
pairs of request and verified slot in order, each once, and then invalid rows; both windows hold
position, slot and token of their rows; both scatters put row `(r, w)` at `r * stride + w`, fill
every other row, and are undone by a gather through the index. -/
theorem compact_strided_algebra {α : Type} (x : WindowInputs)
    (layout : RaggedVerifyLayout (x.gamma + 1)) (hpos : 1 ≤ layout.bs) (hcap : layout.bs ≤ 1024) :
    (∀ bufs, compactRowIndexTriton bufs layout.lens layout.bs layout.graphNumTokens =
      some layout.rows) ∧
    (layout.rows = packedRows layout.lens layout.bs ++
        List.replicate (layout.graphNumTokens - layout.verifyLens.sum) ⟨layout.bs, 0, false⟩ ∧
      (packedRows layout.lens layout.bs).length = layout.verifyLens.sum ∧
      (packedRows layout.lens layout.bs).Pairwise PackedRow.Precedes ∧
      ∀ row, row ∈ packedRows layout.lens layout.bs ↔
        row.reqId < layout.bs ∧ row.within < layout.lens row.reqId ∧ row.valid = true) ∧
    ((∀ out, x.buildRaggedVerifyWindow layout out = x.window layout) ∧
      ∀ bufs, x.buildRaggedVerifyWindowTriton layout bufs = some (x.window layout)) ∧
    ∀ (compact : ℕ → α) (dim : ℕ) (fillValue : α),
      (∀ out, scatterCompactTriton layout out compact dim fillValue =
        scatterCompactTorch layout compact dim fillValue) ∧
      (∀ r < layout.bs, ∀ w < x.gamma + 1, ∀ d < dim,
        (scatterCompactTorch layout compact dim fillValue)[(r * (x.gamma + 1) + w) * dim + d]? =
          some (if w < layout.lens r then readRow compact dim (offset layout.lens r + w) d
            else fillValue)) ∧
      ∀ i < layout.verifyLens.sum, ∀ d < dim,
        (scatterCompactTorch layout compact dim fillValue)[
          stridedPos layout (layout.rows.getD i ⟨0, 0, false⟩) * dim + d]? =
          some (readRow compact dim i d) := by
  refine ⟨fun bufs => compactRowIndexTriton_eq hpos layout.offset_le bufs hcap,
    ⟨?_, ?_, pairwise_packedRows _ _, fun row => mem_packedRows⟩,
    ⟨WindowInputs.buildRaggedVerifyWindow_eq hpos,
      WindowInputs.buildRaggedVerifyWindowTriton_eq hpos hcap⟩, fun compact dim fillValue => ?_⟩
  · rw [← layout.offset_bs]
    exact compactRowIndexTorch_eq hpos layout.offset_le
  · rw [← layout.offset_bs]
    exact length_packedRows _ _
  · rw [scatterCompactTorch_eq layout hpos]
    refine ⟨fun out => scatterCompactTriton_eq layout out compact dim fillValue, ?_, ?_⟩
    · intro r hr w hw d hd
      exact stridedRows_getElem? compact fillValue hr hw hd
    · intro i hi d hd
      exact stridedRows_gather hpos compact fillValue hi hd

/-- Two requests of a window of three slots, packed into a bucket of five. -/
def packedPair : WindowInputs where
  seqLens b := if b = 0 then 5 else 8
  reqPoolIndices b := b
  reqToToken a := a
  poolLen := 16
  gamma := 2
  draftBlockIds a := 100 + a
  draftTokens a := 200 + a

def packedPairLayout : RaggedVerifyLayout (packedPair.gamma + 1) where
  verifyLens := [2, 1]
  graphNumTokens := 5
  one_le := by decide
  le_stride := by decide
  total_le := by decide

theorem compact_strided_algebra_two :
    (1 ≤ packedPairLayout.bs ∧ packedPairLayout.bs ≤ 1024) ∧
      packedPairLayout.rows =
        [⟨0, 0, true⟩, ⟨0, 1, true⟩, ⟨1, 0, true⟩, ⟨2, 0, false⟩, ⟨2, 0, false⟩] ∧
      packedPair.buildRaggedVerifyWindow packedPairLayout (fun _ => 9) =
        ⟨[5, 6, 8, 0, 0], [5, 6, 24, 0, 0], [100, 200, 102, 0, 0]⟩ := by
  obtain ⟨-, ⟨hrows, -⟩, ⟨hwindow, -⟩, -⟩ :=
    compact_strided_algebra (α := ℤ) packedPair packedPairLayout (by decide) (by decide)
  exact ⟨by decide, hrows.trans (by decide), (hwindow _).trans (by decide)⟩

end LatentSpec
