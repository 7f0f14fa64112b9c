import LatentSpec.DraftBlock
import LatentSpec.TiledStores

/-! # LatentSpec serving

The draft side of LatentSpec in the serving engine.  Draft keys live in slots of a pool
that all requests share; `req_to_token` maps the positions of a request to its slots.  A
draft step runs two stages over the same pool: latent queries attend to the committed
prefix and to their own block; then the latents' keys are written into the first slots of
the block about to be verified, and the proposal queries attend to a prefix that is
longer by these slots, and to their own block.  After the verification the target
features of the committed tokens are written over the first slots of the block.

What a query attends to is read off the stage metadata (`kv_indptr`, `kv_indices`) and the
pool, as the extend-attention kernel does.  `ServingState.Inv` is what holds between
draft steps; that the slots of a verify block belong to nobody else is the contract of
the allocator (`ServingState.Owns`).
-/
namespace LatentSpec
open TiledStores

/-- What the draft step reads of the draft model and the worker. -/
structure ServingModel where
  numLatentLayers : ℕ
  numProposalLayers : ℕ
  numLatentTokens : ℕ
  blockSize : ℕ
  verifySize : ℕ
  latent_le : numLatentTokens ≤ blockSize
  block_le : blockSize ≤ verifySize

/-- The serving state.  `kvBuffer layer slot` is the key a slot holds; `cached` are the
slots the prefix cache keeps, with the feature and position they were written for, and
`feature` records the target feature of each committed position of a request. -/
structure ServingState (F : Type) where
  live : ℕ → Prop
  reqToToken : ℕ → ℕ → ℕ
  kvAllocatedLen : ℕ → ℕ
  seqLens : ℕ → ℕ
  kvBuffer : ℕ → ℕ → DraftKey F ℕ
  cached : ℕ → Option (F × ℕ)
  feature : ℕ → ℕ → F

/-- One prefill step: its batch, how many tokens it extends each request by, and their
target features. -/
structure ExtendStep (F : Type) where
  bs : ℕ
  reqPoolIndices : ℕ → ℕ
  extendLens : ℕ → ℕ
  targetHidden : ℕ → ℕ → F

/-- One draft and verify step: its batch, the host's planning lengths, the target features
of the verify rows and the lengths the verification commits. -/
structure DraftStep (F : Type) where
  bs : ℕ
  reqPoolIndices : ℕ → ℕ
  seqLensCpu : Option (ℕ → ℕ)
  nxtKvLensCpu : Option (ℕ → ℕ)
  targetHidden : ℕ → ℕ → F
  commitLens : ℕ → ℕ

variable {F : Type}

/-! ### The pool -/

/-- `set_kv_buffer` of one layer, on `n` flat rows. -/
def setKvBuffer (buffer : ℕ → DraftKey F ℕ) (loc : ℕ → ℕ) (n : ℕ) (keys : ℕ → DraftKey F ℕ) :
    ℕ → DraftKey F ℕ :=
  writeAll buffer ((List.range n).map fun k => (loc k, keys k))

/-- `set_kv_buffer_prefix_valid` of one layer: the first `commit_lens` columns of each
row. -/
def setKvBufferPrefixValid (buffer : ℕ → DraftKey F ℕ) (bs width : ℕ) (loc2d : ℕ → ℕ → ℕ)
    (commitLens : ℕ → ℕ) (keys : ℕ → ℕ → DraftKey F ℕ) : ℕ → DraftKey F ℕ :=
  writeAll buffer ((List.range bs).flatMap fun b =>
    ((List.range width).filter (· < commitLens b)).map fun j => (loc2d b j, keys b j))

/-! ### Stage metadata -/

/-- `ForwardMetadata` of one stage. -/
structure StageMetadata where
  qoIndptr : ℕ → ℕ
  kvIndptr : ℕ → ℕ
  kvIndices : ℕ → ℕ

/-- The stores of `create_flashinfer_kv_indices_triton` for one request. -/
def kvIndicesStores (reqToToken : ℕ → ℕ → ℕ) (rows lens : ℕ → ℕ) (pid : ℕ) : List (ℕ × ℕ) :=
  (tiles 512 (lens pid)).map fun offs => (offset lens pid + offs, reqToToken (rows pid) offs)

/-- `_fill_kv_indptr_and_indices` and the query offsets of a stage of the given width;
`fresh` is what the index buffer held before. -/
def stageMetadata (bs width : ℕ) (reqToToken : ℕ → ℕ → ℕ) (rows lens fresh : ℕ → ℕ) :
    StageMetadata where
  qoIndptr := fun b => b * width
  kvIndptr := offset lens
  kvIndices := writeAll fresh ((List.range bs).flatMap (kvIndicesStores reqToToken rows lens))

/-- What the queries of batch entry `b` attend to in one layer: the slots its part of
`kv_indices` names, and the keys of its own part of the stage's rows. -/
def StageMetadata.attended (metadata : StageMetadata) (buffer : ℕ → DraftKey F ℕ)
    (rows : ℕ → DraftKey F ℕ) (b : ℕ) : List (DraftKey F ℕ) :=
  (List.range' (metadata.kvIndptr b) (metadata.kvIndptr (b + 1) - metadata.kvIndptr b)).map
      (fun i => buffer (metadata.kvIndices i)) ++
    (List.range' (metadata.qoIndptr b) (metadata.qoIndptr (b + 1) - metadata.qoIndptr b)).map rows

/-! ### The draft forward -/

namespace ServingModel
variable (m : ServingModel) (s : ServingState F) (d : DraftStep F)

/-- `prefix_lens`. -/
def prefixLens (b : ℕ) : ℕ := s.seqLens (d.reqPoolIndices b)

/-- The slots of a verify block, gathered from `req_to_token`. -/
def verifyOutCacheLoc2d (b j : ℕ) : ℕ :=
  s.reqToToken (d.reqPoolIndices b) (prefixLens s d b + j)

/-- `verify_positions`. -/
def verifyPositions (b j : ℕ) : ℕ := prefixLens s d b + j

/-- `out_cache_loc` of the draft batch: the first `block_size` slots of each block. -/
def outCacheLoc (k : ℕ) : ℕ := verifyOutCacheLoc2d s d (k / m.blockSize) (k % m.blockSize)

/-- `positions` of the draft batch. -/
def positions (k : ℕ) : ℕ := verifyPositions s d (k / m.blockSize) (k % m.blockSize)

/-- `latent_cache_locs`: the first columns of `out_cache_loc.view(bs, block_size)`. -/
def latentCacheLocs (k : ℕ) : ℕ :=
  m.outCacheLoc s d (k / m.numLatentTokens * m.blockSize + k % m.numLatentTokens)

/-- `base_pos + offsets`, flattened, for a stage of the given width. -/
def stagePositions (width k : ℕ) : ℕ := m.positions s d (k / width * m.blockSize) + k % width

/-- The latent rows: their keys at the latent positions. -/
def latentRows (k : ℕ) : DraftKey F ℕ :=
  ⟨.latent (d.reqPoolIndices (k / m.numLatentTokens)) (k % m.numLatentTokens),
    m.stagePositions s d m.numLatentTokens k⟩

/-- The proposal rows. -/
def proposalRows (k : ℕ) : DraftKey F ℕ :=
  ⟨.mask (d.reqPoolIndices (k / m.blockSize)) (k % m.blockSize),
    m.stagePositions s d m.blockSize k⟩

/-- Metadata of the latent stage. -/
def latentMetadata (fresh : ℕ → ℕ) : StageMetadata :=
  stageMetadata d.bs m.numLatentTokens s.reqToToken d.reqPoolIndices (prefixLens s d) fresh

/-- Metadata of the proposal stage: the latent slots count as prefix. -/
def proposalMetadata (fresh : ℕ → ℕ) : StageMetadata :=
  stageMetadata d.bs m.blockSize s.reqToToken d.reqPoolIndices
    (fun b => prefixLens s d b + m.numLatentTokens) fresh

/-- `_write_latent_kv` of one layer. -/
def writeLatentKv (buffer : ℕ → DraftKey F ℕ) : ℕ → DraftKey F ℕ :=
  setKvBuffer buffer (m.latentCacheLocs s d) (d.bs * m.numLatentTokens) (m.latentRows s d)

/-- The pool after the draft forward.  The layers keep none of their own keys
(`save_kv_cache=False`); a proposal layer has its latents written. -/
def draftedKvBuffer (layer : ℕ) : ℕ → DraftKey F ℕ :=
  if m.numLatentLayers ≤ layer ∧ layer < m.numLatentLayers + m.numProposalLayers then
    m.writeLatentKv s d (s.kvBuffer layer)
  else s.kvBuffer layer

/-- What the latent queries of batch entry `b` attend to, layer by layer. -/
def latentAttended (fresh : ℕ → ℕ) (b : ℕ) : List (List (DraftKey F ℕ)) :=
  (List.range m.numLatentLayers).map fun layer =>
    (m.latentMetadata s d fresh).attended (s.kvBuffer layer) (m.latentRows s d) b

/-- What the proposal queries of batch entry `b` attend to, layer by layer. -/
def proposalAttended (fresh : ℕ → ℕ) (b : ℕ) : List (List (DraftKey F ℕ)) :=
  (List.range m.numProposalLayers).map fun i =>
    (m.proposalMetadata s d fresh).attended
      (m.writeLatentKv s d (s.kvBuffer (m.numLatentLayers + i))) (m.proposalRows s d) b

/-! ### Host planning -/

/-- `draft_seq_lens_sum`: the committed lengths and the draft block, else the reserved
lengths, else the exact prefix lengths. -/
def draftSeqLensSum : ℕ :=
  match d.seqLensCpu, d.nxtKvLensCpu with
  | some seqLens, _ => offset (fun b => seqLens b + m.blockSize) d.bs
  | none, some nxtKvLens => offset nxtKvLens d.bs
  | none, none => offset (prefixLens s d) d.bs

/-- Entries of the latent stage's `kv_indices`. -/
def latentCapacity : ℕ := max (m.draftSeqLensSum s d) 1

/-- Entries of the proposal stage's `kv_indices`. -/
def proposalCapacity : ℕ := max (m.draftSeqLensSum s d + d.bs * m.numLatentTokens) 1

end ServingModel

/-! ### The steps -/

/-- The batch entry of a request, if it is in the batch. -/
def entryOf (bs : ℕ) (rows : ℕ → ℕ) (r : ℕ) : Option ℕ :=
  (List.range bs).find? fun b => rows b = r

namespace ServingState

/-- The slot of column `j` of a request's block, the positions after its committed ones. -/
def blockSlot (s : ServingState F) (rows : ℕ → ℕ) (b j : ℕ) : ℕ :=
  s.reqToToken (rows b) (s.seqLens (rows b) + j)

/-- The state after a forward: a new pool, and every request of the batch longer by the
first columns of its block. -/
def commit (s : ServingState F) (bs : ℕ) (rows lens : ℕ → ℕ) (hidden : ℕ → ℕ → F)
    (kvBuffer : ℕ → ℕ → DraftKey F ℕ) : ServingState F :=
  { s with
    kvBuffer := kvBuffer
    seqLens := fun r =>
      match entryOf bs rows r with
      | some b => s.seqLens r + lens b
      | none => s.seqLens r
    feature := fun r p =>
      match entryOf bs rows r with
      | some b => if s.seqLens r ≤ p then hidden b (p - s.seqLens r) else s.feature r p
      | none => s.feature r p }

end ServingState

namespace ServingModel
variable (m : ServingModel) (s : ServingState F)

/-- Layers of the draft model. -/
def numLayers : ℕ := m.numLatentLayers + m.numProposalLayers

/-- `_append_target_hidden_sequential` after a prefill: in every layer, one row for each
new token, request after request. -/
def appendExtend (e : ExtendStep F) (layer : ℕ) : ℕ → DraftKey F ℕ :=
  if layer < m.numLayers then
    writeAll (s.kvBuffer layer) (scatter e.bs e.extendLens (s.blockSlot e.reqPoolIndices)
      fun b j => ⟨.context (e.targetHidden b j), s.seqLens (e.reqPoolIndices b) + j⟩)
  else s.kvBuffer layer

/-- **A prefill step.** -/
def extend (e : ExtendStep F) : ServingState F :=
  s.commit e.bs e.reqPoolIndices e.extendLens e.targetHidden (m.appendExtend s e)

/-- `_append_target_hidden_to_draft_kv_by_loc` after a verification, in every layer. -/
def appendTargetHidden (d : DraftStep F) (kvBuffer : ℕ → ℕ → DraftKey F ℕ) (layer : ℕ) :
    ℕ → DraftKey F ℕ :=
  if layer < m.numLayers then
    setKvBufferPrefixValid (kvBuffer layer) d.bs m.verifySize (verifyOutCacheLoc2d s d) d.commitLens
      fun b j => ⟨.context (d.targetHidden b j), verifyPositions s d b j⟩
  else kvBuffer layer

/-- **A draft and verify step**: the draft forward, the append of the committed features
and the new sequence lengths. -/
def draftVerify (d : DraftStep F) : ServingState F :=
  s.commit d.bs d.reqPoolIndices d.commitLens d.targetHidden
    (m.appendTargetHidden s d (m.draftedKvBuffer s d))

end ServingModel

/-! ### What the allocator guarantees -/

/-- **The contract of the allocator** for the blocks of a batch: the requests are live and
each is there once; the slots of their blocks are allocated, belong to one position of one
live request alone, and are none the prefix cache keeps. -/
structure ServingState.Owns (s : ServingState F) (bs : ℕ) (rows widths : ℕ → ℕ) : Prop where
  live : ∀ b < bs, s.live (rows b)
  injective : ∀ b < bs, ∀ b' < bs, rows b = rows b' → b = b'
  allocated : ∀ b < bs, s.seqLens (rows b) + widths b ≤ s.kvAllocatedLen (rows b)
  distinct : ∀ b < bs, ∀ j < widths b, ∀ r p, s.live r → p < s.kvAllocatedLen r →
    s.blockSlot rows b j = s.reqToToken r p → r = rows b ∧ p = s.seqLens (rows b) + j
  uncached : ∀ b < bs, ∀ j < widths b, s.cached (s.blockSlot rows b j) = none

/-- **A draft step the engine may run**: its verify blocks are owned, the host's lengths
cover the committed ones, and each verification commits between one token and the whole
block. -/
structure DraftStep.Gathered (m : ServingModel) (s : ServingState F) (d : DraftStep F) : Prop where
  owns : s.Owns d.bs d.reqPoolIndices fun _ => m.verifySize
  seqLensCpu : ∀ lens, d.seqLensCpu = some lens → ∀ b < d.bs,
    ServingModel.prefixLens s d b ≤ lens b
  nxtKvLensCpu : ∀ lens, d.nxtKvLensCpu = some lens → ∀ b < d.bs,
    ServingModel.prefixLens s d b ≤ lens b
  commit : ∀ b < d.bs, 1 ≤ d.commitLens b ∧ d.commitLens b ≤ m.verifySize

/-- **The invariant between steps**: every slot of a committed position of a live request,
and every slot of the prefix cache, holds in every layer the context key it was written
for. -/
structure ServingState.Inv (m : ServingModel) (s : ServingState F) : Prop where
  allocated : ∀ r, s.live r → s.seqLens r ≤ s.kvAllocatedLen r
  context : ∀ r, s.live r → ∀ layer < m.numLayers, ∀ p < s.seqLens r,
    s.kvBuffer layer (s.reqToToken r p) = ⟨.context (s.feature r p), p⟩
  cached : ∀ slot f p, s.cached slot = some (f, p) → ∀ layer < m.numLayers,
    s.kvBuffer layer slot = ⟨.context f, p⟩

/-! ### Reading the metadata -/

theorem stageMetadata_kvIndices (width : ℕ) (reqToToken : ℕ → ℕ → ℕ) (rows lens fresh : ℕ → ℕ)
    {bs b i : ℕ} (hb : b < bs) (hi : i < lens b) :
    (stageMetadata bs width reqToToken rows lens fresh).kvIndices (offset lens b + i) =
      reqToToken (rows b) i := by
  have hstores : (List.range bs).flatMap (kvIndicesStores reqToToken rows lens) =
      stretches (offset lens) lens (fun b j => reqToToken (rows b) j) bs := by
    refine List.flatMap_congr fun pid _ => ?_
    rw [kvIndicesStores, tiles_eq_range (by decide), stretch]
  rw [stageMetadata, hstores]
  exact writeAll_ragged lens fresh (fun b j => reqToToken (rows b) j) hb hi

/-- The entries of a stage's `kv_indices` stay below the total of its prefix lengths. -/
theorem kvIndicesStores_lt {reqToToken : ℕ → ℕ → ℕ} {rows lens : ℕ → ℕ} {bs b : ℕ} (hb : b < bs)
    {w : ℕ × ℕ} (hw : w ∈ kvIndicesStores reqToToken rows lens b) : w.1 < offset lens bs := by
  rw [kvIndicesStores, tiles_eq_range (by decide)] at hw
  obtain ⟨i, hi, rfl⟩ := List.mem_map.mp hw
  have hrow : offset lens (b + 1) ≤ offset lens bs := offset_mono lens hb
  have hi' := List.mem_range.mp hi
  rw [offset_succ] at hrow
  show offset lens b + i < offset lens bs
  omega

/-- The queries of a batch entry attend to the slots of its prefix and to its own rows. -/
theorem attended_stageMetadata (width : ℕ) (reqToToken : ℕ → ℕ → ℕ) (rows lens fresh : ℕ → ℕ)
    {bs b : ℕ} (hb : b < bs) (buffer stageRows : ℕ → DraftKey F ℕ) :
    (stageMetadata bs width reqToToken rows lens fresh).attended buffer stageRows b =
      (List.range (lens b)).map (fun i => buffer (reqToToken (rows b) i)) ++
        (List.range width).map fun i => stageRows (b * width + i) := by
  have hkv : (stageMetadata bs width reqToToken rows lens fresh).kvIndptr (b + 1) -
      (stageMetadata bs width reqToToken rows lens fresh).kvIndptr b = lens b := by
    simp only [stageMetadata, offset_succ]
    omega
  have hqo : (stageMetadata bs width reqToToken rows lens fresh).qoIndptr (b + 1) -
      (stageMetadata bs width reqToToken rows lens fresh).qoIndptr b = width := by
    simp only [stageMetadata, Nat.succ_mul]
    omega
  rw [StageMetadata.attended, hkv, hqo, List.range'_eq_map_range, List.range'_eq_map_range,
    List.map_map, List.map_map]
  refine congrArg₂ (· ++ ·) (List.map_congr_left fun i hi => ?_) rfl
  exact congrArg buffer (stageMetadata_kvIndices width reqToToken rows lens fresh hb
    (List.mem_range.mp hi))

namespace ServingModel
variable (m : ServingModel) {s : ServingState F} {d : DraftStep F}

theorem writeLatentKv_eq (buffer : ℕ → DraftKey F ℕ) :
    m.writeLatentKv s d buffer = writeAll buffer (scatter d.bs (fun _ => m.numLatentTokens)
      (fun b i => m.latentCacheLocs s d (b * m.numLatentTokens + i))
      fun b i => m.latentRows s d (b * m.numLatentTokens + i)) := by
  rw [writeLatentKv, setKvBuffer, ← flatMap_tiles, List.map_flatMap]
  simp only [List.map_map]
  rfl

theorem latentCacheLocs_eq {b i : ℕ} (hi : i < m.numLatentTokens) :
    m.latentCacheLocs s d (b * m.numLatentTokens + i) = verifyOutCacheLoc2d s d b i := by
  have hi' : i < m.blockSize := hi.trans_le m.latent_le
  rw [latentCacheLocs, block_div hi, block_mod hi, outCacheLoc, block_div hi', block_mod hi']

theorem stagePositions_eq {width b i : ℕ} (hi : i < width) (hwidth : width ≤ m.blockSize) :
    m.stagePositions s d width (b * width + i) = prefixLens s d b + i := by
  have hpos : 0 < m.blockSize := by omega
  rw [stagePositions, block_div hi, block_mod hi, positions, verifyPositions,
    Nat.mul_div_cancel _ hpos, Nat.mul_mod_left, Nat.add_zero]

/-- The positions of a batch entry's rows in a stage. -/
theorem stagePositions_range {width : ℕ} (hwidth : width ≤ m.blockSize) (b : ℕ) :
    ((List.range width).map fun i => m.stagePositions s d width (b * width + i)) =
      List.range' (prefixLens s d b) width := by
  rw [List.range'_eq_map_range]
  exact List.map_congr_left fun i hi => m.stagePositions_eq (List.mem_range.mp hi) hwidth

theorem latentRows_eq {b i : ℕ} (hi : i < m.numLatentTokens) :
    m.latentRows s d (b * m.numLatentTokens + i) =
      ⟨.latent (d.reqPoolIndices b) i, prefixLens s d b + i⟩ := by
  rw [latentRows, block_div hi, block_mod hi, m.stagePositions_eq hi m.latent_le]

theorem proposalRows_eq {b i : ℕ} (hi : i < m.blockSize) :
    m.proposalRows s d (b * m.blockSize + i) =
      ⟨.mask (d.reqPoolIndices b) i, prefixLens s d b + i⟩ := by
  rw [proposalRows, block_div hi, block_mod hi, m.stagePositions_eq hi le_rfl]

end ServingModel

end LatentSpec
