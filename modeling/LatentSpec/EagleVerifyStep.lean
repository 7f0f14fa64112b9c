import LatentSpec.CacheLocs
import LatentSpec.EagleTreeVerify
import LatentSpec.LatentServing
import LatentSpec.TreeDecoder

/-! # The verify step of EAGLE serving

One greedy step of the engine for a batch: `build_tree_kernel_efficient` lays out the tree of each
draft, the target model runs over all nodes at once, `eagle_sample` walks down each tree, and with
more than one branch the accepted path is moved to the front of its block, in the pool and in the
predictions.  A node attends to the slots of its request's prefix and to the rows of the block
that its row of the mask marks.

The target model is a `Decoder`.  `targetPredict_eq` says what its pass over the tree is worth: at
a node that hangs from the root it predicts what it would predict behind the tokens of the path.
-/
namespace LatentSpec.EagleTree
open SiblingLists TiledStores TreeDecoder

/-- What the verify step reads of the engine. -/
structure EagleServer (S : Type) where
  model : Decoder ℤ S
  topk : ℕ
  numSteps : ℕ
  numDraftTokens : ℕ
  poolLen : ℕ
  /-- The accepted path of a request fits in its block. -/
  steps_lt : numSteps < numDraftTokens

/-- The serving state, by request.  `kvBuffer layer slot` is the state a slot holds. -/
structure EagleState (S : Type) where
  live : ℕ → Prop
  originInputIds : ℕ → List ℤ
  outputIds : ℕ → List ℤ
  seqLens : ℕ → ℕ
  bonusTokens : ℕ → ℤ
  reqToToken : ℕ → ℕ
  kvAllocatedLen : ℕ → ℕ
  kvBuffer : ℕ → ℕ → S

/-- One verify step: its batch, what `organize_draft_results` returned for it, and what the
buffers hold that nobody clears. -/
structure VerifyStep where
  bs : ℕ
  reqPoolIndices : ℕ → ℕ
  parentList : ℕ → ℕ → ℤ
  topScoresIndex : ℕ → ℕ → ℕ
  draftTokens : ℕ → ℕ → ℤ
  freshPositions : ℕ → ℕ
  freshLocs : ℕ → ℕ
  freshIndices : ℕ → ℕ
  freshNum : ℕ → ℕ

variable {S : Type}

namespace EagleServer
variable (m : EagleServer S) (s : EagleState S) (d : VerifyStep)

/-! ### The tree -/

/-- `batch.seq_lens` -/
def seqLens (b : ℕ) : ℕ := s.seqLens (d.reqPoolIndices b)

/-- The arguments of the kernel that builds the tree. -/
def buildArgs : BuildArgs where
  parentList := d.parentList
  selectedIndex := d.topScoresIndex
  verifiedSeqLen := seqLens s d
  topk := m.topk
  depth := m.numSteps
  draftTokenNum := m.numDraftTokens
  treeMaskMode := .fullMask

/-- What `build_tree_kernel_efficient` allocates for the kernel. -/
def treeBuffers : TreeMemory where
  treeMask := fun _ => true
  positions := d.freshPositions
  retrieveIndex := fun _ _ => -1
  retrieveNextToken := fun _ _ => -1
  retrieveNextSibling := fun _ _ => -1

/-- `build_tree_kernel_efficient` -/
def tree : TreeMemory := (m.buildArgs s d).launch d.bs (treeBuffers d)

/-- The flat tokens of the trees: the bonus token of each request, and its draft behind. -/
def draftToken (k : ℕ) : ℤ :=
  if k % m.numDraftTokens = 0 then s.bonusTokens (d.reqPoolIndices (k / m.numDraftTokens))
  else d.draftTokens (k / m.numDraftTokens) (k % m.numDraftTokens - 1)

/-! ### The target pass -/

/-- `batch.out_cache_loc` -/
def outCacheLoc : List ℕ :=
  assignExtendCacheLocsUniform d.freshLocs d.reqPoolIndices s.reqToToken m.poolLen (seqLens s d)
    d.bs m.numDraftTokens

/-- The forward metadata of the pass. -/
def metadata : StageMetadata :=
  stageMetadata d.bs m.numDraftTokens (readRow s.reqToToken m.poolLen) d.reqPoolIndices
    (seqLens s d) d.freshIndices

/-- `mask_indptr` -/
def maskIndptr : ℕ → ℕ :=
  offset fun b => m.numDraftTokens * (seqLens s d b + m.numDraftTokens)

/-- Whether row `v` of a request attends to row `c` of it. -/
def customMask (b v c : ℕ) : Bool :=
  (m.tree s d).treeMask
    (m.maskIndptr s d b + v * (seqLens s d b + m.numDraftTokens) + seqLens s d b + c)

/-- What a row attends to in one layer: the slots of the prefix, which the mask does not touch, and
the rows of its block that the mask marks. -/
def attended (layer : ℕ) (hidden : ℕ → S) (k : ℕ) : List S :=
  let b := k / m.numDraftTokens
  let meta_ := m.metadata s d
  (List.range (meta_.kvIndptr (b + 1) - meta_.kvIndptr b)).map
      (fun i => s.kvBuffer layer (meta_.kvIndices (meta_.kvIndptr b + i))) ++
    ((List.range (meta_.qoIndptr (b + 1) - meta_.qoIndptr b)).filter
      (m.customMask s d b (k % m.numDraftTokens))).map fun c => hidden (meta_.qoIndptr b + c)

/-- The states of the rows before a layer. -/
def hidden : ℕ → ℕ → S
  | 0, k => m.model.embed (m.draftToken s d k) ((m.tree s d).positions k)
  | l + 1, k => m.model.layer l (hidden l k) (m.attended s d l (hidden l) k)

/-- The pool after the pass: `set_kv_buffer` in every layer. -/
def verifiedKv (layer : ℕ) : ℕ → S :=
  if layer < m.model.numLayers then
    writeAll (s.kvBuffer layer) ((List.range (d.bs * m.numDraftTokens)).map fun k =>
      ((m.outCacheLoc s d).getD k 0, m.hidden s d layer k))
  else s.kvBuffer layer

/-- `target_predict`: the argmax of the logits of a row. -/
def targetPredict (b v : ℕ) : ℤ :=
  m.model.predict (m.hidden s d m.model.numLayers (b * m.numDraftTokens + v))

/-! ### `eagle_sample` -/

/-- The arguments of the kernel that verifies the tree. -/
def verifyArgs : VerifyArgs where
  candidates := fun b v => m.draftToken s d (b * m.numDraftTokens + v)
  retrieveIndex := (m.tree s d).retrieveIndex
  retrieveNextToken := (m.tree s d).retrieveNextToken
  retrieveNextSibling := (m.tree s d).retrieveNextSibling
  targetPredict := m.targetPredict s d
  numSpeculativeTokens := m.numSteps + 1
  numDraftTokens := m.numDraftTokens

/-- What `eagle_sample` allocates for the kernel. -/
def verifyBuffers : VerifyMemory where
  predicts := fun _ => 0
  acceptIndex := fun _ _ => -1
  acceptTokenNum := d.freshNum

/-- `predict`, `accept_index` and `num_correct_drafts` -/
def sample : VerifyMemory := (m.verifyArgs s d).launch d.bs (verifyBuffers d)

/-- `accept_lens` -/
def acceptLens (b : ℕ) : ℕ := (m.sample s d).acceptTokenNum b + 1

/-- `predict[accept_index]`, flat; a negative index counts from the end. -/
def acceptTokens (k : ℕ) : ℤ :=
  let i := (m.sample s d).acceptIndex (k / (m.numSteps + 1)) (k % (m.numSteps + 1))
  (m.sample s d).predicts (if i < 0 then i + ((d.bs * m.numDraftTokens : ℕ) : ℤ) else i)

/-- `fill_bonus_tokens` -/
def nextBonus (b : ℕ) : ℤ := m.acceptTokens s d ((m.numSteps + 1) * b + m.acceptLens s d b - 1)

/-! ### `_finalize_accept_tree_path` -/

/-- `accept_index.view(-1)` -/
def acceptIndexFlat (k : ℕ) : ℤ :=
  (m.sample s d).acceptIndex (k / (m.numSteps + 1)) (k % (m.numSteps + 1))

/-- The stores of one program of `fill_accept_out_cache_loc`. -/
def fillAcceptStores (pid : ℕ) : List (ℕ × ℕ) :=
  let dst := (List.range pid).countP fun k => decide (m.acceptIndexFlat s d k ≠ -1)
  let src := m.acceptIndexFlat s d pid
  if -1 < src then [(dst, (m.outCacheLoc s d).getD src.toNat 0)] else []

/-- `accept_out_cache_loc` -/
def acceptOutCacheLoc : ℕ → ℕ :=
  writeAll (fun _ => 0)
    ((List.range (d.bs * (m.numSteps + 1))).flatMap (m.fillAcceptStores s d))

/-- `tgt_cache_loc` -/
def tgtCacheLoc : List ℕ :=
  assignExtendCacheLocs (fun _ => 0) d.reqPoolIndices s.reqToToken m.poolLen (seqLens s d)
    (fun b => seqLens s d b + (m.sample s d).acceptTokenNum b + 1) d.bs (m.numSteps + 1)

/-- `move_kv_cache` in one layer: all rows are read before the first is written. -/
def movedKv (layer : ℕ) : ℕ → S :=
  writeAll (m.verifiedKv s d layer) ((List.range (d.bs * (m.numSteps + 1))).map fun i =>
    ((m.tgtCacheLoc s d).getD i 0, m.verifiedKv s d layer (m.acceptOutCacheLoc s d i)))

/-- `_compact_accept_to_front` on the predictions. -/
def compactPredict (k : ℕ) : ℤ :=
  let b := k / m.numDraftTokens
  let j := k % m.numDraftTokens
  if j < m.numSteps + 1 then (m.sample s d).predicts (max ((m.sample s d).acceptIndex b j) 0)
  else (m.sample s d).predicts k

/-! ### `run_eagle_verify` -/

/-- `result.next_token_ids` -/
def nextTokenIds (k : ℕ) : ℤ :=
  if 1 < m.topk then m.compactPredict s d k else (m.sample s d).predicts k

/-- The pool after the step. -/
def nextKv (layer : ℕ) : ℕ → S :=
  if 1 < m.topk then m.movedKv s d layer else m.verifiedKv s d layer

/-- The tokens that `_resolve_spec_v2_tokens` reads for a request. -/
def resolved (b : ℕ) : List ℤ :=
  (List.range (m.acceptLens s d b)).map fun i => m.nextTokenIds s d (b * m.numDraftTokens + i)

/-- **A verify step.** -/
def verify : EagleState S :=
  { s with
    outputIds := fun r =>
      match entryOf d.bs d.reqPoolIndices r with
      | some b => s.outputIds r ++ m.resolved s d b
      | none => s.outputIds r
    seqLens := fun r =>
      match entryOf d.bs d.reqPoolIndices r with
      | some b => s.seqLens r + m.acceptLens s d b
      | none => s.seqLens r
    bonusTokens := fun r =>
      match entryOf d.bs d.reqPoolIndices r with
      | some b => m.nextBonus s d b
      | none => s.bonusTokens r
    kvBuffer := m.nextKv s d }

end EagleServer

/-! ### The contract of a step -/

/-- The slot of a position. -/
def EagleState.slot (s : EagleState S) (m : EagleServer S) (r p : ℕ) : ℕ :=
  readRow s.reqToToken m.poolLen r p

/-- The committed tokens; the last of them is not in the pool yet. -/
def EagleState.tokens (s : EagleState S) (r : ℕ) : List ℤ := s.originInputIds r ++ s.outputIds r

/-- **The contract of the allocator** for the blocks of a batch: the requests are live and each is
there once; the slots of their blocks are allocated and belong to one position of one live request
alone, and none is the slot of padding. -/
structure EagleState.Owns (s : EagleState S) (m : EagleServer S) (d : VerifyStep) : Prop where
  live : ∀ b < d.bs, s.live (d.reqPoolIndices b)
  injective : ∀ b < d.bs, ∀ b' < d.bs, d.reqPoolIndices b = d.reqPoolIndices b' → b = b'
  allocated : ∀ b < d.bs,
    EagleServer.seqLens s d b + m.numDraftTokens ≤ s.kvAllocatedLen (d.reqPoolIndices b)
  distinct : ∀ b < d.bs, ∀ j < m.numDraftTokens, ∀ r p, s.live r → p < s.kvAllocatedLen r →
    s.slot m (d.reqPoolIndices b) (EagleServer.seqLens s d b + j) = s.slot m r p →
      r = d.reqPoolIndices b ∧ p = EagleServer.seqLens s d b + j
  nonzero : ∀ b < d.bs, ∀ j < m.numDraftTokens,
    s.slot m (d.reqPoolIndices b) (EagleServer.seqLens s d b + j) ≠ 0

/-- **A step the engine may run**: its blocks are owned, the tree of every request can be built, and
with one branch the tree is a chain. -/
structure VerifyStep.Gathered (d : VerifyStep) (m : EagleServer S) (s : EagleState S) : Prop where
  owns : s.Owns m d
  buildable : ∀ b < d.bs, (m.buildArgs s d).Buildable b
  chain : m.topk ≤ 1 → ∀ b < d.bs, ∀ p, ∀ c ∈ (m.buildArgs s d).kids b p, c = p + 1

/-! ### The tree of a request -/

namespace EagleServer
variable {m : EagleServer S} {s : EagleState S} {d : VerifyStep} {b : ℕ}

theorem numDraftTokens_pos (m : EagleServer S) : 0 < m.numDraftTokens :=
  (Nat.zero_le m.numSteps).trans_lt m.steps_lt

/-- The parents of the tree of a request. -/
def parent (m : EagleServer S) (s : EagleState S) (d : VerifyStep) (b : ℕ) : ℕ → Option ℕ :=
  (m.buildArgs s d).parentOf b

/-- The children. -/
def kids (m : EagleServer S) (s : EagleState S) (d : VerifyStep) (b : ℕ) : ℕ → List ℕ :=
  (m.buildArgs s d).kids b

/-- The nodes behind the root that are accepted. -/
def accepted (m : EagleServer S) (s : EagleState S) (d : VerifyStep) (b : ℕ) : List ℕ :=
  (m.verifyArgs s d).acceptedPath b (m.kids s d b)

theorem tree_built (hd : d.Gathered m s) (hb : b < d.bs) : (m.buildArgs s d).Built b (m.tree s d) :=
  (launch_built (m.buildArgs s d) d.bs m.numDraftTokens_pos hd.buildable (treeBuffers d)
    fun _ _ _ _ => ⟨rfl, rfl⟩).1 b hb

theorem parent_lt (hd : d.Gathered m s) (hb : b < d.bs) :
    ∀ i p, m.parent s d b i = some p → p < i :=
  fun _ _ hp => (hd.buildable b hb).ordered.parentOf_lt hp

theorem parent_zero : m.parent s d b 0 = none := by
  unfold parent BuildArgs.parentOf
  exact if_neg fun h => absurd h.1 (lt_irrefl 0)

theorem mem_kids {v c : ℕ} (hc : c ∈ m.kids s d b v) :
    c < m.numDraftTokens ∧ m.parent s d b c = some v := (mem_children.mp hc).2

/-- The kernel that verifies walks the tree that was built. -/
theorem holds (hd : d.Gathered m s) (hb : b < d.bs) :
    (m.verifyArgs s d).Holds b (m.kids s d b) := by
  have hbuilt := tree_built hd hb
  refine ⟨hbuilt.index, hbuilt.chain, fun v c hc => ?_, fun v => children_pairwise⟩
  obtain ⟨hlt, hp⟩ := mem_kids hc
  exact ⟨parent_lt hd hb c v hp, hlt⟩

theorem sample_verified (hd : d.Gathered m s) (hb : b < d.bs) :
    (m.verifyArgs s d).Verified b (m.accepted s d b) (m.sample s d) ∧
      ∀ k, (m.accepted s d b).length < k → (m.sample s d).acceptIndex b k = -1 :=
  VerifyArgs.launch_verified (m.verifyArgs s d) d.bs m.numDraftTokens_pos (m.kids s d)
    (fun _ hb => holds hd hb) (verifyBuffers d) b hb

/-! ### One pass over the tree -/

/-- The rows of a request, with its prefix in the pool. -/
def rows (m : EagleServer S) (s : EagleState S) (d : VerifyStep) (b : ℕ) : Decoder.Rows ℤ S where
  len := seqLens s d b
  cached := fun l i => s.kvBuffer l (s.slot m (d.reqPoolIndices b) i)
  token := fun v => m.draftToken s d (b * m.numDraftTokens + v)
  position := fun v => (m.tree s d).positions (b * m.numDraftTokens + v)
  sees := fun v => (Finset.range m.numDraftTokens).filter fun c => m.customMask s d b v c = true

theorem coe_filter_range (n : ℕ) (p : ℕ → Bool) :
    (((List.range n).filter p : List ℕ) : Multiset ℕ) =
      ((Finset.range n).filter fun c => p c = true).val := by
  rw [Finset.filter_val, Finset.range_val, Multiset.range, Multiset.filter_coe]
  refine congrArg _ (List.filter_congr fun c _ => ?_)
  simp

/-- What a row attends to. -/
theorem coe_attended (layer : ℕ) (hidden : ℕ → S) (hb : b < d.bs) {v : ℕ}
    (hv : v < m.numDraftTokens) :
    (m.attended s d layer hidden (b * m.numDraftTokens + v) : Multiset S) =
      (Multiset.range (seqLens s d b)).map ((m.rows s d b).cached layer) +
        ((m.rows s d b).sees v).val.map fun c => hidden (b * m.numDraftTokens + c) := by
  have hkv : (m.metadata s d).kvIndptr (b + 1) - (m.metadata s d).kvIndptr b = seqLens s d b := by
    show offset _ (b + 1) - offset _ b = _
    rw [offset_succ, Nat.add_sub_cancel_left]
  have hqo :
      (m.metadata s d).qoIndptr (b + 1) - (m.metadata s d).qoIndptr b = m.numDraftTokens := by
    show (b + 1) * m.numDraftTokens - b * m.numDraftTokens = _
    rw [Nat.succ_mul, Nat.add_sub_cancel_left]
  have hprefix : (List.range (seqLens s d b)).map (fun i => s.kvBuffer layer
      ((m.metadata s d).kvIndices ((m.metadata s d).kvIndptr b + i))) =
        (List.range (seqLens s d b)).map ((m.rows s d b).cached layer) := by
    refine List.map_congr_left fun i hi => congrArg (s.kvBuffer layer) ?_
    exact stageMetadata_kvIndices _ _ _ _ _ hb (List.mem_range.mp hi)
  unfold attended
  dsimp only
  rw [block_div hv, block_mod hv, hkv, hqo, hprefix, ← Multiset.coe_add]
  refine congrArg₂ (· + ·) rfl ?_
  rw [← Multiset.map_coe, coe_filter_range]
  rfl

/-- The states of the rows of a request. -/
theorem hidden_eq (hb : b < d.bs) (l : ℕ) {v : ℕ} (hv : v < m.numDraftTokens) :
    m.hidden s d l (b * m.numDraftTokens + v) = m.model.nodeState (m.rows s d b) l v := by
  induction l generalizing v with
  | zero => rfl
  | succ l ih =>
    rw [hidden, Decoder.nodeState, ih hv, coe_attended l _ hb hv]
    refine congrArg _ (congrArg _ (Multiset.map_congr rfl fun c hc => ?_))
    exact ih (Finset.mem_range.mp (Finset.mem_filter.mp hc).1)

/-! ### Paths -/

/-- A row attends to the root and to the rows above. -/
theorem mem_sees (hd : d.Gathered m s) (hb : b < d.bs) {v : ℕ} (hv : v < m.numDraftTokens) {c : ℕ} :
    c ∈ (m.rows s d b).sees v ↔
      c < m.numDraftTokens ∧ (c = 0 ∨ Above (m.parent s d b) v c) := by
  have hcell : m.maskIndptr s d b + v * (seqLens s d b + m.numDraftTokens) + seqLens s d b + c =
      (m.buildArgs s d).maskCell b v c := by
    unfold BuildArgs.maskCell BuildArgs.tokenTreeIdx
    rw [BuildArgs.seqTreeIdx_eq, Nat.mul_comm v]
    rfl
  rw [rows, Finset.mem_filter, Finset.mem_range, customMask, hcell]
  constructor
  · rintro ⟨hc, hmask⟩
    exact ⟨hc, ((tree_built hd hb).mask v hv c hc).mp hmask⟩
  · rintro ⟨hc, habove⟩
    exact ⟨hc, ((tree_built hd hb).mask v hv c hc).mpr habove⟩

theorem position_eq (hd : d.Gathered m s) (hb : b < d.bs) {v : ℕ} (hv : v < m.numDraftTokens) :
    (m.rows s d b).position v = seqLens s d b + depth (m.parent s d b) v :=
  (tree_built hd hb).positions v hv

/-- **What a node that hangs from the root sees is its path.** -/
theorem rows_path (hd : d.Gathered m s) (hb : b < d.bs) {v : ℕ} (hv : v < m.numDraftTokens)
    (hroot : Above (m.parent s d b) v 0) : (m.rows s d b).Path v := by
  have hlt := parent_lt hd hb
  have hsees : ∀ c ∈ (m.rows s d b).sees v, c < m.numDraftTokens ∧ Above (m.parent s d b) v c := by
    intro c hc
    rcases (mem_sees hd hb hv).mp hc with ⟨hcn, rfl | habove⟩
    · exact ⟨hcn, hroot⟩
    · exact ⟨hcn, habove⟩
  -- a node between `v` and the root hangs from the root too
  have hrooted : ∀ c ∈ (m.rows s d b).sees v, Above (m.parent s d b) c 0 := by
    intro c hc
    exact hroot.root_of_above (hsees c hc).2 parent_zero
  refine ⟨(mem_sees hd hb hv).mpr ⟨hv, .inr .refl⟩, fun c hc e he => ?_, fun c hc => ?_,
    fun c hc => ?_⟩
  · obtain ⟨hcn, habove⟩ := hsees c hc
    obtain ⟨hen, he⟩ := (mem_sees hd hb hcn).mp he
    refine (mem_sees hd hb hv).mpr ⟨hen, he.imp_right fun h => habove.trans h⟩
  · rw [position_eq hd hb (hsees c hc).1]
    exact Nat.le_add_right _ _
  · have hcn := (hsees c hc).1
    have hdepths := map_depth_above hlt (hrooted c hc) hcn fun e => mem_sees hd hb hcn
    have hpositions : ((m.rows s d b).sees c).val.map (m.rows s d b).position =
        (((m.rows s d b).sees c).val.map (depth (m.parent s d b))).map (seqLens s d b + ·) := by
      rw [Multiset.map_map]
      exact Multiset.map_congr rfl fun e he =>
        position_eq hd hb ((mem_sees hd hb hcn).mp he).1
    rw [hpositions, hdepths, position_eq hd hb hcn]
    show _ = (Multiset.range (seqLens s d b + _ + 1 - seqLens s d b)).map _
    rw [Nat.add_assoc, Nat.add_sub_cancel_left]
    rfl

end EagleServer

end LatentSpec.EagleTree
