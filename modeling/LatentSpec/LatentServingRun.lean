import LatentSpec.LatentServing

/-! # Runs of LatentSpec serving

`ServingModel.Reachable` are the states of the engine: from an empty pool by prefills, by
draft and verify steps, and by what the scheduler and the prefix cache do in between.  One
lemma, `Inv.commit`, says what a forward keeps when it writes inside the blocks it owns;
prefill and draft step are its two instances, and `Reachable.inv` is the run lemma.
`serving_refines_forward` compares what a draft step attends to with the reference drafter, and
`kvIndicesStores_lt_capacity` keeps the index buffers of both stages large enough.
-/
namespace LatentSpec
open TiledStores

variable {F : Type} {m : ServingModel} {s : ServingState F}

/-! ### Owned blocks -/

namespace ServingState
variable {bs : ℕ} {rows widths lens : ℕ → ℕ}

/-- Two columns of owned blocks with one slot are the same column. -/
theorem Owns.blockSlot_injective (h : s.Owns bs rows widths) {b b' j j' : ℕ} (hb : b < bs)
    (hb' : b' < bs) (hj : j < widths b) (hj' : j' < widths b')
    (heq : s.blockSlot rows b j = s.blockSlot rows b' j') : b' = b ∧ j' = j := by
  have hroom := h.allocated b' hb'
  obtain ⟨hrow, hpos⟩ := h.distinct b hb j hj (rows b') (s.seqLens (rows b') + j') (h.live b' hb')
    (by omega) heq
  obtain rfl := h.injective b' hb' b hb hrow
  exact ⟨rfl, by omega⟩

/-- No owned block reaches a committed position. -/
theorem Owns.blockSlot_ne (h : s.Owns bs rows widths) (hs : s.Inv m) {r p : ℕ} (hr : s.live r)
    (hp : p < s.seqLens r) : ∀ b < bs, ∀ j < widths b, s.blockSlot rows b j ≠ s.reqToToken r p := by
  intro b hb j hj heq
  obtain ⟨rfl, hpos⟩ := h.distinct b hb j hj r p hr (hp.trans_le (hs.allocated r hr)) heq
  omega

/-- Nor a slot of the prefix cache. -/
theorem Owns.blockSlot_ne_cached (h : s.Owns bs rows widths) {slot : ℕ} {entry : F × ℕ}
    (hslot : s.cached slot = some entry) :
    ∀ b < bs, ∀ j < widths b, s.blockSlot rows b j ≠ slot := by
  rintro b hb j hj rfl
  simp [h.uncached b hb j hj] at hslot

theorem entryOf_eq_some {b r : ℕ} (h : entryOf bs rows r = some b) : b < bs ∧ rows b = r := by
  refine ⟨List.mem_range.mp (List.mem_of_find?_eq_some h), ?_⟩
  simpa using List.find?_some h

/-- **What a forward keeps.**  A forward that writes only inside the blocks it owns, and
leaves the context keys of the columns it commits, keeps the invariant. -/
theorem Inv.commit (hs : s.Inv m) (h : s.Owns bs rows widths) (hlens : ∀ b < bs, lens b ≤ widths b)
    {hidden : ℕ → ℕ → F} {kvBuffer : ℕ → ℕ → DraftKey F ℕ}
    (hframe : ∀ layer slot, (∀ b < bs, ∀ j < widths b, s.blockSlot rows b j ≠ slot) →
      kvBuffer layer slot = s.kvBuffer layer slot)
    (hslot : ∀ layer < m.numLayers, ∀ b < bs, ∀ j < lens b,
      kvBuffer layer (s.blockSlot rows b j) = ⟨.context (hidden b j), s.seqLens (rows b) + j⟩) :
    (s.commit bs rows lens hidden kvBuffer).Inv m where
  allocated := by
    intro r hr
    simp only [ServingState.commit]
    split
    · next b hentry =>
      obtain ⟨hb, rfl⟩ := entryOf_eq_some hentry
      have hroom := h.allocated b hb
      have hle := hlens b hb
      omega
    · exact hs.allocated r hr
  context := by
    intro r hr layer hlayer p hp
    simp only [ServingState.commit] at hp hr ⊢
    have hold : p < s.seqLens r →
        kvBuffer layer (s.reqToToken r p) = ⟨.context (s.feature r p), p⟩ := by
      intro hp
      rw [hframe layer _ (h.blockSlot_ne hs hr hp), hs.context r hr layer hlayer p hp]
    split at hp
    · next b hentry =>
      obtain ⟨hb, rfl⟩ := entryOf_eq_some hentry
      by_cases hlt : p < s.seqLens (rows b)
      · rw [if_neg (by omega), hold hlt]
      · -- a position of the block: one of the columns just written
        obtain ⟨j, rfl⟩ := Nat.exists_eq_add_of_le (Nat.le_of_not_lt hlt)
        rw [if_pos (Nat.le_add_right _ _), Nat.add_sub_cancel_left]
        exact hslot layer hlayer b hb j (by omega)
    · exact hold hp
  cached := by
    intro slot f p hcached layer hlayer
    rw [← hs.cached slot f p hcached layer hlayer]
    exact hframe layer slot (h.blockSlot_ne_cached hcached)

end ServingState

/-! ### Prefill -/

namespace ServingModel

/-- **A prefill keeps the invariant.** -/
theorem extend_inv (hs : s.Inv m) {e : ExtendStep F}
    (he : s.Owns e.bs e.reqPoolIndices e.extendLens) : (m.extend s e).Inv m := by
  refine hs.commit he (fun _ _ => le_rfl) (fun layer slot hslot => ?_)
    fun layer hlayer b hb j hj => ?_
  · unfold appendExtend
    split
    · exact writeAll_scatter_of_ne _ _ hslot
    · rfl
  · rw [appendExtend, if_pos hlayer]
    refine writeAll_scatter_of_mem _ _ hb hj fun b' hb' j' hj' heq => ?_
    exact he.blockSlot_injective hb hb' hj hj' heq

/-! ### The draft step -/

section DraftStep
variable {d : DraftStep F}

theorem setKvBufferPrefixValid_eq {buffer : ℕ → DraftKey F ℕ} {bs width : ℕ} {commitLens : ℕ → ℕ}
    (h : ∀ b < bs, commitLens b ≤ width) (loc2d : ℕ → ℕ → ℕ) (keys : ℕ → ℕ → DraftKey F ℕ) :
    setKvBufferPrefixValid buffer bs width loc2d commitLens keys =
      writeAll buffer (scatter bs commitLens loc2d keys) := by
  refine congrArg (writeAll buffer) (List.flatMap_congr fun b hb => ?_)
  rw [filter_range_lt (h b (List.mem_range.mp hb))]

/-- A slot outside the verify blocks is not written by the draft forward. -/
theorem writeLatentKv_frame (buffer : ℕ → DraftKey F ℕ) {slot : ℕ}
    (hslot : ∀ b < d.bs, ∀ j < m.verifySize, s.blockSlot d.reqPoolIndices b j ≠ slot) :
    m.writeLatentKv s d buffer slot = buffer slot := by
  rw [writeLatentKv_eq]
  refine writeAll_scatter_of_ne _ _ fun b hb i hi => ?_
  rw [m.latentCacheLocs_eq hi]
  exact hslot b hb i (hi.trans_le (m.latent_le.trans m.block_le))

/-- Nor, in any layer, by the draft forward and the append together. -/
theorem appendTargetHidden_frame (hd : d.Gathered m s) (layer : ℕ) {slot : ℕ}
    (hslot : ∀ b < d.bs, ∀ j < m.verifySize, s.blockSlot d.reqPoolIndices b j ≠ slot) :
    m.appendTargetHidden s d (m.draftedKvBuffer s d) layer slot = s.kvBuffer layer slot := by
  have hdrafted : m.draftedKvBuffer s d layer slot = s.kvBuffer layer slot := by
    unfold draftedKvBuffer
    split
    · exact writeLatentKv_frame _ hslot
    · rfl
  unfold appendTargetHidden
  split
  · rw [setKvBufferPrefixValid_eq fun b hb => (hd.commit b hb).2, ← hdrafted]
    exact writeAll_scatter_of_ne _ _ fun b hb j hj =>
      hslot b hb j (hj.trans_le (hd.commit b hb).2)
  · exact hdrafted

/-- The first slots of a block hold its latents after the draft forward. -/
theorem writeLatentKv_slot (hd : d.Gathered m s) (buffer : ℕ → DraftKey F ℕ) {b i : ℕ}
    (hb : b < d.bs) (hi : i < m.numLatentTokens) :
    m.writeLatentKv s d buffer (verifyOutCacheLoc2d s d b i) =
      ⟨.latent (d.reqPoolIndices b) i, prefixLens s d b + i⟩ := by
  have hle := m.latent_le.trans m.block_le
  rw [writeLatentKv_eq, ← m.latentCacheLocs_eq hi, ← m.latentRows_eq hi]
  refine writeAll_scatter_of_mem (fun b i => m.latentRows s d (b * m.numLatentTokens + i)) buffer
    hb hi fun b' hb' i' hi' heq => ?_
  rw [m.latentCacheLocs_eq hi, m.latentCacheLocs_eq hi'] at heq
  exact hd.owns.blockSlot_injective hb hb' (hi.trans_le hle) (hi'.trans_le hle) heq

/-- The committed slots of a block hold the target's features after the append. -/
theorem appendTargetHidden_slot (hd : d.Gathered m s) (kvBuffer : ℕ → ℕ → DraftKey F ℕ)
    {layer b j : ℕ} (hlayer : layer < m.numLayers) (hb : b < d.bs) (hj : j < d.commitLens b) :
    m.appendTargetHidden s d kvBuffer layer (s.blockSlot d.reqPoolIndices b j) =
      ⟨.context (d.targetHidden b j), s.seqLens (d.reqPoolIndices b) + j⟩ := by
  rw [appendTargetHidden, if_pos hlayer,
    setKvBufferPrefixValid_eq fun b hb => (hd.commit b hb).2]
  refine writeAll_scatter_of_mem _ _ hb hj fun b' hb' j' hj' heq => ?_
  exact hd.owns.blockSlot_injective hb hb' (hj.trans_le (hd.commit b hb).2)
    (hj'.trans_le (hd.commit b' hb').2) heq

/-- **A draft and verify step keeps the invariant**: what it leaves in the slots it does not
commit is out of every request's committed prefix. -/
theorem draftVerify_inv (hs : s.Inv m) (hd : d.Gathered m s) : (m.draftVerify s d).Inv m :=
  hs.commit hd.owns (fun b hb => (hd.commit b hb).2)
    (fun layer _ hslot => appendTargetHidden_frame hd layer hslot)
    fun _ hlayer _ hb _ hj => appendTargetHidden_slot hd _ hlayer hb hj

end DraftStep

/-! ### Runs -/

/-- **What happens between forwards.**  The scheduler admits a request on a cached prefix,
allocates, hands the committed slots of a request to the prefix cache, evicts from it, or
drops a request.  No key is moved, and every committed position stays where it was or is
found in the prefix cache. -/
structure Rebinds (s s' : ServingState F) : Prop where
  kvBuffer : s'.kvBuffer = s.kvBuffer
  allocated : ∀ r, s'.live r → s'.seqLens r ≤ s'.kvAllocatedLen r
  kept : ∀ r, s'.live r → ∀ p < s'.seqLens r,
    (s.live r ∧ p < s.seqLens r ∧ s'.reqToToken r p = s.reqToToken r p ∧
      s'.feature r p = s.feature r p) ∨
    s.cached (s'.reqToToken r p) = some (s'.feature r p, p)
  cached : ∀ slot f p, s'.cached slot = some (f, p) → s.cached slot = some (f, p) ∨
    ∃ r, s.live r ∧ p < s.seqLens r ∧ s.reqToToken r p = slot ∧ s.feature r p = f

theorem Rebinds.inv {s' : ServingState F} (h : Rebinds s s') (hs : s.Inv m) : s'.Inv m where
  allocated := h.allocated
  context := by
    intro r hr layer hlayer p hp
    rw [h.kvBuffer]
    rcases h.kept r hr p hp with ⟨hlive, hlt, hslot, hfeature⟩ | hcached
    · rw [hslot, hfeature, hs.context r hlive layer hlayer p hlt]
    · exact hs.cached _ _ p hcached layer hlayer
  cached := by
    intro slot f p hcached layer hlayer
    rw [h.kvBuffer]
    rcases h.cached slot f p hcached with hcached | ⟨r, hlive, hlt, rfl, rfl⟩
    · exact hs.cached slot f p hcached layer hlayer
    · exact hs.context r hlive layer hlayer p hlt

/-- **The states of the engine**: whatever the pool held at first, prefills, draft steps
and the scheduler's own work in any order. -/
inductive Reachable (m : ServingModel) : ServingState F → Prop
  | init {s : ServingState F} (live : ∀ r, ¬ s.live r) (cached : ∀ slot, s.cached slot = none) :
      Reachable m s
  | rebind {s s' : ServingState F} (hs : Reachable m s) (h : Rebinds s s') : Reachable m s'
  | extend {s : ServingState F} (hs : Reachable m s) {e : ExtendStep F}
      (he : s.Owns e.bs e.reqPoolIndices e.extendLens) : Reachable m (m.extend s e)
  | draftVerify {s : ServingState F} (hs : Reachable m s) {d : DraftStep F}
      (hd : d.Gathered m s) : Reachable m (m.draftVerify s d)

/-- **The run lemma.** -/
theorem Reachable.inv (h : m.Reachable s) : s.Inv m := by
  induction h with
  | init live cached =>
    exact ⟨fun r hr => absurd hr (live r), fun r hr => absurd hr (live r),
      fun slot f p h => by simp [cached] at h⟩
  | rebind _ h ih => exact h.inv ih
  | extend _ he ih => exact extend_inv ih he
  | draftVerify _ hd ih => exact draftVerify_inv ih hd

/-! ### What the queries attend to -/

section Attended
variable {d : DraftStep F}

theorem offset_le {lens lens' : ℕ → ℕ} {n : ℕ} (h : ∀ b < n, lens b ≤ lens' b) :
    offset lens n ≤ offset lens' n := by
  induction n with
  | zero => rfl
  | succ n ih =>
    rw [offset_succ, offset_succ]
    exact Nat.add_le_add (ih fun b hb => h b (by omega)) (h n (by omega))

theorem offset_add (lens : ℕ → ℕ) (c n : ℕ) :
    offset (fun b => lens b + c) n = offset lens n + n * c := by
  induction n with
  | zero => simp
  | succ n ih =>
    rw [offset_succ, offset_succ, ih, Nat.succ_mul]
    omega

/-- **The index buffers are large enough**, whichever lengths the host planned with: every
index either stage writes is inside its buffer. -/
theorem kvIndicesStores_lt_capacity (hd : d.Gathered m s) {b : ℕ} (hb : b < d.bs) :
    (∀ w ∈ kvIndicesStores s.reqToToken d.reqPoolIndices (prefixLens s d) b,
      w.1 < m.latentCapacity s d) ∧
    ∀ w ∈ kvIndicesStores s.reqToToken d.reqPoolIndices
      (fun b => prefixLens s d b + m.numLatentTokens) b, w.1 < m.proposalCapacity s d := by
  have hsum : offset (prefixLens s d) d.bs ≤ m.draftSeqLensSum s d := by
    unfold draftSeqLensSum
    split
    · next _ _ lens hlens =>
      exact offset_le fun b hb => (hd.seqLensCpu lens hlens b hb).trans (Nat.le_add_right _ _)
    · next nxtKvLens _ hlens => exact offset_le (hd.nxtKvLensCpu nxtKvLens hlens)
    · rfl
  refine ⟨fun w hw => ?_, fun w hw => ?_⟩
  · exact (kvIndicesStores_lt hb hw).trans_le (hsum.trans (le_max_left _ _))
  · have hlt := kvIndicesStores_lt hb hw
    rw [offset_add] at hlt
    exact hlt.trans_le ((Nat.add_le_add_right hsum _).trans (le_max_left _ _))

variable (hs : s.Inv m) (hd : d.Gathered m s) (fresh : ℕ → ℕ) {b : ℕ} (hb : b < d.bs)
include hs hd hb

/-- **The latent queries** attend to the request's committed context and its latents. -/
theorem latentAttended_eq :
    m.latentAttended s d fresh b = List.replicate m.numLatentLayers
      (contextKeys (s.feature (d.reqPoolIndices b)) 0 (prefixLens s d b) ++
        latentKeys (d.reqPoolIndices b) (prefixLens s d b) m.numLatentTokens) := by
  refine List.eq_replicate_iff.mpr ⟨by simp [latentAttended], fun keys hkeys => ?_⟩
  obtain ⟨layer, hlayer, rfl⟩ := List.mem_map.mp hkeys
  have hlayer' : layer < m.numLayers := (List.mem_range.mp hlayer).trans_le (Nat.le_add_right _ _)
  rw [latentMetadata, attended_stageMetadata _ _ _ _ _ hb]
  refine congrArg₂ (· ++ ·) ?_ ?_
  · rw [contextKeys, ← List.range_eq_range']
    refine List.map_congr_left fun p hp => ?_
    exact hs.context _ (hd.owns.live b hb) layer hlayer' p (List.mem_range.mp hp)
  · exact List.map_congr_left fun i hi => m.latentRows_eq (List.mem_range.mp hi)

/-- **The proposal queries** attend to the request's committed context, its latents and
its own block. -/
theorem proposalAttended_eq :
    m.proposalAttended s d fresh b = List.replicate m.numProposalLayers
      (contextKeys (s.feature (d.reqPoolIndices b)) 0 (prefixLens s d b) ++
        latentKeys (d.reqPoolIndices b) (prefixLens s d b) m.numLatentTokens ++
        maskKeys (d.reqPoolIndices b) (prefixLens s d b) m.blockSize) := by
  refine List.eq_replicate_iff.mpr ⟨by simp [proposalAttended], fun keys hkeys => ?_⟩
  obtain ⟨layer, hlayer, rfl⟩ := List.mem_map.mp hkeys
  have hlayer' : m.numLatentLayers + layer < m.numLayers :=
    Nat.add_lt_add_left (List.mem_range.mp hlayer) _
  rw [proposalMetadata, attended_stageMetadata _ _ _ _ _ hb]
  refine congrArg₂ (· ++ ·) ?_ ?_
  · rw [List.range_add, List.map_append, List.map_map, contextKeys, ← List.range_eq_range']
    refine congrArg₂ (· ++ ·) (List.map_congr_left fun p hp => ?_)
      (List.map_congr_left fun i hi => ?_)
    · have hp' := List.mem_range.mp hp
      have hlive := hd.owns.live b hb
      rw [writeLatentKv_frame _ (hd.owns.blockSlot_ne hs hlive hp')]
      exact hs.context _ hlive _ hlayer' p hp'
    · exact writeLatentKv_slot hd _ hb (List.mem_range.mp hi)
  · exact List.map_congr_left fun i hi => m.proposalRows_eq (List.mem_range.mp hi)

end Attended

end ServingModel

/-! ### Serving refines the reference drafter -/

section Refinement
open ServingModel
variable {V : ℕ} {Hd : Type}

/-- **LatentSpec serving attends to what the reference drafter attends to.**  In every state
of the engine the slots of committed positions hold the request's own context keys, in
every layer; and in a draft step from there, every request's latent and proposal queries
have the positions, and attend in each layer to exactly the keys, that the block forward
of the reference gives them at the request's length, however the reference splits the
context between its cache and its new features. -/
theorem serving_refines_forward (hs : m.Reachable s) :
    (∀ r, s.live r → ∀ layer < m.numLayers, ∀ p < s.seqLens r,
      s.kvBuffer layer (s.reqToToken r p) = ⟨.context (s.feature r p), p⟩) ∧
    ∀ d : DraftStep F, d.Gathered m s → ∀ (fresh : ℕ → ℕ), ∀ b < d.bs,
      ∀ r start, r = d.reqPoolIndices b → start = s.seqLens r →
      (∀ keys ∈ m.latentAttended s d fresh b,
        keys = contextKeys (s.feature r) 0 start ++ latentKeys r start m.numLatentTokens) ∧
      (∀ keys ∈ m.proposalAttended s d fresh b,
        keys = contextKeys (s.feature r) 0 start ++ latentKeys r start m.numLatentTokens ++
          maskKeys r start m.blockSize) ∧
      ∀ model : MySpecBackbone V F ℕ Hd, model.numLatentLayers = m.numLatentLayers →
        model.numHiddenLayers = m.numProposalLayers →
        model.numLatentTokens = m.numLatentTokens →
        ∀ call : model.DraftCall (s.feature r) start m.blockSize,
        ∃ out cache', call.forward r = .ok (out, cache') ∧
          m.latentAttended s d fresh b = out.latentKeys ∧
          m.proposalAttended s d fresh b = out.maskKeys ∧
          ((List.range m.numLatentTokens).map fun i =>
            m.stagePositions s d m.numLatentTokens (b * m.numLatentTokens + i)) =
              out.latentPositions ∧
          ((List.range m.blockSize).map fun i =>
            m.stagePositions s d m.blockSize (b * m.blockSize + i)) = out.maskPositions := by
  have hinv := hs.inv
  refine ⟨hinv.context, ?_⟩
  rintro d hd fresh b hb r start rfl rfl
  have hlatent := latentAttended_eq hinv hd fresh hb
  have hproposal := proposalAttended_eq hinv hd fresh hb
  refine ⟨fun keys hkeys => ?_, fun keys hkeys => ?_, fun model hlayers hhidden hL call => ?_⟩
  · rw [hlatent] at hkeys
    exact (List.mem_replicate.mp hkeys).2
  · rw [hproposal] at hkeys
    exact (List.mem_replicate.mp hkeys).2
  · obtain ⟨cache', -, hforward⟩ := call.forward_ok (d.reqPoolIndices b)
    refine ⟨_, cache', hforward, ?_, ?_, ?_, ?_⟩
    · rw [hlatent, MySpecBackbone.blockForward, hlayers, hL]
      rfl
    · rw [hproposal, MySpecBackbone.blockForward, hhidden, hL]
      rfl
    · rw [m.stagePositions_range m.latent_le, MySpecBackbone.blockForward, hL]
      rfl
    · exact m.stagePositions_range le_rfl b

/-- One latent and one proposal layer, one latent token, blocks of two and verify blocks of
three. -/
def pairServing : ServingModel where
  numLatentLayers := 1
  numProposalLayers := 1
  numLatentTokens := 1
  blockSize := 2
  verifySize := 3
  latent_le := Nat.le_add_right 1 1
  block_le := by decide

/-- An engine with a pool it has not used. -/
def idleServing : ServingState ℕ where
  live := fun _ => False
  reqToToken := fun _ _ => 0
  kvAllocatedLen := fun _ => 0
  seqLens := fun _ => 0
  kvBuffer := fun _ _ => ⟨.mask 0 0, 0⟩
  cached := fun _ => none
  feature := fun _ _ => 0

/-- Two requests admitted, with their slots interleaved. -/
def admittedServing : ServingState ℕ :=
  { idleServing with
    live := fun r => r < 2
    reqToToken := fun r p => 2 * p + r
    kvAllocatedLen := fun _ => 10 }

/-- Prompts of one and two tokens. -/
def pairExtend : ExtendStep ℕ where
  bs := 2
  reqPoolIndices := id
  extendLens := fun b => b + 1
  targetHidden := fun b j => 100 * b + j

/-- A step that commits a whole block of the first request and two tokens of the other. -/
def pairStep : DraftStep ℕ where
  bs := 2
  reqPoolIndices := id
  seqLensCpu := none
  nxtKvLensCpu := some fun _ => 10
  targetHidden := fun b j => 200 + 10 * b + j
  commitLens := fun b => 3 - b

theorem interleaved_owns (s : ServingState ℕ) (hlive : s.live = admittedServing.live)
    (htable : s.reqToToken = admittedServing.reqToToken)
    (halloc : s.kvAllocatedLen = admittedServing.kvAllocatedLen)
    (hcached : s.cached = admittedServing.cached) (hlen : ∀ r < 2, s.seqLens r ≤ 7)
    {widths : ℕ → ℕ} (hwidths : ∀ b < 2, widths b ≤ 3) : s.Owns 2 id widths where
  live := by
    intro b hb
    rw [hlive]
    exact hb
  injective := fun b _ b' _ h => h
  allocated := by
    intro b hb
    have hseq := hlen b hb
    have hwidth := hwidths b hb
    rw [halloc]
    simp only [id, admittedServing]
    omega
  distinct := by
    intro b hb j _ r p hr _ heq
    rw [hlive] at hr
    simp only [ServingState.blockSlot, htable, admittedServing, id] at heq hr ⊢
    omega
  uncached := by
    intro b _ j _
    rw [hcached]
    rfl

/-- The engine after the prompts and one step. -/
def steppedServing : ServingState ℕ :=
  pairServing.draftVerify (pairServing.extend admittedServing pairExtend) pairStep

theorem pairStep_gathered {s : ServingState ℕ} (h : s.Owns 2 id fun _ => 3)
    (hlen : ∀ r < 2, s.seqLens r ≤ 7) : pairStep.Gathered pairServing s where
  owns := h
  seqLensCpu := fun _ h => by simp [pairStep] at h
  nxtKvLensCpu := by
    intro lens hlens b hb
    obtain rfl : (fun _ => 10) = lens := Option.some.inj hlens
    exact (hlen b hb).trans (show 7 ≤ 10 by decide)
  commit := by
    intro b hb
    have hb' : b < 2 := hb
    simp only [pairStep, pairServing]
    omega

theorem serving_refines_forward_pair :
    (∀ layer < 2, ∀ p < 4, steppedServing.kvBuffer layer (2 * p) =
      ⟨.context (if p = 0 then 0 else 199 + p), p⟩) ∧
    ∀ keys ∈ pairServing.latentAttended steppedServing pairStep id 1,
      keys = [⟨.context 100, 0⟩, ⟨.context 101, 1⟩, ⟨.context 210, 2⟩, ⟨.context 211, 3⟩,
        ⟨.latent 1 0, 4⟩] := by
  have hadmit : pairServing.Reachable admittedServing := by
    refine .rebind (.init (s := idleServing) (fun _ h => h) fun _ => rfl) ⟨rfl, ?_, ?_, ?_⟩
    · exact fun _ _ => Nat.zero_le _
    · exact fun _ _ p hp => absurd hp (Nat.not_lt_zero p)
    · intro slot f p hcached
      simp [admittedServing, idleServing] at hcached
  have hextend := hadmit.extend (e := pairExtend)
    (interleaved_owns _ rfl rfl rfl rfl (by decide) (by decide))
  have hstepped : pairServing.Reachable steppedServing := by
    refine hextend.draftVerify (d := pairStep) (pairStep_gathered ?_ (by decide))
    exact interleaved_owns (pairServing.extend admittedServing pairExtend) rfl rfl rfl rfl
      (by decide) (by decide)
  have hgathered : pairStep.Gathered pairServing steppedServing :=
    pairStep_gathered (interleaved_owns steppedServing rfl rfl rfl rfl (by decide) (by decide))
      (by decide)
  obtain ⟨hcontext, hattended⟩ :=
    @serving_refines_forward ℕ pairServing steppedServing 2 Unit hstepped
  refine ⟨fun layer hlayer p hp => ?_, fun keys hkeys => ?_⟩
  · have hslot := hcontext 0 (show 0 < 2 by decide) layer hlayer p hp
    have hfeature : ∀ p < 4, steppedServing.feature 0 p = if p = 0 then 0 else 199 + p := by decide
    rw [hfeature p hp] at hslot
    exact hslot
  · exact (hattended pairStep hgathered id 1 (by decide) 1 4 rfl rfl).1 keys hkeys

end Refinement

end LatentSpec
