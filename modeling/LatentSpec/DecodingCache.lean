import LatentSpec.DraftBlock
import LatentSpec.MyspecProposal

/-! # The caches of the decoding loop

The MySpec evaluator (`deepspec/eval/myspec/evaluator.py`) as a drafter of
`generate_decoding_sample`: `_init_context` keeps the prompt's target features,
`_propose` runs the block forward and builds a proposal from its hidden states, and
`_update` keeps the features of the tokens the round has verified.

Three pieces of state move at different moments: the target cache is extended by the
verification and cropped by the loop, the draft cache is extended and cropped by the
block forward, and the pending features are replaced after the verification.
`MyspecInv` says what they hold at the top of an iteration.
-/
namespace LatentSpec
open scoped Coins

/-- The evaluator's `context`. -/
structure MySpecContext (F : Type) where
  pastKeyValuesDraft : DraftCache F Unit
  targetHiddenStates : List F

/-- What the evaluator is configured with.  `draftDraws start` are the generator's draws
for the block drafted at `start`. -/
structure MySpecEvaluator (V : ℕ) (K H F Hd St Ω : Type) [Field K] [LinearOrder K] where
  backbone : MySpecBackbone V F Unit Hd
  heads : MySpecHeads V K Hd St
  sampler : TokenSampler V K Ω
  extractContextFeature : H → F
  confidenceThreshold : K
  draftDraws : ℕ → ℕ → Ω

variable {V : ℕ} {K H F Hd St Ω : Type} [Field K] [LinearOrder K]

namespace MySpecEvaluator
variable (ev : MySpecEvaluator V K H F Hd St Ω)

/-- `_init_context`. -/
def initContext (initialOutput : TargetOutput V K H) : MySpecContext F where
  pastKeyValuesDraft := DraftCache.empty
  targetHiddenStates := initialOutput.hiddenStates.map ev.extractContextFeature

/-- `_update`. -/
def update (context : MySpecContext F) (verification : VerificationResult V K H) :
    MySpecContext F :=
  let verifiedTargetHidden :=
    verification.targetOutput.hiddenStates.map ev.extractContextFeature
  { context with
    targetHiddenStates := verifiedTargetHidden.take (verification.acceptedDraftTokens + 1) }

variable [IsStrictOrderedRing K] [NeZero V]

/-- `_propose`. -/
def propose (maxProposalTokens : ℕ) (context : MySpecContext F) (outputIds : List (Fin V))
    (positionIds : List ℕ) (start : ℕ) :
    Except DecodeError (DraftProposal V K × MySpecContext F) := do
  let current ← match outputIds[start]? with
    | some token => .ok token
    | none => .error .index
  let draftLatentInputIds ← assignIndex
    (List.replicate ev.backbone.numLatentTokens ev.backbone.latentTokenId) 0 current
  let draftInputIds ← assignIndex
    (List.replicate maxProposalTokens ev.backbone.maskTokenId) 0 current
  let (out, cache) ← ev.backbone.forwardMyspecDraftBlock () draftLatentInputIds draftInputIds
    positionIds context.pastKeyValuesDraft context.targetHiddenStates start maxProposalTokens
  let proposal := ev.heads.buildMyspecProposal ev.sampler current out.blockHidden
    maxProposalTokens ev.confidenceThreshold
    ((List.range maxProposalTokens).map (ev.draftDraws start))
  return (proposal.toDraftProposal, { context with pastKeyValuesDraft := cache })

/-- The three callbacks. -/
def drafter (maxProposalTokens : ℕ) : Drafter V K H (MySpecContext F) where
  initContext := fun output _ _ _ => ev.initContext output
  propose := fun context outputIds positionIds start _ =>
    ev.propose maxProposalTokens context outputIds positionIds start
  update := ev.update

end MySpecEvaluator

/-! ### The invariant -/

section Invariant
variable (cfg : DecodingConfig V K H Ω) (ev : MySpecEvaluator V K H F Hd St Ω)

/-- The target feature of position `p`: the hidden state of a target that has read the
output up to it. -/
def MySpecEvaluator.feature (outputIds : List (Fin V)) (p : ℕ) : F :=
  ev.extractContextFeature (cfg.targetModel.hidden (outputIds.take (p + 1)).zipIdx)

/-- **The draft half of the loop invariant**: the draft cache holds the context of the
first `c` positions and nothing else, and the pending features cover the positions from
`c` up to `start`. -/
structure DraftCached (s : LoopState V (MySpecContext F)) (c : ℕ) : Prop where
  le_start : c ≤ s.start
  contextOnly : ev.backbone.ContextOnly s.context.pastKeyValuesDraft
    (ev.feature cfg s.outputIds) c
  pending : s.context.targetHiddenStates =
    (List.range' c (s.start - c)).map (ev.feature cfg s.outputIds)

/-- **The loop invariant of the MySpec evaluator.** -/
structure MyspecInv (N : ℕ) (s : LoopState V (MySpecContext F)) : Prop where
  cached : s.Cached N
  draft : ∃ c, DraftCached cfg ev s c

end Invariant

section Step
variable {cfg : DecodingConfig V K H Ω} {ev : MySpecEvaluator V K H F Hd St Ω}
  {s : LoopState V (MySpecContext F)} {N c : ℕ}

/-- Features of positions a longer output shares. -/
theorem feature_congr {outputIds outputIds' : List (Fin V)} {n p : ℕ}
    (h : outputIds'.take n = outputIds.take n) (hp : p < n) :
    ev.feature cfg outputIds' p = ev.feature cfg outputIds p := by
  have htake := congrArg (List.take (p + 1)) h
  rw [List.take_take, List.take_take, Nat.min_eq_left hp] at htake
  rw [MySpecEvaluator.feature, htake, MySpecEvaluator.feature]

theorem MySpecBackbone.ContextOnly.congr {model : MySpecBackbone V F Unit Hd}
    {cache : DraftCache F Unit} {feature feature' : ℕ → F} {n : ℕ}
    (h : model.ContextOnly cache feature n) (hcongr : ∀ p < n, feature' p = feature p) :
    model.ContextOnly cache feature' n := by
  intro layer hlayer
  rw [h layer hlayer, contextKeys, contextKeys]
  refine List.map_congr_left fun p hp => ?_
  rw [hcongr p (by simpa using hp)]

variable [IsStrictOrderedRing K] [NeZero V]

/-- The drafted block is a well-formed proposal. -/
theorem buildMyspecProposal_wellFormed (heads : MySpecHeads V K Hd St)
    (sampler : TokenSampler V K Ω) (current : Fin V) (hidden : List Hd) {blockSize : ℕ}
    (hhidden : hidden.length = blockSize) (threshold : K) (draws : ℕ → Ω) :
    (heads.buildMyspecProposal sampler current hidden blockSize threshold
      ((List.range blockSize).map draws)).toDraftProposal.WellFormed blockSize current := by
  have hdraws : ((List.range blockSize).map draws).length = blockSize := by simp
  obtain ⟨hcount, hids, hprobs⟩ := heads.buildMyspecProposal_spec sampler current hhidden threshold
    hdraws
  have hlen : (DrawLaw.seqDraw (heads.drawDraft sampler hidden current) []
      ((List.range blockSize).map draws)).length = blockSize := by
    rw [DrawLaw.length_seqDraw, hdraws]
  have hkept := ChainLaw.kept_le_length (heads.cutAfter hidden current threshold) []
    (DrawLaw.seqDraw (heads.drawDraft sampler hidden current) []
      ((List.range blockSize).map draws))
  refine ⟨by rw [hcount]; omega, by rw [hids]; rfl, ?_, fun hpos => ?_⟩
  · rw [hids, hcount, List.length_cons, List.length_take]
    omega
  · rw [hcount] at hpos ⊢
    exact ⟨_, hprobs hpos, by simp⟩

/-- **A proposal.**  From the invariant `_propose` raises nothing, its block forward
leaves the draft cache with the context up to `start`, and the proposal is well formed. -/
theorem DraftCached.propose_ok (h : DraftCached cfg ev s c) {maxProposalTokens : ℕ}
    {current : Fin V} (hcur : s.outputIds[s.start]? = some current)
    (hlatent : 1 ≤ ev.backbone.numLatentTokens) (hmax : 1 ≤ maxProposalTokens)
    (hroom : s.start + max ev.backbone.numLatentTokens maxProposalTokens ≤ N) :
    ∃ proposal cache, ev.backbone.ContextOnly cache (ev.feature cfg s.outputIds) s.start ∧
      proposal.WellFormed maxProposalTokens current ∧
      ev.propose maxProposalTokens s.context s.outputIds (List.range N) s.start =
        .ok (proposal, { s.context with pastKeyValuesDraft := cache }) := by
  have hassign : ∀ (n : ℕ) (token : Fin V), 1 ≤ n →
      ∃ ids : List (Fin V), ids.length = n ∧
        assignIndex (List.replicate n token) 0 current = .ok ids := by
    intro n token hn
    exact ⟨_, by simp, if_pos (by rw [List.length_replicate]; omega)⟩
  obtain ⟨latentIds, hlatentLen, hlatentIds⟩ :=
    hassign _ ev.backbone.latentTokenId hlatent
  obtain ⟨ids, hidsLen, hids⟩ := hassign _ ev.backbone.maskTokenId hmax
  obtain ⟨cache, hcache, hforward⟩ := ev.backbone.forwardMyspecDraftBlock_ok ()
    h.contextOnly h.le_start hlatentLen hidsLen hroom
  refine ⟨_, cache, hcache, buildMyspecProposal_wellFormed ev.heads ev.sampler current
    (ev.backbone.blockForward () (ev.feature cfg s.outputIds) latentIds ids s.start
      maxProposalTokens).blockHidden ?_ ev.confidenceThreshold (ev.draftDraws s.start), ?_⟩
  · rw [MySpecBackbone.blockForward, ev.backbone.length_network, hidsLen]
  · unfold MySpecEvaluator.propose
    simp only [hcur, hlatentIds, hids, h.pending, hforward, bind, Except.bind, pure, Except.pure]

/-- Without latent tokens `_propose` raises before it drafts. -/
theorem MySpecEvaluator.propose_of_no_latents (h : ev.backbone.numLatentTokens = 0)
    (maxProposalTokens : ℕ) (context : MySpecContext F) (outputIds : List (Fin V))
    (positionIds : List ℕ) (start : ℕ) :
    ev.propose maxProposalTokens context outputIds positionIds start = .error .index := by
  unfold MySpecEvaluator.propose
  rw [h]
  cases outputIds[start]? <;> rfl

/-- **The pending features after a round** are those of the verified positions. -/
theorem pending_advance (cfg : DecodingConfig V K H Ω) (ev : MySpecEvaluator V K H F Hd St Ω)
    (hs : s.Cached N) {current : Fin V} (hcur : s.outputIds[s.start]? = some current)
    {x : List (Fin V)} {rows : List (Probs V K)}
    (hrows : rows.length = x.length) (draws : VerifyDraws K Ω) (outputIds' : List (Fin V))
    (hout : ∀ j ≤ (verifyResult cfg s.cache ((current :: x).zipIdx s.start) x rows
        draws).acceptedDraftTokens,
      outputIds'.take (s.start + j + 1) = s.outputIds.take (s.start + 1) ++ x.take j)
    (context : MySpecContext F) :
    let v := verifyResult cfg s.cache ((current :: x).zipIdx s.start) x rows draws
    (ev.update context v).targetHiddenStates =
      (List.range' s.start (v.acceptedDraftTokens + 1)).map (ev.feature cfg outputIds') := by
  intro v
  have hacc : v.acceptedDraftTokens ≤ x.length := verifyResult_accepted_le cfg s.cache _ hrows draws
  have hstart : (s.outputIds.take s.start).length = s.start := by
    rw [List.length_take, hs.length]
    exact Nat.min_eq_left hs.start_lt.le
  have hhidden : v.targetOutput.hiddenStates = (List.range (x.length + 1)).map fun j =>
      cfg.targetModel.hidden (s.cache ++ ((current :: x).zipIdx s.start).take (j + 1)) := rfl
  rw [MySpecEvaluator.update, hhidden]
  simp only [List.map_map]
  rw [← List.map_take, List.take_range, Nat.min_eq_left (by omega), List.range'_eq_map_range,
    List.map_map]
  refine List.map_congr_left fun j hj => ?_
  have hj' : j ≤ v.acceptedDraftTokens := by
    have := List.mem_range.mp hj
    omega
  have hkeys := zipIdx_append_take (s.outputIds.take s.start) current x j
  rw [hstart, ← hs.cache, ← s.take_current hcur, ← hout j hj'] at hkeys
  simp only [Function.comp_apply, MySpecEvaluator.feature, hkeys]

/-- **The step lemma.**  An iteration that goes on keeps the invariant: the draft cache
then holds the context up to the old `start`, and the pending features cover what the
round has verified. -/
theorem MyspecInv.iteration {draws : LoopDraws K Ω} {s' : LoopState V (MySpecContext F)}
    (hs : MyspecInv cfg ev N s) (hmax : 1 ≤ cfg.maxProposalTokens)
    (hroom : s.start + cfg.maxProposalTokens + 2 ≤ N)
    (hlatent : ev.backbone.numLatentTokens ≤ cfg.maxProposalTokens + 1)
    (hok : iteration cfg (ev.drafter cfg.maxProposalTokens) draws (List.range N) s =
      .ok (s', false)) : MyspecInv cfg ev N s' := by
  obtain ⟨hcached, c, hdraft⟩ := hs
  obtain ⟨current, hcur⟩ : ∃ current, s.outputIds[s.start]? = some current :=
    ⟨_, List.getElem?_eq_getElem (by have := hcached.length; have := hcached.start_lt; omega)⟩
  rcases Nat.eq_zero_or_pos ev.backbone.numLatentTokens with hzero | hpos
  · have herror : (ev.drafter cfg.maxProposalTokens).propose s.context s.outputIds (List.range N)
        s.start cfg.stopTokenIds = .error .index :=
      ev.propose_of_no_latents hzero _ _ _ _ _
    simp only [LatentSpec.iteration, herror, bind, Except.bind] at hok
    cases hok
  obtain ⟨proposal, cache, hcache, hwf, hpropose⟩ := hdraft.propose_ok (N := N) hcur hpos hmax
    (by omega)
  obtain ⟨x, rows, -, hrows, hx, hiter⟩ := iteration_eq cfg (ev.drafter cfg.maxProposalTokens)
    draws ⟨hcached.length, hroom, hcur⟩ hpropose hwf
  have hpending := pending_advance cfg ev hcached hcur hrows
    (draws.round s.proposalLengths.length) s'.outputIds
  have hacc := verifyResult_accepted_le cfg s.cache ((current :: x).zipIdx s.start) hrows
    (draws.round s.proposalLengths.length)
  rw [hiter, Except.ok.injEq] at hok
  generalize verifyResult cfg s.cache ((current :: x).zipIdx s.start) x rows
    (draws.round s.proposalLengths.length) = v at hok hpending hacc
  have hstop : v.terminatedByStopToken = false := by
    by_contra hstop
    rw [Bool.not_eq_false] at hstop
    simp only [LoopState.advance, hstop, if_true, Prod.mk.injEq] at hok
    exact absurd hok.2 (by decide)
  have hroom' : s.start + x.length + 2 ≤ N := by omega
  obtain ⟨-, -, htake⟩ := LoopState.take_advance (ev.drafter cfg.maxProposalTokens).update
    { s.context with pastKeyValuesDraft := cache } cfg.stopTokenIds hcached.length hcur hacc hroom'
    (s.cache ++ (current :: x).zipIdx s.start)
  have hcached' := hcached.advance (ev.drafter cfg.maxProposalTokens).update
    { s.context with pastKeyValuesDraft := cache } cfg.stopTokenIds hcur hacc hroom' hstop
  have hs' := congrArg Prod.fst hok
  simp only at hs'
  rw [hs'] at htake hcached'
  have hstart' : s'.start = s.start + (v.acceptedDraftTokens + 1) := by
    rw [← hs']
    simp only [LoopState.advance, hstop, Bool.false_eq_true, if_false]
  have hcontext' : s'.context =
      ev.update { s.context with pastKeyValuesDraft := cache } v := by
    rw [← hs']
    simp only [LoopState.advance, hstop, Bool.false_eq_true, if_false]
    rfl
  -- up to the accepted run the new output is the old one followed by the proposed tokens
  have hout : ∀ j ≤ v.acceptedDraftTokens,
      s'.outputIds.take (s.start + j + 1) = s.outputIds.take (s.start + 1) ++ x.take j := by
    intro j hj
    have hlen : (s.outputIds.take (s.start + 1)).length = s.start + 1 := by
      rw [List.length_take, hcached.length]
      omega
    rw [hstop, if_neg Bool.false_ne_true] at htake
    have hsplit : (s.outputIds.take (s.start + 1) ++
        (x.take v.acceptedDraftTokens ++ [v.nextToken])).take (s.start + j + 1) =
        s.outputIds.take (s.start + 1) ++ x.take j := by
      rw [show s.start + j + 1 = (s.outputIds.take (s.start + 1)).length + j by omega,
        List.take_length_add_append,
        List.take_append_of_le_length (by rw [List.length_take]; omega), List.take_take,
        Nat.min_eq_left hj]
    rw [← hsplit, ← htake, List.take_take, Nat.min_eq_left (by omega)]
  refine ⟨hcached', s.start, by omega, ?_, ?_⟩
  · have hcongr : s'.outputIds.take s.start = s.outputIds.take s.start := by
      have := congrArg (List.take s.start) (hout 0 (Nat.zero_le _))
      simpa [List.take_take] using this
    rw [hcontext']
    exact hcache.congr fun p hp => feature_congr hcongr hp
  · rw [hcontext', hpending hout, hstart', Nat.add_sub_cancel_left]

end Step

/-! ### The run -/

section Run
variable (cfg : DecodingConfig V K H Ω) (ev : MySpecEvaluator V K H F Hd St Ω)
  [IsStrictOrderedRing K] [NeZero V]

omit [IsStrictOrderedRing K] [NeZero V] in
/-- The loop starts with an empty draft cache and the features of the prompt. -/
theorem startState_draftCached (inputIds : List (Fin V)) (first : Fin V) (tail : List (Fin V))
    (drafter : Drafter V K H (MySpecContext F))
    (hdrafter : ∀ output ids positions n, drafter.initContext output ids positions n =
      ev.initContext output) :
    DraftCached cfg ev (cfg.startState drafter inputIds first tail) 0 := by
  refine ⟨Nat.zero_le _, ?_, ?_⟩
  · intro layer _
    simp only [DecodingConfig.startState, hdrafter]
    rfl
  · simp only [DecodingConfig.startState, hdrafter, MySpecEvaluator.initContext,
      DecodingConfig.prefillOutput, List.map_map, Nat.sub_zero, ← List.range_eq_range']
    refine List.map_congr_left fun j hj => ?_
    have hj' := List.mem_range.mp hj
    rw [Function.comp_apply, MySpecEvaluator.feature, take_zipIdx,
      List.take_append_of_le_length (by omega)]

/-- The states in which the evaluator's run of `generate_decoding_sample` tests its loop
condition. -/
def MySpecEvaluator.LoopTop (draws : LoopDraws K Ω) (fresh : ℕ → Fin V) (inputIds : List (Fin V))
    (s : LoopState V (MySpecContext F)) : Prop :=
  ∃ s₀, prefill cfg (ev.drafter cfg.maxProposalTokens) draws fresh inputIds = .ok (.inr s₀) ∧
    WhileLoop.AtTop (LoopState.running (inputIds.length + cfg.maxNewTokens))
      (iteration cfg (ev.drafter cfg.maxProposalTokens) draws (cfg.positionIds inputIds)) s₀ s

variable {cfg ev} {draws : LoopDraws K Ω} {fresh : ℕ → Fin V} {inputIds : List (Fin V)}
  {s : LoopState V (MySpecContext F)}

/-- **The run lemma**: the invariant holds at the top of every iteration. -/
theorem MySpecEvaluator.LoopTop.inv (h : ev.LoopTop cfg draws fresh inputIds s)
    (hprompt : inputIds ≠ []) (hmax : 1 ≤ cfg.maxProposalTokens)
    (hlatent : ev.backbone.numLatentTokens ≤ cfg.maxProposalTokens + 1) :
    MyspecInv cfg ev (inputIds.length + cfg.maxNewTokens + cfg.maxProposalTokens + 1) s := by
  obtain ⟨s₀, hprefill, htop⟩ := h
  obtain ⟨tail, hlen, hprefill'⟩ := prefill_eq cfg (ev.drafter cfg.maxProposalTokens) draws fresh
    hprompt
  rw [hprefill', Except.ok.injEq] at hprefill
  have hstart : s₀ = cfg.startState (ev.drafter cfg.maxProposalTokens) inputIds
      (cfg.firstToken inputIds draws.first) tail := by
    split at hprefill
    · cases hprefill
    · exact (Sum.inr.inj hprefill).symm
  refine htop.inv ?_ fun s s' hs hrun hok => ?_
  · rw [hstart]
    exact ⟨cfg.startState_cached _ inputIds _ hlen, 0,
      startState_draftCached cfg ev inputIds _ tail _ fun _ _ _ _ => rfl⟩
  · have hlt : s.start < inputIds.length + cfg.maxNewTokens := of_decide_eq_true hrun
    exact hs.iteration hmax (by omega) hlatent hok

end Run

section Caches
variable [IsStrictOrderedRing K] [NeZero V]

/-- **The caches at the top of an iteration.**  In every run of the evaluator the target
cache holds exactly the keys of the output before `start`; the draft cache holds the
context of some first `c` positions and nothing else, and the pending features cover the
positions from `c` up to `start`.  While the loop runs, the block forward then leaves the
draft cache with the context up to `start`, every slice of the position ids has its full
width, every write of the round stays inside the output, and the iteration raises
nothing. -/
theorem myspecLoop_caches (cfg : DecodingConfig V K H Ω) (ev : MySpecEvaluator V K H F Hd St Ω)
    (draws : LoopDraws K Ω) (fresh : ℕ → Fin V) (inputIds : List (Fin V)) (hprompt : inputIds ≠ [])
    (hmax : 1 ≤ cfg.maxProposalTokens)
    (hlatent : ev.backbone.numLatentTokens ≤ cfg.maxProposalTokens + 1)
    (s : LoopState V (MySpecContext F)) (hs : ev.LoopTop cfg draws fresh inputIds s) :
    s.cache.length = s.start ∧ s.cache = (s.outputIds.take s.start).zipIdx ∧
    ∃ c ≤ s.start, s.context.pastKeyValuesDraft.getSeqLength = c ∧
      ev.backbone.ContextOnly s.context.pastKeyValuesDraft (ev.feature cfg s.outputIds) c ∧
      s.context.targetHiddenStates =
        (List.range' c (s.start - c)).map (ev.feature cfg s.outputIds) ∧
      (s.running (inputIds.length + cfg.maxNewTokens) = true →
        (∀ latentIds ids : List (Fin V), latentIds.length = ev.backbone.numLatentTokens →
          ids.length = cfg.maxProposalTokens →
          ∃ out cache', ev.backbone.forwardMyspecDraftBlock () latentIds ids
              (cfg.positionIds inputIds) s.context.pastKeyValuesDraft s.context.targetHiddenStates
              s.start cfg.maxProposalTokens = .ok (out, cache') ∧
            cache'.getSeqLength = s.start ∧
            ev.backbone.ContextOnly cache' (ev.feature cfg s.outputIds) s.start) ∧
        (slice (cfg.positionIds inputIds) c s.start).length = s.start - c ∧
        (slice (cfg.positionIds inputIds) s.start
          (s.start + ev.backbone.numLatentTokens)).length = ev.backbone.numLatentTokens ∧
        (slice (cfg.positionIds inputIds) s.start
          (s.start + cfg.maxProposalTokens)).length = cfg.maxProposalTokens ∧
        (∀ count ≤ cfg.maxProposalTokens,
          (slice (cfg.positionIds inputIds) s.start (s.start + (count + 1))).length = count + 1 ∧
          s.start + count + 1 < s.outputIds.length) ∧
        (1 ≤ ev.backbone.numLatentTokens → ∃ next, iteration cfg
          (ev.drafter cfg.maxProposalTokens) draws (cfg.positionIds inputIds) s = .ok next)) := by
  obtain ⟨hcached, c, hdraft⟩ := hs.inv hprompt hmax hlatent
  have hlen := hcached.length
  have hlt := hcached.start_lt
  refine ⟨?_, hcached.cache, c, hdraft.le_start, hdraft.contextOnly.getSeqLength_eq,
    hdraft.contextOnly, hdraft.pending, fun hrun => ?_⟩
  · rw [hcached.cache, List.length_zipIdx, List.length_take]
    omega
  have hrun' : s.start < inputIds.length + cfg.maxNewTokens := of_decide_eq_true hrun
  have hwidth : ∀ a b, b ≤ inputIds.length + cfg.maxNewTokens + cfg.maxProposalTokens + 1 →
      (slice (cfg.positionIds inputIds) a b).length = b - a := by
    intro a b hb
    rw [length_slice, DecodingConfig.positionIds, List.length_range]
    omega
  refine ⟨fun latentIds ids hlatentIds hids => ?_, hwidth _ _ (by omega), ?_, ?_,
    fun count hcount => ⟨?_, by omega⟩, fun hpos => ?_⟩
  · obtain ⟨cache', hcache', hforward⟩ := ev.backbone.forwardMyspecDraftBlock_ok ()
      hdraft.contextOnly hdraft.le_start hlatentIds hids
      (N := inputIds.length + cfg.maxNewTokens + cfg.maxProposalTokens + 1) (by omega)
    rw [← hdraft.pending] at hforward
    exact ⟨_, cache', hforward, hcache'.getSeqLength_eq, hcache'⟩
  · rw [hwidth _ _ (by omega)]
    omega
  · rw [hwidth _ _ (by omega)]
    omega
  · rw [hwidth _ _ (by omega)]
    omega
  · obtain ⟨current, hcur⟩ : ∃ current, s.outputIds[s.start]? = some current :=
      ⟨_, List.getElem?_eq_getElem (by omega)⟩
    obtain ⟨proposal, cache, -, hwf, hpropose⟩ := hdraft.propose_ok
      (N := inputIds.length + cfg.maxNewTokens + cfg.maxProposalTokens + 1) hcur hpos
        hmax (by omega)
    obtain ⟨x, rows, -, -, -, hiter⟩ := iteration_eq cfg (ev.drafter cfg.maxProposalTokens) draws
      ⟨hlen, by omega, hcur⟩ hpropose hwf
    exact ⟨_, hiter⟩

end Caches

/-- A target that repeats its last token, decoded four tokens at a time. -/
def echoConfig : DecodingConfig 4 ℚ ℕ (Set.Ico (0 : ℚ) 1) where
  targetModel := ⟨fun seen t => if seen.getLast?.map Prod.fst = some t then 1 else 0, List.length⟩
  softmax _ := oneHot (Fin.last 3)
  multinomial := .inverseCdf
  temperature := 0
  maxNewTokens := 4
  maxProposalTokens := 3
  stopTokenIds := none

/-- A draft model with two latent tokens, one latent and one mask layer. -/
def echoEvaluator : MySpecEvaluator 4 ℚ ℕ ℕ Unit Unit (Set.Ico (0 : ℚ) 1) where
  backbone :=
    { numLatentLayers := 1
      numHiddenLayers := 1
      numLatentTokens := 2
      latentTokenId := Fin.last 3
      maskTokenId := Fin.last 3
      layers_pos := by decide
      network := fun _ ids _ _ => ids.map fun _ => ()
      length_network := fun _ _ _ _ => List.length_map _ }
  heads := ⟨fun _ _ => 0, none, none, id⟩
  sampler := ⟨fun _ => oneHot (Fin.last 3), .inverseCdf, 0⟩
  extractContextFeature := id
  confidenceThreshold := 0
  draftDraws := fun _ _ => ⟨0, by norm_num⟩

/-- The first iteration on a prompt of two tokens: nothing is cached yet, both features
are pending, and the block forward leaves both in the cache. -/
theorem myspecLoop_caches_echo :
    ∃ s : LoopState 4 (MySpecContext ℕ), s.start = 2 ∧ s.cache.length = 2 ∧
      s.context.targetHiddenStates = [1, 2] ∧
      ∃ out cache', echoEvaluator.backbone.forwardMyspecDraftBlock () [1, 0] [1, 1, 1]
          (echoConfig.positionIds [0, 1]) s.context.pastKeyValuesDraft
          s.context.targetHiddenStates 2 3 = .ok (out, cache') ∧ cache'.getSeqLength = 2 := by
  obtain ⟨tail, -, hprefill⟩ := prefill_eq echoConfig (echoEvaluator.drafter 3)
    ⟨⟨0, by norm_num⟩, fun _ => ⟨fun _ => 0, ⟨0, by norm_num⟩⟩⟩ (fun _ => 0)
    (show [(0 : Fin 4), 1] ≠ [] by decide)
  obtain ⟨hlen, -, c, -, -, -, -, hrun⟩ := myspecLoop_caches echoConfig echoEvaluator _ _ [0, 1]
    (by decide) (by decide) (by decide) _ ⟨_, hprefill, .start⟩
  obtain ⟨out, cache', hforward, hcache, -⟩ := (hrun rfl).1 [1, 0] [1, 1, 1] rfl rfl
  exact ⟨_, rfl, hlen, rfl, out, cache', hforward, hcache⟩

end LatentSpec
