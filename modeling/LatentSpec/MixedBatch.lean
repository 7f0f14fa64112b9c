import LatentSpec.DraftTemperature
import LatentSpec.DsparkAccept
import LatentSpec.SparseTargetProbs

/-! # Batches that mix greedy and sampled requests

When some request of a batch is greedy, LatentSpec drafts every row from dense probabilities, puts
a greedy row's whole mass on its argmax, and verifies all requests with the chain kernel.  A
greedy request then commits what the greedy verifier commits (`GreedyRows.verify_eq`): its rows
`p` and `q` are both concentrated on one token, so a test passes exactly if the two tokens agree,
and both the residual and the last row leave the target's token only.

A sampled request's rows of `p` are cut by a plan made for the whole batch.  Two batches give it
the same result when no row ties at its own `top_k` (`SameRequest.verify_eq`); with a tie they need
not (`tie_differs`).
-/
namespace LatentSpec
open Softmax RenormRows LeadingRun TiledStores Categorical
open scoped Coins

variable {V : ℕ} [NeZero V]

/-- One step of a batch: its requests, the logits of the draft and of the target, and the draws. -/
structure MixedBatch (V : ℕ) where
  bs : ℕ
  numProposals : ℕ
  params : ℕ → SamplingParams
  currentToken : ℕ → Fin V
  draftLogits : ℕ → ℕ → Fin V → ℝ
  targetLogits : ℕ → ℕ → LogitRow V
  draftUniforms : ℕ → Set.Ico (0 : ℝ) 1
  uniformSamples : ℕ → ℕ → Set.Ico (0 : ℝ) 1
  uniformSamplesFinal : ℕ → Set.Ico (0 : ℝ) 1
  prefixLens : ℕ → ℕ

/-- What the buffers of a step held before. -/
structure StaleBuffers where
  blockSums : ℕ → ℝ
  tokens : ℕ → ℤ
  kernel : KernelMemory

namespace MixedBatch
variable (x : MixedBatch V)

/-! ### Drafting -/

/-- The draft's row of a slot. -/
def draftScores (b i : ℕ) (v : Fin V) : WithBot ℝ := (x.draftLogits b i v : WithBot ℝ)

/-- `sample_probs` -/
noncomputable def sampleProbs (b i : ℕ) : Fin V → ℝ :=
  softmax (divTemp (SampledBatch.clampMin (x.params b).temperature) (x.draftScores b i))

/-- What `_sample_latentspec_categorical_cuda` is launched on. -/
noncomputable def categoricalArgs : CategoricalArgs V ℝ where
  probs row := x.sampleProbs (row / x.numProposals) (row % x.numProposals)
  uniforms := x.draftUniforms
  numRows := x.bs * x.numProposals
  blockSize := 4096
  blockSize_pos := Nat.succ_pos 4095

/-- `greedy_mask` -/
def greedyMask (b : ℕ) : Bool := decide ((x.params b).topK ≤ 1)

/-- `argmax_tokens` -/
noncomputable def argmaxTokens (b i : ℕ) : Fin V := argmaxScore (x.draftScores b i)

/-- `sample_latentspec_draft_tokens`: the tokens. -/
noncomputable def tokens (stale : StaleBuffers) (b i : ℕ) : ℤ :=
  let sampledTokens := x.categoricalArgs.tokens stale.blockSums stale.tokens
    (b * x.numProposals + i)
  if (samplingFlags x.bs x.params).isAnyGreedy then
    if x.greedyMask b then ((x.argmaxTokens b i).val : ℤ) else sampledTokens
  else sampledTokens

/-- `sample_latentspec_draft_tokens`: the rows of `q`. -/
noncomputable def draftProbs (b i : ℕ) (v : Fin V) : ℝ :=
  if (samplingFlags x.bs x.params).isAnyGreedy then
    x.sampleProbs b i v * (if x.greedyMask b then 0 else 1) +
      if v = x.argmaxTokens b i then (if x.greedyMask b then 1 else 0) else 0
  else x.sampleProbs b i v

/-! ### Verifying -/

/-- A token id read as an index. -/
def tokenIndex (t : ℤ) : Fin V := Fin.ofNat V t.toNat

/-- `candidates`: the current token, then the drafts. -/
noncomputable def candidates (stale : StaleBuffers) (b : ℕ) : ℕ → Fin V
  | 0 => x.currentToken b
  | i + 1 => tokenIndex (x.tokens stale b i)

/-- `target_probs` of `_accept_sampling_core`. -/
noncomputable def targetProbs (B : RenormBackend) (T : TorchTopk V) (b i : ℕ) : Fin V → ℝ :=
  let flags := samplingFlags x.bs x.params
  if !flags.needTopKSampling && !flags.needTopPSampling then
    softmax (divTemp (x.params b).temperature (x.targetLogits b i).score)
  else
    verifyTargetRow B T true flags (prepareTopK x.bs x.params) (x.params b)
      (x.targetLogits b i).score

/-- What the chain kernel is launched on. -/
noncomputable def kernelArgs (B : RenormBackend) (T : TorchTopk V) (stale : StaleBuffers) :
    KernelArgs V ℝ where
  candidates := x.candidates stale
  retriveIndex b i := b * (x.numProposals + 1) + i
  uniformSamples b i := x.uniformSamples b i
  uniformSamplesFinal b := x.uniformSamplesFinal b
  targetProbs := x.targetProbs B T
  draftProbs := x.draftProbs
  numSlots := x.numProposals + 1
  blockV := 4096

/-- The batch as the greedy verifier would see it. -/
noncomputable def greedyBlock (stale : StaleBuffers) : GreedyBlock where
  candidates b i := (x.candidates stale b i).val
  targetPredict b i := (argmaxScore (x.targetLogits b i).score).val
  prefixLens := x.prefixLens
  blockSize := x.numProposals + 1

/-- **The step of one request**: the chain kernel, the gather of the bonus and `_commit_accept`. -/
noncomputable def verify (B : RenormBackend) (T : TorchTopk V) (stale : StaleBuffers) (b : ℕ) :
    AcceptOutput :=
  let mem := (x.kernelArgs B T stale).launch x.bs stale.kernel
  let correctLen := mem.acceptTokenNum b
  let bonus : ℤ := mem.predicts (mem.acceptIndex b correctLen)
  let committed := (x.greedyBlock stale).commitAccept b correctLen bonus
  { acceptLen := correctLen
    bonus := bonus
    commitLen := committed.2
    outTokens := committed.1
    newSeqLen := x.prefixLens b + committed.2 }

/-! ### What the kernel finds -/

variable {x} {platform : RenormPlatform} {B : RenormBackend} {T : TorchTopk V}
variable {stale : StaleBuffers} {b : ℕ}

/-- The step of a request in terms of its own accepted length and final token. -/
theorem verify_eq (hb : b < x.bs) : x.verify B T stale b =
    { acceptLen := (x.kernelArgs B T stale).accepted b
      bonus := (x.kernelArgs B T stale).finalToken b
      commitLen := (x.kernelArgs B T stale).accepted b + 1
      outTokens := ((x.greedyBlock stale).commitAccept b ((x.kernelArgs B T stale).accepted b)
        ((x.kernelArgs B T stale).finalToken b)).1
      newSeqLen := x.prefixLens b + ((x.kernelArgs B T stale).accepted b + 1) } := by
  have hinj : (x.kernelArgs B T stale).RetriveInjective x.bs := by
    intro pid i pid' i' _ _ hi hi' heq
    exact block_inj hi hi' heq
  have hstored := KernelArgs.launch_stored (a := x.kernelArgs B T stale) (Nat.succ_pos _) hinj
    stale.kernel hb
  have hbonus := hstored.final
  rw [← hstored.index _ le_rfl] at hbonus
  unfold verify
  simp only [hstored.num, hbonus]
  rfl

/-! ### Greedy requests -/

omit [NeZero V] in
/-- A row with all its mass on one token yields that token. -/
theorem searchFrom_oneHot (t : Fin V) (u : Set.Ico (0 : ℝ) 1) :
    searchFrom 0 (List.ofFn fun v => if v = t then (1 : ℝ) else 0)
      (u * ∑ v, if v = t then (1 : ℝ) else 0) = some t.val := by
  have hsum : ∑ v, (if v = t then (1 : ℝ) else 0) = 1 := by
    rw [Finset.sum_ite_eq', if_pos (Finset.mem_univ t)]
  obtain ⟨s, hs⟩ := exists_searchFrom_ofFn (w := fun v => if v = t then (1 : ℝ) else 0)
    (by rw [hsum]; exact one_pos) u
  have hws : ∀ w ∈ List.ofFn (fun v => if v = t then (1 : ℝ) else 0), 0 ≤ w := by
    intro w hw
    obtain ⟨v, rfl⟩ := List.mem_ofFn.mp hw
    split
    · exact zero_le_one
    · exact le_rfl
  have hlevel : 0 ≤ (u : ℝ) * ∑ v, (if v = t then (1 : ℝ) else 0) := by
    rw [hsum, mul_one]
    exact u.2.1
  have hpos := searchFrom_pos hws hlevel hs (by simp)
  rw [List.getElem_ofFn] at hpos
  by_cases heq : s = t
  · rw [hs, heq]
  · simp [heq] at hpos

/-- The rows of a greedy request in a step: one-hot in both distributions. -/
structure GreedyRows (x : MixedBatch V) (b : ℕ) : Prop where
  greedy : (x.params b).topK ≤ 1
  unique : ∀ i ≤ x.numProposals, ∃ t, UniqueMax (x.targetLogits b i).score t

section Greedy
variable (hb : b < x.bs) (h : x.GreedyRows b)
include hb h

theorem GreedyRows.draftProbs_eq (i : ℕ) :
    x.draftProbs b i = fun v => if v = x.argmaxTokens b i then 1 else 0 := by
  have hmask : x.greedyMask b = true := decide_eq_true h.greedy
  funext v
  rw [draftProbs, if_pos (flags_of_greedy hb h.greedy).1, if_pos hmask, mul_zero, zero_add,
    if_pos hmask]

theorem GreedyRows.candidates_eq (i : ℕ) :
    x.candidates stale b (i + 1) = x.argmaxTokens b i := by
  have hmask : x.greedyMask b = true := decide_eq_true h.greedy
  show tokenIndex (x.tokens stale b i) = _
  rw [tokens, if_pos (flags_of_greedy hb h.greedy).1, if_pos hmask, tokenIndex, Int.toNat_natCast]
  exact Fin.ofNat_val_eq_self _

theorem GreedyRows.targetProbs_eq (hB : B.RunsOn platform) {i : ℕ} (hi : i ≤ x.numProposals) :
    x.targetProbs B T b i =
      fun v => if v = argmaxScore (x.targetLogits b i).score then 1 else 0 := by
  obtain ⟨t, ht⟩ := h.unique i hi
  have hneed := (flags_of_greedy hb h.greedy).2
  have hfinite := (x.targetLogits b i).finite
  have huntied : Untied platform (x.params b) (x.targetLogits b i).score := ht.untied h.greedy
  have hrow := verifyTargetRow_eq T (covers hb) hfinite (hneed ▸ hB.cuts hfinite huntied)
    (fun _ => huntied.topK) true
  rw [hneed] at hrow
  funext v
  simp only [targetProbs, hneed, Bool.not_true, Bool.false_and, Bool.false_eq_true, if_false]
  rw [hrow, ownTargetRow_greedy h.greedy hfinite ht, ht.argmaxScore]

/-- A test passes exactly if the draft is the target's token. -/
theorem GreedyRows.passes_eq (hB : B.RunsOn platform) {i : ℕ} (hi : i < x.numProposals) :
    (x.kernelArgs B T stale).passes b i = decide ((x.greedyBlock stale).candidates b (i + 1) =
      (x.greedyBlock stale).targetPredict b i) := by
  have hcoin := (x.uniformSamples b i).2
  show decide ((x.uniformSamples b i : ℝ) * x.draftProbs b i (x.candidates stale b (i + 1)) <
    x.targetProbs B T b i (x.candidates stale b (i + 1))) =
      decide (((x.candidates stale b (i + 1)).val : ℤ) =
        ((argmaxScore (x.targetLogits b i).score).val : ℤ))
  rw [h.draftProbs_eq hb, h.targetProbs_eq hb hB hi.le, h.candidates_eq hb]
  refine decide_eq_decide.mpr ?_
  dsimp only
  rw [if_pos rfl, mul_one, Nat.cast_inj, Fin.val_inj]
  by_cases heq : x.argmaxTokens b i = argmaxScore (x.targetLogits b i).score
  · rw [if_pos heq]
    exact ⟨fun _ => heq, fun _ => hcoin.2⟩
  · rw [if_neg heq]
    exact ⟨fun hlt => absurd hlt (not_lt.mpr hcoin.1), fun heq' => absurd heq' heq⟩

theorem GreedyRows.accepted_eq (hB : B.RunsOn platform) :
    (x.kernelArgs B T stale).accepted b = (x.greedyBlock stale).acceptLen b := by
  rw [KernelArgs.accepted, GreedyBlock.acceptLen]
  refine congrArg leadingRun (List.map_congr_left fun i hi => ?_)
  exact h.passes_eq hb hB (List.mem_range.mp hi)

/-- Both the last row and a residual leave the target's token only. -/
theorem GreedyRows.weights_eq (hB : B.RunsOn platform) :
    (x.kernelArgs B T stale).weights b = fun v => if v = argmaxScore
      (x.targetLogits b ((x.kernelArgs B T stale).accepted b)).score then 1 else 0 := by
  have hle : (x.kernelArgs B T stale).accepted b ≤ x.numProposals :=
    (x.kernelArgs B T stale).accepted_le b
  have htarget := h.targetProbs_eq (T := T) hb hB hle
  unfold KernelArgs.weights
  by_cases hall : (x.kernelArgs B T stale).accepted b = (x.kernelArgs B T stale).numDrafts
  · rw [if_pos hall]
    exact htarget
  · rw [if_neg hall]
    have hlt : (x.kernelArgs B T stale).accepted b < x.numProposals := by
      have hnum : (x.kernelArgs B T stale).numDrafts = x.numProposals := rfl
      omega
    -- the first draft that is not accepted is not the target's token
    have hfail : x.argmaxTokens b ((x.kernelArgs B T stale).accepted b) ≠
        argmaxScore (x.targetLogits b ((x.kernelArgs B T stale).accepted b)).score := by
      intro heq
      have hrun := (leadingRun_eq_iff.mp
        (show _ = (x.kernelArgs B T stale).accepted b from rfl)).2
      have hlt' : (x.kernelArgs B T stale).accepted b < (x.kernelArgs B T stale).numDrafts := hlt
      refine hrun ?_
      rw [List.getElem?_map, List.getElem?_range hlt', Option.map_some, h.passes_eq hb hB hlt]
      refine congrArg some (decide_eq_true ?_)
      show ((x.candidates stale b _).val : ℤ) = _
      rw [h.candidates_eq hb, heq]
      rfl
    funext v
    show max (x.targetProbs B T b _ v - x.draftProbs b _ v) 0 = _
    rw [htarget, h.draftProbs_eq hb]
    dsimp only
    by_cases hv : v = argmaxScore (x.targetLogits b ((x.kernelArgs B T stale).accepted b)).score
    · rw [if_pos hv, if_neg fun hv' => hfail (hv'.symm.trans hv), sub_zero]
      exact max_eq_left zero_le_one
    · rw [if_neg hv]
      refine max_eq_right ?_
      split <;> norm_num

/-- **A greedy request commits what the greedy verifier commits**, whatever the draws. -/
theorem GreedyRows.verify_eq (hB : B.RunsOn platform) :
    x.verify B T stale b = (x.greedyBlock stale).acceptTorch b := by
  have hacc : (x.kernelArgs B T stale).accepted b = (x.greedyBlock stale).acceptLen b :=
    h.accepted_eq hb hB
  have hweights : (x.kernelArgs B T stale).weights b = fun v => if v = argmaxScore
      (x.targetLogits b ((x.kernelArgs B T stale).accepted b)).score then 1 else 0 :=
    h.weights_eq hb hB
  have hfinal : (x.kernelArgs B T stale).finalToken b =
      (argmaxScore (x.targetLogits b ((x.kernelArgs B T stale).accepted b)).score).val := by
    have hsearch := searchFrom_oneHot
      (argmaxScore (x.targetLogits b ((x.kernelArgs B T stale).accepted b)).score)
      (x.uniformSamplesFinal b)
    have hlevel : 0 ≤ (x.kernelArgs B T stale).uniformSamplesFinal b *
        ∑ v, (x.kernelArgs B T stale).weights b v := by
      rw [hweights, Finset.sum_ite_eq', if_pos (Finset.mem_univ _), mul_one]
      exact (x.uniformSamplesFinal b).2.1
    rw [KernelArgs.finalToken_eq _ _ (show 0 < 4096 by norm_num) hlevel, hweights]
    show (searchFrom 0 _ ((x.uniformSamplesFinal b : ℝ) * _)).getD _ = _
    rw [hsearch]
    rfl
  rw [MixedBatch.verify_eq hb, GreedyBlock.acceptTorch,
    GreedyBlock.correctLenTorch_eq, hfinal, hacc]
  rfl

end Greedy

/-! ### Sampled requests -/

/-- Some request is greedy. -/
def Mixed (x : MixedBatch V) : Prop := ∃ g < x.bs, (x.params g).topK ≤ 1

/-- Two requests, of two batches, with the same parameters, rows and draws. -/
structure SameRequest (x : MixedBatch V) (b : ℕ) (x' : MixedBatch V) (b' : ℕ) : Prop where
  numProposals : x'.numProposals = x.numProposals
  params : x'.params b' = x.params b
  currentToken : x'.currentToken b' = x.currentToken b
  prefixLens : x'.prefixLens b' = x.prefixLens b
  draftLogits : ∀ i < x.numProposals, x'.draftLogits b' i = x.draftLogits b i
  targetLogits : ∀ i ≤ x.numProposals, x'.targetLogits b' i = x.targetLogits b i
  draftUniforms : ∀ i < x.numProposals, x'.draftUniforms (b' * x.numProposals + i) =
    x.draftUniforms (b * x.numProposals + i)
  uniformSamples : ∀ i < x.numProposals, x'.uniformSamples b' i = x.uniformSamples b i
  uniformSamplesFinal : x'.uniformSamplesFinal b' = x.uniformSamplesFinal b

omit [NeZero V] in
theorem Mixed.flags (h : x.Mixed) : (samplingFlags x.bs x.params).isAnyGreedy = true ∧
    (samplingFlags x.bs x.params).needTopKSampling = true := by
  obtain ⟨g, hg, hgreedy⟩ := h
  exact flags_of_greedy hg hgreedy

/-- The draw of a slot. -/
theorem exists_sampled (hb : b < x.bs) {i : ℕ} (hi : i < x.numProposals) (stale : StaleBuffers) :
    ∃ (s : Selection) (t : Fin V), x.categoricalArgs.tokens stale.blockSums stale.tokens
        (b * x.numProposals + i) = t.val ∧
      s.Draws 4096 (x.sampleProbs b i) (x.draftUniforms (b * x.numProposals + i)) t := by
  have hrow : b * x.numProposals + i < x.categoricalArgs.numRows := block_lt hb hi
  have hprobs : x.categoricalArgs.probs (b * x.numProposals + i) = x.sampleProbs b i := by
    show x.sampleProbs _ _ = _
    rw [block_div hi, block_mod hi]
  have hfinite : HasFinite (divTemp (SampledBatch.clampMin (x.params b).temperature)
      (x.draftScores b i)) := hasFinite_divTemp ⟨0, WithBot.coe_ne_bot⟩ _
  have hsum : ∑ v, x.sampleProbs b i v = 1 := sum_softmax hfinite
  obtain ⟨t, ht⟩ := CategoricalArgs.exists_draws (a := x.categoricalArgs) hrow
    (fun v => by rw [hprobs]; exact softmax_nonneg v)
    (by rw [hprobs, hsum]; exact one_pos) stale.blockSums
  rw [hprobs] at ht
  exact ⟨_, t, (load_row _ _ hrow).trans ht.token_eq, ht⟩

section Same
variable {x' : MixedBatch V} {b' : ℕ} (h : x.SameRequest b x' b')
include h

omit [NeZero V] in
theorem SameRequest.sampleProbs_eq {i : ℕ} (hi : i < x.numProposals) :
    x'.sampleProbs b' i = x.sampleProbs b i := by
  have hscores : x'.draftScores b' i = x.draftScores b i := by
    unfold draftScores
    rw [h.draftLogits i hi]
  rw [sampleProbs, sampleProbs, h.params, hscores]

variable (hx : x.Mixed) (hx' : x'.Mixed)
include hx hx'

theorem SameRequest.draftProbs_eq {i : ℕ} (hi : i < x.numProposals) :
    x'.draftProbs b' i = x.draftProbs b i := by
  have hscores : x'.draftScores b' i = x.draftScores b i := by
    unfold draftScores
    rw [h.draftLogits i hi]
  have hmask : x'.greedyMask b' = x.greedyMask b := by rw [greedyMask, greedyMask, h.params]
  funext v
  rw [draftProbs, draftProbs, if_pos hx.flags.1, if_pos hx'.flags.1, h.sampleProbs_eq hi, hmask,
    argmaxTokens, argmaxTokens, hscores]

/-- **The drafts are the same**: a row's draw looks at its own probabilities and uniform. -/
theorem SameRequest.tokens_eq (hb : b < x.bs) (hb' : b' < x'.bs) {i : ℕ} (hi : i < x.numProposals)
    (stale stale' : StaleBuffers) : x'.tokens stale' b' i = x.tokens stale b i := by
  have hscores : x'.draftScores b' i = x.draftScores b i := by
    unfold draftScores
    rw [h.draftLogits i hi]
  have hmask : x'.greedyMask b' = x.greedyMask b := by rw [greedyMask, greedyMask, h.params]
  have hi' : i < x'.numProposals := h.numProposals ▸ hi
  obtain ⟨s, t, htoken, hdraws⟩ := exists_sampled hb hi stale
  obtain ⟨s', t', htoken', hdraws'⟩ := exists_sampled hb' hi' stale'
  have huniform := h.draftUniforms i hi
  rw [h.numProposals] at hdraws'
  rw [h.sampleProbs_eq hi, huniform] at hdraws'
  rw [tokens, tokens, if_pos hx.flags.1, if_pos hx'.flags.1, hmask, argmaxTokens, argmaxTokens,
    hscores, htoken, htoken', hdraws.unique hdraws']

omit [NeZero V] in
theorem SameRequest.targetProbs_eq {B' : RenormBackend} {T' : TorchTopk V}
    (hB : B.RunsOn platform) (hB' : B'.RunsOn platform) (hb : b < x.bs) (hb' : b' < x'.bs) {i : ℕ}
    (hi : i ≤ x.numProposals) (huntied : Untied platform (x.params b) (x.targetLogits b i).score) :
    x'.targetProbs B' T' b' i = x.targetProbs B T b i := by
  have hfinite := (x.targetLogits b i).finite
  have hown : ∀ {C : RenormBackend}, C.RunsOn platform → ∀ (S : TorchTopk V) (y : MixedBatch V)
      (c : ℕ), c < y.bs → y.Mixed → y.params c = x.params b →
      y.targetLogits c i = x.targetLogits b i →
      y.targetProbs C S c i = ownTargetRow true (x.params b) (x.targetLogits b i).score := by
    intro C hC S y c hc hmixed hparams hlogits
    have hneed := hmixed.flags.2
    have hcovers : Covers (samplingFlags y.bs y.params) (prepareTopK y.bs y.params) (y.params c) :=
      covers hc
    rw [hparams] at hcovers
    have hrow := verifyTargetRow_eq S hcovers hfinite (hneed ▸ hC.cuts hfinite huntied)
      (fun _ => huntied.topK) true
    rw [hneed] at hrow
    simp only [targetProbs, hneed, Bool.not_true, Bool.false_and, Bool.false_eq_true, if_false]
    rw [hparams, hlogits, hrow]
  rw [hown hB T x b hb hx rfl rfl, hown hB' T' x' b' hb' hx' h.params (h.targetLogits i hi)]

/-- **Two batches give a request the same result** if no tie decides what it keeps of its target
rows. -/
theorem SameRequest.verify_eq {B' : RenormBackend} {T' : TorchTopk V} (hB : B.RunsOn platform)
    (hB' : B'.RunsOn platform) (hb : b < x.bs) (hb' : b' < x'.bs)
    (huntied : ∀ i ≤ x.numProposals, Untied platform (x.params b) (x.targetLogits b i).score)
    (stale stale' : StaleBuffers) : x'.verify B' T' stale' b' = x.verify B T stale b := by
  have hcandidates : ∀ i < x.numProposals,
      x'.candidates stale' b' (i + 1) = x.candidates stale b (i + 1) := fun i hi =>
    congrArg tokenIndex (h.tokens_eq hx hx' hb hb' hi stale stale')
  have hagree : KernelArgs.AgreeUpTo x.numProposals (x.kernelArgs B T stale) b
      (x'.kernelArgs B' T' stale') b' := by
    refine ⟨congrArg (· + 1) h.numProposals, rfl, congrArg Subtype.val h.uniformSamplesFinal,
      fun i hi _ => h.targetProbs_eq hx hx' hB hB' hb hb' hi (huntied i hi), fun i _ hi => ?_,
      fun i _ hi => ?_, fun i _ hi => ?_⟩
    · exact hcandidates i (Nat.succ_lt_succ_iff.mp hi)
    · exact h.draftProbs_eq hx hx' (Nat.succ_lt_succ_iff.mp hi)
    · exact congrArg Subtype.val (h.uniformSamples i (Nat.succ_lt_succ_iff.mp hi))
  have hle : (x.kernelArgs B T stale).accepted b ≤ x.numProposals :=
    (x.kernelArgs B T stale).accepted_le b
  have hle' : (x'.kernelArgs B' T' stale').accepted b' ≤ x.numProposals :=
    h.numProposals ▸ (x'.kernelArgs B' T' stale').accepted_le b'
  have haccepted :
      (x'.kernelArgs B' T' stale').accepted b' = (x.kernelArgs B T stale).accepted b := by
    have hmin := hagree.min_accepted
    omega
  have hfinal := hagree.finalToken_eq (Nat.succ_pos _) hle
  have hcommit : ∀ len bonus, (x'.greedyBlock stale').commitAccept b' len bonus =
      (x.greedyBlock stale).commitAccept b len bonus := by
    intro len bonus
    have hblock : (x'.greedyBlock stale').blockSize = (x.greedyBlock stale).blockSize :=
      congrArg (· + 1) h.numProposals
    rw [GreedyBlock.commitAccept, GreedyBlock.commitAccept, hblock]
    have hmap : ((List.range ((x.greedyBlock stale).blockSize - 1)).map fun i =>
        (x'.greedyBlock stale').candidates b' (i + 1)) =
          (List.range ((x.greedyBlock stale).blockSize - 1)).map fun i =>
            (x.greedyBlock stale).candidates b (i + 1) := by
      refine List.map_congr_left fun i hi => ?_
      have hcand := hcandidates i (List.mem_range.mp hi)
      show ((x'.candidates stale' b' (i + 1)).val : ℤ) = ((x.candidates stale b (i + 1)).val : ℤ)
      rw [hcand]
    rw [hmap]
  rw [MixedBatch.verify_eq hb, MixedBatch.verify_eq hb', haccepted, hfinal, hcommit, h.prefixLens]

end Same

/-! ### Batches of up to three requests -/

/-- A request with `top_k = 2`, a greedy one, and one that keeps the whole vocabulary. -/
noncomputable def smallParams : ℕ → SamplingParams
  | 0 => ⟨1, 2, 1, Real.zero_lt_one, Nat.one_lt_two.le, Real.zero_lt_one, le_rfl⟩
  | 1 => ⟨1, 1, 1, Real.zero_lt_one, Nat.one_pos, Real.zero_lt_one, le_rfl⟩
  | _ => ⟨1, topKAll, 1, Real.zero_lt_one, Nat.one_le_two_pow, Real.zero_lt_one, le_rfl⟩

/-- The logits of three tokens, the first ahead of the second. -/
noncomputable def smallScores (last : ℝ) : LogitRow 3 where
  score v := ((![Real.log 2, 0, last] v : ℝ) : WithBot ℝ)
  finite := ⟨0, WithBot.coe_ne_bot⟩

/-- The first requests of `smallParams`, with one draft each. -/
noncomputable def smallBatch (bs : ℕ) (last : ℝ) : MixedBatch 3 where
  bs := bs
  numProposals := 1
  params := smallParams
  currentToken _ := 0
  draftLogits _ _ v := if v = 0 then 1 else 0
  targetLogits _ _ := smallScores last
  draftUniforms _ := default
  uniformSamples _ _ := default
  uniformSamplesFinal _ := ⟨9 / 10, by norm_num, by norm_num⟩
  prefixLens _ := 0

def emptyBuffers : StaleBuffers where
  blockSums _ := 0
  tokens _ := 0
  kernel := ⟨fun _ => 0, fun _ _ => 0, fun _ => 0⟩

theorem smallBatch_mixed {bs : ℕ} (hbs : 1 < bs) (last : ℝ) : (smallBatch bs last).Mixed :=
  ⟨1, hbs, le_rfl⟩

theorem smallBatch_same (bs bs' : ℕ) (last : ℝ) :
    (smallBatch bs last).SameRequest 0 (smallBatch bs' last) 0 :=
  ⟨rfl, rfl, rfl, rfl, fun _ _ => rfl, fun _ _ => rfl, fun _ _ => rfl, fun _ _ => rfl, rfl⟩

/-- Only the first token has the largest logit, also when the other two are equal. -/
theorem smallScores_unique {last : ℝ} (hlast : last ≤ 0) :
    UniqueMax (smallScores last).score 0 := by
  have hlog := Real.log_pos one_lt_two
  intro w hw
  refine WithBot.coe_lt_coe.mpr ?_
  fin_cases w
  · exact absurd rfl hw
  · exact hlog
  · exact hlast.trans_lt hlog

theorem smallDraft_unique (bs : ℕ) (last : ℝ) (b i : ℕ) :
    UniqueMax ((smallBatch bs last).draftScores b i) 0 := by
  intro w hw
  refine WithBot.coe_lt_coe.mpr ?_
  simp only [smallBatch, if_neg hw, if_true]
  exact one_pos

/-- **Greedy and sampled requests do not interfere.**  In a mixed batch whose target rows have a
unique maximum, a greedy request commits what the greedy verifier commits, and a sampled request
gets the same drafts and the same result in every other mixed batch it could be in, unless a tie
decides what is kept of one of its own rows.  The platform renormalises by a kernel that keeps all
ties at its pivot, or by the torch fallback, where ties at the own `top_p` count as well. -/
theorem mixed_noninterference {platform : RenormPlatform} {B : RenormBackend}
    (hB : B.RunsOn platform) (T : TorchTopk V) {x : MixedBatch V} (hmixed : x.Mixed)
    (hunique : ∀ b < x.bs, ∀ i ≤ x.numProposals, ∃ t, UniqueMax (x.targetLogits b i).score t)
    (stale : StaleBuffers) :
    (∀ b < x.bs, (x.params b).topK ≤ 1 →
      x.verify B T stale b = (x.greedyBlock stale).acceptTorch b) ∧
    ∀ b < x.bs, 1 < (x.params b).topK →
      (∀ i ≤ x.numProposals, Untied platform (x.params b) (x.targetLogits b i).score) →
      ∀ {B' : RenormBackend}, B'.RunsOn platform → ∀ (T' : TorchTopk V) (x' : MixedBatch V),
        x'.Mixed → ∀ b' < x'.bs, x.SameRequest b x' b' → ∀ stale',
        (∀ i < x.numProposals, x'.tokens stale' b' i = x.tokens stale b i) ∧
          x'.verify B' T' stale' b' = x.verify B T stale b := by
  refine ⟨fun b hb hgreedy => GreedyRows.verify_eq hb ⟨hgreedy, hunique b hb⟩ hB, ?_⟩
  intro b hb _ huntied B' hB' T' x' hmixed' b' hb' hsame stale'
  exact ⟨fun i hi => hsame.tokens_eq hmixed hmixed' hb hb' hi stale stale',
    hsame.verify_eq hmixed hmixed' hB hB' hb hb' huntied stale stale'⟩

theorem injective_smallScores {last : ℝ} (hlast : last < 0) :
    Function.Injective (smallScores last).score := by
  have hlog := Real.log_pos one_lt_two
  intro v w heq
  have heq' : ![Real.log 2, 0, last] v = ![Real.log 2, 0, last] w := WithBot.coe_injective heq
  fin_cases v <;> fin_cases w <;> first | rfl | (simp at heq'; try linarith)

/-- The three requests with distinct logits, and the first one without the last: with the kernels,
and with the fallback, which takes the largest `top_k` of the other rows as well. -/
theorem mixed_noninterference_small :
    (((smallBatch 3 (-1)).verify renormTriton stableTopk emptyBuffers 1 =
      ((smallBatch 3 (-1)).greedyBlock emptyBuffers).acceptTorch 1) ∧
    (smallBatch 2 (-1)).verify renormTriton stableTopk emptyBuffers 0 =
      (smallBatch 3 (-1)).verify renormTriton stableTopk emptyBuffers 0) ∧
    (smallBatch 2 (-1)).verify (renormTorch (fun _ => stableTopk) 1) stableTopk emptyBuffers 0 =
      (smallBatch 3 (-1)).verify (renormTorch (fun _ => stableTopk) topKAll) stableTopk
        emptyBuffers 0 := by
  have hlast : (-1 : ℝ) < 0 := by norm_num
  have hunique : ∀ b < 3, ∀ i ≤ 1,
      ∃ t, UniqueMax ((smallBatch 3 (-1)).targetLogits b i).score t :=
    fun _ _ _ _ => ⟨0, smallScores_unique hlast.le⟩
  have huntied := Untied.of_injective (injective_smallScores hlast) (smallScores (-1)).finite
  have hfused : renormTriton.RunsOn .fused := renormTriton_keepsTies
  have htorch : ∀ otherTopK, (renormTorch (fun _ => stableTopk) otherTopK).RunsOn .torch :=
    fun otherTopK => ⟨_, otherTopK, rfl⟩
  obtain ⟨hgreedy, hsampled⟩ := mixed_noninterference hfused stableTopk
    (smallBatch_mixed (show 1 < 3 by norm_num) (-1)) hunique emptyBuffers
  obtain ⟨-, hfallback⟩ := mixed_noninterference (htorch topKAll) stableTopk
    (smallBatch_mixed (show 1 < 3 by norm_num) (-1)) hunique emptyBuffers
  refine ⟨⟨hgreedy 1 (show 1 < 3 by norm_num) le_rfl, ?_⟩, ?_⟩
  · exact (hsampled 0 (show 0 < 3 by norm_num) one_lt_two (fun _ _ => huntied _ _)
      hfused stableTopk _ (smallBatch_mixed one_lt_two _) 0 two_pos
      (smallBatch_same 3 2 _) emptyBuffers).2
  · exact (hfallback 0 (show 0 < 3 by norm_num) one_lt_two (fun _ _ => huntied _ _)
      (htorch 1) stableTopk _ (smallBatch_mixed one_lt_two _) 0 two_pos
      (smallBatch_same 3 2 _) emptyBuffers).2

/-! ### A tie -/

/-- What the first request of a small batch finds in its rows of `p`. -/
theorem smallBatch_bonus {bs : ℕ} (hbs : 0 < bs) {last : ℝ} {B : RenormBackend} {T : TorchTopk 3}
    {p : Fin 3 → ℝ} (hp : ∀ i, (smallBatch bs last).targetProbs B T 0 i = p) (hpos : 0 < p 0)
    (hsum : ∑ v, p v = 1) (hmixed : (smallBatch bs last).Mixed) :
    ((smallBatch bs last).verify B T emptyBuffers 0).bonus =
      ((searchFrom 0 (List.ofFn p) (9 / 10)).getD 2 : ℕ) := by
  -- the uniform of the draft is zero, so the draft is the first token
  obtain ⟨s, t, htoken, hdraws⟩ := exists_sampled (x := smallBatch bs last) (b := 0) hbs one_pos
    emptyBuffers
  have hzero : t = 0 := by
    refine hdraws.least.unique ⟨?_, fun v _ => Fin.zero_le v⟩
    have hprob : 0 < (smallBatch bs last).sampleProbs 0 0 0 :=
      div_pos (expShift_pos 0 WithBot.coe_ne_bot) (sum_expShift_pos ⟨0, WithBot.coe_ne_bot⟩ 0)
    show (0 : ℝ) * _ < _
    rw [zero_mul, show Finset.Iic (0 : Fin 3) = {0} from rfl, Finset.sum_singleton]
    exact hprob
  have hcandidate : (smallBatch bs last).candidates emptyBuffers 0 1 = 0 := by
    show tokenIndex ((smallBatch bs last).tokens emptyBuffers 0 0) = 0
    have hmask : (smallBatch bs last).greedyMask 0 = false := rfl
    rw [tokens, if_pos hmixed.flags.1, hmask, if_neg Bool.false_ne_true, htoken, hzero]
    rfl
  have haccepted : ((smallBatch bs last).kernelArgs B T emptyBuffers).accepted 0 = 1 := by
    have hpasses : ((smallBatch bs last).kernelArgs B T emptyBuffers).passes 0 0 = true := by
      refine decide_eq_true ?_
      show (0 : ℝ) * _ < (smallBatch bs last).targetProbs B T 0 0
        ((smallBatch bs last).candidates emptyBuffers 0 1)
      rw [zero_mul, hp, hcandidate]
      exact hpos
    show leadingRun [_] = 1
    rw [hpasses]
    rfl
  have hweights : ((smallBatch bs last).kernelArgs B T emptyBuffers).weights 0 = p := by
    rw [KernelArgs.weights, haccepted]
    exact (if_pos rfl).trans (hp 1)
  have hlevel : (0 : ℝ) ≤ ((smallBatch bs last).kernelArgs B T emptyBuffers).uniformSamplesFinal 0 *
      ∑ v, ((smallBatch bs last).kernelArgs B T emptyBuffers).weights 0 v := by
    rw [hweights, hsum, mul_one]
    exact ((smallBatch bs last).uniformSamplesFinal 0).2.1
  rw [MixedBatch.verify_eq hbs, KernelArgs.finalToken_eq _ _ (show 0 < 4096 by norm_num) hlevel,
    hweights, hsum, mul_one]
  rfl

theorem divTemp_smallScores : divTemp (smallParams 0).temperature (smallScores 0).score =
    (smallScores 0).score := by
  funext v
  show WithBot.map (· / (1 : ℝ)) ((![Real.log 2, 0, 0] v : ℝ) : WithBot ℝ) = _
  rw [WithBot.map_coe, div_one]
  rfl

theorem smallScores_of_ne {v : Fin 3} (hv : v ≠ 0) :
    (smallScores 0).score v = ((0 : ℝ) : WithBot ℝ) := by
  fin_cases v
  · exact absurd rfl hv
  · rfl
  · rfl

theorem smallScores_nonneg (v : Fin 3) : ((0 : ℝ) : WithBot ℝ) ≤ (smallScores 0).score v := by
  by_cases hv : v = 0
  · subst hv
    exact WithBot.coe_le_coe.mpr (Real.log_pos one_lt_two).le
  · exact (smallScores_of_ne hv).ge

theorem expShift_smallScores_zero : expShift 0 ((smallScores 0).score 0) = 2 := by
  show Real.exp (Real.log 2 - 0) = 2
  rw [sub_zero, Real.exp_log two_pos]

theorem expShift_smallScores_of_ne {v : Fin 3} (hv : v ≠ 0) :
    expShift 0 ((smallScores 0).score v) = 1 := by
  rw [smallScores_of_ne hv, expShift_coe, sub_zero, Real.exp_zero]

theorem softmax_smallScores : softmax (smallScores 0).score = ![1 / 2, 1 / 4, 1 / 4] := by
  have hsum : ∑ v, expShift 0 ((smallScores 0).score v) = 4 := by
    rw [Fin.sum_univ_three, expShift_smallScores_zero, expShift_smallScores_of_ne one_ne_zero,
      expShift_smallScores_of_ne (by decide)]
    norm_num
  funext v
  rw [softmax, hsum]
  by_cases hv : v = 0
  · rw [hv, expShift_smallScores_zero]
    norm_num
  · rw [expShift_smallScores_of_ne hv]
    fin_cases v
    · exact absurd rfl hv
    · rfl
    · rfl

theorem smallParams_needTopP (bs : ℕ) :
    (samplingFlags bs smallParams).needTopPSampling = false := by
  refine List.any_eq_false.mpr fun b _ => ?_
  have htopP : (smallParams b).topP = 1 := by
    match b with
    | 0 => rfl
    | 1 => rfl
    | _ + 2 => rfl
  simp [htopP]

/-- Without the third request the row is cut by rank: only one of the equal tokens stays. -/
theorem smallBatch_sparse (i : ℕ) :
    (smallBatch 2 0).targetProbs renormTriton stableTopk 0 i = ![2 / 3, 1 / 3, 0] := by
  have hneed := (smallBatch_mixed one_lt_two 0).flags.2
  have hsorted : stableTopk.indices (smallScores 0).score 2 = [0, 1] := by
    have hpairwise : (List.finRange 3).Pairwise fun v w =>
        decide ((smallScores 0).score w ≤ (smallScores 0).score v) = true := by
      refine (List.pairwise_lt_finRange 3).imp fun {v w} hlt => decide_eq_true ?_
      rw [smallScores_of_ne (Fin.ne_zero_of_lt hlt)]
      exact smallScores_nonneg v
    show (sortedTokens _).take 2 = _
    rw [sortedTokens, List.mergeSort_of_pairwise hpairwise]
    rfl
  have hrow : (smallBatch 2 0).targetProbs renormTriton stableTopk 0 i =
      sparseTargetRow renormTriton stableTopk 2 none 2 false 1 (smallScores 0).score := by
    have hneed' : (samplingFlags 2 smallParams).needTopKSampling = true := hneed
    simp only [targetProbs, hneed, Bool.not_true, Bool.false_and, Bool.false_eq_true, if_false]
    show verifyTargetRow renormTriton stableTopk true (samplingFlags 2 smallParams)
      (prepareTopK 2 smallParams) (smallParams 0) (smallScores 0).score = _
    rw [verifyTargetRow, divTemp_smallScores, hneed', smallParams_needTopP]
    exact if_pos ⟨rfl, rfl, two_pos, by decide⟩
  have hvalues :
      (softmax fun rank : Fin [(0 : Fin 3), 1].length => if none = some 2 ∨ rank.val < 2 then
      (smallScores 0).score ([0, 1].get rank) else ⊥) = ![2 / 3, 1 / 3] := by
    have hscores : (fun rank : Fin [(0 : Fin 3), 1].length => if none = some 2 ∨ rank.val < 2 then
        (smallScores 0).score ([0, 1].get rank) else ⊥) =
          fun rank => (smallScores 0).score ([0, 1].get rank) := by
      funext rank
      exact if_pos (.inr rank.isLt)
    have hsum : ∑ rank : Fin [(0 : Fin 3), 1].length,
        expShift 0 ((smallScores 0).score ([0, 1].get rank)) = 3 := by
      show ∑ rank : Fin 2, expShift 0 ((smallScores 0).score ([(0 : Fin 3), 1].get rank)) = 3
      rw [Fin.sum_univ_two]
      show expShift 0 ((smallScores 0).score 0) + expShift 0 ((smallScores 0).score 1) = 3
      rw [expShift_smallScores_zero, expShift_smallScores_of_ne one_ne_zero]
      norm_num
    funext rank
    rw [hscores, softmax, hsum]
    fin_cases rank
    · exact congrArg (· / (3 : ℝ)) expShift_smallScores_zero
    · exact congrArg (· / (3 : ℝ)) (expShift_smallScores_of_ne one_ne_zero)
  have hnodup : [(0 : Fin 3), 1].Nodup := by decide
  rw [hrow, sparseTargetRow, hsorted]
  simp only [Bool.false_eq_true, if_false]
  rw [hvalues]
  funext v
  fin_cases v
  · exact scatter_get _ hnodup 0
  · exact scatter_get _ hnodup 1
  · exact scatter_of_notMem _ (by decide)

/-- With it the row is cut by weight: both stay. -/
theorem smallBatch_dense (i : ℕ) :
    (smallBatch 3 0).targetProbs renormTriton stableTopk 0 i = ![1 / 2, 1 / 4, 1 / 4] := by
  have hneed := (smallBatch_mixed (show 1 < 3 by norm_num) 0).flags.2
  have habove : topKScores 2 (smallScores 0).score = (smallScores 0).score := by
    have hone : ∀ v, numAbove (smallScores 0).score v < 2 := by
      intro v
      have hsub : (Finset.univ.filter fun w => (smallScores 0).score v < (smallScores 0).score w) ⊆
          {0} := by
        intro w hw
        by_contra hne
        have hlt := (Finset.mem_filter.mp hw).2
        rw [smallScores_of_ne (fun heq => hne (Finset.mem_singleton.mpr heq))] at hlt
        exact not_le.mpr hlt (smallScores_nonneg v)
      exact Nat.lt_succ_of_le (Finset.card_le_card hsub)
    funext v
    exact if_pos (hone v)
  have hrow : (smallBatch 3 0).targetProbs renormTriton stableTopk 0 i =
      denseTargetRow renormTriton 2 true false 1 (smallScores 0).score := by
    have hneed' : (samplingFlags 3 smallParams).needTopKSampling = true := hneed
    have hmax : (prepareTopK 3 smallParams).maxTopK = topKAll := rfl
    simp only [targetProbs, hneed, Bool.not_true, Bool.false_and, Bool.false_eq_true, if_false]
    show verifyTargetRow renormTriton stableTopk true (samplingFlags 3 smallParams)
      (prepareTopK 3 smallParams) (smallParams 0) (smallScores 0).score = _
    rw [verifyTargetRow, divTemp_smallScores, hneed', smallParams_needTopP, hmax]
    -- the largest `top_k` of the batch is clamped to the vocabulary
    exact if_neg fun h => absurd h.2.2.2 (by decide)
  rw [hrow, denseTargetRow]
  simp only [if_true, Bool.false_eq_true, if_false]
  rw [← softmax_smallScores, renormTriton_keepsTies.topK_eq (by norm_num) one_le_two,
    topKRow_softmax (smallScores 0).finite, habove]

/-- **With a tie the other requests show.**  Both batches are mixed, every row of logits in them
has a unique maximum, and the first request is the same in both; but its second and third token
have equal logits, and it commits the one or the other. -/
theorem tie_differs :
    (smallBatch 2 0).Mixed ∧ (smallBatch 3 0).Mixed ∧
    (∀ bs b i, UniqueMax ((smallBatch bs 0).targetLogits b i).score 0 ∧
      UniqueMax ((smallBatch bs 0).draftScores b i) 0) ∧
    (smallBatch 2 0).SameRequest 0 (smallBatch 3 0) 0 ∧
    ((smallBatch 2 0).verify renormTriton stableTopk emptyBuffers 0).bonus = 1 ∧
    ((smallBatch 3 0).verify renormTriton stableTopk emptyBuffers 0).bonus = 2 := by
  refine ⟨smallBatch_mixed one_lt_two 0, smallBatch_mixed (by norm_num) 0,
    fun bs b i => ⟨smallScores_unique le_rfl, smallDraft_unique bs 0 b i⟩, smallBatch_same 2 3 0,
    ?_, ?_⟩
  · rw [smallBatch_bonus two_pos smallBatch_sparse (by norm_num)
      (by simp [Fin.sum_univ_three]; norm_num)
      (smallBatch_mixed one_lt_two 0)]
    norm_num [searchFrom]
  · rw [smallBatch_bonus (by norm_num) smallBatch_dense (by norm_num)
      (by simp [Fin.sum_univ_three]; norm_num) (smallBatch_mixed (by norm_num) 0)]
    norm_num [searchFrom]

end MixedBatch

end LatentSpec
