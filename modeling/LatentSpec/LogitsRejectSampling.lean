import LatentSpec.DsparkAccept
import LatentSpec.Softmax

/-! # Rejection sampling from logits

`speculative_sampling_from_logits_kernel` runs the chain of
`speculative_sampling_classic_kernel` without a tensor of probabilities: it keeps the
logits and one log-normaliser per row, and computes `p` and `q` where it needs them.  The
normalisers come from `logsumexp_temp_triton` for the target and from the block statistics
of the draft sampler for the draft.

`acceptSamplingFromLogits_eq_acceptSampling` is the main result: what the kernel stores is
what the dense kernel stores on the softmax probabilities, whatever the dense draft tensor
holds past its last row.  The
kernel's loop is the dense loop step by step (`verifyStep_eq`), and the row it samples at
the end is the dense row lane by lane (`laneValue_eq`), because a weight shifted by the
log-normaliser is the softmax.
-/
namespace LatentSpec
open TiledSearch Softmax

variable {V : ℕ}

/-- A row of logits as the target returns it: masked entries are `⊥`, and some entry is
not masked. -/
structure LogitRow (V : ℕ) where
  score : Fin V → WithBot ℝ
  finite : HasFinite score

/-- `logits / temperature`. -/
noncomputable def divTemp (t : ℝ) (row : Fin V → WithBot ℝ) (v : Fin V) : WithBot ℝ :=
  (row v).map (· / t)

theorem hasFinite_divTemp {row : Fin V → WithBot ℝ} (h : HasFinite row) (t : ℝ) :
    HasFinite (divTemp t row) := by
  obtain ⟨v, hv⟩ := h
  refine ⟨v, ?_⟩
  unfold divTemp
  cases hrow : row v with
  | bot => exact absurd hrow hv
  | coe x => exact WithBot.coe_ne_bot

/-- `tl.load(row + offsets, mask=offsets < VOCAB_SIZE, other=-inf)`. -/
def loadRow (row : Fin V → WithBot ℝ) (v : ℕ) : WithBot ℝ := if h : v < V then row ⟨v, h⟩ else ⊥

/-! ### Normalisers and probabilities, tile by tile -/

/-- The maximum the normaliser kernels shift by; a row with an unmasked entry has one. -/
noncomputable def rowMax (bv : ℕ) (row : Fin V → WithBot ℝ) : ℝ :=
  (tiledMax V bv (loadRow row)).unbotD 0

/-- The second pass of the normaliser kernels. -/
noncomputable def expSum (bv : ℕ) (row : Fin V → WithBot ℝ) : ℝ :=
  tiledSum V bv fun v => if v < V then expShift (rowMax bv row) (loadRow row v) else 0

/-- `_logsumexp_temp_kernel`, one row. -/
noncomputable def logsumexpTemp (bv : ℕ) (t : ℝ) (row : Fin V → WithBot ℝ) : ℝ :=
  rowMax bv (divTemp t row) + Real.log (expSum bv (divTemp t row))

/-- `_softmax_temp_kernel`, one row. -/
noncomputable def softmaxTemp (bv : ℕ) (t : ℝ) (row : Fin V → WithBot ℝ) (v : Fin V) : ℝ :=
  expShift (rowMax bv (divTemp t row)) (divTemp t row v) / expSum bv (divTemp t row)

/-- `_latentspec_logit_block_stats_kernel`: the maximum of a block. -/
def blockMax (bs : ℕ) (row : Fin V → WithBot ℝ) (block : ℕ) : WithBot ℝ :=
  maxScore (lanes bs (loadRow row) (block * bs))

/-- `_latentspec_logit_block_stats_kernel`: the sum of a block, shifted by its maximum. -/
noncomputable def blockSum (bs : ℕ) (row : Fin V → WithBot ℝ) (block : ℕ) : ℝ :=
  (lanes bs (fun v => if v < V then expShift ((blockMax bs row block).unbotD 0) (loadRow row v)
    else 0) (block * bs)).sum

/-- `_latentspec_logit_select_kernel`: the log-normaliser it stores.  The lanes past the
last block hold maximum `-inf` and sum zero. -/
noncomputable def selectLogNorm (bs blockLanes : ℕ) (t : ℝ) (row : Fin V → WithBot ℝ) : ℝ :=
  let numBlocks := (V + bs - 1) / bs
  let maxima := fun b => if b < numBlocks then blockMax bs (divTemp t row) b else ⊥
  let sums := fun b => if b < numBlocks then blockSum bs (divTemp t row) b else 0
  let globalMax := (maxScore ((List.range blockLanes).map maxima)).unbotD 0
  let total := ((List.range blockLanes).map fun b => sums b * expShift globalMax (maxima b)).sum
  globalMax + Real.log total

section Rows
variable {row : Fin V → WithBot ℝ} {bv : ℕ} (hbv : 0 < bv)
include hbv

/-- A sum of weights over the tiles is the sum over the row. -/
theorem tiledSum_expShift (shift : ℝ) (row : Fin V → WithBot ℝ) :
    tiledSum V bv (fun v => if v < V then expShift shift (loadRow row v) else 0) =
      ∑ v, expShift shift (row v) := by
  rw [tiledSum_eq hbv fun v hv => if_neg (not_lt.mpr hv), ← List.sum_ofFn]
  refine congrArg List.sum (List.ext_getElem (by simp) fun v hv _ => ?_)
  have hlt : v < V := by simpa using hv
  simp [loadRow, hlt]

theorem expSum_eq : expSum bv row = ∑ v, expShift (rowMax bv row) (row v) :=
  tiledSum_expShift hbv _ row

theorem logsumexpTemp_eq (h : HasFinite row) (t : ℝ) :
    logsumexpTemp bv t row = logNorm (divTemp t row) := by
  rw [logsumexpTemp, expSum_eq hbv]
  exact shift_add_log (hasFinite_divTemp h t) _

theorem softmaxTemp_eq (t : ℝ) (v : Fin V) :
    softmaxTemp bv t row v = softmax (divTemp t row) v := by
  rw [softmaxTemp, expSum_eq hbv]
  exact expShift_div_sum _ v

omit hbv in
/-- A block's sum, shifted again from its own maximum, is shifted from anywhere. -/
theorem blockSum_mul (shift : ℝ) (block : ℕ) :
    blockSum bv row block * expShift shift (blockMax bv row block) =
      (lanes bv (fun v => if v < V then expShift shift (loadRow row v) else 0)
        (block * bv)).sum := by
  unfold blockSum lanes
  rw [← List.sum_map_mul_right]
  refine congrArg List.sum (List.map_congr_left fun i hi => ?_)
  have hle : loadRow row (block * bv + i) ≤ blockMax bv row block :=
    (le_foldl_max id _ ⊥).2 _ (List.mem_map.mpr ⟨i, hi, rfl⟩)
  dsimp only
  split
  · cases hmax : blockMax bv row block with
    | bot =>
      rw [hmax] at hle
      rw [le_bot_iff.mp hle]
      simp
    | coe m =>
      rw [WithBot.unbotD_coe, expShift_coe, ← neg_sub, ← expShift_add]
      congr 1
      ring
  · exact zero_mul _

/-- **The draft sampler's normaliser** is the log-normaliser of the row. -/
theorem selectLogNorm_eq (h : HasFinite row) (t : ℝ) {blockLanes : ℕ}
    (hlanes : (V + bv - 1) / bv ≤ blockLanes) :
    selectLogNorm bv blockLanes t row = logNorm (divTemp t row) := by
  unfold selectLogNorm
  obtain ⟨pad, rfl⟩ := Nat.exists_eq_add_of_le hlanes
  set numBlocks := (V + bv - 1) / bv with hnum
  simp only
  generalize (maxScore _).unbotD 0 = shift
  rw [← shift_add_log (hasFinite_divTemp h t) shift, ← tiledSum_expShift hbv, tiledSum, tileStarts,
    List.foldl_map, ← hnum, List.range_add, List.map_append, List.sum_append]
  have hpad : ((((List.range pad).map (numBlocks + ·)).map fun b =>
      (if b < numBlocks then blockSum bv (divTemp t row) b else 0) *
        expShift shift (if b < numBlocks then blockMax bv (divTemp t row) b else ⊥)).sum) = 0 := by
    refine List.sum_eq_zero fun x hx => ?_
    obtain ⟨b, hb, rfl⟩ := List.mem_map.mp hx
    obtain ⟨i, -, rfl⟩ := List.mem_map.mp hb
    rw [if_neg (by omega), zero_mul]
  have hblocks : (((List.range numBlocks).map fun b =>
      (if b < numBlocks then blockSum bv (divTemp t row) b else 0) *
        expShift shift (if b < numBlocks then blockMax bv (divTemp t row) b else ⊥)).sum) =
      (List.range numBlocks).foldl (fun acc b => acc + (lanes bv (fun v =>
        if v < V then expShift shift (loadRow (divTemp t row) v) else 0) (b * bv)).sum) 0 := by
    rw [List.sum_eq_foldl, List.foldl_map]
    refine List.foldl_ext _ _ _ fun acc b hb => ?_
    have hlt := List.mem_range.mp hb
    rw [if_pos hlt, if_pos hlt, blockSum_mul]
  rw [hpad, hblocks, add_zero]

end Rows

/-! ### The kernel -/

/-- The tensors the kernel reads, indexed by request first, and its constants. -/
structure LogitsArgs (V : ℕ) where
  candidates : ℕ → ℕ → Fin V
  retriveIndex : ℕ → ℕ → ℕ
  uniformSamples : ℕ → ℕ → ℝ
  uniformSamplesFinal : ℕ → ℝ
  targetLogits : ℕ → ℕ → Fin V → WithBot ℝ
  draftLogits : ℕ → ℕ → Fin V → WithBot ℝ
  targetLogNorm : ℕ → ℕ → ℝ
  draftLogNorm : ℕ → ℕ → ℝ
  temperatures : ℕ → ℝ
  numSlots : ℕ
  blockV : ℕ

namespace LogitsArgs
variable (a : LogitsArgs V) (pid : ℕ)

/-- The target probability the kernel computes for a token of a slot. -/
noncomputable def targetP (row : ℕ) (v : Fin V) : ℝ :=
  expShift (a.targetLogNorm pid row) ((a.targetLogits pid row v).map (· / a.temperatures pid))

/-- The draft probability the kernel computes for a token of a slot. -/
noncomputable def draftQ (row : ℕ) (v : Fin V) : ℝ :=
  expShift (a.draftLogNorm pid row) ((a.draftLogits pid row v).map (· / a.temperatures pid))

/-- The body of the verification loop. -/
noncomputable def verifyStep (s : VerifyVars) : VerifyVars :=
  let draftToken := a.candidates pid s.step
  let p := a.targetP pid s.curProbRow draftToken
  let q := a.draftQ pid s.curProbRow draftToken
  let coin := a.uniformSamples pid (s.step - 1)
  if coin * q < p then
    let currGlobalIdx := a.retriveIndex pid s.step
    { step := s.step + 1
      curProbRow := s.step
      numAccept := s.numAccept + 1
      lastAcceptedGlobalIdx := currGlobalIdx
      continueVerifying := s.continueVerifying
      mem := (s.mem.storePredict s.lastAcceptedGlobalIdx draftToken).storeAcceptIndex pid
        (s.numAccept + 1) currGlobalIdx }
  else { s with continueVerifying := false }

/-- The verification loop, for at most `fuel` slots. -/
noncomputable def verifyLoop : ℕ → VerifyVars → VerifyVars
  | 0, s => s
  | fuel + 1, s =>
    if s.step < a.numSlots ∧ s.continueVerifying = true then verifyLoop fuel (a.verifyStep pid s)
    else s

/-- A lane of the sampled row.  The draft has one row fewer than the target, so its row is
read at `min(cur_prob_row, NUM_SLOTS - 2)`. -/
noncomputable def laneValue (row : ℕ) (allDraftsAccepted : Bool) (v : ℕ) : ℝ :=
  let safeDraftRow := min row (a.numSlots - 2)
  let targetNorm := a.targetLogNorm pid row
  let draftNorm := a.draftLogNorm pid safeDraftRow
  let p := expShift targetNorm ((loadRow (a.targetLogits pid row) v).map (· / a.temperatures pid))
  let values :=
    if allDraftsAccepted then p
    else
      let q := expShift draftNorm
        ((loadRow (a.draftLogits pid safeDraftRow) v).map (· / a.temperatures pid))
      max (p - q) 0
  if v < V then values else 0

/-- A lane inside the vocabulary holds the probabilities that a draft is tested with. -/
theorem laneValue_of_lt (row : ℕ) (allDraftsAccepted : Bool) {v : ℕ} (hv : v < V) :
    a.laneValue pid row allDraftsAccepted v =
      if allDraftsAccepted then a.targetP pid row ⟨v, hv⟩
      else max (a.targetP pid row ⟨v, hv⟩ - a.draftQ pid (min row (a.numSlots - 2)) ⟨v, hv⟩) 0 := by
  have hload : ∀ r : Fin V → WithBot ℝ, loadRow r v = r ⟨v, hv⟩ := fun r => dif_pos hv
  simp only [laneValue, targetP, draftQ, hload, if_pos hv]

/-- The two passes over the vocabulary. -/
noncomputable def finalSample (row : ℕ) (allDraftsAccepted : Bool) : Scan ℝ :=
  let val := a.laneValue pid row allDraftsAccepted
  let normSum := tiledSum V a.blockV val
  let targetU := a.uniformSamplesFinal pid * normSum
  tiledSearch V a.blockV val targetU (V - 1)

/-- **One program**, `speculative_sampling_from_logits_kernel`. -/
noncomputable def program (m : KernelMemory) : KernelMemory :=
  let root := a.retriveIndex pid 0
  let s := a.verifyLoop pid a.numSlots
    { step := 1
      curProbRow := 0
      numAccept := 0
      lastAcceptedGlobalIdx := root
      continueVerifying := true
      mem := m.storeAcceptIndex pid 0 root }
  let finalToken := (a.finalSample pid s.curProbRow s.continueVerifying).token
  (s.mem.storeAcceptTokenNum pid s.numAccept).storePredict s.lastAcceptedGlobalIdx finalToken

/-- `chain_speculative_sampling_from_logits_triton`: one program per request. -/
noncomputable def launch (batchSize : ℕ) (m : KernelMemory) : KernelMemory :=
  (List.range batchSize).foldl (fun m pid => a.program pid m) m

end LogitsArgs

/-! ### Both paths over one batch -/

/-- What one sampled verification is given: the rows the target and the draft return, the
candidates, the coins and the temperatures.  With at least two slots there is a draft row
`NUM_SLOTS - 2`, which the kernel addresses even when it does not use it. -/
structure LogitsBatch (V : ℕ) where
  candidates : ℕ → ℕ → Fin V
  retriveIndex : ℕ → ℕ → ℕ
  uniformSamples : ℕ → ℕ → ℝ
  uniformSamplesFinal : ℕ → ℝ
  targetLogits : ℕ → ℕ → LogitRow V
  draftLogits : ℕ → ℕ → Fin V → ℝ
  temperatures : ℕ → {t : ℝ // 0 < t}
  cutoffVerifyLens : Option (ℕ → ℕ)
  numSlots : ℕ
  numSlots_ge : 2 ≤ numSlots
  blockV : ℕ
  normBlockV : ℕ
  normBlockV_pos : 0 < normBlockV

namespace LogitsBatch
variable (x : LogitsBatch V)

/-- A draft row; the draft masks no entry. -/
def draftRow (b i : ℕ) (v : Fin V) : WithBot ℝ := x.draftLogits b i v

/-- `accept_sampling_from_logits`: what its kernel is launched on. -/
noncomputable def logitsArgs : LogitsArgs V where
  candidates := x.candidates
  retriveIndex := x.retriveIndex
  uniformSamples := x.uniformSamples
  uniformSamplesFinal := x.uniformSamplesFinal
  targetLogits b i := (x.targetLogits b i).score
  draftLogits := x.draftRow
  targetLogNorm b i := logsumexpTemp x.normBlockV (x.temperatures b) (x.targetLogits b i).score
  draftLogNorm b i := selectLogNorm x.normBlockV
    (nextPowerOf2 ((V + x.normBlockV - 1) / x.normBlockV)) (x.temperatures b) (x.draftRow b i)
  temperatures b := x.temperatures b
  numSlots := x.numSlots
  blockV := x.blockV

/-- `_accept_sampling_core`: what the dense kernel is launched on.  The draft tensor has
`num_slots - 1` rows; `pastDraft` is whatever lies behind them. -/
noncomputable def denseArgs (pastDraft : ℕ → ℕ → Fin V → ℝ) : KernelArgs V ℝ where
  candidates := x.candidates
  retriveIndex := x.retriveIndex
  uniformSamples := x.uniformSamples
  uniformSamplesFinal := x.uniformSamplesFinal
  targetProbs b i := softmaxTemp x.normBlockV (x.temperatures b) (x.targetLogits b i).score
  draftProbs b i := if i < x.numSlots - 1 then softmax (divTemp (x.temperatures b) (x.draftRow b i))
    else pastDraft b i
  numSlots := x.numSlots
  blockV := x.blockV

/-- The cap and the two-level gather of the bonus, after either kernel. -/
def gatherAccept (mem : KernelMemory) (b : ℕ) : AcceptLens :=
  let capped := match x.cutoffVerifyLens with
    | none => (mem.acceptTokenNum b, 0)
    | some verifyLens => capCorrectLen (mem.acceptTokenNum b) (verifyLens b)
  { correctLen := capped.1
    bonus := mem.predicts (mem.acceptIndex b capped.1)
    capTrimLens := capped.2 }

/-- `accept_sampling_from_logits`. -/
noncomputable def acceptSamplingFromLogits (batchSize : ℕ) (buffers : KernelMemory) :
    ℕ → AcceptLens :=
  x.gatherAccept (x.logitsArgs.launch batchSize buffers)

/-- `accept_sampling` on the softmax probabilities. -/
noncomputable def acceptSampling (pastDraft : ℕ → ℕ → Fin V → ℝ) (batchSize : ℕ)
    (buffers : KernelMemory) : ℕ → AcceptLens :=
  x.gatherAccept ((x.denseArgs pastDraft).launch batchSize buffers)

variable {x} (pastDraft : ℕ → ℕ → Fin V → ℝ) (pid : ℕ)

/-- **The target probability the kernel recomputes** is the softmax. -/
theorem target_eq (i : ℕ) (v : Fin V) :
    x.logitsArgs.targetP pid i v = (x.denseArgs pastDraft).targetProbs pid i v := by
  have hfinite := (x.targetLogits pid i).finite
  show expShift (logsumexpTemp x.normBlockV _ _) _ = softmaxTemp x.normBlockV _ _ v
  rw [logsumexpTemp_eq x.normBlockV_pos hfinite, softmaxTemp_eq x.normBlockV_pos]
  exact expShift_logNorm (hasFinite_divTemp hfinite _) v

/-- **The draft probability the kernel recomputes** is the softmax, in every row there is. -/
theorem draft_eq {i : ℕ} (hi : i < x.numSlots - 1) (v : Fin V) :
    x.logitsArgs.draftQ pid i v = (x.denseArgs pastDraft).draftProbs pid i v := by
  have hfinite : HasFinite (x.draftRow pid i) := ⟨v, WithBot.coe_ne_bot⟩
  have hrow : (x.denseArgs pastDraft).draftProbs pid i =
      softmax (divTemp (x.temperatures pid) (x.draftRow pid i)) := if_pos hi
  rw [hrow]
  show expShift (selectLogNorm x.normBlockV _ _ _) _ = _
  rw [selectLogNorm_eq x.normBlockV_pos hfinite _ (le_nextPowerOf2 _)]
  exact expShift_logNorm (hasFinite_divTemp hfinite _) v

/-- Before the last slot, one iteration is an iteration of the dense kernel. -/
theorem verifyStep_eq {s : VerifyVars} (hs : s.curProbRow < x.numSlots - 1) :
    x.logitsArgs.verifyStep pid s = (x.denseArgs pastDraft).verifyStep pid s := by
  have hp := target_eq (x := x) pastDraft pid s.curProbRow (x.candidates pid s.step)
  have hq := draft_eq (x := x) pastDraft pid hs (x.candidates pid s.step)
  unfold LogitsArgs.verifyStep KernelArgs.verifyStep
  simp only
  show (if _ * x.logitsArgs.draftQ pid s.curProbRow (x.candidates pid s.step) <
      x.logitsArgs.targetP pid s.curProbRow (x.candidates pid s.step) then _ else _) = _
  rw [hp, hq]
  rfl

/-- **The loop is the loop of the dense kernel**, and a loop that ends in a rejection ends
in a slot that has a draft row. -/
theorem verifyLoop_eq (fuel : ℕ) {s : VerifyVars} (hs : s.curProbRow + 1 = s.step)
    (hcont : s.continueVerifying = true) :
    x.logitsArgs.verifyLoop pid fuel s = (x.denseArgs pastDraft).verifyLoop pid fuel s ∧
      ((x.logitsArgs.verifyLoop pid fuel s).continueVerifying = false →
        (x.logitsArgs.verifyLoop pid fuel s).curProbRow < x.numSlots - 1) := by
  induction fuel generalizing s with
  | zero => exact ⟨rfl, fun h => absurd (hcont.symm.trans h) Bool.noConfusion⟩
  | succ fuel ih =>
    rw [LogitsArgs.verifyLoop, KernelArgs.verifyLoop]
    by_cases hslot : s.step < x.numSlots
    · have hrow : s.curProbRow < x.numSlots - 1 := by omega
      rw [if_pos ⟨hslot, hcont⟩, if_pos ⟨hslot, hcont⟩, ← verifyStep_eq pastDraft pid hrow]
      by_cases hcoin : (x.logitsArgs.verifyStep pid s).continueVerifying = true
      · -- the test passed, and the loop goes on from the next slot
        refine ih ?_ hcoin
        unfold LogitsArgs.verifyStep at hcoin ⊢
        simp only at hcoin ⊢
        split
        · rfl
        · rename_i hreject
          rw [if_neg hreject] at hcoin
          exact absurd hcoin Bool.noConfusion
      · -- the test failed, and both loops stand still from here on
        have hended : x.logitsArgs.verifyLoop pid fuel (x.logitsArgs.verifyStep pid s) =
            x.logitsArgs.verifyStep pid s := by
          cases fuel with
          | zero => rfl
          | succ fuel => rw [LogitsArgs.verifyLoop, if_neg fun h => hcoin h.2]
        have hended' : (x.denseArgs pastDraft).verifyLoop pid fuel (x.logitsArgs.verifyStep pid s) =
            x.logitsArgs.verifyStep pid s :=
          (x.denseArgs pastDraft).verifyLoop_ended pid fuel fun h => hcoin h.2
        rw [hended, hended']
        refine ⟨rfl, fun _ => ?_⟩
        unfold LogitsArgs.verifyStep at hcoin ⊢
        simp only at hcoin ⊢
        split
        · rename_i haccept
          rw [if_pos haccept] at hcoin
          exact absurd hcont hcoin
        · exact hrow
    · rw [if_neg fun h => hslot h.1, if_neg fun h => hslot h.1]
      exact ⟨rfl, fun h => absurd (hcont.symm.trans h) Bool.noConfusion⟩

/-- **The sampled row, lane by lane**: a rejection in a slot with a draft row, or full
acceptance. -/
theorem laneValue_eq {row : ℕ} {all : Bool} (h : all = false → row < x.numSlots - 1) :
    x.logitsArgs.laneValue pid row all = (x.denseArgs pastDraft).laneValue pid row all := by
  funext v
  by_cases hv : v < V
  · have hp := target_eq (x := x) pastDraft pid row ⟨v, hv⟩
    rw [LogitsArgs.laneValue_of_lt _ _ _ _ hv]
    cases hall : all with
    | true => simp only [KernelArgs.laneValue, if_true, dif_pos hv, hp]
    | false =>
      have hrow := h hall
      have hsafe : min row (x.logitsArgs.numSlots - 2) = row :=
        min_eq_left (show row ≤ x.numSlots - 2 by omega)
      have hq := draft_eq (x := x) pastDraft pid hrow ⟨v, hv⟩
      simp only [KernelArgs.laneValue, Bool.false_eq_true, if_false, dif_pos hv]
      rw [hsafe, hp, hq, if_pos trivial]
      split
      · rename_i hpos
        exact max_eq_left hpos.le
      · rename_i hneg
        exact max_eq_right (not_lt.mp hneg)
  · rw [KernelArgs.laneValue_of_le _ _ _ _ (not_lt.mp hv)]
    exact if_neg hv

/-- **One program stores what the dense program stores.** -/
theorem program_eq (m : KernelMemory) :
    x.logitsArgs.program pid m = (x.denseArgs pastDraft).program pid m := by
  let start : VerifyVars :=
    { step := 1
      curProbRow := 0
      numAccept := 0
      lastAcceptedGlobalIdx := x.logitsArgs.retriveIndex pid 0
      continueVerifying := true
      mem := m.storeAcceptIndex pid 0 (x.logitsArgs.retriveIndex pid 0) }
  obtain ⟨hloop, hrow⟩ := verifyLoop_eq pastDraft pid x.logitsArgs.numSlots
    (show start.curProbRow + 1 = start.step from rfl) rfl
  have hlane := laneValue_eq pastDraft pid hrow
  unfold LogitsArgs.program KernelArgs.program LogitsArgs.finalSample KernelArgs.finalSample
  simp only
  rw [hlane, hloop]
  rfl

/-- **The kernel that keeps logits stores what the dense kernel stores** on the softmax
probabilities: the accepted lengths, the accepted indices and every emitted token. -/
theorem launch_eq (batchSize : ℕ) (m : KernelMemory) :
    x.logitsArgs.launch batchSize m = (x.denseArgs pastDraft).launch batchSize m := by
  unfold LogitsArgs.launch KernelArgs.launch
  exact List.foldl_ext _ _ m fun m pid _ => program_eq pastDraft pid m

/-- **Verification from logits is verification from softmax probabilities**: all of the
kernel's memory, and what the accept rule reads from it. -/
theorem acceptSamplingFromLogits_eq_acceptSampling (x : LogitsBatch V)
    (pastDraft : ℕ → ℕ → Fin V → ℝ) (batchSize : ℕ) (buffers : KernelMemory) :
    x.logitsArgs.launch batchSize buffers = (x.denseArgs pastDraft).launch batchSize buffers ∧
      x.acceptSamplingFromLogits batchSize buffers =
        x.acceptSampling pastDraft batchSize buffers := by
  have hlaunch := launch_eq (x := x) pastDraft batchSize buffers
  refine ⟨hlaunch, ?_⟩
  unfold acceptSamplingFromLogits acceptSampling
  rw [hlaunch]

open scoped Coins

/-- Two tokens that tie and a masked third, in tiles of two, so that the second tile is
partial.  The draft proposes token 0 and then the masked token. -/
def maskedThird : LogitsBatch 3 where
  candidates _ slot := if slot = 2 then 2 else 0
  retriveIndex b slot := b * 3 + slot
  uniformSamples _ _ := 0
  uniformSamplesFinal _ := 0
  targetLogits _ _ :=
    { score := fun v => if v = 2 then ⊥ else 0
      finite := ⟨0, WithBot.zero_ne_bot⟩ }
  draftLogits _ _ _ := 0
  temperatures _ := ⟨1, Real.zero_lt_one⟩
  cutoffVerifyLens := none
  numSlots := 3
  numSlots_ge := Nat.le_succ 2
  blockV := 2
  normBlockV := 2
  normBlockV_pos := Nat.two_pos

/-- The masked token has probability zero, and the draft in front of it has not. -/
theorem accepted_maskedThird : (maskedThird.denseArgs fun _ _ _ => 0).accepted 0 = 1 := by
  have htarget : ∀ i v, (maskedThird.denseArgs fun _ _ _ => 0).targetProbs 0 i v =
      softmax (divTemp 1 fun w : Fin 3 => if w = 2 then ⊥ else 0) v :=
    fun i v => softmaxTemp_eq maskedThird.normBlockV_pos 1 v
  have hfirst : (maskedThird.denseArgs fun _ _ _ => 0).passes 0 0 = true := by
    refine decide_eq_true ?_
    rw [htarget]
    show (0 : ℝ) * _ < _
    rw [zero_mul]
    refine div_pos (expShift_pos 0 ?_) (sum_expShift_pos ⟨0, ?_⟩ 0) <;> exact WithBot.coe_ne_bot
  have hsecond : (maskedThird.denseArgs fun _ _ _ => 0).passes 0 1 = false := by
    refine decide_eq_false ?_
    rw [htarget]
    show ¬(0 : ℝ) * _ < expShift 0 ⊥ / _
    rw [zero_mul, expShift_bot, zero_div]
    exact lt_irrefl 0
  show LeadingRun.leadingRun [_, _] = 1
  rw [hfirst, hsecond]
  rfl

/-- What `torch.zeros` gives the kernel to write into. -/
def zeroBuffers : KernelMemory := ⟨fun _ => 0, fun _ _ => 0, fun _ => 0⟩

/-- Two such requests: both paths store the same, and accept one draft of the first. -/
theorem acceptSamplingFromLogits_eq_maskedThird :
    (maskedThird.logitsArgs.launch 2 zeroBuffers =
        (maskedThird.denseArgs fun _ _ _ => 0).launch 2 zeroBuffers ∧
      maskedThird.acceptSamplingFromLogits 2 zeroBuffers =
        maskedThird.acceptSampling (fun _ _ _ => 0) 2 zeroBuffers) ∧
      (maskedThird.acceptSamplingFromLogits 2 zeroBuffers 0).correctLen = 1 := by
  have heq := acceptSamplingFromLogits_eq_acceptSampling maskedThird (fun _ _ _ => 0) 2 zeroBuffers
  have hinj : (maskedThird.denseArgs fun _ _ _ => 0).RetriveInjective 2 := by
    intro pid i pid' i' _ _ hi hi' hcell
    have hlt : i < 3 ∧ i' < 3 := ⟨hi, hi'⟩
    have hidx : pid * 3 + i = pid' * 3 + i' := hcell
    omega
  have hstored := KernelArgs.launch_stored (Nat.succ_pos 2) hinj zeroBuffers Nat.two_pos
  refine ⟨heq, ?_⟩
  rw [heq.2]
  exact hstored.num.trans accepted_maskedThird

end LogitsBatch

end LatentSpec
