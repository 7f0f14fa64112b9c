import LatentSpec.OrderedDict
import LatentSpec.TiledSearch
import LatentSpec.WhileLoop

/-! # The block-accept estimator

A verify step may trim a draft block of `gamma` tokens to a window.  When the whole window is
accepted the recorder keeps the trimmed tokens as a **pending block** and follows, step after step,
what the target would have made of them: the factor of a trimmed token is `min(1, p/q)`, and the
sum of the running products of the factors is the number of tokens that the trimming cost.  A block
is reported as an interval when its last token was walked, when the tokens that were realized leave
it, when its request ends or is forgotten, or when a step of the request was not seen.

The logprobs of the pending tokens are gathered on the device when a step is observed
(`buildDeviceBundle`), at places planned from the blocks that are pending then (`planPending`).
The step is settled on the host (`settleAndWrite`): at once, or, on a GPU, when the next step is
observed (`delayedStep`).

Not modelled: the running averages over the reports (`_OnlineCeiling`), logging and the text of the
output file; a report is kept as `Report` and a line of the file as `Line`.
-/
namespace LatentSpec.BlockAccept
open TiledSearch
open scoped Coins

/-! ### Values and errors -/

/-- What a step may raise. -/
inductive EstimatorError
  | assertion
  | index
  | key
  | shape
  | outOfFuel
  deriving DecidableEq

section
variable {α : Type}

/-- `assert p` -/
def require (p : Prop) [Decidable p] (e : EstimatorError) : Except EstimatorError Unit :=
  if p then .ok () else .error e

/-- `xs[i]`, where a negative index counts from the end. -/
def item (xs : List α) (i : ℤ) : Except EstimatorError α :=
  let j := if i < 0 then i + xs.length else i
  if j < 0 then .error .index
  else match xs[j.toNat]? with
    | some x => .ok x
    | none => .error .index

/-- `d[k]` -/
def lookup {κ : Type} [DecidableEq κ] (d : OrderedDict κ α) (k : κ) : Except EstimatorError α :=
  match d.get? k with
  | some v => .ok v
  | none => .error .key

/-- `xs.repeat_interleave(n)` -/
def repeatInterleave (xs : List α) (n : ℕ) : List α := xs.flatMap (List.replicate n)

/-- `xs.reshape(bs)` -/
def reshapeVector (xs : List α) (bs : ℕ) : Except EstimatorError (List α) := do
  require (xs.length = bs) .shape
  return xs

/-- `xs.reshape(bs, width)` -/
def reshapeRows (xs : List α) (bs width : ℕ) : Except EstimatorError (List (List α)) := do
  require (xs.length = bs * width) .shape
  return (List.range bs).map fun b => (xs.drop (b * width)).take width

end

/-- `math.exp` and `torch.logsumexp`. -/
structure TorchMath (V : ℕ) (K : Type) where
  exp : K → K
  logsumexp : (Fin V → K) → K

/-! ### The state of the recorder -/

/-- `_PendingBlock` -/
structure PendingBlock (V : ℕ) (K : Type) where
  forwardCt : ℤ
  anchorPos : ℤ
  window : ℤ
  trimmedTokens : List (Fin V)
  nextOffset : ℤ
  qLps : List K
  estProd : K
  estLoExtra : K

/-- `_RequestState` -/
structure RequestState (V : ℕ) (K : Type) where
  expectedSeqLen : ℤ := -1
  lastSeenCt : ℤ := 0
  pending : List (PendingBlock V K) := []

/-- Which call reported an interval. -/
inductive ReportSource (V : ℕ) (K : Type)
  | row
  | eos (block : PendingBlock V K)
  | walk (block : PendingBlock V K) (diverged : Bool)
  | atEnd (block : PendingBlock V K)

/-- A call of `_online.add`. -/
structure Report (V : ℕ) (K : Type) where
  forwardCt : ℤ
  lo : K
  hi : K
  source : ReportSource V K

/-- An entry of `pending_gathers`. -/
structure Gather (V : ℕ) (K : Type) where
  forwardCt : ℤ
  offset : ℤ
  pLp : K
  token : Fin V
  realized : Fin V

/-- A line of the output file. -/
inductive Line (V : ℕ) (K R : Type)
  | record (rid : R) (fct w cl ct : ℤ) (opened : Option (List (Fin V) × List K))
      (pg : List (Gather V K))
  | eosEnd (rid : R) (forwardCts : List ℤ)

/-- `_PendingPlan` -/
structure PendingPlan (V : ℕ) where
  rows : List ℕ
  tokens : List (Fin V)
  slotLookup : OrderedDict (ℕ × ℕ × ℤ) ℕ

/-- A row of `row_meta`. -/
structure RowMeta (V : ℕ) where
  correctLen : ℤ
  capTrim : ℤ
  bonus : Fin V
  prefixLen : ℤ
  isGreedy : Bool
  isTruncated : Bool
  verifyLen : ℤ

/-- `_SettleBatch` -/
structure SettleBatch (V : ℕ) (K R : Type) where
  forwardCt : ℤ
  rids : List R
  rowMeta : List (RowMeta V)
  drafts : List (List (Fin V))
  qAll : List (List K)
  targetDiag : List (List K)
  pendingLogprobs : List K
  slotLookup : OrderedDict (ℕ × ℕ × ℤ) ℕ

/-- The arguments of `observe_verify_step`; `capturing` says whether the current stream is being
captured, and the layout is its `verify_lens`. -/
structure VerifyStep (V : ℕ) (K R : Type) where
  capturing : Bool
  forwardCt : ℤ
  rids : List R
  draftTokens : List (List (Fin V))
  correctedLogits : Option (List (List (Fin V → K)))
  draftTemperatures : List K
  greedyMask : List Bool
  targetLogits : List (Fin V → K)
  targetTemperatures : List K
  truncatedSamplingMask : Option (List Bool)
  logitsAdjustmentsAreNoop : Bool
  correctLen : List ℤ
  capTrimLens : List ℤ
  bonus : List (Fin V)
  prefixLens : List ℤ
  layout : Option (List ℤ)

/-- What a recorder is built with; `delayed` says that its device is a GPU. -/
structure Config (V : ℕ) (K : Type) where
  gamma : ℕ
  delayed : Bool
  math : TorchMath V K

/-- `BlockAcceptEstimateRecorder`; `future` is the step that the delayed handler holds. -/
structure Recorder (V : ℕ) (K R : Type) where
  lastForwardCt : ℤ
  states : OrderedDict R (RequestState V K)
  observedStepCt : ℕ
  discontinuityDropCt : ℕ
  skippedStepCt : ℕ
  warnedSkipReasons : List String
  finishIntents : OrderedDict R Bool
  online : List (Report V K)
  file : Option (List (Line V K R))
  future : Option (SettleBatch V K R)

/-- `__init__`; `path` says whether an output file was asked for. -/
def Recorder.init {V : ℕ} {K R : Type} (path : Bool) : Recorder V K R where
  lastForwardCt := 0
  states := .empty
  observedStepCt := 0
  discontinuityDropCt := 0
  skippedStepCt := 0
  warnedSkipReasons := []
  finishIntents := .empty
  online := []
  file := if path then some [] else none
  future := none

/-! ### Skipped steps -/

def blockAcceptSkipReason {α : Type} (logitsAdjustmentsAreNoop : Bool)
    (correctedLogits : Option α) : Option String :=
  if !logitsAdjustmentsAreNoop then
    some ("non-noop logits adjustments (penalizer/logit_bias/grammar) " ++
      "in batch; cross-step conditioning of the gathered target " ++
      "probabilities would be state-dependent")
  else if correctedLogits.isNone then
    some "corrected_logits unavailable (folded draft path)"
  else none

/-- `SKIP_STEP_WARNING` -/
def skipStepWarning (reason : String) : String :=
  "skipping step: " ++ reason ++ " (pending blocks of affected requests " ++
    "are dropped by the seq-len continuity check)"

/-- The warning for rows with truncated sampling. -/
def truncatedRowWarning : String :=
  "requests with top-k/top-p/min-p sampling are " ++
    "excluded per-row; the estimator only supports " ++
    "pure-temperature sampling (processed target distribution " ++
    "would differ from plain softmax(logits/T))"

section
variable {V : ℕ} {K R : Type}

def VerifyStep.skipReason (s : VerifyStep V K R) : Option String :=
  blockAcceptSkipReason s.logitsAdjustmentsAreNoop s.correctedLogits

/-- `warn_once` -/
def Recorder.warnOnce (r : Recorder V K R) (reason : String) : Recorder V K R :=
  if reason ∈ r.warnedSkipReasons then r
  else { r with warnedSkipReasons := r.warnedSkipReasons ++ [reason] }

def Recorder.skipStep (r : Recorder V K R) (reason : String) : Recorder V K R :=
  { r with skippedStepCt := r.skippedStepCt + 1 }.warnOnce (skipStepWarning reason)

/-- Calls of `_online.add`. -/
def Recorder.add (r : Recorder V K R) (reports : List (Report V K)) : Recorder V K R :=
  { r with online := r.online ++ reports }

/-- `_file.write` -/
def Recorder.write (r : Recorder V K R) (line : Line V K R) : Recorder V K R :=
  { r with file := r.file.map (· ++ [line]) }

end

/-! ### Reporting a block -/

section
variable {V : ℕ} {K : Type} [Field K] [LinearOrder K]

def finalizeEosOnline (block : PendingBlock V K) (forwardCt : ℤ) : Report V K :=
  let lo := (block.window : K) + 1 + block.estLoExtra
  ⟨forwardCt, lo, lo, .eos block⟩

def finalizeWalkOnline (gamma : ℕ) (block : PendingBlock V K) (diverged : Bool) (forwardCt : ℤ) :
    Report V K :=
  let base := (block.window : K) + 1
  let lo := base + block.estLoExtra
  let tail :=
    if diverged then
      let offset := block.nextOffset - 1
      if offset < gamma then block.estProd * ((gamma - offset : ℤ) : K) else 0
    else 0
  ⟨forwardCt, lo, lo + tail, .walk block diverged⟩

def finalizeAtEndOnline (gamma : ℕ) (block : PendingBlock V K) (forwardCt : ℤ) : Report V K :=
  let base := (block.window : K) + 1
  let lo := base + block.estLoExtra
  let tail := block.estProd * ((gamma - block.nextOffset + 1 : ℤ) : K)
  ⟨forwardCt, lo, lo + tail, .atEnd block⟩

/-- The report of a row whose block is not followed. -/
def rowReport (cl forwardCt : ℤ) : Report V K := ⟨forwardCt, cl + 1, cl + 1, .row⟩

/-- `_accumulate_online` -/
def accumulateOnline (math : TorchMath V K) (block : PendingBlock V K) (pLp : K) :
    Except EstimatorError (PendingBlock V K) := do
  let q ← item block.qLps (block.nextOffset - block.window - 1)
  let a := min 1 (math.exp (pLp - q))
  let estProd := block.estProd * a
  return { block with estProd, estLoExtra := block.estLoExtra + estProd }

/-! ### Gathering logprobs -/

/-- The logprob of a token under a row of logits at a temperature. -/
def tokenLogprob (math : TorchMath V K) (logits : Fin V → K) (temp : K) (token : Fin V) : K :=
  let row := fun v => logits v / temp
  row token - math.logsumexp row

/-- `gather_chunked_token_logprobs` -/
def gatherChunkedTokenLogprobs (math : TorchMath V K) (logits : List (Fin V → K))
    (rowIndices : List ℕ) (tokenIndices : List (Fin V)) (perRowTemps : List K) (chunkSize : ℕ) :
    Except EstimatorError (List K) := do
  let entries := rowIndices.zip (tokenIndices.zip perRowTemps)
  let results ← (tileStarts rowIndices.length chunkSize).mapM fun start =>
    ((entries.drop start).take chunkSize).mapM fun (row, token, temp) => do
      let logits ← item logits row
      return tokenLogprob math logits temp token
  return results.flatten

/-- `_GATHER_ROW_CHUNK` -/
def gatherRowChunk : ℕ := 512

/-- The lower bound of the temperatures, `1e-5`. -/
def minTemperature : K := 1 / 100000

/-- `_gather_logprobs` -/
def gatherLogprobs (math : TorchMath V K) (logits : List (Fin V → K)) (rowIndices : List ℕ)
    (tokenIndices : List (Fin V)) (temps : List K) : Except EstimatorError (List K) := do
  if rowIndices.isEmpty then
    return []
  let perRowTemps ← rowIndices.mapM fun (row : ℕ) => do
    let temp ← item temps row
    return max temp minTemperature
  gatherChunkedTokenLogprobs math logits rowIndices tokenIndices perRowTemps gatherRowChunk

end

/-- `_PENDING_BUCKET_MIN` -/
def pendingBucketMin : ℕ := 16

/-- `_pending_bucket` -/
def pendingBucket (count : ℕ) : Except EstimatorError ℕ :=
  if count = 0 then .ok 0
  else WhileLoop.run (fun bucket => decide (bucket < count)) (fun bucket => .ok (bucket * 2, false))
    .outOfFuel count pendingBucketMin

/-! ### Planning the pending lookups -/

section
variable {V : ℕ} {K R : Type}

/-- The condition and the body of the loop over the offsets of a block. -/
def planCond (gamma : ℕ) (p : ℤ × PendingPlan V) : Bool := decide (p.1 ≤ gamma)

def planBody (gamma b : ℕ) (expectedSeqLen : ℤ) (blockIdx : ℕ) (block : PendingBlock V K)
    (p : ℤ × PendingPlan V) : Except EstimatorError ((ℤ × PendingPlan V) × Bool) := do
  let (offset, plan) := p
  let row := block.anchorPos + offset - expectedSeqLen
  if row < 0 ∨ gamma + 1 ≤ row then
    return (p, true)
  let token ← item block.trimmedTokens (offset - block.window - 1)
  return ((offset + 1,
    { rows := plan.rows ++ [b * (gamma + 1) + row.toNat]
      tokens := plan.tokens ++ [token]
      slotLookup := plan.slotLookup.set (b, blockIdx, offset) plan.rows.length }), false)

def planBlock (gamma b : ℕ) (expectedSeqLen : ℤ) (plan : PendingPlan V)
    (entry : PendingBlock V K × ℕ) : Except EstimatorError (PendingPlan V) := do
  let (block, blockIdx) := entry
  let p ← WhileLoop.run (planCond gamma) (planBody gamma b expectedSeqLen blockIdx block)
    .outOfFuel (gamma + 1 - block.nextOffset).toNat (block.nextOffset, plan)
  return p.2

variable [DecidableEq R]

def planRow (gamma : ℕ) (states : OrderedDict R (RequestState V K)) (rids : List R)
    (plan : PendingPlan V) (b : ℕ) : Except EstimatorError (PendingPlan V) := do
  let rid ← item rids b
  match states.get? rid with
  | none => return plan
  | some state =>
    if state.pending.isEmpty ∨ state.expectedSeqLen < 0 then
      return plan
    state.pending.zipIdx.foldlM (planBlock gamma b state.expectedSeqLen) plan

/-- `_plan_pending` -/
def planPending (gamma : ℕ) (states : OrderedDict R (RequestState V K)) (bs : ℕ) (rids : List R) :
    Except EstimatorError (PendingPlan V) :=
  (List.range bs).foldlM (planRow gamma states rids) ⟨[], [], .empty⟩

end

/-! ### What a step computes on the device -/

section
variable {V : ℕ} [NeZero V] {K R : Type} [Field K] [LinearOrder K]

/-- `_diag_rows` -/
def diagRows (gamma bs rowsPerRequest : ℕ) : List ℕ :=
  (List.range bs).flatMap fun b => (List.range gamma).map fun j => b * rowsPerRequest + j

/-- `_gather_pending`: the lookups are padded to a bucket with the first token of the first row. -/
def gatherPending (math : TorchMath V K) (plan : PendingPlan V) (targetLogits : List (Fin V → K))
    (targetTempsFull : List K) : Except EstimatorError (List K) := do
  let bucket ← pendingBucket plan.rows.length
  let rows := plan.rows ++ List.replicate (bucket - plan.rows.length) 0
  let tokens := plan.tokens ++ List.replicate (bucket - plan.tokens.length) 0
  gatherLogprobs math targetLogits rows tokens targetTempsFull

omit [NeZero V] [Field K] [LinearOrder K] in
/-- `_pack_row_meta` -/
def packRowMeta (s : VerifyStep V K R) (truncatedMask : List Bool) (verifyLens : List ℤ) :
    Except EstimatorError (List (RowMeta V)) := do
  let n := s.correctLen.length
  require (s.capTrimLens.length = n ∧ s.bonus.length = n ∧ s.prefixLens.length = n ∧
    s.greedyMask.length = n ∧ truncatedMask.length = n ∧ verifyLens.length = n) .shape
  (List.range n).mapM fun (b : ℕ) => do
    return {
      correctLen := ← item s.correctLen b
      capTrim := ← item s.capTrimLens b
      bonus := ← item s.bonus b
      prefixLen := ← item s.prefixLens b
      isGreedy := ← item s.greedyMask b
      isTruncated := ← item truncatedMask b
      verifyLen := ← item verifyLens b }

variable [DecidableEq R]

/-- `_build_device_bundle` -/
def buildDeviceBundle (cfg : Config V K) (states : OrderedDict R (RequestState V K))
    (s : VerifyStep V K R) (correctedLogits : List (List (Fin V → K))) :
    Except EstimatorError (SettleBatch V K R) := do
  let gamma := cfg.gamma
  let rowsPerRequest := gamma + 1
  let bs := s.rids.length
  require (s.draftTokens.length = bs ∧ ∀ row ∈ s.draftTokens, row.length = gamma) .assertion
  require (correctedLogits.length = bs ∧ ∀ row ∈ correctedLogits, row.length = gamma) .assertion
  require (s.targetLogits.length = bs * rowsPerRequest) .assertion
  let truncatedMask := s.truncatedSamplingMask.getD (List.replicate bs false)
  let verifyLens := s.layout.getD (List.replicate bs (rowsPerRequest : ℤ))
  let draftTemps ← reshapeVector s.draftTemperatures bs
  let targetTemps ← reshapeVector s.targetTemperatures bs
  let draftTempsFull := repeatInterleave draftTemps gamma
  let targetTempsFull := repeatInterleave targetTemps rowsPerRequest
  let draftFlat := s.draftTokens.flatten
  let qAll ← gatherLogprobs cfg.math correctedLogits.flatten (List.range (bs * gamma)) draftFlat
    draftTempsFull
  let qAll ← reshapeRows qAll bs gamma
  let targetDiag ← gatherLogprobs cfg.math s.targetLogits (diagRows gamma bs rowsPerRequest)
    draftFlat targetTempsFull
  let targetDiag ← reshapeRows targetDiag bs gamma
  let plan ← planPending gamma states bs s.rids
  let pendingLogprobs ← gatherPending cfg.math plan s.targetLogits targetTempsFull
  let rowMeta ← packRowMeta s truncatedMask verifyLens
  return {
    forwardCt := s.forwardCt
    rids := s.rids
    rowMeta
    drafts := s.draftTokens
    qAll
    targetDiag
    pendingLogprobs
    slotLookup := plan.slotLookup }

/-- `compute_on_device` -/
def computeOnDevice (cfg : Config V K) (s : VerifyStep V K R)
    (states : OrderedDict R (RequestState V K)) :
    Except EstimatorError (Option (SettleBatch V K R)) :=
  match s.skipReason, s.correctedLogits with
  | none, some correctedLogits => some <$> buildDeviceBundle cfg states s correctedLogits
  | _, _ => .ok none

end

/-! ### Settling a step on the host -/

section
variable {V : ℕ} {K R : Type} [Field K] [LinearOrder K]

/-- The variables of the walk along a pending block. -/
structure Walk (V : ℕ) (K : Type) where
  block : PendingBlock V K
  diverged : Bool
  gathers : List (Gather V K)

/-- What the walk of a row reads. -/
structure RowContext (V : ℕ) (K R : Type) where
  b : ℕ
  batch : SettleBatch V K R
  realized : List (Fin V)
  cl : ℤ
  seqLen : ℤ
  numOldPending : ℕ

omit [Field K] [LinearOrder K] in
/-- The logprob of the token at an offset: an old block reads what was planned for it, a block that
was opened in this step the row of its own drafts. -/
def RowContext.pLp (ctx : RowContext V K R) (blockIdx : ℕ) (offset row : ℤ) :
    Except EstimatorError K :=
  if blockIdx < ctx.numOldPending then do
    let slot ← lookup ctx.batch.slotLookup (ctx.b, blockIdx, offset)
    item ctx.batch.pendingLogprobs slot
  else do
    let diag ← item ctx.batch.targetDiag ctx.b
    item diag row

def walkCond (gamma : ℕ) (w : Walk V K) : Bool := decide (w.block.nextOffset ≤ gamma)

/-- One token of a pending block. -/
def walkBody (math : TorchMath V K) (ctx : RowContext V K R) (blockIdx : ℕ) (w : Walk V K) :
    Except EstimatorError (Walk V K × Bool) := do
  let block := w.block
  let row := block.anchorPos + block.nextOffset - ctx.seqLen
  require (0 ≤ row) .assertion
  if ctx.cl < row then
    return (w, true)
  let token ← item block.trimmedTokens (block.nextOffset - block.window - 1)
  let pLp ← ctx.pLp blockIdx block.nextOffset row
  let realizedToken ← item ctx.realized row
  let gathers := w.gathers ++ [⟨block.forwardCt, block.nextOffset, pLp, token, realizedToken⟩]
  let block ← accumulateOnline math block pLp
  let block := { block with nextOffset := block.nextOffset + 1 }
  if realizedToken ≠ token then
    return ({ block, diverged := true, gathers }, true)
  return ({ w with block, gathers }, false)

/-- What is left of the pending blocks. -/
structure Settled (V : ℕ) (K : Type) where
  keptPending : List (PendingBlock V K)
  reports : List (Report V K)
  pendingGathers : List (Gather V K)

/-- One pending block of the loop over them. -/
def settleBlock (cfg : Config V K) (ctx : RowContext V K R) (acc : Settled V K)
    (entry : PendingBlock V K × ℕ) : Except EstimatorError (Settled V K) := do
  let (block, blockIdx) := entry
  let w ← WhileLoop.run (walkCond cfg.gamma) (walkBody cfg.math ctx blockIdx) .outOfFuel
    (cfg.gamma + 1 - block.nextOffset).toNat ⟨block, false, acc.pendingGathers⟩
  if !w.diverged && decide (w.block.nextOffset ≤ cfg.gamma) then
    return { acc with keptPending := acc.keptPending ++ [w.block], pendingGathers := w.gathers }
  else
    return { acc with
      reports := acc.reports ++
        [finalizeWalkOnline cfg.gamma w.block w.diverged ctx.batch.forwardCt]
      pendingGathers := w.gathers }

/-- `_settle_pending` -/
def settlePending (cfg : Config V K) (ctx : RowContext V K R) (pending : List (PendingBlock V K)) :
    Except EstimatorError (Settled V K) :=
  pending.zipIdx.foldlM (settleBlock cfg ctx) ⟨[], [], []⟩

/-- The block of `_open_block`; both slices start at a window that is not negative. -/
def openBlock (gamma : ℕ) (draftsRow : List (Fin V)) (qAllRow : List K)
    (window seqLen forwardCt : ℤ) : PendingBlock V K where
  forwardCt
  anchorPos := seqLen - 1
  window
  trimmedTokens := (draftsRow.take gamma).drop window.toNat
  nextOffset := window + 1
  qLps := (qAllRow.take gamma).drop window.toNat
  estProd := 1
  estLoExtra := 0

/-- Whether the pending blocks of a request are dropped: a step of it was not seen. -/
def RequestState.discontinued (state : RequestState V K) (seqLen : ℤ) : Bool :=
  !(decide (state.expectedSeqLen < 0) || decide (seqLen = state.expectedSeqLen))

/-- `_drop_pending_on_discontinuity`, with the reports it adds. -/
def dropPendingOnDiscontinuity (gamma : ℕ) (state : RequestState V K) (seqLen forwardCt : ℤ) :
    RequestState V K × List (Report V K) :=
  if state.discontinued seqLen then
    ({ state with pending := [] },
      state.pending.map fun block => finalizeAtEndOnline gamma block forwardCt)
  else (state, [])

/-- The block that a row opens, `none` when it reports its accepted length instead. -/
def openedBlock (gamma : ℕ) (batch : SettleBatch V K R) (b : ℕ) (m : RowMeta V) :
    Except EstimatorError (Option (PendingBlock V K)) :=
  let window := m.verifyLen - 1
  if m.correctLen = window ∧ window < gamma then do
    let draftsRow ← item batch.drafts b
    let qAllRow ← item batch.qAll b
    return some (openBlock gamma draftsRow qAllRow window m.prefixLen batch.forwardCt)
  else return none

variable [DecidableEq R]

def Recorder.putState (r : Recorder V K R) (rid : R) (state : RequestState V K) :
    Recorder V K R :=
  { r with states := r.states.set rid state }

/-- The part of `_settle_row` for a row of plain sampling. -/
def settleSampledRow (cfg : Config V K) (batch : SettleBatch V K R) (r : Recorder V K R) (b : ℕ)
    (rid : R) (m : RowMeta V) (state : RequestState V K) :
    Except EstimatorError (Recorder V K R) := do
  let opened ← openedBlock cfg.gamma batch b m
  let r := if opened.isSome then r else r.add [rowReport m.correctLen batch.forwardCt]
  let draftsRow ← item batch.drafts b
  let settled ← settlePending cfg
    { b, batch
      realized := draftsRow.take m.correctLen.toNat ++ [m.bonus]
      cl := m.correctLen
      seqLen := m.prefixLen
      numOldPending := state.pending.length }
    (state.pending ++ opened.toList)
  return ((r.putState rid { state with pending := settled.keptPending }).add settled.reports).write
    (.record rid batch.forwardCt (m.verifyLen - 1) m.correctLen m.capTrim
      (opened.map fun block => (block.trimmedTokens, block.qLps)) settled.pendingGathers)

/-- `_settle_row` -/
def settleRow (cfg : Config V K) (batch : SettleBatch V K R) (r : Recorder V K R) (b : ℕ) :
    Except EstimatorError (Recorder V K R) := do
  let rid ← item batch.rids b
  let state := { (r.states.get? rid).getD {} with lastSeenCt := batch.forwardCt }
  let m ← item batch.rowMeta b
  let window := m.verifyLen - 1
  require (0 ≤ m.correctLen ∧ m.correctLen ≤ window ∧ window ≤ cfg.gamma) .assertion
  let (kept, reports) := dropPendingOnDiscontinuity cfg.gamma state m.prefixLen batch.forwardCt
  let r := { r with discontinuityDropCt := r.discontinuityDropCt + reports.length }.add reports
  let state := { kept with expectedSeqLen := m.prefixLen + m.correctLen + 1 }
  if m.isGreedy || m.isTruncated then
    let r := if m.isTruncated && !m.isGreedy then r.warnOnce truncatedRowWarning else r
    return r.putState rid { state with pending := [] }
  settleSampledRow cfg batch r b rid m state

/-! ### Requests that end or are forgotten -/

/-- `_finalize_request` -/
def Recorder.finalizeRequest (gamma : ℕ) (r : Recorder V K R) (rid : R) (naturalStop : Bool)
    (forwardCt : ℤ) : Recorder V K R :=
  match r.states.get? rid with
  | none => r
  | some state =>
    let r := { r with states := r.states.pop rid }.add (state.pending.map fun block =>
      if naturalStop then finalizeEosOnline block forwardCt
      else finalizeAtEndOnline gamma block forwardCt)
    if naturalStop && !state.pending.isEmpty then
      r.write (.eosEnd rid (state.pending.map PendingBlock.forwardCt))
    else r

/-- `_apply_all_finish_intents` -/
def Recorder.applyAllFinishIntents (gamma : ℕ) (r : Recorder V K R) : Recorder V K R :=
  r.finishIntents.items.foldl (fun r (rid, naturalStop) =>
    { r with finishIntents := r.finishIntents.pop rid }.finalizeRequest gamma rid naturalStop
      r.lastForwardCt) r

/-- `_STATE_SWEEP_INTERVAL` -/
def stateSweepInterval : ℕ := 1024

/-- `_STATE_EXPIRE_STEPS` -/
def stateExpireSteps : ℤ := 4096

/-- The loop body of `_sweep_states`. -/
def Recorder.expire (gamma : ℕ) (forwardCt : ℤ) (r : Recorder V K R)
    (entry : R × RequestState V K) : Recorder V K R :=
  { r with states := r.states.pop entry.1, finishIntents := r.finishIntents.pop entry.1 }.add
    (entry.2.pending.map fun block => finalizeAtEndOnline gamma block forwardCt)

/-- `_sweep_states` -/
def Recorder.sweepStates (gamma : ℕ) (r : Recorder V K R) (forwardCt : ℤ) : Recorder V K R :=
  (r.states.items.filter fun entry =>
    decide (stateExpireSteps < forwardCt - entry.2.lastSeenCt)).foldl (expire gamma forwardCt) r

/-- `_finish_step` -/
def Recorder.finishStep (gamma : ℕ) (r : Recorder V K R) (forwardCt : ℤ) : Recorder V K R :=
  let r := { r with observedStepCt := r.observedStepCt + 1 }
  if r.observedStepCt % stateSweepInterval = 0 then r.sweepStates gamma forwardCt else r

/-- `_settle_and_write` -/
def settleAndWrite (cfg : Config V K) (r : Recorder V K R) (batch : SettleBatch V K R) :
    Except EstimatorError (Recorder V K R) := do
  let r := { r with lastForwardCt := batch.forwardCt }
  let r ← (List.range batch.rids.length).foldlM (settleRow cfg batch) r
  return (r.finishStep cfg.gamma batch.forwardCt).applyAllFinishIntents cfg.gamma

/-! ### The calls -/

/-- `DelayedDeviceHostHandler.step` -/
def delayedStep (cfg : Config V K)
    (compute : OrderedDict R (RequestState V K) →
      Except EstimatorError (Option (SettleBatch V K R)))
    (r : Recorder V K R) : Except EstimatorError (Recorder V K R) := do
  let r ← match r.future with
    | some pending => do
      let r ← settleAndWrite cfg r pending
      pure { r with future := none }
    | none => pure r
  let deviceData ← compute r.states
  return { r with future := deviceData }

def observeVerifyStep [NeZero V] (cfg : Config V K) (r : Recorder V K R) (s : VerifyStep V K R) :
    Except EstimatorError (Recorder V K R) := do
  if cfg.delayed && s.capturing then
    return r
  let r := match s.skipReason with
    | some reason => r.skipStep reason
    | none => r
  if cfg.delayed then
    delayedStep cfg (computeOnDevice cfg s) r
  else
    match ← computeOnDevice cfg s r.states with
    | some bundle => settleAndWrite cfg r bundle
    | none => return r

def flush (cfg : Config V K) (r : Recorder V K R) : Except EstimatorError (Recorder V K R) := do
  if cfg.delayed then
    let r ← delayedStep cfg (fun _ => .ok none) r
    return r.applyAllFinishIntents cfg.gamma
  return r

def noteRequestFinished (cfg : Config V K) (r : Recorder V K R) (rid : R) (naturalStop : Bool) :
    Recorder V K R :=
  if cfg.delayed then { r with finishIntents := r.finishIntents.set rid naturalStop }
  else r.finalizeRequest cfg.gamma rid naturalStop r.lastForwardCt

/-- The calls of a run. -/
inductive Call (V : ℕ) (K R : Type)
  | observe (s : VerifyStep V K R)
  | finished (rid : R) (naturalStop : Bool)
  | flush

def perform [NeZero V] (cfg : Config V K) (r : Recorder V K R) :
    Call V K R → Except EstimatorError (Recorder V K R)
  | .observe s => observeVerifyStep cfg r s
  | .finished rid naturalStop => .ok (noteRequestFinished cfg r rid naturalStop)
  | .flush => LatentSpec.BlockAccept.flush cfg r

/-- A run of the recorder. -/
def runCalls [NeZero V] (cfg : Config V K) (path : Bool) (calls : List (Call V K R)) :
    Except EstimatorError (Recorder V K R) :=
  calls.foldlM (perform cfg) (.init path)

end

end LatentSpec.BlockAccept
