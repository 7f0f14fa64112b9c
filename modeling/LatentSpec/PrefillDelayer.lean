import Mathlib.Data.Rat.Defs
import Mathlib.Algebra.Order.Ring.Rat
import Mathlib.Data.List.Induction

/-! # Negotiating whether to prefill

The schedulers of a data-parallel group have to prefill in the same passes.  In every pass each of
them gathers the reports of all and replays one state machine on them, so nothing is sent back.
Apart from what is gathered the machine reads a rank's own state: how long the current wait is,
whether the first delay was skipped, and when the wait started.

The start time is compared with the rank's own clock.  `decision` is the machine with the result
of that comparison as an input; `negotiate_decision` says that a rank follows it.  Ranks therefore
agree as long as their clocks agree where the comparison decides (`ranks_agree`), and not longer
(`agree_pass_iff`, `ranks_differ`).
-/
namespace LatentSpec

/-! ### The delayer -/

structure DelayerConfig where
  dpSize : ℕ
  attnTpSize : ℕ
  dpSize_pos : 0 < dpSize
  attnTpSize_pos : 0 < attnTpSize
  enableDpAttention : Bool
  maxDelayPasses : ℤ
  tokenUsageLowWatermark : Option ℚ
  /-- `queue_min_ratio`, as the function from `n` to `int(n * queue_min_ratio)`. -/
  queueMinRatio : Option (ℤ → ℤ)
  prefillDelayerMaxDelayMs : Option ℚ
  prefillMaxRequests : Option ℤ

namespace DelayerConfig
variable (c : DelayerConfig)

/-- `_max_delay_ms` -/
def maxDelayMs : ℚ := c.prefillDelayerMaxDelayMs.getD 5000

/-- `dp_size_dim` -/
def dpSizeDim : ℕ := if c.enableDpAttention then c.dpSize else 1

/-- The number of ranks that gather. -/
def worldSize : ℕ := c.dpSizeDim * c.attnTpSize

end DelayerConfig

/-- `_State` -/
structure DelayState where
  delayedCount : ℕ
  startTime : ℚ

def DelayState.bumpDelayedCount (s : DelayState) : DelayState :=
  { s with delayedCount := s.delayedCount + 1 }

/-- The attributes that outlive a pass. -/
structure PrefillDelayer where
  currState : Option DelayState
  skipFirstDelayer : Bool

def PrefillDelayer.init : PrefillDelayer := ⟨none, true⟩

/-- What a scheduler passes to the negotiation. -/
structure LocalReport where
  localPrefillable : Bool
  tokenUsage : ℚ
  runningBatch : ℤ
  maxPrefillBs : ℤ
  waitingQueueLen : ℤ

/-- What `time.perf_counter()` shows a rank in a pass, at the three places that may read it. -/
structure Clock where
  wait : ℚ
  elapsed : ℚ
  start : ℚ

/-- A row of the gathered tensor. -/
structure RankInfo where
  prefillable : ℤ
  tokenWatermarkForceAllow : ℤ
  runningBatch : ℤ
  maxPrefillBs : ℤ
  waitingQueueLen : ℤ

inductive PrefillableStatus
  | all
  | none
  | mixed
  deriving DecidableEq

inductive OutputReason
  | tokenWatermark
  | delay
  | waitTimeout
  | waitSuccess
  | noWait
  | empty
  deriving DecidableEq

/-- `_NegotiateOutput` -/
structure NegotiateOutput where
  nextState : Option DelayState
  inputEstimation : PrefillableStatus
  outputAllow : Bool
  outputReason : OutputReason
  numPrefillable : ℤ
  numTokenWatermarkForceAllow : ℤ
  waitForwardPasses : ℕ
  waitSeconds : ℚ

/-! ### Gathering -/

/-- The `local_info` of a rank. -/
def localInfo (c : DelayerConfig) (r : LocalReport) : RankInfo where
  prefillable := if r.localPrefillable then 1 else 0
  tokenWatermarkForceAllow :=
    if r.localPrefillable ∧ c.tokenUsageLowWatermark.any fun x => r.tokenUsage < x then 1 else 0
  runningBatch := r.runningBatch
  maxPrefillBs := r.maxPrefillBs
  waitingQueueLen := r.waitingQueueLen

/-- `_gather_info`: the row of the first rank of each attention group. -/
def gatherInfo (c : DelayerConfig) (reports : ℕ → LocalReport) : List RankInfo :=
  (List.range c.dpSizeDim).map fun d => localInfo c (reports (d * c.attnTpSize))

/-- `tp0_info[:, i].max()` -/
def columnMax (tp0Info : List RankInfo) (column : RankInfo → ℤ) : ℤ :=
  (tp0Info.map column).max?.getD 0

/-- `tp0_info[:, i].min()` -/
def columnMin (tp0Info : List RankInfo) (column : RankInfo → ℤ) : ℤ :=
  (tp0Info.map column).min?.getD 0

def prefillableStatus (tp0Info : List RankInfo) : PrefillableStatus :=
  if 0 < columnMin tp0Info RankInfo.prefillable then .all
  else if columnMax tp0Info RankInfo.prefillable = 0 then .none
  else .mixed

/-- `global_exists_token_watermark_force_allow` -/
def existsForceAllow (tp0Info : List RankInfo) : Bool :=
  decide (0 < columnMax tp0Info RankInfo.tokenWatermarkForceAllow)

/-- `queue_condition` before the timeout. -/
def queueWaits (c : DelayerConfig) (tp0Info : List RankInfo) : Bool :=
  let globalRunningBatchMax := columnMax tp0Info RankInfo.runningBatch
  match c.queueMinRatio with
  | none => false
  | some scale =>
    if 0 < globalRunningBatchMax then
      let queueCapacity := c.prefillMaxRequests.getD (columnMax tp0Info RankInfo.maxPrefillBs)
      let queueMinEffective := min (scale globalRunningBatchMax) queueCapacity
      decide (0 < queueMinEffective ∧ columnMax tp0Info RankInfo.waitingQueueLen <
        queueMinEffective)
    else false

def slotCondition (c : DelayerConfig) (tp0Info : List RankInfo) (maxRunningRequests : ℤ) : Bool :=
  let maxRunningRequests :=
    if c.enableDpAttention then maxRunningRequests
    else (maxRunningRequests + c.dpSize - 1) / c.dpSize
  decide (maxRunningRequests - columnMax tp0Info RankInfo.runningBatch <
    columnMax tp0Info RankInfo.maxPrefillBs)

/-! ### Negotiating -/

/-- `elapsed_ms >= self._max_delay_ms`, if there is a previous state. -/
def timedOut (c : DelayerConfig) (prevState : Option DelayState) (clock : Clock) : Bool :=
  prevState.any fun s => c.maxDelayMs ≤ (clock.elapsed - s.startTime) * 1000

section Outputs
variable (tp0Info : List RankInfo) (prevState : Option DelayState) (clock : Clock)

/-- An output that ends the wait, with `debug_info` and `wait_info`. -/
def releaseOutput (reason : OutputReason) : NegotiateOutput where
  nextState := none
  inputEstimation := prefillableStatus tp0Info
  outputAllow := true
  outputReason := reason
  numPrefillable := (tp0Info.map RankInfo.prefillable).sum
  numTokenWatermarkForceAllow := (tp0Info.map RankInfo.tokenWatermarkForceAllow).sum
  waitForwardPasses := (prevState.map DelayState.delayedCount).getD 0
  waitSeconds := (prevState.map fun s => clock.wait - s.startTime).getD 0

/-- An output that waits for another pass. -/
def delayOutput : NegotiateOutput where
  nextState := some (prevState.getD ⟨0, clock.start⟩).bumpDelayedCount
  inputEstimation := prefillableStatus tp0Info
  outputAllow := false
  outputReason := .delay
  numPrefillable := (tp0Info.map RankInfo.prefillable).sum
  numTokenWatermarkForceAllow := (tp0Info.map RankInfo.tokenWatermarkForceAllow).sum
  waitForwardPasses := 0
  waitSeconds := 0

/-- Waits, at most `max_delay_passes - 1` times. -/
def delayBounded (c : DelayerConfig) : NegotiateOutput :=
  let prevDelayedCount := (prevState.map DelayState.delayedCount).getD 0
  if prevDelayedCount < c.maxDelayPasses - 1 then delayOutput tp0Info prevState clock
  else releaseOutput tp0Info prevState clock .waitTimeout

end Outputs

/-- `_negotiate_should_allow_prefill_pure`, and what it leaves in `skip_first_delayer`. -/
def negotiatePure (c : DelayerConfig) (self : PrefillDelayer) (tp0Info : List RankInfo)
    (maxRunningRequests : ℤ) (clock : Clock) : NegotiateOutput × Bool :=
  let prevState := self.currState
  let release := releaseOutput tp0Info prevState clock
  match prefillableStatus tp0Info with
  | .all =>
    if existsForceAllow tp0Info then (release .tokenWatermark, self.skipFirstDelayer)
    else
      let queueCondition := queueWaits c tp0Info && !timedOut c prevState clock
      let released := release (if prevState.isSome then .waitSuccess else .noWait)
      if slotCondition c tp0Info maxRunningRequests || queueCondition then
        if self.skipFirstDelayer then (released, false)
        else (delayBounded tp0Info prevState clock c, false)
      else (released, self.skipFirstDelayer)
  | .none => (release .empty, self.skipFirstDelayer)
  | .mixed =>
    if existsForceAllow tp0Info then (release .tokenWatermark, self.skipFirstDelayer)
    else (delayBounded tp0Info prevState clock c, self.skipFirstDelayer)

/-- `_negotiate_should_allow_prefill`: the output and the delayer after it. -/
def negotiate (c : DelayerConfig) (self : PrefillDelayer) (tp0Info : List RankInfo)
    (maxRunningRequests : ℤ) (clock : Clock) : NegotiateOutput × PrefillDelayer :=
  let (out, skipFirstDelayer) := negotiatePure c self tp0Info maxRunningRequests clock
  (out, ⟨out.nextState, skipFirstDelayer⟩)

/-! ### The group -/

/-- One pass of the group: what each rank reports and what its clock shows. -/
structure Pass where
  reports : ℕ → LocalReport
  clocks : ℕ → Clock
  maxRunningRequests : ℤ

section Group
variable (c : DelayerConfig) (ranks : ℕ → PrefillDelayer) (p : Pass)

/-- The negotiation of rank `r`; the tensor is the same for all. -/
def negotiateRank (r : ℕ) : NegotiateOutput × PrefillDelayer :=
  negotiate c (ranks r) (gatherInfo c p.reports) p.maxRunningRequests (p.clocks r)

def passRanks (r : ℕ) : PrefillDelayer := (negotiateRank c ranks p r).2

/-- The ranks after the passes. -/
def runRanks (passes : List Pass) : ℕ → PrefillDelayer :=
  passes.foldl (passRanks c) fun _ => PrefillDelayer.init

end Group

/-! ### The machine that is replayed -/

/-- What the ranks should share: the length of the wait and the first-delay flag. -/
structure Shared where
  delayedCount : Option ℕ
  skipFirstDelayer : Bool

def PrefillDelayer.shared (self : PrefillDelayer) : Shared :=
  ⟨self.currState.map DelayState.delayedCount, self.skipFirstDelayer⟩

/-- Waits if the bound allows it. -/
def Shared.delay (c : DelayerConfig) (s : Shared) (skipFirstDelayer : Bool) : Bool × Shared :=
  if s.delayedCount.getD 0 < c.maxDelayPasses - 1 then
    (false, ⟨some (s.delayedCount.getD 0 + 1), skipFirstDelayer⟩)
  else (true, ⟨none, skipFirstDelayer⟩)

/-- **The machine**: the decision and the next state, from the gathered rows and the timeout. -/
def decision (c : DelayerConfig) (tp0Info : List RankInfo) (maxRunningRequests : ℤ) (s : Shared)
    (timeout : Bool) : Bool × Shared :=
  match prefillableStatus tp0Info with
  | .all =>
    if existsForceAllow tp0Info then (true, ⟨none, s.skipFirstDelayer⟩)
    else if slotCondition c tp0Info maxRunningRequests || (queueWaits c tp0Info && !timeout) then
      if s.skipFirstDelayer then (true, ⟨none, false⟩) else s.delay c false
    else (true, ⟨none, s.skipFirstDelayer⟩)
  | .none => (true, ⟨none, s.skipFirstDelayer⟩)
  | .mixed =>
    if existsForceAllow tp0Info then (true, ⟨none, s.skipFirstDelayer⟩)
    else s.delay c s.skipFirstDelayer

/-- The timeout is looked at, and the wait would go on without it. -/
structure TimeoutDecides (c : DelayerConfig) (tp0Info : List RankInfo) (maxRunningRequests : ℤ)
    (s : Shared) : Prop where
  status : prefillableStatus tp0Info = .all
  noForceAllow : existsForceAllow tp0Info = false
  noSlot : slotCondition c tp0Info maxRunningRequests = false
  queue : queueWaits c tp0Info = true
  waiting : s.delayedCount.isSome
  goesOn : s.skipFirstDelayer = true ∨ s.delayedCount.getD 0 < c.maxDelayPasses - 1

section Decision
variable (c : DelayerConfig) (tp0Info : List RankInfo) (maxRunningRequests : ℤ)

variable {c} in
/-- A rank that has no previous state has not timed out. -/
theorem isSome_of_timedOut {self : PrefillDelayer} {clock : Clock}
    (h : timedOut c self.currState clock = true) : self.shared.delayedCount.isSome := by
  unfold PrefillDelayer.shared
  cases hstate : self.currState with
  | none =>
    rw [hstate] at h
    cases h
  | some s => rfl

theorem delayBounded_delay (self : PrefillDelayer) (clock : Clock) (skip : Bool) :
    ((delayBounded tp0Info self.currState clock c).outputAllow,
      PrefillDelayer.shared ⟨(delayBounded tp0Info self.currState clock c).nextState, skip⟩) =
      self.shared.delay c skip := by
  have hcount : self.shared.delayedCount = self.currState.map DelayState.delayedCount := rfl
  unfold delayBounded Shared.delay
  rw [hcount]
  dsimp only
  split_ifs
  · cases self.currState <;> rfl
  · rfl

/-- **A rank follows the machine**, with its own clock for the timeout. -/
theorem negotiate_decision (self : PrefillDelayer) (clock : Clock) :
    ((negotiate c self tp0Info maxRunningRequests clock).1.outputAllow,
      (negotiate c self tp0Info maxRunningRequests clock).2.shared) =
      decision c tp0Info maxRunningRequests self.shared (timedOut c self.currState clock) := by
  have hdelay := delayBounded_delay c tp0Info self clock
  have hskip : self.shared.skipFirstDelayer = self.skipFirstDelayer := rfl
  unfold negotiate negotiatePure decision
  dsimp only
  rw [hskip]
  cases prefillableStatus tp0Info with
  | none => rfl
  | mixed =>
    dsimp only
    by_cases hforce : existsForceAllow tp0Info = true
    · rw [if_pos hforce, if_pos hforce]
      rfl
    · rw [if_neg hforce, if_neg hforce]
      exact hdelay _
  | all =>
    dsimp only
    by_cases hforce : existsForceAllow tp0Info = true
    · rw [if_pos hforce, if_pos hforce]
      rfl
    rw [if_neg hforce, if_neg hforce]
    by_cases hcond : (slotCondition c tp0Info maxRunningRequests ||
        (queueWaits c tp0Info && !timedOut c self.currState clock)) = true
    · rw [if_pos hcond, if_pos hcond]
      by_cases hfirst : self.skipFirstDelayer = true
      · rw [if_pos hfirst, if_pos hfirst]
        rfl
      · rw [if_neg hfirst, if_neg hfirst]
        exact hdelay _
    · rw [if_neg hcond, if_neg hcond]
      rfl

variable {c tp0Info maxRunningRequests} {s : Shared}

/-- Where the timeout decides, the machine ends in two different states. -/
theorem TimeoutDecides.ne (h : TimeoutDecides c tp0Info maxRunningRequests s) :
    (decision c tp0Info maxRunningRequests s true).2 ≠
      (decision c tp0Info maxRunningRequests s false).2 := by
  intro heq
  unfold decision at heq
  simp only [h.status, h.noForceAllow, h.noSlot, h.queue] at heq
  by_cases hfirst : s.skipFirstDelayer = true
  · simp [hfirst] at heq
  · have hgo := h.goesOn.resolve_left hfirst
    simp [hfirst, Shared.delay, hgo] at heq

/-- Elsewhere it makes no difference. -/
theorem decision_of_not_decides (hwaiting : s.delayedCount.isSome)
    (hnot : ¬ TimeoutDecides c tp0Info maxRunningRequests s) :
    decision c tp0Info maxRunningRequests s true =
      decision c tp0Info maxRunningRequests s false := by
  unfold decision
  cases hstatus : prefillableStatus tp0Info with
  | none => rfl
  | mixed => rfl
  | all =>
    dsimp only
    cases hforce : existsForceAllow tp0Info with
    | true => rfl
    | false =>
      cases hslot : slotCondition c tp0Info maxRunningRequests with
      | true => rfl
      | false =>
        cases hqueue : queueWaits c tp0Info with
        | false => rfl
        | true =>
          -- the wait would end here anyway
          have hends : ¬ (s.skipFirstDelayer = true ∨
              s.delayedCount.getD 0 < c.maxDelayPasses - 1) :=
            fun hgo => hnot ⟨hstatus, hforce, hslot, hqueue, hwaiting, hgo⟩
          obtain ⟨hfirst, hbound⟩ := not_or.mp hends
          simp [hfirst, Shared.delay, hbound]

end Decision

/-! ### Agreement -/

/-- All ranks share one state. -/
def Agree (c : DelayerConfig) (ranks : ℕ → PrefillDelayer) : Prop :=
  ∀ r < c.worldSize, ∀ r' < c.worldSize, (ranks r).shared = (ranks r').shared

/-- Where the timeout decides, the clocks of all ranks are on the same side of it. -/
def ClocksAgree (c : DelayerConfig) (ranks : ℕ → PrefillDelayer) (p : Pass) : Prop :=
  ∀ r < c.worldSize, ∀ r' < c.worldSize,
    TimeoutDecides c (gatherInfo c p.reports) p.maxRunningRequests (ranks r).shared →
      timedOut c (ranks r).currState (p.clocks r) = timedOut c (ranks r').currState (p.clocks r')

section Agreement
variable {c : DelayerConfig} {ranks : ℕ → PrefillDelayer} {p : Pass}

/-- Two ranks that share a state do the same, unless the timeout decides and their clocks differ. -/
theorem negotiateRank_eq {r r' : ℕ} (hshared : (ranks r).shared = (ranks r').shared)
    (htimeout : TimeoutDecides c (gatherInfo c p.reports) p.maxRunningRequests (ranks r).shared →
      timedOut c (ranks r).currState (p.clocks r) =
        timedOut c (ranks r').currState (p.clocks r')) :
    (negotiateRank c ranks p r).1.outputAllow = (negotiateRank c ranks p r').1.outputAllow ∧
      (passRanks c ranks p r).shared = (passRanks c ranks p r').shared := by
  have hleft := negotiate_decision c (gatherInfo c p.reports) p.maxRunningRequests (ranks r)
    (p.clocks r)
  have hright := negotiate_decision c (gatherInfo c p.reports) p.maxRunningRequests (ranks r')
    (p.clocks r')
  rw [← hshared] at hright
  have hsame : decision c (gatherInfo c p.reports) p.maxRunningRequests (ranks r).shared
      (timedOut c (ranks r).currState (p.clocks r)) =
        decision c (gatherInfo c p.reports) p.maxRunningRequests (ranks r).shared
          (timedOut c (ranks r').currState (p.clocks r')) := by
    by_cases hdecides : TimeoutDecides c (gatherInfo c p.reports) p.maxRunningRequests
        (ranks r).shared
    · rw [htimeout hdecides]
    cases ht : timedOut c (ranks r).currState (p.clocks r) with
    | true =>
      cases timedOut c (ranks r').currState (p.clocks r') with
      | true => rfl
      | false => exact decision_of_not_decides (isSome_of_timedOut ht) hdecides
    | false =>
      cases ht' : timedOut c (ranks r').currState (p.clocks r') with
      | true =>
        have hsome := isSome_of_timedOut ht'
        rw [← hshared] at hsome
        exact (decision_of_not_decides hsome hdecides).symm
      | false => rfl
  exact Prod.ext_iff.mp ((hleft.trans hsame).trans hright.symm)

/-- **A pass keeps the agreement exactly if the clocks agree where the timeout decides.** -/
theorem agree_pass_iff (h : Agree c ranks) :
    Agree c (passRanks c ranks p) ↔ ClocksAgree c ranks p := by
  constructor
  · intro hafter r hr r' hr' hdecides
    have hleft := negotiate_decision c (gatherInfo c p.reports) p.maxRunningRequests (ranks r)
      (p.clocks r)
    have hright := negotiate_decision c (gatherInfo c p.reports) p.maxRunningRequests (ranks r')
      (p.clocks r')
    rw [← h r hr r' hr'] at hright
    have hstates := ((Prod.ext_iff.mp hleft).2.symm.trans (hafter r hr r' hr')).trans
      (Prod.ext_iff.mp hright).2
    by_contra hne
    cases ht : timedOut c (ranks r).currState (p.clocks r) <;>
      cases ht' : timedOut c (ranks r').currState (p.clocks r') <;> rw [ht, ht'] at hstates hne
    · exact hne rfl
    · exact hdecides.ne hstates.symm
    · exact hdecides.ne hstates
    · exact hne rfl
  · intro hclocks r hr r' hr'
    exact (negotiateRank_eq (h r hr r' hr') (hclocks r hr r' hr')).2

/-- The ranks agree after passes in each of which the clocks did. -/
theorem agree_runRanks {passes : List Pass}
    (hclocks : ∀ before q after, passes = before ++ q :: after →
      ClocksAgree c (runRanks c before) q) : Agree c (runRanks c passes) := by
  induction passes using List.reverseRecOn with
  | nil => exact fun _ _ _ _ => rfl
  | append_singleton passes q ih =>
    have hbefore := ih fun before q' after heq =>
      hclocks before q' (after ++ [q]) (by rw [heq, List.append_assoc, List.cons_append])
    have hpass := hclocks passes q [] rfl
    rw [runRanks, List.foldl_append]
    exact (agree_pass_iff hbefore).mpr hpass

/-- **All ranks agree** in every pass of every run, if in each pass their clocks are on the same
side of the queue timeout wherever it decides: they return the same decision and hold states with
the same count of delays, or none. -/
theorem ranks_agree (c : DelayerConfig) (passes : List Pass)
    (hclocks : ∀ before q after, passes = before ++ q :: after →
      ClocksAgree c (runRanks c before) q) :
    ∀ before p after, passes = before ++ p :: after → ∀ r < c.worldSize, ∀ r' < c.worldSize,
      (negotiateRank c (runRanks c before) p r).1.outputAllow =
        (negotiateRank c (runRanks c before) p r').1.outputAllow ∧
      (runRanks c (before ++ [p]) r).currState.map DelayState.delayedCount =
        (runRanks c (before ++ [p]) r').currState.map DelayState.delayedCount := by
  intro before p after heq r hr r' hr'
  have hagree : Agree c (runRanks c before) := agree_runRanks fun before' q after' heq' =>
    hclocks before' q (after' ++ p :: after)
      (by rw [heq, heq', List.append_assoc, List.cons_append])
  obtain ⟨hallow, hshared⟩ := negotiateRank_eq (hagree r hr r' hr')
    (hclocks before p after heq r hr r' hr')
  refine ⟨hallow, ?_⟩
  rw [runRanks, List.foldl_append]
  exact congrArg Shared.delayedCount hshared

/-- With one clock for all ranks nothing can differ. -/
theorem runRanks_const {passes : List Pass}
    (hclocks : ∀ q ∈ passes, ∀ r r', q.clocks r = q.clocks r')
    (r r' : ℕ) : runRanks c passes r = runRanks c passes r' := by
  induction passes using List.reverseRecOn with
  | nil => rfl
  | append_singleton passes q ih =>
    have hbefore := ih fun q' hq' => hclocks q' (List.mem_append_left _ hq')
    have hclock := hclocks q (List.mem_append_right _ List.mem_cons_self) r r'
    rw [runRanks, List.foldl_append]
    show passRanks c (runRanks c passes) q r = passRanks c (runRanks c passes) q r'
    rw [passRanks, passRanks, negotiateRank, negotiateRank, hbefore, hclock]

theorem clocksAgree_of_const {passes : List Pass}
    (hclocks : ∀ q ∈ passes, ∀ r r', q.clocks r = q.clocks r') {before after : List Pass} {q : Pass}
    (heq : passes = before ++ q :: after) : ClocksAgree c (runRanks c before) q := by
  subst heq
  intro r _ r' _ _
  have hranks :=
    runRanks_const (c := c) (fun q' hq' => hclocks q' (List.mem_append_left _ hq')) r r'
  rw [hranks, hclocks q (List.mem_append_right _ List.mem_cons_self) r r']

end Agreement

/-! ### Two ranks with clocks of their own -/

/-- Two ranks, with the queue trigger on. -/
def queueConfig : DelayerConfig where
  dpSize := 2
  attnTpSize := 1
  dpSize_pos := Nat.two_pos
  attnTpSize_pos := Nat.one_pos
  enableDpAttention := true
  maxDelayPasses := 100
  tokenUsageLowWatermark := some (8 / 10)
  queueMinRatio := some fun n => n / 2
  prefillDelayerMaxDelayMs := none
  prefillMaxRequests := none

/-- A pass in which the trigger holds for a short queue; rank 1 reads its clock a little late. -/
def busyPass (time late : ℚ) : Pass where
  reports _ := ⟨true, 9 / 10, 100, 80, 10⟩
  clocks r := if r = 0 then ⟨time, time, time⟩ else ⟨time + late, time + late, time + late⟩
  maxRunningRequests := 1024

/-- With one clock both ranks wait, and are released together. -/
theorem ranks_agree_oneClock :
    (negotiateRank queueConfig (runRanks queueConfig [busyPass 0 0, busyPass 1 0]) (busyPass 6 0)
        0).1.outputAllow =
      (negotiateRank queueConfig (runRanks queueConfig [busyPass 0 0, busyPass 1 0]) (busyPass 6 0)
        1).1.outputAllow := by
  have hclocks : ∀ q ∈ [busyPass 0 0, busyPass 1 0, busyPass 6 0], ∀ r r',
      q.clocks r = q.clocks r' := by
    have hbusy : ∀ t r r', (busyPass t 0).clocks r = (busyPass t 0).clocks r' := by
      intro t r r'
      simp [busyPass]
    intro q hq
    simp only [List.mem_cons, List.not_mem_nil, or_false] at hq
    rcases hq with rfl | rfl | rfl <;> exact hbusy _
  exact (ranks_agree queueConfig [busyPass 0 0, busyPass 1 0, busyPass 6 0]
    (fun _ _ _ heq => clocksAgree_of_const hclocks heq) [busyPass 0 0, busyPass 1 0] (busyPass 6 0)
    [] rfl 0 (by decide) 1 (by decide)).1

/-- **The ranks differ** when the timeout falls between their readings: rank 1 noted the start of
the wait a millisecond later, and five seconds after that of rank 0 only rank 0 prefills. -/
theorem ranks_differ :
    (negotiateRank queueConfig
      (runRanks queueConfig [busyPass 0 0, busyPass 1 (1 / 1000)]) (busyPass 6 0) 0).1.outputAllow =
        true ∧
    (negotiateRank queueConfig
      (runRanks queueConfig [busyPass 0 0, busyPass 1 (1 / 1000)]) (busyPass 6 0) 1).1.outputAllow =
        false := by
  decide +kernel

end LatentSpec
