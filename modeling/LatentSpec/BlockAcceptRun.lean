import LatentSpec.BlockAcceptWalk
import Mathlib.Analysis.SpecialFunctions.Log.Basic

/-! # Runs of the block-accept estimator

Every request that is pending waits for the row behind its last one, and every interval that was
reported has the bounds of the block it is about (`RecorderOk`).  A bundle in flight can be settled
in the state the recorder is in (`RunOk`): nothing touches the pending blocks between the step that
planned the lookups and the step that settles them, and a row touches those of its own request
only.  So no call raises (`exists_runCalls`), and the bounds of a trace bracket the whole block
(`runCalls_bracket`).
-/
namespace LatentSpec.BlockAccept
open RunningProducts

section
variable {V : ℕ} {K R : Type} [Field K] [LinearOrder K]

/-! ### The state between two calls -/

/-- The blocks of a request wait for the row behind its last one. -/
structure StateOk (cfg : Config V K) (steps : VerifyStep V K R → Prop) (rid : R)
    (state : RequestState V K) : Prop where
  expected_nonneg : state.pending ≠ [] → 0 ≤ state.expectedSeqLen
  waits : ∀ block ∈ state.pending, WaitsAt cfg steps rid state.expectedSeqLen block

variable {cfg : Config V K} {steps : VerifyStep V K R → Prop} {rid : R}

theorem stateOk_of_nil {state : RequestState V K} (h : state.pending = []) :
    StateOk cfg steps rid state := by
  refine ⟨fun hne => absurd h hne, fun block hblock => ?_⟩
  rw [h] at hblock
  cases hblock

theorem StateOk.follows {state : RequestState V K} (h : StateOk cfg steps rid state) :
    state.Follows cfg.gamma :=
  ⟨h.expected_nonneg, fun block hblock => (h.waits block hblock).follows⟩

theorem StateOk.atEnd {state : RequestState V K} (h : StateOk cfg steps rid state)
    (forwardCt : ℤ) {report : Report V K}
    (hreport : report ∈ state.pending.map fun block =>
      finalizeAtEndOnline cfg.gamma block forwardCt) : ReportOk cfg steps report := by
  obtain ⟨block, hblock, rfl⟩ := List.mem_map.mp hreport
  obtain ⟨⟨tok, p, q, htrace⟩, -, -⟩ := h.waits block hblock
  exact htrace.reportOk_atEnd forwardCt

variable [DecidableEq R]

structure RecorderOk (cfg : Config V K) (steps : VerifyStep V K R → Prop) (r : Recorder V K R) :
    Prop where
  states : ∀ rid state, r.states.get? rid = some state → StateOk cfg steps rid state
  reports : ∀ report ∈ r.online, ReportOk cfg steps report

variable {r r' : Recorder V K R}

theorem RecorderOk.congr (h : RecorderOk cfg steps r) (hstates : r'.states = r.states)
    (honline : r'.online = r.online) : RecorderOk cfg steps r' :=
  ⟨fun rid state hstate => h.states rid state (hstates ▸ hstate),
    fun report hreport => h.reports report (honline ▸ hreport)⟩

theorem RecorderOk.add (h : RecorderOk cfg steps r) {reports : List (Report V K)}
    (hreports : ∀ report ∈ reports, ReportOk cfg steps report) :
    RecorderOk cfg steps (r.add reports) := by
  refine ⟨h.states, fun report hreport => ?_⟩
  rcases List.mem_append.mp hreport with hreport | hreport
  · exact h.reports report hreport
  · exact hreports report hreport

theorem RecorderOk.putState (h : RecorderOk cfg steps r) {state : RequestState V K}
    (hstate : StateOk cfg steps rid state) : RecorderOk cfg steps (r.putState rid state) := by
  refine ⟨fun rid' state' hstate' => ?_, h.reports⟩
  rw [Recorder.putState, OrderedDict.get?_set] at hstate'
  split at hstate'
  · rename_i hrid
    obtain rfl := Option.some.inj hstate'
    exact hrid ▸ hstate
  · exact h.states rid' state' hstate'

theorem RecorderOk.popState (h : RecorderOk cfg steps r) (rid : R) :
    RecorderOk cfg steps { r with states := r.states.pop rid } := by
  refine ⟨fun rid' state' hstate' => ?_, h.reports⟩
  rw [OrderedDict.get?_pop] at hstate'
  split at hstate'
  · cases hstate'
  · exact h.states rid' state' hstate'

theorem RecorderOk.stateOf (h : RecorderOk cfg steps r) (rid : R) :
    StateOk cfg steps rid (stateOf r.states rid) := by
  unfold BlockAccept.stateOf
  cases hstate : r.states.get? rid with
  | none => exact stateOk_of_nil rfl
  | some state => exact h.states rid state hstate

theorem RecorderOk.warnOnce (h : RecorderOk cfg steps r) (reason : String) :
    RecorderOk cfg steps (r.warnOnce reason) := by
  unfold Recorder.warnOnce
  split
  · exact h
  · exact h.congr rfl rfl

omit [Field K] [LinearOrder K] [DecidableEq R] in
theorem warnOnce_states (r : Recorder V K R) (reason : String) :
    (r.warnOnce reason).states = r.states := by
  unfold Recorder.warnOnce
  split <;> rfl

omit [Field K] [LinearOrder K] [DecidableEq R] in
theorem warnOnce_future (r : Recorder V K R) (reason : String) :
    (r.warnOnce reason).future = r.future := by
  unfold Recorder.warnOnce
  split <;> rfl

/-! ### Settling a row -/

/-- What settling a row of a request leaves as it was: the other requests, and the step in
flight. -/
structure RowFrame (r r' : Recorder V K R) (rid : R) : Prop where
  states : ∀ rid', rid' ≠ rid → r'.states.get? rid' = r.states.get? rid'
  future : r'.future = r.future

omit [Field K] [LinearOrder K] in
theorem rowFrame_putState (h : r'.states = r.states) (hfuture : r'.future = r.future) (rid : R)
    (state : RequestState V K) : RowFrame r (r'.putState rid state) rid := by
  refine ⟨fun rid' hne => ?_, hfuture⟩
  rw [Recorder.putState, OrderedDict.get?_set, if_neg hne, h]

variable {s : VerifyStep V K R} {batch : SettleBatch V K R} {b : ℕ} {state : RequestState V K}
  {m : RowMeta V} {drafts : List (Fin V)} {qs diag : List K}

/-- **A row of plain sampling**: the blocks that it found, then the one that it opens. -/
theorem exists_settleSampledRow (hok : RecorderOk cfg steps r) (hsteps : steps s)
    (hrid : s.rids[b]? = some rid) {before : RequestState V K}
    (hready : RowReady cfg s batch b before m drafts qs diag)
    (hexpected : state.expectedSeqLen = m.prefixLen + m.correctLen + 1)
    (hold : ∀ (i : ℕ) block, state.pending[i]? = some block → ∃ tok p q,
      BlockTrace cfg steps rid block tok p q ∧
        WalkReady cfg steps rid (rowContext batch b m drafts state.pending.length) i block tok) :
    ∃ r', settleSampledRow cfg batch r b rid m state = .ok r' ∧ RecorderOk cfg steps r' ∧
      RowFrame r r' rid := by
  obtain ⟨opened, hopened, hblock⟩ := exists_openedBlock hready
  -- every block of the list can be walked
  have hwalk : ∀ (i : ℕ) block, (state.pending ++ opened.toList)[i]? = some block → ∃ tok p q,
      BlockTrace cfg steps rid block tok p q ∧
        WalkReady cfg steps rid (rowContext batch b m drafts state.pending.length) i block tok := by
    intro i block hi
    by_cases hlt : i < state.pending.length
    · rw [List.getElem?_append_left hlt] at hi
      exact hold i block hi
    · rw [List.getElem?_append_right (by omega)] at hi
      have hmem := List.mem_of_getElem? hi
      obtain ⟨rfl, hwindow, hlt'⟩ := hblock block (Option.mem_toList.mp hmem)
      have hcl := hready.bounds.1
      exact ⟨_, fun _ => 0, _, BlockTrace.openBlock hsteps hrid hready (by omega) hlt',
        hready.walkReady_new hsteps hrid hwindow (by omega)⟩
  obtain ⟨settled, hsettled, hkept, hreports⟩ := exists_settlePending hwalk
  let r₁ := if opened.isSome then r else r.add [rowReport m.correctLen batch.forwardCt]
  have hr₁ : RecorderOk cfg steps r₁ ∧ r₁.states = r.states ∧ r₁.future = r.future := by
    cases opened with
    | some block => exact ⟨hok, rfl, rfl⟩
    | none =>
      refine ⟨hok.add fun report hreport => ?_, rfl, rfl⟩
      obtain rfl := List.mem_singleton.mp hreport
      exact reportOk_row _ _
  obtain ⟨hok₁, hstates₁, hfuture₁⟩ := hr₁
  have hstate : StateOk cfg steps rid { state with pending := settled.keptPending } := by
    refine ⟨fun _ => ?_, fun block hmem => ?_⟩
    · show 0 ≤ state.expectedSeqLen
      have := hready.seqLen_nonneg
      have := hready.bounds.1
      omega
    · show WaitsAt cfg steps rid state.expectedSeqLen block
      rw [hexpected]
      exact hkept block hmem
  let row : Line V K R := .record rid batch.forwardCt (m.verifyLen - 1) m.correctLen m.capTrim
    (opened.map fun block => (block.trimmedTokens, block.qLps)) settled.pendingGathers
  refine ⟨((r₁.putState rid { state with pending := settled.keptPending }).add
    settled.reports).write row, ?_, ?_, ?_⟩
  · rw [settleSampledRow, hopened]
    show (item batch.drafts b >>= _) = _
    rw [item_natCast hready.drafts_eq]
    show (settlePending cfg (rowContext batch b m drafts state.pending.length) _ >>= _) = _
    rw [hsettled]
    rfl
  · exact ((hok₁.putState hstate).add hreports).congr rfl rfl
  · have hframe := rowFrame_putState hstates₁ hfuture₁ rid
      { state with pending := settled.keptPending }
    exact ⟨hframe.states, hframe.future⟩

omit [DecidableEq R] in
/-- Blocks that a gap in the sequence drops are reported; without a gap they stay. -/
theorem StateOk.dropPending (h : StateOk cfg steps rid state) (seqLen forwardCt : ℤ) :
    (∀ report ∈ (dropPendingOnDiscontinuity cfg.gamma state seqLen forwardCt).2,
        ReportOk cfg steps report) ∧
      ∀ (i : ℕ) block,
        (dropPendingOnDiscontinuity cfg.gamma state seqLen forwardCt).1.pending[i]? = some block →
          state.pending[i]? = some block ∧ seqLen = state.expectedSeqLen := by
  unfold dropPendingOnDiscontinuity
  by_cases hdis : state.discontinued seqLen = true
  · rw [if_pos hdis]
    refine ⟨fun report hreport => h.atEnd forwardCt hreport, fun i block hblock => ?_⟩
    cases hblock
  · rw [if_neg hdis]
    refine ⟨fun report hreport => ?_, fun i block hblock => ⟨hblock, ?_⟩⟩
    · cases hreport
    · have hnonneg := h.expected_nonneg (List.ne_nil_of_mem (List.mem_of_getElem? hblock))
      by_contra hdiff
      have hneg : ¬state.expectedSeqLen < 0 := by omega
      exact hdis (by simp [RequestState.discontinued, hneg, hdiff])

/-- **Settling a row** succeeds and keeps the recorder in order. -/
theorem exists_settleRow (hok : RecorderOk cfg steps r) (hsteps : steps s)
    (hrids : batch.rids = s.rids) (hrid : s.rids[b]? = some rid)
    (hready : RowReady cfg s batch b (stateOf r.states rid) m drafts qs diag) :
    ∃ r', settleRow cfg batch r b = .ok r' ∧ RecorderOk cfg steps r' ∧ RowFrame r r' rid := by
  have hstate := hok.stateOf rid
  let state := { stateOf r.states rid with lastSeenCt := batch.forwardCt }
  let dropped := dropPendingOnDiscontinuity cfg.gamma state m.prefixLen batch.forwardCt
  let after := { dropped.1 with expectedSeqLen := m.prefixLen + m.correctLen + 1 }
  let r₁ := { r with
    discontinuityDropCt := r.discontinuityDropCt + dropped.2.length }.add dropped.2
  have hrow : settleRow cfg batch r b =
      if m.isGreedy || m.isTruncated then
        .ok ((if m.isTruncated && !m.isGreedy then r₁.warnOnce truncatedRowWarning
          else r₁).putState rid { after with pending := [] })
      else settleSampledRow cfg batch r₁ b rid m after := by
    rw [settleRow, item_natCast (hrids ▸ hrid)]
    show (item batch.rowMeta b >>= _) = _
    rw [item_natCast hready.rowMeta]
    show (require _ _ >>= _) = _
    rw [require_ok hready.bounds]
    rfl
  have hseen : StateOk cfg steps rid state := ⟨hstate.expected_nonneg, hstate.waits⟩
  obtain ⟨hreports, hsame⟩ := hseen.dropPending m.prefixLen batch.forwardCt
  have hcounted : RecorderOk cfg steps { r with
      discontinuityDropCt := r.discontinuityDropCt + dropped.2.length } := hok.congr rfl rfl
  have hok₁ : RecorderOk cfg steps r₁ := hcounted.add hreports
  rw [hrow]
  by_cases hgreedy : (m.isGreedy || m.isTruncated) = true
  · rw [if_pos hgreedy]
    refine ⟨_, rfl, ?_, ?_⟩
    · refine RecorderOk.putState ?_ (stateOk_of_nil rfl)
      split
      · exact hok₁.warnOnce _
      · exact hok₁
    · refine rowFrame_putState ?_ ?_ rid _
      · split
        · exact warnOnce_states _ _
        · rfl
      · split
        · exact warnOnce_future _ _
        · rfl
  · rw [if_neg hgreedy]
    obtain ⟨r', hr', hok', hframe⟩ := exists_settleSampledRow hok₁ hsteps hrid hready
      (show after.expectedSeqLen = _ from rfl) fun i block hblock => by
        obtain ⟨hblock', hseq⟩ := hsame i block hblock
        obtain ⟨⟨tok, p, q, htrace⟩, -, hpos⟩ := hstate.waits block (List.mem_of_getElem? hblock')
        have hi := (List.getElem?_eq_some_iff.mp hblock).1
        exact ⟨tok, p, q, htrace, hready.walkReady_old hsteps hrid hblock' htrace hpos hseq hi⟩
    exact ⟨r', hr', hok', hframe.states, hframe.future⟩

end

/-! ### Settling a step -/

section
variable {V : ℕ} {K R : Type} [Field K] [LinearOrder K] [DecidableEq R]
variable {cfg : Config V K} {steps : VerifyStep V K R → Prop} {r : Recorder V K R}
  {s : VerifyStep V K R} {batch : SettleBatch V K R}

/-- The rows settled so far: the requests of the others are as they were. -/
structure RowsSettled (cfg : Config V K) (steps : VerifyStep V K R → Prop) (s : VerifyStep V K R)
    (r : Recorder V K R) (n : ℕ) (r' : Recorder V K R) : Prop where
  ok : RecorderOk cfg steps r'
  states : ∀ (b : ℕ) rid, n ≤ b → s.rids[b]? = some rid → r'.states.get? rid = r.states.get? rid
  future : r'.future = r.future

/-- **All rows of a bundle can be settled.** -/
theorem exists_settleRows (hok : RecorderOk cfg steps r) (hsteps : steps s)
    (hready : BatchReady cfg s batch r.states) :
    ∃ r', (List.range batch.rids.length).foldlM (settleRow cfg batch) r = .ok r' ∧
      RecorderOk cfg steps r' ∧ r'.future = r.future := by
  have hstep : ∀ b < batch.rids.length, ∀ t, RowsSettled cfg steps s r b t →
      ∃ t', settleRow cfg batch t b = .ok t' ∧ RowsSettled cfg steps s r (b + 1) t' := by
    intro b hb t ht
    rw [hready.rids_eq] at hb
    have hrid : s.rids[b]? = some s.rids[b] := List.getElem?_eq_getElem hb
    obtain ⟨m, drafts, qs, diag, hrow⟩ := hready.rows b _ hrid
    have hstate : stateOf t.states s.rids[b] = stateOf r.states s.rids[b] := by
      rw [stateOf, stateOf, ht.states b _ le_rfl hrid]
    rw [← hstate] at hrow
    obtain ⟨t', ht', hok', hframe⟩ := exists_settleRow ht.ok hsteps hready.rids_eq hrid hrow
    refine ⟨t', ht', hok', fun c rid hc hrid' => ?_, hframe.future.trans ht.future⟩
    -- the requests of a step are distinct, so a later row is of another one
    have hne : rid ≠ s.rids[b] := by
      rintro rfl
      obtain ⟨hlt, hsame⟩ := List.getElem?_eq_some_iff.mp hrid'
      have hcb : c = b := hready.nodup.getElem_inj_iff.mp hsame
      omega
    rw [hframe.states rid hne, ht.states c rid (by omega) hrid']
  obtain ⟨r', hr', hdone⟩ := WhileLoop.foldlM_range_ok hstep ⟨hok, fun _ _ _ _ => rfl, rfl⟩
  exact ⟨r', hr', hdone.ok, hdone.future⟩

/-- The recorder is in order, and a step that is held has stayed as it was. -/
def Kept (cfg : Config V K) (steps : VerifyStep V K R → Prop) (r r' : Recorder V K R) : Prop :=
  RecorderOk cfg steps r' ∧ r'.future = r.future

theorem kept_finalizeRequest {r' : Recorder V K R} (h : Kept cfg steps r r') (rid : R)
    (naturalStop : Bool) (forwardCt : ℤ) :
    Kept cfg steps r (r'.finalizeRequest cfg.gamma rid naturalStop forwardCt) := by
  obtain ⟨hok, hfuture⟩ := h
  unfold Recorder.finalizeRequest
  cases hstate : r'.states.get? rid with
  | none => exact ⟨hok, hfuture⟩
  | some state =>
    have hreports : ∀ report ∈ state.pending.map (fun block =>
        if naturalStop then finalizeEosOnline block forwardCt
        else finalizeAtEndOnline cfg.gamma block forwardCt), ReportOk cfg steps report := by
      intro report hreport
      cases naturalStop with
      | true =>
        obtain ⟨block, -, rfl⟩ := List.mem_map.mp hreport
        exact reportOk_eos block forwardCt
      | false => exact (hok.states rid state hstate).atEnd forwardCt hreport
    have hadded := (hok.popState rid).add hreports
    dsimp only
    split
    · exact ⟨hadded.congr rfl rfl, hfuture⟩
    · exact ⟨hadded, hfuture⟩

theorem kept_applyAllFinishIntents {r' : Recorder V K R} (h : Kept cfg steps r r') :
    Kept cfg steps r (r'.applyAllFinishIntents cfg.gamma) := by
  have hfold : ∀ (items : List (R × Bool)) (t : Recorder V K R), Kept cfg steps r t →
      Kept cfg steps r (items.foldl (fun t item =>
        { t with finishIntents := t.finishIntents.pop item.1 }.finalizeRequest cfg.gamma item.1
          item.2 t.lastForwardCt) t) := by
    intro items
    induction items with
    | nil => exact fun t ht => ht
    | cons item items ih =>
      intro t ht
      have hpop : Kept cfg steps r { t with finishIntents := t.finishIntents.pop item.1 } :=
        ⟨ht.1.congr rfl rfl, ht.2⟩
      exact ih _ (kept_finalizeRequest hpop _ _ _)
  exact hfold _ _ h

theorem kept_sweepStates {r' : Recorder V K R} (h : Kept cfg steps r r') (forwardCt : ℤ) :
    Kept cfg steps r (r'.sweepStates cfg.gamma forwardCt) := by
  -- the states that are forgotten were there before the sweep
  have hfold : ∀ (items : List (R × RequestState V K)),
      (∀ item ∈ items, StateOk cfg steps item.1 item.2) → ∀ t : Recorder V K R,
        Kept cfg steps r t →
          Kept cfg steps r (items.foldl (Recorder.expire cfg.gamma forwardCt) t) := by
    intro items
    induction items with
    | nil => exact fun _ t ht => ht
    | cons item items ih =>
      intro hitems t ht
      refine ih (fun item' hmem => hitems item' (List.mem_cons_of_mem _ hmem)) _ ⟨?_, ht.2⟩
      have hpop : RecorderOk cfg steps { t with
          states := t.states.pop item.1, finishIntents := t.finishIntents.pop item.1 } :=
        (ht.1.popState item.1).congr rfl rfl
      exact hpop.add fun report hreport =>
        (hitems item List.mem_cons_self).atEnd forwardCt hreport
  refine hfold _ (fun item hmem => ?_) r' h
  have hitem := (List.mem_filter.mp hmem).1
  exact h.1.states item.1 item.2 (OrderedDict.get?_eq_some.mpr hitem)

theorem kept_finishStep {r' : Recorder V K R} (h : Kept cfg steps r r') (forwardCt : ℤ) :
    Kept cfg steps r (r'.finishStep cfg.gamma forwardCt) := by
  have hcount : Kept cfg steps r { r' with observedStepCt := r'.observedStepCt + 1 } :=
    ⟨h.1.congr rfl rfl, h.2⟩
  unfold Recorder.finishStep
  dsimp only
  split
  · exact kept_sweepStates hcount forwardCt
  · exact hcount

/-- **Settling a step** succeeds and keeps the recorder in order. -/
theorem exists_settleAndWrite (hok : RecorderOk cfg steps r) (hsteps : steps s)
    (hready : BatchReady cfg s batch r.states) :
    ∃ r', settleAndWrite cfg r batch = .ok r' ∧ Kept cfg steps r r' := by
  have hstart : RecorderOk cfg steps { r with lastForwardCt := batch.forwardCt } :=
    hok.congr rfl rfl
  obtain ⟨r', hr', hok', hfuture⟩ := exists_settleRows hstart hsteps hready
  refine ⟨(r'.finishStep cfg.gamma batch.forwardCt).applyAllFinishIntents cfg.gamma, ?_, ?_⟩
  · rw [settleAndWrite]
    show (List.foldlM _ _ _ >>= _) = _
    rw [hr']
    rfl
  · exact kept_applyAllFinishIntents (kept_finishStep ⟨hok', hfuture⟩ _)

/-! ### Runs -/

/-- The state of a run: a step in flight can be settled in the state the recorder is in, and
without a delay there is none. -/
structure RunOk (cfg : Config V K) (steps : VerifyStep V K R → Prop) (r : Recorder V K R) :
    Prop where
  ok : RecorderOk cfg steps r
  inFlight : ∀ batch, r.future = some batch → ∃ s, steps s ∧ BatchReady cfg s batch r.states
  immediate : cfg.delayed = false → r.future = none

theorem RunOk.congr {r' : Recorder V K R} (h : RunOk cfg steps r) (hstates : r'.states = r.states)
    (honline : r'.online = r.online) (hfuture : r'.future = r.future) : RunOk cfg steps r' := by
  refine ⟨h.ok.congr hstates honline, fun batch hbatch => ?_, fun hnow => ?_⟩
  · rw [hstates]
    exact h.inFlight batch (hfuture ▸ hbatch)
  · exact hfuture.trans (h.immediate hnow)

theorem RunOk.of_none {r' : Recorder V K R} (hok : RecorderOk cfg steps r')
    (hfuture : r'.future = none) : RunOk cfg steps r' := by
  refine ⟨hok, fun batch hbatch => ?_, fun _ => hfuture⟩
  rw [hfuture] at hbatch
  cases hbatch

/-- **The delayed handler** settles what is in flight before the next step is computed. -/
theorem exists_delayedStep
    (compute : OrderedDict R (RequestState V K) → Except EstimatorError
      (Option (SettleBatch V K R)))
    (h : RunOk cfg steps r)
    (hcompute : ∀ t : Recorder V K R, RecorderOk cfg steps t →
      ∃ data, compute t.states = .ok data) :
    ∃ t data, RecorderOk cfg steps t ∧ compute t.states = .ok data ∧
      delayedStep cfg compute r = .ok { t with future := data } := by
  cases hfuture : r.future with
  | none =>
    obtain ⟨data, hdata⟩ := hcompute r h.ok
    refine ⟨r, data, h.ok, hdata, ?_⟩
    rw [delayedStep, hfuture]
    show (compute r.states >>= _) = _
    rw [hdata]
    rfl
  | some pending =>
    obtain ⟨s, hs, hready⟩ := h.inFlight pending hfuture
    obtain ⟨t, ht, hok, -⟩ := exists_settleAndWrite h.ok hs hready
    have hok' : RecorderOk cfg steps { t with future := none } := hok.congr rfl rfl
    obtain ⟨data, hdata⟩ := hcompute _ hok'
    refine ⟨{ t with future := none }, data, hok', hdata, ?_⟩
    rw [delayedStep, hfuture]
    show (settleAndWrite cfg r pending >>= _) = _
    rw [ht]
    show (compute t.states >>= _) = _
    rw [hdata]
    rfl

variable [NeZero V]

theorem exists_computeOnDevice (hok : RecorderOk cfg steps r) (h : s.WellFormed cfg.gamma) :
    ∃ data, computeOnDevice cfg s r.states = .ok data ∧
      ∀ batch, data = some batch → BatchReady cfg s batch r.states := by
  have hfollows : ∀ rid state, r.states.get? rid = some state → state.Follows cfg.gamma :=
    fun rid state hstate => (hok.states rid state hstate).follows
  unfold computeOnDevice
  cases s.skipReason with
  | some reason => exact ⟨none, rfl, fun batch hbatch => by cases hbatch⟩
  | none =>
    cases hcorrected : s.correctedLogits with
    | none => exact ⟨none, rfl, fun batch hbatch => by cases hbatch⟩
    | some correctedLogits =>
      obtain ⟨batch, hbatch, hready⟩ := exists_buildDeviceBundle h hfollows hcorrected
      refine ⟨some batch, ?_, fun batch' hbatch' => ?_⟩
      · show some <$> buildDeviceBundle cfg r.states s correctedLogits = _
        rw [hbatch]
        rfl
      · obtain rfl := Option.some.inj hbatch'
        exact hready

/-- A step that is settled at once. -/
theorem exists_settleNow (h : RunOk cfg steps r) (hnow : cfg.delayed = false) (hsteps : steps s)
    (hwell : s.WellFormed cfg.gamma) :
    ∃ r', (do
      match ← computeOnDevice cfg s r.states with
      | some bundle => settleAndWrite cfg r bundle
      | none => return r) = Except.ok r' ∧ RunOk cfg steps r' := by
  obtain ⟨data, hdata, hready⟩ := exists_computeOnDevice h.ok hwell
  rw [hdata]
  cases data with
  | none => exact ⟨r, rfl, h⟩
  | some batch =>
    obtain ⟨r', hr', hok, hfuture⟩ := exists_settleAndWrite h.ok hsteps (hready batch rfl)
    exact ⟨r', hr', RunOk.of_none hok (hfuture.trans (h.immediate hnow))⟩

/-- A step that is settled when the next one is observed. -/
theorem exists_settleLater (h : RunOk cfg steps r) (hlater : cfg.delayed = true) (hsteps : steps s)
    (hwell : s.WellFormed cfg.gamma) :
    ∃ r', delayedStep cfg (computeOnDevice cfg s) r = .ok r' ∧ RunOk cfg steps r' := by
  obtain ⟨t, data, hok, hdata, hstep⟩ := exists_delayedStep _ h fun t ht =>
    (exists_computeOnDevice ht hwell).imp fun _ hdata => hdata.1
  obtain ⟨data', hdata', hready⟩ := exists_computeOnDevice hok hwell
  obtain rfl : data = data' := Except.ok.inj (hdata.symm.trans hdata')
  refine ⟨_, hstep, hok.congr rfl rfl, fun batch hbatch => ⟨s, hsteps, hready batch hbatch⟩, ?_⟩
  intro hnow
  rw [hlater] at hnow
  cases hnow

omit [NeZero V] in
theorem RunOk.skipStep (h : RunOk cfg steps r) (reason : String) :
    RunOk cfg steps (r.skipStep reason) := by
  refine h.congr ?_ ?_ ?_ <;>
  · unfold Recorder.skipStep Recorder.warnOnce
    split <;> rfl

/-- **A step that is observed.** -/
theorem exists_observeVerifyStep (h : RunOk cfg steps r) (hsteps : steps s)
    (hwell : s.WellFormed cfg.gamma) :
    ∃ r', observeVerifyStep cfg r s = .ok r' ∧ RunOk cfg steps r' := by
  have hstep : ∀ t, RunOk cfg steps t → ∃ r', (if cfg.delayed then
      delayedStep cfg (computeOnDevice cfg s) t
    else do
      match ← computeOnDevice cfg s t.states with
      | some bundle => settleAndWrite cfg t bundle
      | none => return t) = Except.ok r' ∧ RunOk cfg steps r' := by
    intro t ht
    cases hdelayed : cfg.delayed with
    | true => exact exists_settleLater ht hdelayed hsteps hwell
    | false => exact exists_settleNow ht hdelayed hsteps hwell
  unfold observeVerifyStep
  by_cases hcapture : (cfg.delayed && s.capturing) = true
  · rw [if_pos hcapture]
    exact ⟨r, rfl, h⟩
  · rw [if_neg hcapture]
    cases s.skipReason with
    | none => exact hstep r h
    | some reason => exact hstep _ (h.skipStep reason)

omit [NeZero V] in
theorem exists_flush (h : RunOk cfg steps r) :
    ∃ r', LatentSpec.BlockAccept.flush cfg r = .ok r' ∧ RunOk cfg steps r' := by
  unfold LatentSpec.BlockAccept.flush
  cases cfg.delayed with
  | false => exact ⟨r, rfl, h⟩
  | true =>
    obtain ⟨t, data, hok, hdata, hstep⟩ :=
      exists_delayedStep (fun _ => .ok none) h fun t _ => ⟨none, rfl⟩
    obtain rfl := Except.ok.inj hdata
    have hkept : Kept cfg steps { t with future := none } { t with future := none } :=
      ⟨hok.congr rfl rfl, rfl⟩
    obtain ⟨hok', hfuture⟩ := kept_applyAllFinishIntents hkept
    refine ⟨_, ?_, RunOk.of_none hok' hfuture⟩
    show (delayedStep cfg (fun _ => .ok none) r >>= _) = _
    rw [hstep]
    rfl

omit [NeZero V] in
theorem runOk_noteRequestFinished (h : RunOk cfg steps r) (rid : R) (naturalStop : Bool) :
    RunOk cfg steps (noteRequestFinished cfg r rid naturalStop) := by
  unfold noteRequestFinished
  cases hdelayed : cfg.delayed with
  | true => exact h.congr rfl rfl rfl
  | false =>
    obtain ⟨hok, hfuture⟩ := kept_finalizeRequest (r := r) ⟨h.ok, rfl⟩ rid naturalStop
      r.lastForwardCt
    exact RunOk.of_none hok (hfuture.trans (h.immediate hdelayed))

/-- **One call of a run.** -/
theorem exists_perform (h : RunOk cfg steps r) {call : Call V K R}
    (hcall : ∀ s, call = .observe s → steps s ∧ s.WellFormed cfg.gamma) :
    ∃ r', perform cfg r call = .ok r' ∧ RunOk cfg steps r' := by
  cases call with
  | observe s =>
    obtain ⟨hsteps, hwell⟩ := hcall s rfl
    exact exists_observeVerifyStep h hsteps hwell
  | finished rid naturalStop => exact ⟨_, rfl, runOk_noteRequestFinished h rid naturalStop⟩
  | flush => exact exists_flush h

omit [NeZero V] in
theorem runOk_init (cfg : Config V K) (steps : VerifyStep V K R → Prop) (path : Bool) :
    RunOk cfg steps (Recorder.init path) := by
  refine RunOk.of_none ⟨fun rid state hstate => ?_, fun report hreport => ?_⟩ rfl
  · cases hstate
  · cases hreport

/-- **No call of a run raises.** -/
theorem exists_runCalls (path : Bool) {calls : List (Call V K R)}
    (hwell : ∀ s, Call.observe s ∈ calls → s.WellFormed cfg.gamma) :
    ∃ r, runCalls cfg path calls = .ok r ∧
      RunOk cfg (fun s => Call.observe s ∈ calls) r := by
  have hstep : ∀ (k : ℕ) call, calls[k]? = some call → ∀ t : Recorder V K R,
      RunOk cfg (fun s => Call.observe s ∈ calls) t →
        ∃ t', perform cfg t call = .ok t' ∧ RunOk cfg (fun s => Call.observe s ∈ calls) t' := by
    intro k call hk t ht
    refine exists_perform ht fun s hs => ?_
    have hmem : Call.observe s ∈ calls := hs ▸ List.mem_of_getElem? hk
    exact ⟨hmem, hwell s hmem⟩
  exact WhileLoop.foldlM_ok hstep (runOk_init cfg _ path)

end

/-! ### The intervals -/

section
variable {V : ℕ} {K R : Type} [Field K] [LinearOrder K] [IsStrictOrderedRing K]
variable {cfg : Config V K} {steps : VerifyStep V K R → Prop} {report : Report V K}
  {block : PendingBlock V K}

/-- The tokens that a block gives with the factors `c`: its window, the bonus and, for each trimmed
token, the product of the factors up to it. -/
noncomputable def uncappedLen (gamma : ℕ) (block : PendingBlock V K) (c : ℤ → K) : K :=
  (block.window : K) + 1 + runTotal c block.window gamma

theorem factor_mem {math : TorchMath V K} (hexp : ∀ x, 0 ≤ math.exp x) (p q : ℤ → K) (i : ℤ) :
    0 ≤ factor math p q i ∧ factor math p q i ≤ 1 :=
  ⟨le_min zero_le_one (hexp _), min_le_left _ _⟩

/-- The bounds of a block hold whatever the factors are that were not walked. -/
theorem BlockTrace.bracket {rid : R} {tok : ℤ → Fin V} {p q : ℤ → K}
    (h : BlockTrace cfg steps rid block tok p q) (hexp : ∀ x, 0 ≤ cfg.math.exp x) {c : ℤ → K}
    (hwalked : ∀ i ∈ Finset.Ioc block.window (block.nextOffset - 1), c i = factor cfg.math p q i)
    (hrest : ∀ i ∈ Finset.Ioc (block.nextOffset - 1) (cfg.gamma : ℤ), 0 ≤ c i ∧ c i ≤ 1) :
    (block.window : K) + 1 + block.estLoExtra ≤ uncappedLen cfg.gamma block c ∧
      uncappedLen cfg.gamma block c ≤ (block.window : K) + 1 + block.estLoExtra +
        block.estProd * ((cfg.gamma - (block.nextOffset - 1) : ℤ) : K) := by
  let m := block.nextOffset - 1
  have hwm : block.window ≤ m := by
    have := h.window_lt
    omega
  have hmn : m ≤ cfg.gamma := by
    have := h.next_le
    omega
  -- outside the block the factors do not matter
  let d : ℤ → K := fun i => if i ∈ Finset.Ioc block.window (cfg.gamma : ℤ) then c i else 1
  have hd : ∀ i ∈ Finset.Ioc block.window (cfg.gamma : ℤ), d i = c i := fun i hi => if_pos hi
  have hd' : ∀ i ∈ Finset.Ioc block.window m, d i = factor cfg.math p q i := by
    intro i hi
    rw [hd i (Finset.Ioc_subset_Ioc_right hmn hi), hwalked i hi]
  have hmem : ∀ i, 0 ≤ d i ∧ d i ≤ 1 := by
    intro i
    by_cases hi : i ∈ Finset.Ioc block.window (cfg.gamma : ℤ)
    · by_cases him : i ≤ m
      · rw [hd' i (Finset.mem_Ioc.mpr ⟨(Finset.mem_Ioc.mp hi).1, him⟩)]
        exact factor_mem hexp p q i
      · rw [hd i hi]
        exact hrest i (Finset.mem_Ioc.mpr ⟨not_le.mp him, (Finset.mem_Ioc.mp hi).2⟩)
    · rw [show d i = 1 from if_neg hi]
      exact ⟨zero_le_one, le_rfl⟩
  obtain ⟨hlo, hhi⟩ := runTotal_bracket (fun i => (hmem i).1) (fun i => (hmem i).2) hwm hmn
  rw [runTotal_congr hd', runTotal_congr hd, ← h.extra] at hlo
  rw [runTotal_congr hd', runTotal_congr hd, runProduct_congr hd', ← h.extra, ← h.prod] at hhi
  unfold uncappedLen
  constructor
  · exact add_le_add_right hlo _
  · rw [add_assoc ((block.window : K) + 1)]
    exact add_le_add_right hhi _

omit [IsStrictOrderedRing K] in
/-- A block that was walked to its end has one bound. -/
theorem ReportOk.lo_eq_hi (h : ReportOk cfg steps report)
    (hwalk : report.source = .walk block false) : report.lo = report.hi := by
  have hfollowed : report.source.followed = some block := by
    rw [hwalk]
    rfl
  obtain ⟨⟨rid, tok, p, q, htrace⟩, -, hhi, hend⟩ := h block hfollowed
  have hlt := hend hwalk
  have hle := htrace.next_le
  rw [hhi, show (cfg.gamma : ℤ) - (block.nextOffset - 1) = 0 by omega, Int.cast_zero, mul_zero,
    add_zero]

variable [NeZero V] [DecidableEq R]

/-- **The block-accept estimator over a whole run.**  For any calls, with one step of delay or
without, no assertion fails and no lookup misses; and an interval that is reported for a followed
block has the length of the block inside, whatever the factors of the tokens are that were not
walked, and is one point when the block was walked to its end. -/
theorem runCalls_bracket (cfg : Config V K) (hexp : ∀ x, 0 ≤ cfg.math.exp x) (path : Bool)
    (calls : List (Call V K R)) (hwell : ∀ s, Call.observe s ∈ calls → s.WellFormed cfg.gamma) :
    ∃ r, runCalls cfg path calls = .ok r ∧ ∀ report ∈ r.online, ∀ block,
      report.source.followed = some block →
        (∃ rid tok p q, BlockTrace cfg (fun s => Call.observe s ∈ calls) rid block tok p q ∧
          ∀ c : ℤ → K,
            (∀ i ∈ Finset.Ioc block.window (block.nextOffset - 1),
              c i = factor cfg.math p q i) →
            (∀ i ∈ Finset.Ioc (block.nextOffset - 1) (cfg.gamma : ℤ), 0 ≤ c i ∧ c i ≤ 1) →
              report.lo ≤ uncappedLen cfg.gamma block c ∧
                uncappedLen cfg.gamma block c ≤ report.hi) ∧
        (report.source = .walk block false → report.lo = report.hi) := by
  obtain ⟨r, hr, hrun⟩ := exists_runCalls path hwell
  refine ⟨r, hr, fun report hreport block hblock => ?_⟩
  have hok := hrun.ok.reports report hreport
  obtain ⟨⟨rid, tok, p, q, htrace⟩, hlo, hhi, -⟩ := hok block hblock
  refine ⟨⟨rid, tok, p, q, htrace, fun c hwalked hrest => ?_⟩, hok.lo_eq_hi⟩
  rw [hhi, hlo]
  exact htrace.bracket hexp hwalked hrest

end

open scoped Coins

/-- `math.exp` and `torch.logsumexp` over the reals. -/
noncomputable def realMath (V : ℕ) : TorchMath V ℝ :=
  ⟨Real.exp, fun row => Real.log (∑ v, Real.exp (row v))⟩

/-- A step of one request of which one draft of four is verified, and accepted. -/
noncomputable def trimmedStep (prefixLen : ℤ) : VerifyStep 2 ℝ Unit where
  capturing := false
  forwardCt := prefixLen
  rids := [()]
  draftTokens := [[0, 1, 0, 1]]
  correctedLogits := some [List.replicate 4 fun _ => 0]
  draftTemperatures := [1]
  greedyMask := [false]
  targetLogits := [fun _ => 0, fun v => v.val, fun _ => 0, fun _ => 0, fun _ => 0]
  targetTemperatures := [1]
  truncatedSamplingMask := none
  logitsAdjustmentsAreNoop := true
  correctLen := [1]
  capTrimLens := [1]
  bonus := [1]
  prefixLens := [prefixLen]
  layout := some [2]

theorem trimmedStep_wellFormed {n : ℤ} (hn : 0 ≤ n) : (trimmedStep n).WellFormed 4 where
  nodup := List.nodup_singleton _
  drafts_length := rfl
  drafts_row := by simp [trimmedStep]
  corrected_length := by simp [trimmedStep]
  corrected_row := by simp [trimmedStep]
  target_length := rfl
  draftTemperatures_length := rfl
  targetTemperatures_length := rfl
  greedyMask_length := rfl
  truncatedMask_length := by simp [trimmedStep]
  correctLen_length := rfl
  capTrimLens_length := rfl
  bonus_length := rfl
  prefixLens_length := rfl
  layout_length := by simp [trimmedStep]
  prefixLens_nonneg := by simpa [trimmedStep] using hn
  window b cl verifyLen hcl hlen := by
    have hb : b = 0 := Nat.lt_one_iff.mp (List.getElem?_eq_some_iff.mp hcl).1
    subst hb
    obtain rfl : 1 = cl := Option.some.inj hcl
    obtain rfl : 2 = verifyLen := Option.some.inj hlen
    decide

/-- Two steps: the block that the first one opened waits for the tokens of the second, which walks
it to its end, and the block of the second is left open. -/
theorem runCalls_bracket_trimmed :
    ∃ r, runCalls ⟨4, true, realMath 2⟩ true
        [.observe (trimmedStep 5), .observe (trimmedStep 7), .finished () false, .flush] = .ok r ∧
      ∀ report ∈ r.online, ∀ block, report.source.followed = some block →
        (∃ rid tok p q, BlockTrace ⟨4, true, realMath 2⟩ (fun s => Call.observe s ∈
            [.observe (trimmedStep 5), .observe (trimmedStep 7), .finished () false, .flush])
              rid block tok p q ∧
          ∀ c : ℤ → ℝ,
            (∀ i ∈ Finset.Ioc block.window (block.nextOffset - 1),
              c i = factor (realMath 2) p q i) →
            (∀ i ∈ Finset.Ioc (block.nextOffset - 1) ((4 : ℕ) : ℤ), 0 ≤ c i ∧ c i ≤ 1) →
              report.lo ≤ uncappedLen 4 block c ∧ uncappedLen 4 block c ≤ report.hi) ∧
        (report.source = .walk block false → report.lo = report.hi) := by
  refine runCalls_bracket ⟨4, true, realMath 2⟩ Real.exp_nonneg true _ fun s hs => ?_
  simp only [List.mem_cons, Call.observe.injEq, reduceCtorEq, List.not_mem_nil, or_false] at hs
  rcases hs with rfl | rfl
  · exact trimmedStep_wellFormed (by decide)
  · exact trimmedStep_wellFormed (by decide)

end LatentSpec.BlockAccept
