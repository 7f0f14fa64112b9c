import LatentSpec.AdaptiveSpecParams

/-! # Switching the runtime state of a worker

`AdaptiveController` keeps one runtime state for each step a slot may move to and applies the one
of the slot a batch is routed to.  `Stocked` is what holds from the end of `init_states` on: the
slots are those of the config, every candidate has a state of its own step, and a state that
`init_states` built was captured for the sizes its step can be reached from.  Each call keeps it
(`Stocked.call_ok`), so does a run, and `adaptiveController_spec` reads off what a batch finds.
-/
namespace LatentSpec.AdaptiveSpec
open WhileLoop AdaptiveSpeculativeParams

/-! ### The worker and its controller -/

/-- The resources of one step count; `R` is its backends and graph runners. -/
structure SpecRuntimeState (R : Type) where
  speculativeNumSteps : ℤ
  speculativeNumDraftTokens : ℤ
  resources : R

/-- The protocol of a worker: it builds a state for the configuration and the batch sizes it is
asked for, without changing its own step count, and applying a state takes the state's. -/
structure AdaptiveSpecWorker (W R : Type) where
  speculativeNumSteps : W → ℤ
  buildAdaptiveRuntimeState : W → ℤ → ℤ → Option (List ℕ) → SpecRuntimeState R × W
  applyRuntimeState : W → SpecRuntimeState R → W
  /-- The batch sizes that graphs were captured for. -/
  capturedFor : R → Option (List ℕ)
  build_steps : ∀ w steps tokens cudaGraphBs,
    (buildAdaptiveRuntimeState w steps tokens cudaGraphBs).1.speculativeNumSteps = steps
  build_captured : ∀ w steps tokens cudaGraphBs,
    capturedFor (buildAdaptiveRuntimeState w steps tokens cudaGraphBs).1.resources = cudaGraphBs
  build_worker : ∀ w steps tokens cudaGraphBs,
    speculativeNumSteps (buildAdaptiveRuntimeState w steps tokens cudaGraphBs).2 =
      speculativeNumSteps w
  apply_steps :
      ∀ w state, speculativeNumSteps (applyRuntimeState w state) = state.speculativeNumSteps

structure AdaptiveController (W R : Type) where
  worker : W
  params : AdaptiveSpeculativeParams
  states : OrderedDict ℤ (SpecRuntimeState R)

namespace AdaptiveController
variable {W R : Type} (proto : AdaptiveSpecWorker W R) (digits : DigitTable)

/-- `AdaptiveController.__init__` -/
def init (worker : W) (cfgFile : Option AdaptiveConfig) :
    Except AdaptiveError (AdaptiveController W R) := do
  let params ← AdaptiveSpeculativeParams.init digits (proto.speculativeNumSteps worker) cfgFile
  return ⟨worker, params, OrderedDict.empty⟩

variable (c : AdaptiveController W R)

/-- `register` -/
def register (state : SpecRuntimeState R) (steps : Option ℤ) : AdaptiveController W R :=
  { c with states := c.states.set (steps.getD state.speculativeNumSteps) state }

/-- `_activate` -/
def activate (speculativeNumSteps : ℤ) : Except AdaptiveError (AdaptiveController W R) :=
  match c.states.get? speculativeNumSteps with
  | none => .error (.missingState speculativeNumSteps)
  | some state => .ok { c with worker := proto.applyRuntimeState c.worker state }

/-- One turn of the loop of `init_states`. -/
def buildState (steps : ℤ) : Except AdaptiveError (AdaptiveController W R) :=
  if (c.states.get? steps).isSome then .ok c
  else do
    let prunedBs ← c.params.cudaGraphBsForStep steps
    let (state, worker) :=
      proto.buildAdaptiveRuntimeState c.worker steps (steps + 1) prunedBs
    return { c with worker := worker, states := c.states.set steps state }

/-- `init_states` -/
def initStates (cudaGraphBs : Option (List ℕ)) :
    Except AdaptiveError (AdaptiveController W R) := do
  let c := { c with params := c.params.setCudaGraphBs cudaGraphBs }
  let c ← c.params.candidateSteps.foldlM (fun c steps => c.buildState proto steps) c
  c.activate proto (proto.speculativeNumSteps c.worker)

/-- `activate_step_by_batch` -/
def activateStepByBatch (batchSize : ℕ) : Except AdaptiveError (AdaptiveController W R) := do
  let target ← c.params.getStepsForBatch batchSize
  if target ≠ proto.speculativeNumSteps c.worker then c.activate proto target
  else return c

/-- `on_verify_complete` -/
def onVerifyComplete (numCorrectDraftsPerReq : List ℤ) (batchSize : ℕ) :
    Except AdaptiveError (AdaptiveController W R) := do
  let (newStep, params) ← c.params.onVerifyComplete numCorrectDraftsPerReq batchSize
  let c := { c with params := params }
  match newStep with
  | none => return c
  | some step => c.activate proto step

/-- A call of the serving loop. -/
inductive Call
  | activateStepByBatch (batchSize : ℕ)
  | onVerifyComplete (numCorrectDraftsPerReq : List ℤ) (batchSize : ℕ)

def call : Call → Except AdaptiveError (AdaptiveController W R)
  | .activateStepByBatch batchSize => c.activateStepByBatch proto batchSize
  | .onVerifyComplete accepted batchSize => c.onVerifyComplete proto accepted batchSize

/-- The calls, one after the other. -/
def run (calls : List Call) : Except AdaptiveError (AdaptiveController W R) :=
  calls.foldlM (fun c next => c.call proto next) c

/-- Start-up: the worker registers its initial state and has the others built. -/
def startUp (worker : W) (cfgFile : Option AdaptiveConfig) (initial : SpecRuntimeState R)
    (cudaGraphBs : Option (List ℕ)) : Except AdaptiveError (AdaptiveController W R) := do
  let c ← init proto digits worker cfgFile
  (c.register initial none).initStates proto cudaGraphBs

/-! ### What the states promise -/

variable {proto digits} {c} {cfg : GivenSettings} {bsEntries : OrderedDict ℕ BsEntry}
  {grid : Option (List ℕ)} {initialSteps : ℤ}

/-- The slots are those of the config, the steps in `done` have their state, and a state that was
built on the way was captured for the sizes its step can be reached from. -/
structure Stocked (proto : AdaptiveSpecWorker W R) (cfg : GivenSettings)
    (bsEntries : OrderedDict ℕ BsEntry) (grid : Option (List ℕ)) (initialSteps : ℤ)
    (done : List ℤ) (c : AdaptiveController W R) : Prop where
  serves : c.params.ServesConfig cfg bsEntries
  grid : c.params.cudaGraphBs = grid
  steps : ∀ k state, c.states.get? k = some state → state.speculativeNumSteps = k
  captured : ∀ k state, c.states.get? k = some state → k ≠ initialSteps →
    c.params.cudaGraphBsForStep k = .ok (proto.capturedFor state.resources)
  initial : ∃ state, c.states.get? initialSteps = some state
  registered : ∀ k ∈ done, ∃ state, c.states.get? k = some state

/-- **One turn of `init_states`**: the step gets its state, the worker keeps its own. -/
theorem buildState_ok {done : List ℤ} (h : Stocked proto cfg bsEntries grid initialSteps done c)
    (hne : bsEntries.items ≠ []) (steps : ℤ) :
    ∃ c', c.buildState proto steps = .ok c' ∧
      Stocked proto cfg bsEntries grid initialSteps (done ++ [steps]) c' ∧
      proto.speculativeNumSteps c'.worker = proto.speculativeNumSteps c.worker := by
  unfold buildState
  split
  · rename_i hsome
    refine ⟨c, rfl, { h with registered := ?_ }, rfl⟩
    intro k hk
    rcases List.mem_append.mp hk with hdone | hlast
    · exact h.registered k hdone
    · rw [List.mem_singleton.mp hlast]
      exact Option.isSome_iff_exists.mp hsome
  · rename_i hnone
    obtain ⟨pruned, hpruned, -⟩ := h.serves.cudaGraphBsForStep_ok hne steps
    rw [bind_of_ok hpruned]
    refine ⟨_, rfl, ⟨h.serves, h.grid, ?_, ?_, ?_, ?_⟩, proto.build_worker _ _ _ _⟩
    · intro k state hget
      dsimp only at hget
      rw [OrderedDict.get?_set] at hget
      split at hget
      · rename_i heq
        obtain rfl := Option.some.inj hget
        rw [heq]
        exact proto.build_steps _ _ _ _
      · exact h.steps k state hget
    · intro k state hget hk
      dsimp only at hget
      rw [OrderedDict.get?_set] at hget
      split at hget
      · rename_i heq
        obtain rfl := Option.some.inj hget
        rw [heq, proto.build_captured]
        exact hpruned
      · exact h.captured k state hget hk
    · dsimp only
      rw [OrderedDict.get?_set]
      split
      · exact ⟨_, rfl⟩
      · exact h.initial
    · intro k hk
      dsimp only
      rw [OrderedDict.get?_set]
      split
      · exact ⟨_, rfl⟩
      · rename_i hkne
        rcases List.mem_append.mp hk with hdone | hlast
        · exact h.registered k hdone
        · exact absurd (List.mem_singleton.mp hlast) hkne

/-- **Applying a registered step sets the worker's.** -/
theorem Stocked.activate_ok {done : List ℤ}
    (h : Stocked proto cfg bsEntries grid initialSteps done c) {k : ℤ}
    (hk : ∃ state, c.states.get? k = some state) :
    ∃ c', c.activate proto k = .ok c' ∧ Stocked proto cfg bsEntries grid initialSteps done c' ∧
      c'.params = c.params ∧ proto.speculativeNumSteps c'.worker = k := by
  obtain ⟨state, hstate⟩ := hk
  refine ⟨{ c with worker := proto.applyRuntimeState c.worker state }, ?_,
    ⟨h.serves, h.grid, h.steps, h.captured, h.initial, h.registered⟩, rfl, ?_⟩
  · unfold activate
    rw [hstate]
  · exact (proto.apply_steps _ _).trans (h.steps k state hstate)

/-- Every candidate of the config is one of the steps in `done`. -/
def Covers (bsEntries : OrderedDict ℕ BsEntry) (done : List ℤ) : Prop :=
  ∀ bs entry, bsEntries.get? bs = some entry → ∀ k ∈ entry.candidateSteps, k ∈ done

/-- **Start-up ends with a state for every candidate.** -/
theorem startUp_ok {cfgFile : Option AdaptiveConfig} {loaded : AdaptiveConfig}
    (hload : loadAdaptiveConfig digits cfgFile = .ok (loaded, bsEntries)) (worker : W)
    {initial : SpecRuntimeState R}
    (hinitial : initial.speculativeNumSteps = proto.speculativeNumSteps worker)
    (cudaGraphBs : Option (List ℕ)) :
    ∃ c done, startUp proto digits worker cfgFile initial cudaGraphBs = .ok c ∧
      Covers bsEntries done ∧
      Stocked proto loaded.settings bsEntries (sortedGrid cudaGraphBs)
        (proto.speculativeNumSteps worker) done c := by
  obtain ⟨hne, -⟩ := loadAdaptiveConfig_ok hload
  obtain ⟨params, hparams, hserves⟩ := AdaptiveSpeculativeParams.init_ok digits
    (proto.speculativeNumSteps worker) hload
  -- what `init_states` starts from: the initial state alone
  set c₀ : AdaptiveController W R :=
    ⟨worker, params.setCudaGraphBs cudaGraphBs,
      OrderedDict.empty.set initial.speculativeNumSteps initial⟩ with hc₀
  have hget : ∀ k state, c₀.states.get? k = some state →
      k = initial.speculativeNumSteps ∧ state = initial := by
    intro k state hk
    rw [hc₀, OrderedDict.get?_set] at hk
    split at hk
    · exact ⟨by assumption, (Option.some.inj hk).symm⟩
    · cases hk
  have hstart : Stocked proto loaded.settings bsEntries (sortedGrid cudaGraphBs)
      (proto.speculativeNumSteps worker) [] c₀ := by
    refine ⟨hserves.setCudaGraphBs cudaGraphBs, rfl, ?_, ?_, ?_, fun _ hk =>
      absurd hk List.not_mem_nil⟩
    · intro k state hk
      obtain ⟨rfl, rfl⟩ := hget k state hk
      rfl
    · intro k state hk hkne
      exact absurd ((hget k state hk).1.trans hinitial) hkne
    · refine ⟨initial, ?_⟩
      rw [hc₀, OrderedDict.get?_set, if_pos hinitial.symm]
  set steps := c₀.params.candidateSteps with hsteps
  have hturn : ∀ (j : ℕ) (k : ℤ), steps[j]? = some k → ∀ c : AdaptiveController W R,
      Stocked proto loaded.settings bsEntries (sortedGrid cudaGraphBs)
          (proto.speculativeNumSteps worker) (steps.take j) c ∧
        proto.speculativeNumSteps c.worker = proto.speculativeNumSteps worker →
      ∃ c', c.buildState proto k = .ok c' ∧
        Stocked proto loaded.settings bsEntries (sortedGrid cudaGraphBs)
          (proto.speculativeNumSteps worker) (steps.take (j + 1)) c' ∧
        proto.speculativeNumSteps c'.worker = proto.speculativeNumSteps worker := by
    rintro j k hk c ⟨hstocked, hworker⟩
    obtain ⟨c', hbuild, hstocked', hworker'⟩ := buildState_ok hstocked hne k
    obtain ⟨hj, rfl⟩ := List.getElem?_eq_some_iff.mp hk
    rw [List.take_concat_get' steps j hj] at hstocked'
    exact ⟨c', hbuild, hstocked', hworker'.trans hworker⟩
  obtain ⟨c₁, hfold, hstocked, hworker⟩ := foldlM_ok hturn ⟨hstart, rfl⟩
  rw [List.take_length] at hstocked
  have hfirst : ∃ state, c₁.states.get? (proto.speculativeNumSteps c₁.worker) = some state := by
    rw [hworker]
    exact hstocked.initial
  obtain ⟨c₂, hactivate, hstocked₂, -⟩ := hstocked.activate_ok hfirst
  refine ⟨c₂, steps, ?_, ?_, hstocked₂⟩
  · have hinit : init proto digits worker cfgFile = .ok ⟨worker, params, OrderedDict.empty⟩ := by
      unfold init
      rw [bind_of_ok hparams]
      rfl
    unfold startUp
    rw [bind_of_ok hinit]
    unfold initStates register
    dsimp only [Option.getD_none]
    rw [bind_of_ok hfold]
    exact hactivate
  · intro bs entry hentry k hk
    exact hstart.serves.mem_candidateSteps hentry hk

/-! ### A run -/

section Run
variable {done : List ℤ}

/-- A step a slot stands on is registered. -/
theorem Stocked.current_registered (h : Stocked proto cfg bsEntries grid initialSteps done c)
    (hcovers : Covers bsEntries done) {params : AdaptiveSpeculativeParams}
    (hserves : params.ServesConfig cfg bsEntries) {bs : ℕ} {slot : AdaptiveStepSlot}
    (hslot : params.slots.get? bs = some slot) :
    ∃ state, c.states.get? slot.currentSteps = some state := by
  obtain ⟨entry, hentry⟩ := hserves.entry bs slot hslot
  obtain ⟨slot', hslot', hserves'⟩ := hserves.slot bs entry hentry
  obtain rfl := Option.some.inj (hslot.symm.trans hslot')
  apply h.registered
  apply hcovers bs entry hentry
  have hcurrent := hserves'.current
  rw [hserves'.candidates] at hcurrent
  exact mem_sortedSet.mp hcurrent

/-- **Activating by batch**: the worker takes the step of the slot the batch is routed to. -/
theorem Stocked.activateStepByBatch_ok (h : Stocked proto cfg bsEntries grid initialSteps done c)
    (hne : bsEntries.items ≠ []) (hcovers : Covers bsEntries done) (batchSize : ℕ) :
    ∃ c' slot, c.activateStepByBatch proto batchSize = .ok c' ∧
      Stocked proto cfg bsEntries grid initialSteps done c' ∧
      c'.params.route batchSize = .ok slot ∧
      proto.speculativeNumSteps c'.worker = slot.currentSteps := by
  obtain ⟨bs, entry, slot, -, -, hslot, -, hroute⟩ := h.serves.route_ok hne batchSize
  have htarget : c.params.getStepsForBatch batchSize = .ok slot.currentSteps := by
    unfold getStepsForBatch
    rw [bind_of_ok hroute]
    rfl
  unfold activateStepByBatch
  rw [bind_of_ok htarget]
  split
  · obtain ⟨c', hactivate, hstocked, hparams, hworker⟩ :=
      h.activate_ok (h.current_registered hcovers h.serves hslot)
    refine ⟨c', slot, hactivate, hstocked, ?_, hworker⟩
    rw [hparams]
    exact hroute
  · rename_i hsame
    exact ⟨c, slot, rfl, h, hroute, (not_ne_iff.mp hsame).symm⟩

/-- **A verify step**: the slot of the batch moves, and a new step is registered. -/
theorem Stocked.onVerifyComplete_ok (h : Stocked proto cfg bsEntries grid initialSteps done c)
    (hne : bsEntries.items ≠ []) (hcovers : Covers bsEntries done)
    (hinterval : Intervals cfg bsEntries) (accepted : List ℤ) (batchSize : ℕ) :
    ∃ c', c.onVerifyComplete proto accepted batchSize = .ok c' ∧
      Stocked proto cfg bsEntries grid initialSteps done c' := by
  obtain ⟨newStep, params, hverify, hserves, hgraphs, hnew⟩ :=
    h.serves.onVerifyComplete_ok hne hinterval accepted batchSize
  have hstocked :
      Stocked proto cfg bsEntries grid initialSteps done { c with params := params } := by
    refine ⟨hserves, hgraphs.trans h.grid, h.steps, ?_, h.initial, h.registered⟩
    intro k state hk hkne
    rw [← h.captured k state hk hkne]
    exact h.serves.cudaGraphBsForStep_congr hserves hne hgraphs k
  unfold onVerifyComplete
  rw [bind_of_ok hverify]
  cases newStep with
  | none => exact ⟨_, rfl, hstocked⟩
  | some step =>
    obtain ⟨bs, slot, hslot, rfl⟩ := hnew step rfl
    obtain ⟨c', hactivate, hstocked', -⟩ :=
      hstocked.activate_ok (h.current_registered hcovers hserves hslot)
    exact ⟨c', hactivate, hstocked'⟩

theorem Stocked.call_ok (h : Stocked proto cfg bsEntries grid initialSteps done c)
    (hne : bsEntries.items ≠ []) (hcovers : Covers bsEntries done)
    (hinterval : Intervals cfg bsEntries) (next : Call) :
    ∃ c', c.call proto next = .ok c' ∧ Stocked proto cfg bsEntries grid initialSteps done c' := by
  cases next with
  | activateStepByBatch batchSize =>
    obtain ⟨c', slot, hcall, hstocked, -⟩ := h.activateStepByBatch_ok hne hcovers batchSize
    exact ⟨c', hcall, hstocked⟩
  | onVerifyComplete accepted batchSize =>
    exact h.onVerifyComplete_ok hne hcovers hinterval accepted batchSize

/-- **A run raises nothing and keeps the invariant.** -/
theorem Stocked.run_ok (h : Stocked proto cfg bsEntries grid initialSteps done c)
    (hne : bsEntries.items ≠ []) (hcovers : Covers bsEntries done)
    (hinterval : Intervals cfg bsEntries) (calls : List Call) :
    ∃ c', c.run proto calls = .ok c' ∧ Stocked proto cfg bsEntries grid initialSteps done c' := by
  have hturn : ∀ (j : ℕ) (next : Call), calls[j]? = some next → ∀ c : AdaptiveController W R,
      Stocked proto cfg bsEntries grid initialSteps done c →
      ∃ c', c.call proto next = .ok c' ∧
        Stocked proto cfg bsEntries grid initialSteps done c' :=
    fun _ next _ _ h => h.call_ok hne hcovers hinterval next
  exact foldlM_ok hturn h

/-- What `activate_step_by_batch(batchSize)` leaves: the worker runs the step of the slot the batch
is routed to, and a batch the capture list covers finds its padded size among the sizes that
step's graphs were captured for. -/
structure Routed (proto : AdaptiveSpecWorker W R) (cudaGraphBs : Option (List ℕ))
    (initialSteps : ℤ) (batchSize : ℕ) (c : AdaptiveController W R) : Prop where
  step : ∃ slot, c.params.route batchSize = .ok slot ∧
    proto.speculativeNumSteps c.worker = slot.currentSteps
  captured : ∀ sizes v, cudaGraphBs = some sizes → v ∈ sizes → batchSize ≤ v →
    ∃ captured, c.params.cudaGraphBsForStep (proto.speculativeNumSteps c.worker) =
        .ok (some captured) ∧
      c.params.padToCudaGraphBs batchSize ∈ captured ∧
      ∃ state, c.states.get? (proto.speculativeNumSteps c.worker) = some state ∧
        (proto.speculativeNumSteps c.worker ≠ initialSteps →
          proto.capturedFor state.resources = some captured)

theorem Stocked.routed (h : Stocked proto cfg bsEntries (sortedGrid grid) initialSteps done c)
    (hne : bsEntries.items ≠ []) (hcovers : Covers bsEntries done) {batchSize : ℕ}
    {slot : AdaptiveStepSlot} (hroute : c.params.route batchSize = .ok slot)
    (hworker : proto.speculativeNumSteps c.worker = slot.currentSteps) :
    Routed proto grid initialSteps batchSize c := by
  refine ⟨⟨slot, hroute, hworker⟩, ?_⟩
  rintro sizes v rfl hv hle
  have hgrid := h.grid.trans (sortedGrid_of_mem hv)
  obtain ⟨captured, hcaptured, hpad⟩ :=
    h.serves.pad_captured hne hgrid (List.mem_mergeSort.mpr hv) hle hroute
  obtain ⟨bs, entry, slot', -, -, hslot, -, hroute'⟩ := h.serves.route_ok hne batchSize
  obtain rfl := Except.ok.inj (hroute'.symm.trans hroute)
  obtain ⟨state, hstate⟩ := h.current_registered hcovers h.serves hslot
  rw [hworker]
  refine ⟨captured, hcaptured, hpad, state, hstate, fun hk => ?_⟩
  exact Except.ok.inj ((h.captured _ state hstate hk).symm.trans hcaptured)

end Run

end AdaptiveController

/-- With positive candidates, no ceiling and `down_hysteresis <= up_hysteresis`, a slot whose
average is `ema` recomputes to a step that recomputing with the same average keeps. -/
def AdaptiveStepSlot.Settles (s : AdaptiveStepSlot) : Prop :=
  (∀ step ∈ s.candidateSteps, 0 < step) → s.settings.ceilingCoeff = 0 →
    s.settings.downHysteresis ≤ s.settings.upHysteresis → ∀ ema : ℚ,
      ∃ changed s', ({ s with emaAcceptLen := ema }).recomputeParams = .ok (changed, s') ∧
        s'.emaAcceptLen = ema ∧ s'.recomputeParams = .ok (false, s')

theorem AdaptiveStepSlot.Valid.settles {s : AdaptiveStepSlot} (hs : s.Valid) : s.Settles := by
  intro hpos hceil hgap ema
  have hvalid : ({ s with emaAcceptLen := ema }).Valid := ⟨hs.nodup, hs.current, hs.interval⟩
  exact recomputeParams_again hvalid hpos hceil hgap

/-- **Adaptive speculation stays on captured configurations.**  For an accepted config whose
intervals are at least 1, start-up raises nothing, and no sequence of calls does.  In every state
it reaches, each slot stands on a candidate of its entry and does not oscillate, and
`activate_step_by_batch` of any batch size leaves the worker on the step of the routed slot, whose
graphs were captured for the padded size when the capture list covers the batch. -/
theorem adaptiveController_spec {W R : Type} (proto : AdaptiveSpecWorker W R) (digits : DigitTable)
    (cfgFile : Option AdaptiveConfig) (loaded : AdaptiveConfig)
    (bsEntries : OrderedDict ℕ BsEntry)
    (hload : loadAdaptiveConfig digits cfgFile = .ok (loaded, bsEntries))
    (hinterval : Intervals loaded.settings bsEntries) (worker : W) (initial : SpecRuntimeState R)
    (hinitial : initial.speculativeNumSteps = proto.speculativeNumSteps worker)
    (cudaGraphBs : Option (List ℕ)) :
    ∃ c₀, AdaptiveController.startUp proto digits worker cfgFile initial cudaGraphBs = .ok c₀ ∧
      ∀ calls, ∃ c, c₀.run proto calls = .ok c ∧
        (∀ bs slot, c.params.slots.get? bs = some slot →
          (∃ entry, bsEntries.get? bs = some entry ∧
            slot.candidateSteps = sortedSet entry.candidateSteps ∧
            slot.currentSteps ∈ slot.candidateSteps) ∧
          slot.Settles) ∧
        ∀ batchSize, ∃ c', c.activateStepByBatch proto batchSize = .ok c' ∧
          c'.Routed proto cudaGraphBs (proto.speculativeNumSteps worker) batchSize := by
  obtain ⟨hne, -⟩ := loadAdaptiveConfig_ok hload
  obtain ⟨c₀, done, hstart, hcovers, hstocked₀⟩ :=
    AdaptiveController.startUp_ok hload worker hinitial cudaGraphBs
  refine ⟨c₀, hstart, fun calls => ?_⟩
  obtain ⟨c, hrun, hstocked⟩ := hstocked₀.run_ok hne hcovers hinterval calls
  refine ⟨c, hrun, ?_, ?_⟩
  · intro bs slot hslot
    obtain ⟨entry, hentry⟩ := hstocked.serves.entry bs slot hslot
    obtain ⟨slot', hslot', hserves⟩ := hstocked.serves.slot bs entry hentry
    obtain rfl := Option.some.inj (hslot.symm.trans hslot')
    have hvalid := hserves.valid (hinterval bs entry hentry)
    exact ⟨⟨entry, hentry, hserves.candidates, hserves.current⟩, hvalid.settles⟩
  · intro batchSize
    obtain ⟨c', slot, hactivate, hstocked', hroute, hworker⟩ :=
      hstocked.activateStepByBatch_ok hne hcovers batchSize
    exact ⟨c', hactivate, hstocked'.routed hne hcovers hroute hworker⟩

/-- A worker that is its step count, whose resources are the sizes they were captured for. -/
def countingWorker : AdaptiveSpecWorker ℤ (Option (List ℕ)) where
  speculativeNumSteps w := w
  buildAdaptiveRuntimeState w steps tokens cudaGraphBs := (⟨steps, tokens, cudaGraphBs⟩, w)
  applyRuntimeState _ state := state.speculativeNumSteps
  capturedFor resources := resources
  build_steps _ _ _ _ := rfl
  build_captured _ _ _ _ := rfl
  build_worker _ _ _ _ := rfl
  apply_steps _ _ := rfl

/-- The decimal digits of ASCII. -/
def asciiDigits : DigitTable where
  isdigit key := decide (key.toList ≠ []) && key.toList.all Char.isDigit
  int key := some (key.toList.foldl (fun n d => 10 * n + (d.toNat - 48)) 0)

/-- The entries of `DEFAULT_ADAPTIVE_CONFIG`. -/
def defaultBsEntries : OrderedDict ℕ BsEntry where
  items := [
    (1, ⟨[1, 3, 7], { GivenSettings.none with
      upHysteresis := some 0, downHysteresis := some (-1 / 4), ceilingCoeff := some 0 }⟩),
    (8, ⟨[0, 1, 3], { GivenSettings.none with
      upHysteresis := some 0, downHysteresis := some 0, ceilingCoeff := some 0 }⟩),
    (32, ⟨[0, 1], { GivenSettings.none with
      upHysteresis := some 0, downHysteresis := some 0, ceilingCoeff := some 0 }⟩),
    (64, ⟨[0], { GivenSettings.none with
      upHysteresis := some 0, downHysteresis := some 0, ceilingCoeff := some 0 }⟩)]
  nodup := by decide

theorem load_default : loadAdaptiveConfig asciiDigits none =
    .ok (defaultAdaptiveConfig, defaultBsEntries) := by rfl

theorem intervals_default : Intervals defaultAdaptiveConfig.settings defaultBsEntries := by
  intro bs entry hentry
  have hall : ∀ p ∈ defaultBsEntries.items, p.2.settings.updateInterval = none := by decide
  have hnone := hall _ (OrderedDict.get?_eq_some.mp hentry)
  unfold resolveSettings
  dsimp only
  rw [hnone]
  decide

theorem adaptiveController_spec_default :
    ∃ c₀, AdaptiveController.startUp countingWorker asciiDigits 3 none
        ⟨3, 4, some [4, 8, 16, 32]⟩ (some [4, 8, 16, 32]) = .ok c₀ ∧
      ∀ calls, ∃ c, c₀.run countingWorker calls = .ok c ∧
        (∀ bs slot, c.params.slots.get? bs = some slot →
          (∃ entry, defaultBsEntries.get? bs = some entry ∧
            slot.candidateSteps = sortedSet entry.candidateSteps ∧
            slot.currentSteps ∈ slot.candidateSteps) ∧
          slot.Settles) ∧
        ∀ batchSize, ∃ c', c.activateStepByBatch countingWorker batchSize = .ok c' ∧
          c'.Routed countingWorker (some [4, 8, 16, 32]) 3 batchSize :=
  adaptiveController_spec countingWorker asciiDigits none defaultAdaptiveConfig defaultBsEntries
    load_default intervals_default 3 ⟨3, 4, some [4, 8, 16, 32]⟩ rfl (some [4, 8, 16, 32])

end LatentSpec.AdaptiveSpec
