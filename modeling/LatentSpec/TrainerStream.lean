import Mathlib.Data.List.Rotate
import Mathlib.Tactic.Ring
import LatentSpec.ResumableSampler

/-! # The trainer's stream of micro-batches

A training job runs in sessions.  A session starts from the latest checkpoint, builds a sampler
that starts where the checkpoint's `next_micro_step` says, and trains until its batches are used
up, a suspension is requested, or the process dies; checkpoints are written at optimizer steps
only.  The state carries the micro-batches the weights were trained on, and so does a checkpoint.
After any sequence of sessions these are the first micro-batches of the run that nothing
interrupts (`BaseTrainer.resumes_exactly`).
-/
namespace LatentSpec
open StreamSegments

/-! ### The schedule -/

/-- `_compute_gradient_accumulation_steps` -/
def computeGradientAccumulationSteps (worldSize localBatchSize globalBatchSize : ℕ) :
    Option ℕ :=
  let denom := worldSize * localBatchSize
  if denom = 0 then none
  else if globalBatchSize % denom = 0 then some (globalBatchSize / denom)
  else none

/-- `_compute_samples_per_epoch` -/
def computeSamplesPerEpoch (datasetSize globalBatchSize : ℕ) : Option ℕ :=
  if globalBatchSize = 0 then none
  else
    let samplesPerEpoch := datasetSize / globalBatchSize * globalBatchSize
    if 0 < samplesPerEpoch then some samplesPerEpoch else none

/-- The arguments of `_compute_training_schedule`. -/
structure TrainArgs where
  worldSize : ℕ
  datasetSize : ℕ
  localBatchSize : ℕ
  globalBatchSize : ℕ
  numTrainEpochs : ℕ
  maxTrainSteps : Option ℕ

/-- Its result, without the number of epochs, which is only printed. -/
structure TrainingSchedule where
  gradientAccumulationSteps : ℕ
  samplesPerEpoch : ℕ
  perRankSamplesPerEpoch : ℕ
  microBatchesPerEpoch : ℕ
  stepsPerEpoch : ℕ
  maxTrainSteps : ℕ

/-- `_compute_training_schedule` -/
def computeTrainingSchedule (args : TrainArgs) : Option TrainingSchedule := do
  let gradientAccumulationSteps ← computeGradientAccumulationSteps args.worldSize
    args.localBatchSize args.globalBatchSize
  let samplesPerEpoch ← computeSamplesPerEpoch args.datasetSize args.globalBatchSize
  let perRankSamplesPerEpoch := samplesPerEpoch / args.worldSize
  let microBatchesPerEpoch := perRankSamplesPerEpoch / args.localBatchSize
  let stepsPerEpoch := microBatchesPerEpoch / gradientAccumulationSteps
  let maxTrainSteps :=
    match args.maxTrainSteps with
    | none => args.numTrainEpochs * stepsPerEpoch
    | some maxTrainSteps => maxTrainSteps
  some ⟨gradientAccumulationSteps, samplesPerEpoch, perRankSamplesPerEpoch, microBatchesPerEpoch,
    stepsPerEpoch, maxTrainSteps⟩

/-- What the assertions of the schedule leave: an epoch is a whole number of optimizer steps, and
the sampler's own assertions hold. -/
structure TrainingSchedule.Fits (schedule : TrainingSchedule) (args : TrainArgs) : Prop where
  localBatchSize_pos : 0 < args.localBatchSize
  gradientAccumulationSteps_pos : 0 < schedule.gradientAccumulationSteps
  stepsPerEpoch_pos : 0 < schedule.stepsPerEpoch
  samplesPerEpoch_pos : 0 < schedule.samplesPerEpoch
  samplesPerEpoch_le : schedule.samplesPerEpoch ≤ args.datasetSize
  perRank_eq : schedule.samplesPerEpoch = args.worldSize * schedule.perRankSamplesPerEpoch
  microBatches_eq : schedule.perRankSamplesPerEpoch =
    args.localBatchSize * schedule.microBatchesPerEpoch
  steps_eq : schedule.microBatchesPerEpoch =
    schedule.gradientAccumulationSteps * schedule.stepsPerEpoch

theorem computeGradientAccumulationSteps_eq_some
    {worldSize localBatchSize globalBatchSize steps : ℕ}
    (h : computeGradientAccumulationSteps worldSize localBatchSize globalBatchSize =
      some steps) :
    0 < worldSize ∧ 0 < localBatchSize ∧
      globalBatchSize = worldSize * (localBatchSize * steps) := by
  dsimp only [computeGradientAccumulationSteps] at h
  split_ifs at h with hdenom hdvd
  obtain rfl := Option.some.inj h
  have hpos := Nat.pos_of_ne_zero hdenom
  refine ⟨Nat.pos_of_mul_pos_right hpos, Nat.pos_of_mul_pos_left hpos, ?_⟩
  rw [← Nat.mul_assoc, Nat.mul_div_cancel' (Nat.dvd_of_mod_eq_zero hdvd)]

theorem computeSamplesPerEpoch_eq_some {datasetSize globalBatchSize samples : ℕ}
    (h : computeSamplesPerEpoch datasetSize globalBatchSize = some samples) :
    0 < samples ∧ samples ≤ datasetSize ∧ ∃ steps, samples = globalBatchSize * steps := by
  dsimp only [computeSamplesPerEpoch] at h
  split_ifs at h with hglobal hpos
  obtain rfl := Option.some.inj h
  exact ⟨hpos, Nat.div_mul_le_self .., _, Nat.mul_comm ..⟩

theorem computeTrainingSchedule_fits {args : TrainArgs} {schedule : TrainingSchedule}
    (h : computeTrainingSchedule args = some schedule) : schedule.Fits args := by
  obtain ⟨ga, hga, h⟩ := Option.bind_eq_some_iff.mp h
  obtain ⟨samples, hsamples, h⟩ := Option.bind_eq_some_iff.mp h
  obtain rfl := Option.some.inj h
  obtain ⟨hworld, hlocal, hglobal⟩ := computeGradientAccumulationSteps_eq_some hga
  obtain ⟨hpos, hle, steps, hsteps⟩ := computeSamplesPerEpoch_eq_some hsamples
  have heq : samples = args.worldSize * (args.localBatchSize * (ga * steps)) := by
    rw [hsteps, hglobal]
    ring
  have hga_pos : 0 < ga := by
    refine Nat.pos_of_ne_zero fun h0 => ?_
    simp [heq, h0] at hpos
  have hsteps_pos : 0 < steps := by
    refine Nat.pos_of_ne_zero fun h0 => ?_
    simp [heq, h0] at hpos
  have hperRank : samples / args.worldSize = args.localBatchSize * (ga * steps) := by
    rw [heq, Nat.mul_div_cancel_left _ hworld]
  have hmicro : samples / args.worldSize / args.localBatchSize = ga * steps := by
    rw [hperRank, Nat.mul_div_cancel_left _ hlocal]
  have hper : samples / args.worldSize / args.localBatchSize / ga = steps := by
    rw [hmicro, Nat.mul_div_cancel_left _ hga_pos]
  exact
    { localBatchSize_pos := hlocal
      gradientAccumulationSteps_pos := hga_pos
      stepsPerEpoch_pos := hper ▸ hsteps_pos
      samplesPerEpoch_pos := hpos
      samplesPerEpoch_le := hle
      perRank_eq := by rw [hperRank, ← heq]
      microBatches_eq := by rw [hmicro, hperRank]
      steps_eq := by rw [hper, hmicro] }

/-! ### The trainer -/

/-- `BaseTrainer` of one rank, as far as the stream of its batches goes.  `numReplicas` and
`totalSize` of the data are its `world_size` and `samples_per_epoch`. -/
structure BaseTrainer extends DistributedData where
  globalRank : ℕ
  localBatchSize : ℕ
  gradientAccumulationSteps : ℕ
  stepsPerEpoch : ℕ
  maxTrainSteps : ℕ
  checkpointingSteps : ℕ
  globalRank_lt : globalRank < numReplicas
  localBatchSize_pos : 0 < localBatchSize
  gradientAccumulationSteps_pos : 0 < gradientAccumulationSteps
  stepsPerEpoch_pos : 0 < stepsPerEpoch
  checkpointingSteps_pos : 0 < checkpointingSteps

/-- The trainer that a schedule gives; its sampler keeps the default seed. -/
def TrainingSchedule.Fits.trainer {schedule : TrainingSchedule} {args : TrainArgs}
    (h : schedule.Fits args) (generator : Randperm) (globalRank checkpointingSteps : ℕ)
    (hrank : globalRank < args.worldSize) (hckpt : 0 < checkpointingSteps) : BaseTrainer where
  generator
  datasetSize := args.datasetSize
  numReplicas := args.worldSize
  totalSize := schedule.samplesPerEpoch
  seed := 42
  totalSize_pos := h.samplesPerEpoch_pos
  totalSize_le := h.samplesPerEpoch_le
  numReplicas_dvd := ⟨_, h.perRank_eq⟩
  globalRank
  localBatchSize := args.localBatchSize
  gradientAccumulationSteps := schedule.gradientAccumulationSteps
  stepsPerEpoch := schedule.stepsPerEpoch
  maxTrainSteps := schedule.maxTrainSteps
  checkpointingSteps
  globalRank_lt := hrank
  localBatchSize_pos := h.localBatchSize_pos
  gradientAccumulationSteps_pos := h.gradientAccumulationSteps_pos
  stepsPerEpoch_pos := h.stepsPerEpoch_pos
  checkpointingSteps_pos := hckpt

/-- An epoch of a rank is a whole number of optimizer steps. -/
theorem TrainingSchedule.Fits.perRankLenPerEpoch_trainer {schedule : TrainingSchedule}
    {args : TrainArgs} (h : schedule.Fits args) (generator : Randperm)
    {globalRank checkpointingSteps : ℕ} (hrank : globalRank < args.worldSize)
    (hckpt : 0 < checkpointingSteps) :
    (h.trainer generator globalRank checkpointingSteps hrank hckpt).perRankLenPerEpoch =
      args.localBatchSize * (schedule.gradientAccumulationSteps * schedule.stepsPerEpoch) := by
  have hworld : 0 < args.worldSize := Nat.zero_lt_of_lt hrank
  change schedule.samplesPerEpoch / args.worldSize = _
  rw [h.perRank_eq, Nat.mul_div_cancel_left _ hworld, h.microBatches_eq, h.steps_eq]

/-- The progress of a session, and the micro-batches the weights were trained on. -/
structure TrainState where
  nextMicroStep : ℕ
  trained : List (List ℕ)

/-- `training_state.rank*.pt`, with the micro-batches the saved weights were trained on. -/
structure TrainCheckpoint extends TrainState where
  globalRank : ℕ
  worldSize : ℕ
  localBatchSize : ℕ

/-- What happens around a micro-step: nothing, the scheduler has asked for a suspension, or the
process dies before it trains on the batch. -/
inductive Interruption where
  | proceed
  | suspend
  | kill
  deriving DecidableEq

/-- A session when it has ended, and the checkpoint `step_latest` then links to. -/
structure TrainSession extends TrainState where
  latest : Option TrainCheckpoint

namespace BaseTrainer
variable (T : BaseTrainer)

/-- `global_step` -/
def globalStep (nextMicroStep : ℕ) : ℕ := nextMicroStep / T.gradientAccumulationSteps

def saveCheckpoint (s : TrainState) : Option TrainCheckpoint :=
  if s.nextMicroStep % T.gradientAccumulationSteps = 0 then
    some
      { s with
        globalRank := T.globalRank
        worldSize := T.numReplicas
        localBatchSize := T.localBatchSize }
  else none

def loadTrainingState (checkpoint : TrainCheckpoint) : Option TrainState :=
  if checkpoint.nextMicroStep % T.gradientAccumulationSteps = 0 ∧
      checkpoint.globalRank = T.globalRank ∧ checkpoint.worldSize = T.numReplicas ∧
      checkpoint.localBatchSize = T.localBatchSize then
    some checkpoint.toTrainState
  else none

/-- `_build_train_dataloader` -/
def buildTrainDataloader (startOffsetSamples numSamples : ℕ) : List (List ℕ) :=
  let sampler : StatelessResumableDistributedSampler :=
    { T.toDistributedData with
      rank := T.globalRank
      startGlobalOffsetSamples := startOffsetSamples
      numSamples := some numSamples
      rank_lt := T.globalRank_lt }
  chunks T.localBatchSize sampler.iter

/-- The loop of `train`, and the checkpoint after it. -/
def trainLoop (signal : ℕ → Interruption) :
    List (List ℕ) → TrainState → Option TrainCheckpoint → Option TrainSession
  | [], s, _ => do
    let checkpoint ← T.saveCheckpoint s
    some ⟨s, some checkpoint⟩
  | batch :: batches, s, latest =>
    if signal s.nextMicroStep = .kill then some ⟨s, latest⟩
    else
      let s' : TrainState := ⟨s.nextMicroStep + 1, s.trained ++ [batch]⟩
      if s'.nextMicroStep % T.gradientAccumulationSteps = 0 then do
        let step := T.globalStep s'.nextMicroStep
        let latest ←
          if step % T.checkpointingSteps = 0 ∨ step % T.stepsPerEpoch = 0 then
            (T.saveCheckpoint s').map some
          else some latest
        if signal s.nextMicroStep = .suspend then do
          let checkpoint ← T.saveCheckpoint s'
          some ⟨s', some checkpoint⟩
        else trainLoop signal batches s' latest
      else trainLoop signal batches s' latest

/-- The state a session starts in (`__init__`). -/
def initialState : Option TrainCheckpoint → Option TrainState
  | some checkpoint => T.loadTrainingState checkpoint
  | none => some ⟨0, []⟩

/-- A session, up to the end of `train`.  `none` is a failed assertion. -/
def train (signal : ℕ → Interruption) (latest : Option TrainCheckpoint) :
    Option TrainSession := do
  let s ← T.initialState latest
  if T.maxTrainSteps ≤ T.globalStep s.nextMicroStep then some ⟨s, latest⟩
  else
    let totalMicroSteps := T.maxTrainSteps * T.gradientAccumulationSteps
    let remainingSamples := (totalMicroSteps - s.nextMicroStep) * T.localBatchSize
    T.trainLoop signal
      (T.buildTrainDataloader (s.nextMicroStep * T.localBatchSize) remainingSamples) s latest

/-- The sessions of a job, each with its own interruptions: the checkpoint they leave. -/
def runSessions : List (ℕ → Interruption) → Option TrainCheckpoint →
    Option (Option TrainCheckpoint)
  | [], latest => some latest
  | signal :: signals, latest => do
    let session ← T.train signal latest
    runSessions signals session.latest

/-! ### Runs -/

/-- `total_micro_steps` -/
def totalMicroSteps : ℕ := T.maxTrainSteps * T.gradientAccumulationSteps

/-- The rank's micro-batch number `j`. -/
def microBatch (j : ℕ) : List ℕ := chunkAt (T.sampleAt T.globalRank) T.localBatchSize j

theorem buildTrainDataloader_eq (m count : ℕ) :
    T.buildTrainDataloader (m * T.localBatchSize) (count * T.localBatchSize) =
      segment T.microBatch m count := by
  dsimp only [buildTrainDataloader]
  rw [StatelessResumableDistributedSampler.iter_eq_segment]
  exact chunks_segment _ T.localBatchSize_pos m count

/-- The weights were trained on the first micro-batches of the rank. -/
structure Tracks (s : TrainState) : Prop where
  le_total : s.nextMicroStep ≤ T.totalMicroSteps
  trained_eq : s.trained = segment T.microBatch 0 s.nextMicroStep

/-- The assertions of `load_training_state` hold of the checkpoint. -/
structure Loadable (checkpoint : TrainCheckpoint) : Prop where
  aligned : checkpoint.nextMicroStep % T.gradientAccumulationSteps = 0
  tracks : T.Tracks checkpoint.toTrainState
  globalRank_eq : checkpoint.globalRank = T.globalRank
  worldSize_eq : checkpoint.worldSize = T.numReplicas
  localBatchSize_eq : checkpoint.localBatchSize = T.localBatchSize

variable {T}

theorem Tracks.start : T.Tracks ⟨0, []⟩ := ⟨Nat.zero_le _, rfl⟩

/-- One more micro-batch. -/
theorem Tracks.step {s : TrainState} (h : T.Tracks s) (hlt : s.nextMicroStep < T.totalMicroSteps) :
    T.Tracks ⟨s.nextMicroStep + 1, s.trained ++ [T.microBatch s.nextMicroStep]⟩ := by
  refine ⟨hlt, ?_⟩
  rw [segment_concat, Nat.zero_add, h.trained_eq]

theorem Tracks.saveCheckpoint {s : TrainState} (h : T.Tracks s)
    (haligned : s.nextMicroStep % T.gradientAccumulationSteps = 0) :
    ∃ checkpoint, T.saveCheckpoint s = some checkpoint ∧ T.Loadable checkpoint := by
  refine ⟨_, if_pos haligned, ?_⟩
  exact ⟨haligned, h, rfl, rfl, rfl⟩

theorem Loadable.loadTrainingState {checkpoint : TrainCheckpoint} (h : T.Loadable checkpoint) :
    T.loadTrainingState checkpoint = some checkpoint.toTrainState :=
  if_pos ⟨h.aligned, h.globalRank_eq, h.worldSize_eq, h.localBatchSize_eq⟩

variable (T) in
/-- What a session leaves behind. -/
structure SessionOk (signal : ℕ → Interruption) (session : TrainSession) : Prop where
  tracks : T.Tracks session.toTrainState
  loadable : ∀ checkpoint ∈ session.latest, T.Loadable checkpoint
  finished : (∀ n, signal n = .proceed) → session.nextMicroStep = T.totalMicroSteps

/-- The loop, by induction on the batches left: `s` is in step with them. -/
theorem trainLoop_ok (signal : ℕ → Interruption) (count : ℕ) {s : TrainState}
    {latest : Option TrainCheckpoint} (hs : T.Tracks s)
    (hlatest : ∀ checkpoint ∈ latest, T.Loadable checkpoint)
    (hcount : s.nextMicroStep + count = T.totalMicroSteps) :
    ∃ session, T.trainLoop signal (segment T.microBatch s.nextMicroStep count) s latest =
      some session ∧ T.SessionOk signal session := by
  induction count generalizing s latest with
  | zero =>
    have hdone : s.nextMicroStep = T.totalMicroSteps := hcount
    have haligned : s.nextMicroStep % T.gradientAccumulationSteps = 0 := by
      rw [hdone, totalMicroSteps, Nat.mul_mod_left]
    obtain ⟨checkpoint, hsave, hloadable⟩ := hs.saveCheckpoint haligned
    refine ⟨⟨s, some checkpoint⟩, ?_, hs, ?_, fun _ => hdone⟩
    · rw [segment_zero, trainLoop, hsave]
      rfl
    · rintro _ ⟨⟩
      exact hloadable
  | succ count ih =>
    have hstep := hs.step (by omega)
    rw [segment_succ, trainLoop]
    by_cases hkill : signal s.nextMicroStep = .kill
    · refine ⟨⟨s, latest⟩, if_pos hkill, hs, hlatest, fun hproceed => ?_⟩
      rw [hproceed] at hkill
      cases hkill
    rw [if_neg hkill]
    dsimp only
    by_cases hsync : (s.nextMicroStep + 1) % T.gradientAccumulationSteps = 0
    · -- an optimizer step: a checkpoint of the new state, if any, is aligned
      obtain ⟨checkpoint, hsave, hloadable⟩ := hstep.saveCheckpoint hsync
      have hsome : ∀ c ∈ some checkpoint, T.Loadable c := by
        rintro _ ⟨⟩
        exact hloadable
      rw [if_pos hsync, hsave]
      by_cases hsuspend : signal s.nextMicroStep = .suspend
      · refine ⟨⟨_, some checkpoint⟩, ?_, hstep, hsome, fun hproceed => ?_⟩
        · simp only [hsuspend, if_true]
          split <;> rfl
        · rw [hproceed] at hsuspend
          cases hsuspend
      · simp only [hsuspend, if_false]
        split
        · exact ih hstep hsome (by dsimp only; omega)
        · exact ih hstep hlatest (by dsimp only; omega)
    · rw [if_neg hsync]
      exact ih hstep hlatest (by dsimp only; omega)

/-- A session from a checkpoint, or from scratch. -/
theorem train_ok (signal : ℕ → Interruption) {latest : Option TrainCheckpoint}
    (hlatest : ∀ checkpoint ∈ latest, T.Loadable checkpoint) :
    ∃ session, T.train signal latest = some session ∧ T.SessionOk signal session := by
  obtain ⟨s, hload, hs, haligned⟩ : ∃ s, T.initialState latest = some s ∧ T.Tracks s ∧
      s.nextMicroStep % T.gradientAccumulationSteps = 0 := by
    cases latest with
    | none => exact ⟨_, rfl, Tracks.start, Nat.zero_mod _⟩
    | some checkpoint =>
      have h := hlatest checkpoint rfl
      exact ⟨_, h.loadTrainingState, h.tracks, h.aligned⟩
  have hdiv := Nat.div_add_mod' s.nextMicroStep T.gradientAccumulationSteps
  rw [haligned, Nat.add_zero] at hdiv
  rw [train, hload, Option.bind_eq_bind, Option.bind_some]
  split_ifs with hdone
  · -- nothing is left to train
    refine ⟨⟨s, latest⟩, rfl, hs, hlatest, fun _ => ?_⟩
    refine Nat.le_antisymm hs.le_total ?_
    rw [← hdiv]
    exact Nat.mul_le_mul_right _ hdone
  · dsimp only
    rw [buildTrainDataloader_eq]
    exact trainLoop_ok signal _ hs hlatest (Nat.add_sub_of_le hs.le_total)

/-- Any sessions, one after the other, leave a checkpoint that loads. -/
theorem runSessions_ok (signals : List (ℕ → Interruption)) {latest : Option TrainCheckpoint}
    (hlatest : ∀ checkpoint ∈ latest, T.Loadable checkpoint) :
    ∃ latest', T.runSessions signals latest = some latest' ∧
      ∀ checkpoint ∈ latest', T.Loadable checkpoint := by
  induction signals generalizing latest with
  | nil => exact ⟨latest, rfl, hlatest⟩
  | cons signal signals ih =>
    obtain ⟨session, htrain, hok⟩ := train_ok signal hlatest
    obtain ⟨latest', hrun, hloadable⟩ := ih hok.loadable
    refine ⟨latest', ?_, hloadable⟩
    rw [runSessions, htrain]
    exact hrun

/-- The samples of the first micro-batches are the first samples of the rank. -/
theorem flatten_segment_microBatch (count : ℕ) :
    (segment T.microBatch 0 count).flatten =
      segment (T.sampleAt T.globalRank) 0 (count * T.localBatchSize) := by
  induction count with
  | zero => rw [segment_zero, Nat.zero_mul, segment_zero, List.flatten_nil]
  | succ count ih =>
    rw [segment_concat, List.flatten_append, ih, List.flatten_singleton, Nat.zero_add, microBatch,
      chunkAt, Nat.succ_mul, segment_add, Nat.zero_add]

variable (T)

/-- However a job is interrupted, what the next session trains on continues what the checkpoint was
trained on to a prefix of the uninterrupted run, and to all of it when nothing interrupts the
session.  The uninterrupted run takes the rank's slices of the epochs in order, and in each epoch
the slices of the ranks part the first `totalSize` entries of its permutation. -/
theorem resumes_exactly (signals : List (ℕ → Interruption)) :
    ∃ latest whole, T.runSessions signals none = some latest ∧
      T.train (fun _ => .proceed) none = some whole ∧
      (∀ signal, ∃ session, T.train signal latest = some session ∧
        session.trained = whole.trained.take session.nextMicroStep ∧
        ((∀ n, signal n = .proceed) → session.trained = whole.trained)) ∧
      (∀ epochs, T.totalMicroSteps * T.localBatchSize ≤ epochs * T.perRankLenPerEpoch →
        whole.trained.flatten = ((List.range epochs).flatMap (T.epochSeq T.globalRank)).take
          (T.totalMicroSteps * T.localBatchSize)) ∧
      ∀ epochIdx,
        (∀ rank < T.numReplicas, ∀ rank' < T.numReplicas, rank ≠ rank' →
          List.Disjoint (T.epochSeq rank epochIdx) (T.epochSeq rank' epochIdx)) ∧
        ((List.range T.numReplicas).flatMap fun rank => T.epochSeq rank epochIdx).Perm
          ((T.generator.randperm T.datasetSize (T.seed + epochIdx)).take T.totalSize) := by
  have hnone : ∀ checkpoint ∈ (none : Option TrainCheckpoint), T.Loadable checkpoint :=
    fun _ h => by cases h
  obtain ⟨latest, hrun, hlatest⟩ := runSessions_ok signals hnone
  obtain ⟨whole, hwhole, hok⟩ := train_ok (fun _ => .proceed) hnone
  have htrained : whole.trained = segment T.microBatch 0 T.totalMicroSteps := by
    rw [hok.tracks.trained_eq, hok.finished fun _ => rfl]
  refine ⟨latest, whole, hrun, hwhole, fun signal => ?_, fun epochs hepochs => ?_,
    fun epochIdx => ⟨fun rank hrank rank' hrank' hne => ?_, T.epochSlices_perm epochIdx⟩⟩
  · obtain ⟨session, htrain, hsession⟩ := train_ok signal hlatest
    refine ⟨session, htrain, ?_, fun hproceed => ?_⟩
    · rw [htrained, take_segment _ _ hsession.tracks.le_total, hsession.tracks.trained_eq]
    · rw [hsession.tracks.trained_eq, hsession.finished hproceed, htrained]
  · rw [htrained, flatten_segment_microBatch, ← T.segment_sampleAt T.globalRank_lt,
      take_segment _ _ hepochs]
  · exact T.epochSlices_disjoint hrank hrank' hne epochIdx

/-! ### Two ranks -/

/-- A shuffle that turns the samples by the seed. -/
def rotating : Randperm where
  randperm n seed := (List.range n).rotate seed.toNat
  perm_range n seed := List.rotate_perm (List.range n) seed.toNat

/-- Two epochs of eight of nine samples, with two micro-batches to an optimizer step. -/
def twoRankArgs : TrainArgs where
  worldSize := 2
  datasetSize := 9
  localBatchSize := 1
  globalBatchSize := 4
  numTrainEpochs := 2
  maxTrainSteps := none

theorem twoRankArgs_fits : TrainingSchedule.Fits ⟨2, 8, 4, 4, 2, 4⟩ twoRankArgs :=
  computeTrainingSchedule_fits rfl

/-- The second rank, with a checkpoint at every optimizer step. -/
def secondRank : BaseTrainer :=
  twoRankArgs_fits.trainer rotating 1 1 Nat.one_lt_two Nat.one_pos

/-- A session that dies between two optimizer steps, one that is suspended in the second epoch, and
the session behind them. -/
theorem resumes_exactly_twoRanks : ∃ latest whole session,
    secondRank.runSessions [fun n => if n = 3 then .kill else .proceed,
      fun n => if n = 4 then .suspend else if n = 5 then .suspend else .proceed] none =
        some latest ∧
    latest.map (fun checkpoint => checkpoint.nextMicroStep) = some 6 ∧
    secondRank.train (fun _ => .proceed) none = some whole ∧
    secondRank.train (fun _ => .proceed) latest = some session ∧
    session.trained = whole.trained ∧ whole.trained.flatten = [7, 0, 2, 4, 8, 1, 3, 5] ∧
    List.Disjoint (secondRank.epochSeq 0 0) (secondRank.epochSeq 1 0) := by
  obtain ⟨latest, whole, hrun, hwhole, hnext, hflatten, hepoch⟩ := secondRank.resumes_exactly
    [fun n => if n = 3 then .kill else .proceed,
      fun n => if n = 4 then .suspend else if n = 5 then .suspend else .proceed]
  obtain ⟨session, hsession, -, hall⟩ := hnext fun _ => .proceed
  have hlatest : (secondRank.runSessions [fun n => if n = 3 then .kill else .proceed,
      fun n => if n = 4 then .suspend else if n = 5 then .suspend else .proceed] none).map
        (fun latest => latest.map fun checkpoint => checkpoint.nextMicroStep) = some (some 6) := by
    decide +kernel
  rw [hrun] at hlatest
  have hlen : secondRank.perRankLenPerEpoch = 4 :=
    twoRankArgs_fits.perRankLenPerEpoch_trainer rotating Nat.one_lt_two Nat.one_pos
  have hsamples := hflatten 2 (by rw [hlen]; decide)
  refine ⟨latest, whole, session, hrun, Option.some.inj hlatest, hwhole, hsession,
    hall fun _ => rfl, hsamples.trans (by decide), ?_⟩
  exact (hepoch 0).1 0 (by decide) 1 (by decide) (by decide)

end BaseTrainer
end LatentSpec
