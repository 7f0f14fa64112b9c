import LatentSpec.ChainLaw
import LatentSpec.LeadingRun
import LatentSpec.TiledSearch

/-! # The chain rejection sampling kernel

`speculative_sampling_classic_kernel` of `kernels/ops/speculative/reject_sampling.py`
and its launch `chain_speculative_sampling_triton`.  One program handles one request:
it walks the draft slots until a test fails, storing each accepted token and its
global index, and then draws one more token from the residual of the rejected slot or
from the last target row, with a sum pass and a search pass over the vocabulary in
tiles of `BLOCK_V`.

Tensors are total functions of their indices, arithmetic is exact over an ordered
field.  `program_eq` gives everything one program stores, in terms of the number of
leading tests that pass and of the plain search of the sampled row.
-/
namespace LatentSpec
open LeadingRun TiledSearch Categorical

/-- The tensors the kernel reads, indexed by request first, and its constants. -/
structure KernelArgs (V : ℕ) (K : Type) where
  candidates : ℕ → ℕ → Fin V
  retriveIndex : ℕ → ℕ → ℕ
  uniformSamples : ℕ → ℕ → K
  uniformSamplesFinal : ℕ → K
  targetProbs : ℕ → ℕ → Fin V → K
  draftProbs : ℕ → ℕ → Fin V → K
  numSlots : ℕ
  blockV : ℕ

/-- The tensors the kernel writes. -/
structure KernelMemory where
  predicts : ℕ → ℕ
  acceptIndex : ℕ → ℕ → ℕ
  acceptTokenNum : ℕ → ℕ

/-- `tl.store(Predicts + idx, token)`. -/
def KernelMemory.storePredict (m : KernelMemory) (idx token : ℕ) : KernelMemory :=
  { m with predicts := Function.update m.predicts idx token }

/-- `tl.store(AcceptIndex + pid * stride_idx_b + slot * stride_idx_s, idx)`. -/
def KernelMemory.storeAcceptIndex (m : KernelMemory) (pid slot idx : ℕ) : KernelMemory :=
  { m with
    acceptIndex :=
      Function.update m.acceptIndex pid (Function.update (m.acceptIndex pid) slot idx) }

/-- `tl.store(AcceptTokenNum + pid, num_accept)`. -/
def KernelMemory.storeAcceptTokenNum (m : KernelMemory) (pid num : ℕ) : KernelMemory :=
  { m with acceptTokenNum := Function.update m.acceptTokenNum pid num }

/-- The tokens request `pid` emits: `predicts` along its accepted indices. -/
def KernelMemory.emitted (m : KernelMemory) (pid : ℕ) : List ℕ :=
  (List.range (m.acceptTokenNum pid + 1)).map fun i => m.predicts (m.acceptIndex pid i)

/-- The variables of the verification loop. -/
structure VerifyVars where
  step : ℕ
  curProbRow : ℕ
  numAccept : ℕ
  lastAcceptedGlobalIdx : ℕ
  continueVerifying : Bool
  mem : KernelMemory

variable {V : ℕ} {K : Type} [Field K] [LinearOrder K]

namespace KernelArgs
variable (a : KernelArgs V K) (pid : ℕ)

/-- The body of the verification loop. -/
def verifyStep (s : VerifyVars) : VerifyVars :=
  let draftToken := a.candidates pid s.step
  let p := a.targetProbs pid s.curProbRow draftToken
  let q := a.draftProbs pid s.curProbRow draftToken
  let coin := a.uniformSamples pid (s.step - 1)
  if coin * q < p then
    let currGlobalIdx := a.retriveIndex pid s.step
    { step := s.step + 1
      curProbRow := s.step
      numAccept := s.numAccept + 1
      lastAcceptedGlobalIdx := currGlobalIdx
      continueVerifying := s.continueVerifying
      mem := (s.mem.storePredict s.lastAcceptedGlobalIdx draftToken).storeAcceptIndex pid
        (s.numAccept + 1) currGlobalIdx }
  else { s with continueVerifying := false }

/-- The verification loop, for at most `fuel` slots. -/
def verifyLoop : ℕ → VerifyVars → VerifyVars
  | 0, s => s
  | fuel + 1, s =>
    if s.step < a.numSlots ∧ s.continueVerifying = true then verifyLoop fuel (a.verifyStep pid s)
    else s

/-- A lane of the sampled row: the target row when every draft was accepted, else the
residual, and zero where the vocabulary mask is off. -/
def laneValue (row : ℕ) (allDraftsAccepted : Bool) (v : ℕ) : K :=
  let pVal := if h : v < V then a.targetProbs pid row ⟨v, h⟩ else 0
  if allDraftsAccepted then pVal
  else
    let qVal := if h : v < V then a.draftProbs pid row ⟨v, h⟩ else 0
    -- the guard for NaN rows, which exact arithmetic does not have
    let qVal := if qVal = qVal then qVal else 0
    let diff := pVal - qVal
    if 0 < diff then diff else 0

/-- The two passes over the vocabulary. -/
def finalSample (row : ℕ) (allDraftsAccepted : Bool) : Scan K :=
  let val := a.laneValue pid row allDraftsAccepted
  let normSum := tiledSum V a.blockV val
  let targetU := a.uniformSamplesFinal pid * normSum
  tiledSearch V a.blockV val targetU (V - 1)

/-- **One program**, `speculative_sampling_classic_kernel`. -/
def program (m : KernelMemory) : KernelMemory :=
  let root := a.retriveIndex pid 0
  let s := a.verifyLoop pid a.numSlots
    { step := 1
      curProbRow := 0
      numAccept := 0
      lastAcceptedGlobalIdx := root
      continueVerifying := true
      mem := m.storeAcceptIndex pid 0 root }
  let finalToken := (a.finalSample pid s.curProbRow s.continueVerifying).token
  (s.mem.storeAcceptTokenNum pid s.numAccept).storePredict s.lastAcceptedGlobalIdx finalToken

/-- `chain_speculative_sampling_triton`: one program per request. -/
def launch (batchSize : ℕ) (m : KernelMemory) : KernelMemory :=
  (List.range batchSize).foldl (fun m pid => a.program pid m) m

/-! ### The verification loop -/

/-- The test of draft slot `i`, in slot `i + 1` of the candidates. -/
def passes (i : ℕ) : Bool :=
  decide (a.uniformSamples pid i * a.draftProbs pid i (a.candidates pid (i + 1)) <
    a.targetProbs pid i (a.candidates pid (i + 1)))

/-- The number of draft slots. -/
def numDrafts : ℕ := a.numSlots - 1

/-- **The accepted length**: the leading draft slots that pass their tests. -/
def accepted : ℕ := leadingRun ((List.range a.numDrafts).map (a.passes pid))

/-- The memory after `j` accepted slots. -/
def acceptedMem (m : KernelMemory) : ℕ → KernelMemory
  | 0 => m.storeAcceptIndex pid 0 (a.retriveIndex pid 0)
  | j + 1 => ((acceptedMem m j).storePredict (a.retriveIndex pid j)
      (a.candidates pid (j + 1))).storeAcceptIndex pid (j + 1) (a.retriveIndex pid (j + 1))

/-- The loop variables after `j` accepted slots. -/
def acceptedVars (m : KernelMemory) (j : ℕ) (continueVerifying : Bool) : VerifyVars where
  step := j + 1
  curProbRow := j
  numAccept := j
  lastAcceptedGlobalIdx := a.retriveIndex pid j
  continueVerifying := continueVerifying
  mem := a.acceptedMem pid m j

/-- One iteration accepts the next slot or ends the loop. -/
theorem verifyStep_acceptedVars (m : KernelMemory) (j : ℕ) :
    a.verifyStep pid (a.acceptedVars pid m j true) =
      if a.passes pid j then a.acceptedVars pid m (j + 1) true
      else a.acceptedVars pid m j false := by
  unfold verifyStep passes
  simp only [acceptedVars, Nat.add_sub_cancel, decide_eq_true_eq]
  split <;> rfl

/-- The loop stands still once it has ended. -/
theorem verifyLoop_ended (fuel : ℕ) {s : VerifyVars}
    (h : ¬(s.step < a.numSlots ∧ s.continueVerifying = true)) : a.verifyLoop pid fuel s = s := by
  cases fuel with
  | zero => rfl
  | succ fuel => rw [verifyLoop, if_neg h]

/-- **The loop from the `j`-th slot on** accepts the leading run of the remaining
tests, and still wants to continue only when nothing is left to test. -/
theorem verifyLoop_acceptedVars (m : KernelMemory) (k j fuel : ℕ) (hn : j + k + 1 = a.numSlots)
    (hfuel : k ≤ fuel) :
    a.verifyLoop pid fuel (a.acceptedVars pid m j true) =
      a.acceptedVars pid m (j + leadingRun ((List.range' j k).map (a.passes pid)))
        (decide (leadingRun ((List.range' j k).map (a.passes pid)) = k)) := by
  induction k generalizing j fuel with
  | zero =>
    refine (a.verifyLoop_ended pid fuel ?_).trans rfl
    simp only [acceptedVars]
    omega
  | succ k ih =>
    obtain ⟨fuel, rfl⟩ : ∃ f, fuel = f + 1 := ⟨fuel - 1, by omega⟩
    have hcond : (a.acceptedVars pid m j true).step < a.numSlots ∧
        (a.acceptedVars pid m j true).continueVerifying = true :=
      ⟨by simp [acceptedVars]; omega, rfl⟩
    rw [verifyLoop, if_pos hcond, verifyStep_acceptedVars, List.range'_succ, List.map_cons]
    cases hpass : a.passes pid j with
    | true =>
      rw [if_pos rfl, ih (j + 1) fuel (by omega) (by omega)]
      simp only [leadingRun, Nat.add_right_cancel_iff]
      congr 1
      omega
    | false =>
      rw [if_neg Bool.false_ne_true, verifyLoop_ended]
      · simp [leadingRun]
      · simp [acceptedVars]

/-- The loop as the program starts it. -/
theorem verifyLoop_start (m : KernelMemory) (h : 0 < a.numSlots) :
    a.verifyLoop pid a.numSlots (a.acceptedVars pid m 0 true) =
      a.acceptedVars pid m (a.accepted pid) (decide (a.accepted pid = a.numDrafts)) := by
  have := a.verifyLoop_acceptedVars pid m a.numDrafts 0 a.numSlots
    (by unfold numDrafts; omega) (Nat.sub_le _ _)
  rw [Nat.zero_add] at this
  rw [this, accepted, List.range_eq_range']

/-! ### What a program stores -/

/-- The token the program draws last. -/
def finalToken : ℕ :=
  (a.finalSample pid (a.accepted pid) (decide (a.accepted pid = a.numDrafts))).token

/-- **Everything one program stores.** -/
theorem program_eq (m : KernelMemory) (h : 0 < a.numSlots) :
    a.program pid m =
      ((a.acceptedMem pid m (a.accepted pid)).storeAcceptTokenNum pid (a.accepted pid)).storePredict
        (a.retriveIndex pid (a.accepted pid)) (a.finalToken pid) := by
  have hloop := a.verifyLoop_start pid m h
  unfold program
  simp only [acceptedVars, acceptedMem] at hloop
  simp only [hloop]
  rfl

theorem accepted_le : a.accepted pid ≤ a.numDrafts := by
  refine (leadingRun_le_length _).trans ?_
  rw [List.length_map, List.length_range]

section Stores
omit [Field K] [LinearOrder K]
variable (m : KernelMemory)

theorem acceptedMem_acceptIndex {j i : ℕ} (h : i ≤ j) :
    (a.acceptedMem pid m j).acceptIndex pid i = a.retriveIndex pid i := by
  induction j with
  | zero =>
    obtain rfl : i = 0 := by omega
    simp [acceptedMem, KernelMemory.storeAcceptIndex]
  | succ j ih =>
    rcases Nat.lt_or_ge j i with hlt | hge
    · obtain rfl : i = j + 1 := by omega
      simp [acceptedMem, KernelMemory.storeAcceptIndex]
    · have hne : i ≠ j + 1 := by omega
      simpa [acceptedMem, KernelMemory.storeAcceptIndex, KernelMemory.storePredict,
        hne] using ih hge

theorem acceptedMem_predicts {j i : ℕ} (h : i < j)
    (hinj : ∀ k, k < j → a.retriveIndex pid k = a.retriveIndex pid i → k = i) :
    (a.acceptedMem pid m j).predicts (a.retriveIndex pid i) = a.candidates pid (i + 1) := by
  induction j with
  | zero => exact absurd h (Nat.not_lt_zero i)
  | succ j ih =>
    rcases Nat.lt_or_ge i j with hlt | hge
    · have hne : a.retriveIndex pid i ≠ a.retriveIndex pid j := by
        intro heq
        have := hinj j (Nat.lt_succ_self j) heq.symm
        omega
      rw [← ih hlt fun k hk => hinj k (by omega)]
      simp [acceptedMem, KernelMemory.storeAcceptIndex, KernelMemory.storePredict, hne]
    · obtain rfl : i = j := by omega
      simp [acceptedMem, KernelMemory.storeAcceptIndex, KernelMemory.storePredict]

/-- Cells of other requests are left alone. -/
theorem acceptedMem_frame (j : ℕ) :
    (∀ idx, (∀ k, k < j → a.retriveIndex pid k ≠ idx) →
      (a.acceptedMem pid m j).predicts idx = m.predicts idx) ∧
    (∀ pid', pid' ≠ pid → (a.acceptedMem pid m j).acceptIndex pid' = m.acceptIndex pid') ∧
    (a.acceptedMem pid m j).acceptTokenNum = m.acceptTokenNum := by
  induction j with
  | zero =>
    refine ⟨fun _ _ => rfl, fun pid' hne => ?_, rfl⟩
    simp [acceptedMem, KernelMemory.storeAcceptIndex, hne]
  | succ j ih =>
    obtain ⟨hpred, hidx, hnum⟩ := ih
    refine ⟨fun idx hne => ?_, fun pid' hne => ?_, hnum⟩
    · have hj := hne j (Nat.lt_succ_self j)
      rw [← hpred idx fun k hk => hne k (by omega)]
      simp [acceptedMem, KernelMemory.storeAcceptIndex, KernelMemory.storePredict, Ne.symm hj]
    · rw [← hidx pid' hne]
      simp [acceptedMem, KernelMemory.storeAcceptIndex, KernelMemory.storePredict, hne]

end Stores

/-- The results of request `pid` stand in memory. -/
structure Stored (m : KernelMemory) : Prop where
  num : m.acceptTokenNum pid = a.accepted pid
  index : ∀ i, i ≤ a.accepted pid → m.acceptIndex pid i = a.retriveIndex pid i
  draft : ∀ i, i < a.accepted pid → m.predicts (a.retriveIndex pid i) = a.candidates pid (i + 1)
  final : m.predicts (a.retriveIndex pid (a.accepted pid)) = a.finalToken pid

/-- The slots of a request have their own cells of `Predicts`. -/
def OwnCells : Prop :=
  ∀ i j, i < a.numSlots → j < a.numSlots → a.retriveIndex pid i = a.retriveIndex pid j → i = j

/-- All slots of a batch have their own cells of `Predicts`. -/
def RetriveInjective (batchSize : ℕ) : Prop :=
  ∀ pid i pid' i', pid < batchSize → pid' < batchSize → i < a.numSlots → i' < a.numSlots →
    a.retriveIndex pid i = a.retriveIndex pid' i' → pid = pid' ∧ i = i'

variable {a pid} {batchSize : ℕ}

theorem program_stored (h : 0 < a.numSlots) (hown : a.OwnCells pid) (m : KernelMemory) :
    a.Stored pid (a.program pid m) := by
  have hle := a.accepted_le pid
  have hslots : a.accepted pid < a.numSlots := by unfold numDrafts at hle; omega
  have hframe := a.acceptedMem_frame pid m (a.accepted pid)
  rw [a.program_eq pid m h]
  refine ⟨by simp [KernelMemory.storePredict, KernelMemory.storeAcceptTokenNum],
    fun i hi => a.acceptedMem_acceptIndex pid m hi, fun i hi => ?_,
    by simp [KernelMemory.storePredict]⟩
  have hne : a.retriveIndex pid i ≠ a.retriveIndex pid (a.accepted pid) := by
    intro heq
    have := hown i _ (by omega) hslots heq
    omega
  have hpred := a.acceptedMem_predicts pid m hi fun k hk heq =>
    hown k i (by omega) (by omega) heq
  simpa [KernelMemory.storePredict, KernelMemory.storeAcceptTokenNum, hne] using hpred

/-- A program leaves the results of every other request in place. -/
theorem Stored.program {pid' : ℕ} {m : KernelMemory} (hs : a.Stored pid m) (h : 0 < a.numSlots)
    (hinj : a.RetriveInjective batchSize) (hpid : pid < batchSize) (hpid' : pid' < batchSize)
    (hne : pid ≠ pid') : a.Stored pid (a.program pid' m) := by
  have hslots : ∀ p, a.accepted p < a.numSlots := by
    intro p
    have := a.accepted_le p
    unfold numDrafts at this
    omega
  obtain ⟨hpred, hidx, hnum⟩ := a.acceptedMem_frame pid' m (a.accepted pid')
  have hother : ∀ i, i < a.numSlots → ∀ k, k ≤ a.accepted pid' →
      a.retriveIndex pid' k ≠ a.retriveIndex pid i := by
    intro i hi k hk heq
    have := hslots pid'
    exact hne (hinj pid' k pid i hpid' hpid (by omega) hi heq).1.symm
  have hcell : ∀ i, i ≤ a.accepted pid →
      (a.program pid' m).predicts (a.retriveIndex pid i) = m.predicts (a.retriveIndex pid i) := by
    intro i hi
    have hi' : i < a.numSlots := by
      have := hslots pid
      omega
    rw [a.program_eq pid' m h, ← hpred _ fun k hk => hother i hi' k (by omega)]
    simp [KernelMemory.storePredict, KernelMemory.storeAcceptTokenNum,
      Ne.symm (hother i hi' _ (Nat.le_refl _))]
  refine ⟨?_, fun i hi => ?_, fun i hi => ?_, ?_⟩
  · rw [a.program_eq pid' m h, ← hs.num]
    simp [KernelMemory.storePredict, KernelMemory.storeAcceptTokenNum, hne, hnum]
  · rw [a.program_eq pid' m h, ← hs.index i hi, ← hidx pid hne]
    rfl
  · rw [hcell i hi.le, hs.draft i hi]
  · rw [hcell _ (Nat.le_refl _), hs.final]

/-- **After the launch the results of every request stand in memory.** -/
theorem launch_stored (h : 0 < a.numSlots) (hinj : a.RetriveInjective batchSize) (m : KernelMemory)
    (hpid : pid < batchSize) : a.Stored pid (a.launch batchSize m) := by
  have hrun : ∀ n, n ≤ batchSize → ∀ p, p < n →
      a.Stored p ((List.range n).foldl (fun m pid => a.program pid m) m) := by
    intro n
    induction n with
    | zero => intro _ p hp; exact absurd hp (Nat.not_lt_zero p)
    | succ n ih =>
      intro hn p hp
      rw [List.range_succ, List.foldl_append]
      rcases Nat.lt_or_ge p n with hlt | hge
      · exact (ih (by omega) p hlt).program h hinj (by omega) (by omega) (by omega)
      · obtain rfl : p = n := by omega
        exact program_stored h (fun i j hi hj heq =>
          (hinj p i p j (by omega) (by omega) hi hj heq).2) _
  exact hrun batchSize (Nat.le_refl _) pid hpid

theorem Stored.emitted {m : KernelMemory} (hs : a.Stored pid m) :
    m.emitted pid = (List.range (a.accepted pid)).map (fun i => (a.candidates pid (i + 1)).val) ++
      [a.finalToken pid] := by
  rw [KernelMemory.emitted, hs.num, List.range_succ, List.map_append, List.map_singleton]
  congr 1
  · refine List.map_congr_left fun i hi => ?_
    have hlt := List.mem_range.mp hi
    rw [hs.index i hlt.le, hs.draft i hlt]
  · rw [hs.index _ (Nat.le_refl _), hs.final]

/-! ### The final token -/

variable (a pid)

/-- The row the final token is drawn from: the last target row when every draft was
accepted, else the excess of the rejected slot's target row over its draft row. -/
def weights : Fin V → K :=
  if a.accepted pid = a.numDrafts then a.targetProbs pid (a.accepted pid)
  else ChainLaw.excess (a.targetProbs pid (a.accepted pid)) (a.draftProbs pid (a.accepted pid))

theorem map_laneValue [IsStrictOrderedRing K] (row : ℕ) (all : Bool) :
    (List.range V).map (a.laneValue pid row all) = List.ofFn
      (if all = true then a.targetProbs pid row
        else ChainLaw.excess (a.targetProbs pid row) (a.draftProbs pid row)) := by
  refine List.ext_getElem (by simp) fun v hv _ => ?_
  have hlt : v < V := by simpa using hv
  simp only [List.getElem_map, List.getElem_range, List.getElem_ofFn, laneValue, hlt, dif_pos]
  cases all with
  | true => rfl
  | false =>
    simp only [Bool.false_eq_true, if_false, if_true, ChainLaw.excess]
    split
    · rename_i hpos
      exact (max_eq_left hpos.le).symm
    · rename_i hneg
      exact (max_eq_right (not_lt.mp hneg)).symm

theorem laneValue_of_le (row : ℕ) (all : Bool) {v : ℕ} (h : V ≤ v) :
    a.laneValue pid row all v = 0 := by
  simp [laneValue, not_lt.mpr h]

/-- **The tiled passes are the plain inverse search**: the final token is the least
one whose running weight exceeds the scaled draw, and the last token if there is
none. -/
theorem finalToken_eq [IsStrictOrderedRing K] (hblock : 0 < a.blockV)
    (hlevel : 0 ≤ a.uniformSamplesFinal pid * ∑ v, a.weights pid v) :
    a.finalToken pid = (searchFrom 0 (List.ofFn (a.weights pid))
      (a.uniformSamplesFinal pid * ∑ v, a.weights pid v)).getD (V - 1) := by
  have hrow : (List.range V).map (a.laneValue pid (a.accepted pid)
      (decide (a.accepted pid = a.numDrafts))) = List.ofFn (a.weights pid) := by
    rw [map_laneValue, weights]
    simp only [decide_eq_true_eq]
  have hzero : ∀ v, V ≤ v → a.laneValue pid (a.accepted pid)
      (decide (a.accepted pid = a.numDrafts)) v = 0 := fun v => a.laneValue_of_le pid _ _
  have hsum := tiledSum_eq hblock hzero
  rw [hrow, List.sum_ofFn] at hsum
  have hsearch := (tiledSearch_eq hblock hzero hlevel (V - 1)).1
  rw [hrow] at hsearch
  rw [finalToken, finalSample, hsum]
  exact hsearch

end KernelArgs

end LatentSpec
