import LatentSpec.DflashAccept
import LatentSpec.RejectSampling
import LatentSpec.Sampling

/-! # Capped verification of DSpark

DSpark may verify only the first `verify_lens` slots of a request's window.  The target's
rows of these slots come back packed and are scattered to the full window of
`verify_num_draft_tokens` rows, the others being filled; the accept kernels run over the
whole window, and the accepted length is capped afterwards (`cap_correct_len`), with the
bonus gathered again at the cap.

A request is accepted greedily or by the chain kernel, chosen row by row.  Two facts carry
the module: a capped greedy acceptance is that of the block cut at `verify_lens`
(`acceptLen_cut`), and a capped sampled acceptance is a prefix of what the chain kernel
emits (`acceptSampling_run`), which looks at no row beyond the cap (`AgreeUpTo.take_eq`).
-/
namespace LatentSpec
open LeadingRun TiledStores

variable {V : ℕ} {K : Type}

/-- A window of rows to accept: tokens, drafts and target logits by request and slot. -/
structure VerifyBatch (V : ℕ) (K : Type) where
  bs : ℕ
  stride : ℕ
  candidates : ℕ → ℕ → Fin V
  draftTokens : ℕ → ℕ → Fin V
  targetLogits : ℕ → ℕ → Fin V → K
  prefixLens : ℕ → ℕ
  cutoffVerifyLens : Option (ℕ → ℕ)

/-- What sampled acceptance takes besides: the greedy requests, the map from logits to
probabilities of each request, the draft rows, the draws and the reused kernel buffers. -/
structure SamplingInputs (V : ℕ) (K : Type) where
  greedyMask : ℕ → Bool
  rowProbs : ℕ → (Fin V → K) → Fin V → K
  draftProbs : ℕ → ℕ → Fin V → K
  uniformSamples : ℕ → ℕ → K
  uniformSamplesFinal : ℕ → K
  blockV : ℕ
  buffers : KernelMemory

/-- What an accept rule returns for one request. -/
structure AcceptLens where
  correctLen : ℕ
  bonus : ℤ
  capTrimLens : ℕ
  deriving DecidableEq, Repr

/-- `AcceptOuts` of one request. -/
structure AcceptOuts where
  correctLen : ℕ
  bonus : ℤ
  capTrimLens : ℕ
  commitLens : ℕ
  newSeqLens : ℕ
  outTokens : List ℤ
  deriving DecidableEq, Repr

/-- The tokens a request commits. -/
def AcceptOuts.committed (o : AcceptOuts) : List ℤ := o.outTokens.take o.commitLens

/-! ### From packed rows to the window -/

/-- `_scatter_compact_to_strided_kernel`, output row `o`. -/
def scatterCompactToStrided {α : Type} (compact : ℕ → α) (verifyLens : ℕ → ℕ) (fillValue : α)
    (stride o : ℕ) : α :=
  let i := o / stride
  let w := o % stride
  if w < verifyLens i then compact (offset verifyLens i + w) else fillValue

theorem scatterCompactToStrided_row {α : Type} (compact : ℕ → α) (verifyLens : ℕ → ℕ)
    (fillValue : α) {stride b j : ℕ} (hj : j < stride) :
    scatterCompactToStrided compact verifyLens fillValue stride (b * stride + j) =
      if j < verifyLens b then compact (offset verifyLens b + j) else fillValue := by
  simp only [scatterCompactToStrided, block_div hj, block_mod hj]

/-- `cap_correct_len`, for a verify length of at least one: the capped length and what was
trimmed. -/
def capCorrectLen (correctLen verifyLen : ℕ) : ℕ × ℕ :=
  let capped := min correctLen (verifyLen - 1)
  (capped, correctLen - capped)

namespace VerifyBatch
variable (w : VerifyBatch V K)

/-- `run_compact`: the window's logits scattered from the packed rows. -/
def runCompact (compactLogits : ℕ → Fin V → K) (verifyLens : ℕ → ℕ) (fillValue : Fin V → K) :
    VerifyBatch V K :=
  { w with
    targetLogits := fun b j =>
      scatterCompactToStrided compactLogits verifyLens fillValue w.stride (b * w.stride + j)
    cutoffVerifyLens := some verifyLens }

/-- The cap of an accept rule, if the batch has one. -/
def cap (correctLen b : ℕ) : ℕ × ℕ :=
  match w.cutoffVerifyLens with
  | none => (correctLen, 0)
  | some verifyLens => capCorrectLen correctLen (verifyLens b)

section Greedy
variable [LinearOrder K] [NeZero V]

/-- The window as a greedy block. -/
def greedyBlock : GreedyBlock where
  candidates b i := (w.candidates b i).val
  targetPredict b i := (argmax (w.targetLogits b i)).val
  prefixLens := w.prefixLens
  blockSize := w.stride

/-- `accept_greedy`. -/
def acceptGreedy (b : ℕ) : AcceptLens :=
  let capped := w.cap (w.greedyBlock.correctLenTorch b) b
  { correctLen := capped.1
    bonus := w.greedyBlock.targetPredict b capped.1
    capTrimLens := capped.2 }

/-- `gather_row_bonus_triton`; `out` is the uninitialised output. -/
def gatherRowBonusTriton (table : ℕ → ℕ → ℤ) (idx : ℕ → ℕ) (out : ℕ → ℤ) : ℕ → ℤ :=
  writeAll out ((tiles 256 w.bs).map fun offs => (offs, table offs (idx offs)))

/-- `accept_greedy_triton`. -/
def acceptGreedyTriton (out : ℕ → ℤ) (b : ℕ) : AcceptLens :=
  let capped := fun b => w.cap (w.greedyBlock.correctLenFused b) b
  { correctLen := (capped b).1
    bonus := match w.cutoffVerifyLens with
      | none => w.greedyBlock.targetPredict b (capped b).1
      | some _ =>
        w.gatherRowBonusTriton w.greedyBlock.targetPredict (fun b => (capped b).1) out b
    capTrimLens := (capped b).2 }

end Greedy

section Sampling
variable [Field K] [LinearOrder K] (σ : SamplingInputs V K)

/-- What the chain kernel is launched on: `retrieve_index` numbers the slots of the
batch. -/
def kernelArgs : KernelArgs V K where
  candidates := w.candidates
  retriveIndex b i := b * w.stride + i
  uniformSamples := σ.uniformSamples
  uniformSamplesFinal := σ.uniformSamplesFinal
  targetProbs b i := σ.rowProbs b (w.targetLogits b i)
  draftProbs := σ.draftProbs
  numSlots := w.stride
  blockV := σ.blockV

/-- `_accept_sampling_core` and the two-level gather of the bonus. -/
def acceptSampling (b : ℕ) : AcceptLens :=
  let mem := (w.kernelArgs σ).launch w.bs σ.buffers
  let capped := w.cap (mem.acceptTokenNum b) b
  { correctLen := capped.1
    bonus := mem.predicts (mem.acceptIndex b capped.1)
    capTrimLens := capped.2 }

variable [NeZero V]

/-- `accept_draft_tokens`. -/
def acceptDraftTokens (b : ℕ) : AcceptLens :=
  if (List.range w.bs).all σ.greedyMask then w.acceptGreedy b
  else if !(List.range w.bs).any σ.greedyMask then w.acceptSampling σ b
  else if σ.greedyMask b then w.acceptGreedy b else w.acceptSampling σ b

/-- `build_out_tokens`: the drafts and a zero, with the bonus put at the accept boundary. -/
def buildOutTokens (correctLen : ℕ) (bonus : ℤ) (b : ℕ) : List ℤ :=
  (((List.range (w.stride - 1)).map fun i => ((w.draftTokens b i).val : ℤ)) ++ [0]).set
    correctLen bonus

/-- **`accept_and_finalize`**, with `finalize_accept_lens`. -/
def acceptAndFinalize (b : ℕ) : AcceptOuts :=
  let accepted := w.acceptDraftTokens σ b
  { correctLen := accepted.correctLen
    bonus := accepted.bonus
    capTrimLens := accepted.capTrimLens
    commitLens := accepted.correctLen + 1
    newSeqLens := w.prefixLens b + (accepted.correctLen + 1)
    outTokens := w.buildOutTokens accepted.correctLen accepted.bonus b }

end Sampling

/-! ### One request of the batch -/

section Requests
variable [Field K] [LinearOrder K] [NeZero V] (σ : SamplingInputs V K) {b : ℕ}

theorem acceptDraftTokens_eq (hb : b < w.bs) :
    w.acceptDraftTokens σ b =
      if σ.greedyMask b then w.acceptGreedy b else w.acceptSampling σ b := by
  have hmem : b ∈ List.range w.bs := List.mem_range.mpr hb
  unfold acceptDraftTokens
  by_cases hall : (List.range w.bs).all σ.greedyMask
  · rw [if_pos hall, if_pos (List.all_eq_true.mp hall b hmem)]
  · rw [if_neg hall]
    by_cases hany : (List.range w.bs).any σ.greedyMask
    · rw [if_neg (by simp [hany])]
    · have hmask : ¬ σ.greedyMask b := fun h => hany (List.any_eq_true.mpr ⟨b, hmem, h⟩)
      rw [if_pos (by simpa using hany), if_neg hmask]

theorem committed_eq (h : (w.acceptDraftTokens σ b).correctLen < w.stride) :
    (w.acceptAndFinalize σ b).committed =
      ((List.range (w.acceptDraftTokens σ b).correctLen).map fun i =>
        ((w.draftTokens b i).val : ℤ)) ++ [(w.acceptDraftTokens σ b).bonus] := by
  set c := (w.acceptDraftTokens σ b).correctLen with hc
  show (w.buildOutTokens c (w.acceptDraftTokens σ b).bonus b).take (c + 1) = _
  have hlen : c < (((List.range (w.stride - 1)).map fun i => ((w.draftTokens b i).val : ℤ)) ++
      [0]).length := by
    simp only [List.length_append, List.length_map, List.length_range, List.length_singleton]
    omega
  rw [buildOutTokens, List.take_add_one, List.getElem?_set_self hlen, List.take_set_of_le le_rfl,
    List.take_append_of_le_length (by simp; omega), ← List.map_take, List.take_range,
    Nat.min_eq_left (by omega)]
  rfl

end Requests

/-- **A capped request**: it has a verify length between one and the window, and the
verified candidates are its drafts. -/
structure Capped (verifyLens : ℕ → ℕ) (b : ℕ) : Prop where
  mem : b < w.bs
  cutoff : w.cutoffVerifyLens = some verifyLens
  pos : 1 ≤ verifyLens b
  le : verifyLens b ≤ w.stride
  drafts : ∀ i, i + 1 < verifyLens b → w.candidates b (i + 1) = w.draftTokens b i

variable {w} in
theorem Capped.cap_eq {verifyLens : ℕ → ℕ} {b : ℕ} (h : w.Capped verifyLens b) (correctLen : ℕ) :
    w.cap correctLen b = (min correctLen (verifyLens b - 1),
      correctLen - min correctLen (verifyLens b - 1)) := by
  rw [cap, h.cutoff]
  rfl

end VerifyBatch

/-! ### Greedy requests -/

namespace GreedyBlock

/-- The block cut after its first `n` columns. -/
def cut (g : GreedyBlock) (n : ℕ) : GreedyBlock := { g with blockSize := n }

/-- **Capping is cutting**: the accepted length of the cut block. -/
theorem acceptLen_cut (g : GreedyBlock) {n : ℕ} (hn : n ≤ g.blockSize) (b : ℕ) :
    (g.cut n).acceptLen b = min (g.acceptLen b) (n - 1) := by
  rw [acceptLen, acceptLen, ← leadingRun_take, ← List.map_take, List.take_range,
    Nat.min_eq_left (Nat.sub_le_sub_right hn 1)]
  rfl

/-- A cut block looks at nothing beyond its columns. -/
theorem acceptLen_cut_congr {g g' : GreedyBlock} {n b : ℕ}
    (hcandidates : ∀ i < n, g'.candidates b i = g.candidates b i)
    (htarget : ∀ i < n, g'.targetPredict b i = g.targetPredict b i) :
    (g'.cut n).acceptLen b = (g.cut n).acceptLen b := by
  refine congrArg leadingRun (List.map_congr_left fun i hi => ?_)
  have hi' : i < n - 1 := List.mem_range.mp hi
  show decide (g'.candidates b (i + 1) = g'.targetPredict b i) =
    decide (g.candidates b (i + 1) = g.targetPredict b i)
  rw [hcandidates (i + 1) (by omega), htarget i (by omega)]

end GreedyBlock

namespace VerifyBatch
variable {w : VerifyBatch V K} {verifyLens : ℕ → ℕ} {b : ℕ} (h : w.Capped verifyLens b)

section Greedy
variable [LinearOrder K] [NeZero V]

/-- The fused rule with its gather is the torch rule. -/
theorem acceptGreedyTriton_eq (hb : b < w.bs) (out : ℕ → ℤ) :
    w.acceptGreedyTriton out b = w.acceptGreedy b := by
  have hlen : w.greedyBlock.correctLenFused b = w.greedyBlock.correctLenTorch b := by
    rw [GreedyBlock.correctLenFused_eq, GreedyBlock.correctLenTorch_eq]
  have hgather : ∀ table idx, w.gatherRowBonusTriton table idx out b = table b (idx b) := by
    intro table idx
    rw [gatherRowBonusTriton, tiles_eq_range (by decide)]
    refine writeAll_of_mem _ (.inr ?_) fun w hw hloc => ?_
    · exact List.mem_map.mpr ⟨_, List.mem_map.mpr ⟨b, List.mem_range.mpr hb, rfl⟩, rfl⟩
    · obtain ⟨offs, -, rfl⟩ := List.mem_map.mp hw
      obtain rfl : offs = b := hloc
      rfl
  unfold acceptGreedyTriton acceptGreedy
  simp only [hlen, hgather]
  refine congrArg₂ (AcceptLens.mk _) ?_ rfl
  split <;> rfl

include h

theorem Capped.acceptGreedy_correctLen :
    (w.acceptGreedy b).correctLen = (w.greedyBlock.cut (verifyLens b)).acceptLen b := by
  rw [w.greedyBlock.acceptLen_cut h.le, acceptGreedy, h.cap_eq, GreedyBlock.correctLenTorch_eq]

/-- What a greedy request commits is the target's row up to the capped boundary. -/
theorem Capped.acceptGreedy_run :
    ((List.range (w.acceptGreedy b).correctLen).map fun i => ((w.draftTokens b i).val : ℤ)) ++
        [(w.acceptGreedy b).bonus] =
      (List.range ((w.acceptGreedy b).correctLen + 1)).map (w.greedyBlock.targetPredict b) := by
  have hle := (w.greedyBlock.cut (verifyLens b)).acceptLen_le b
  rw [List.range_succ, List.map_append, List.map_singleton]
  refine congrArg₂ (· ++ ·) (List.map_congr_left fun i hi => ?_) rfl
  have hi' := List.mem_range.mp hi
  rw [h.acceptGreedy_correctLen] at hi'
  have hcut : i + 1 < verifyLens b := by
    have : (w.greedyBlock.cut (verifyLens b)).blockSize = verifyLens b := rfl
    omega
  rw [← h.drafts i hcut]
  exact (w.greedyBlock.cut (verifyLens b)).acceptLen_match b hi'

end Greedy

end VerifyBatch

/-! ### Sampled requests -/

namespace KernelArgs
variable [Field K] [LinearOrder K]

/-- The tokens request `pid` emits: its accepted drafts and the final token. -/
def emittedRun (a : KernelArgs V K) (pid : ℕ) : List ℕ :=
  ((List.range (a.accepted pid)).map fun i => (a.candidates pid (i + 1)).val) ++ [a.finalToken pid]

/-- Two requests with the same slots up to `ℓ`. -/
structure AgreeUpTo (ℓ : ℕ) (a : KernelArgs V K) (pid : ℕ) (a' : KernelArgs V K) (pid' : ℕ) :
    Prop where
  numSlots : a'.numSlots = a.numSlots
  blockV : a'.blockV = a.blockV
  final : a'.uniformSamplesFinal pid' = a.uniformSamplesFinal pid
  target : ∀ i ≤ ℓ, i < a.numSlots → a'.targetProbs pid' i = a.targetProbs pid i
  candidates : ∀ i ≤ ℓ, i + 1 < a.numSlots → a'.candidates pid' (i + 1) = a.candidates pid (i + 1)
  draft : ∀ i ≤ ℓ, i + 1 < a.numSlots → a'.draftProbs pid' i = a.draftProbs pid i
  coins : ∀ i ≤ ℓ, i + 1 < a.numSlots → a'.uniformSamples pid' i = a.uniformSamples pid i

/-- A capped run: the accepted drafts below the cap, then the final token, or the draft at
the cap if it was accepted too. -/
theorem take_emittedRun (a : KernelArgs V K) (pid ℓ : ℕ) :
    (a.emittedRun pid).take (ℓ + 1) =
      ((List.range (min (a.accepted pid) ℓ)).map fun i => (a.candidates pid (i + 1)).val) ++
        [if a.accepted pid ≤ ℓ then a.finalToken pid else (a.candidates pid (ℓ + 1)).val] := by
  rw [emittedRun]
  by_cases hle : a.accepted pid ≤ ℓ
  · rw [if_pos hle, Nat.min_eq_left hle, List.take_of_length_le]
    simp only [List.length_append, List.length_map, List.length_range, List.length_singleton]
    omega
  · rw [if_neg hle, Nat.min_eq_right (by omega), List.take_append_of_le_length
      (by rw [List.length_map, List.length_range]; omega), ← List.map_take, List.take_range,
      Nat.min_eq_left (by omega), List.range_succ, List.map_append, List.map_singleton]

variable {a a' : KernelArgs V K} {pid pid' ℓ : ℕ} (h : AgreeUpTo ℓ a pid a' pid')
include h

theorem AgreeUpTo.min_accepted : min (a'.accepted pid') (ℓ + 1) = min (a.accepted pid) (ℓ + 1) := by
  rw [accepted, accepted, ← leadingRun_take, ← leadingRun_take, ← List.map_take, ← List.map_take,
    List.take_range, List.take_range, numDrafts, numDrafts, h.numSlots]
  refine congrArg leadingRun (List.map_congr_left fun i hi => ?_)
  have hi' := List.mem_range.mp hi
  rw [passes, passes, h.candidates i (by omega) (by omega), h.draft i (by omega) (by omega),
    h.coins i (by omega) (by omega), h.target i (by omega) (by omega)]

theorem AgreeUpTo.finalToken_eq (hslots : 0 < a.numSlots) (hle : a.accepted pid ≤ ℓ) :
    a'.finalToken pid' = a.finalToken pid := by
  have hmin := h.min_accepted
  have hacc : a'.accepted pid' = a.accepted pid := by omega
  have hbound := a.accepted_le pid
  have hdrafts : a'.numDrafts = a.numDrafts := by rw [numDrafts, numDrafts, h.numSlots]
  have hrow : a.accepted pid < a.numSlots := by
    unfold numDrafts at hbound
    omega
  -- the final row is the last target row, or a residual at a slot that has a draft
  have hlane : a'.laneValue pid' (a.accepted pid) (decide (a.accepted pid = a.numDrafts)) =
      a.laneValue pid (a.accepted pid) (decide (a.accepted pid = a.numDrafts)) := by
    funext v
    unfold laneValue
    rw [h.target _ hle hrow]
    by_cases hall : a.accepted pid = a.numDrafts
    · simp [hall]
    · rw [h.draft _ hle (by unfold numDrafts at hbound hall; omega)]
  rw [finalToken, finalToken, hacc, hdrafts, finalSample, finalSample, hlane, h.blockV, h.final]

/-- **A capped run looks at no slot beyond the cap.** -/
theorem AgreeUpTo.take_eq (hslots : 0 < a.numSlots) :
    (a'.emittedRun pid').take (ℓ + 1) = (a.emittedRun pid).take (ℓ + 1) := by
  have hmin := h.min_accepted
  have hbound := a.accepted_le pid
  rw [take_emittedRun, take_emittedRun]
  refine congrArg₂ (· ++ ·) ?_ ?_
  · rw [show min (a'.accepted pid') ℓ = min (a.accepted pid) ℓ by omega]
    refine List.map_congr_left fun i hi => ?_
    have hi' := List.mem_range.mp hi
    rw [h.candidates i (by omega) (by unfold numDrafts at hbound; omega)]
  · by_cases hle : a.accepted pid ≤ ℓ
    · rw [if_pos hle, if_pos (by omega), h.finalToken_eq hslots hle]
    · rw [if_neg hle, if_neg (by omega),
        h.candidates ℓ le_rfl (by unfold numDrafts at hbound; omega)]

end KernelArgs

namespace VerifyBatch
variable [Field K] [LinearOrder K] {w : VerifyBatch V K} {verifyLens : ℕ → ℕ} {b : ℕ}

omit [Field K] [LinearOrder K] in
/-- `retrieve_index` gives every slot of the batch its own cell. -/
theorem retriveInjective (w : VerifyBatch V K) (σ : SamplingInputs V K) :
    (w.kernelArgs σ).RetriveInjective w.bs := by
  intro pid i pid' i' _ _ hi hi' heq
  exact block_inj hi hi' heq

/-- **A capped sampled acceptance is a prefix of what the chain kernel emits.** -/
theorem Capped.acceptSampling_run (h : w.Capped verifyLens b) (σ : SamplingInputs V K) :
    (w.acceptSampling σ b).correctLen =
        min ((w.kernelArgs σ).accepted b) (verifyLens b - 1) ∧
      ((List.range (w.acceptSampling σ b).correctLen).map fun i => ((w.draftTokens b i).val : ℤ)) ++
          [(w.acceptSampling σ b).bonus] =
        (((w.kernelArgs σ).emittedRun b).take (verifyLens b)).map Nat.cast := by
  have hpos := h.pos
  have hstride : 0 < (w.kernelArgs σ).numSlots := lt_of_lt_of_le h.pos h.le
  have hstored := KernelArgs.launch_stored hstride (w.retriveInjective σ) σ.buffers h.mem
  obtain ⟨ℓ, hℓ⟩ : ∃ ℓ, verifyLens b = ℓ + 1 := ⟨verifyLens b - 1, by omega⟩
  have hlen : (w.acceptSampling σ b).correctLen = min ((w.kernelArgs σ).accepted b) ℓ := by
    rw [acceptSampling, h.cap_eq, hstored.num, hℓ, Nat.add_sub_cancel]
  have hbonus : (w.acceptSampling σ b).bonus =
      ((if (w.kernelArgs σ).accepted b ≤ ℓ then (w.kernelArgs σ).finalToken b
        else (w.candidates b (ℓ + 1)).val : ℕ) : ℤ) := by
    have hgather : (w.acceptSampling σ b).bonus =
        ((w.kernelArgs σ).launch w.bs σ.buffers).predicts
          (((w.kernelArgs σ).launch w.bs σ.buffers).acceptIndex b
            (min ((w.kernelArgs σ).accepted b) ℓ)) := by
      rw [← hlen]
      rfl
    rw [hgather, hstored.index _ (min_le_left _ _)]
    by_cases hle : (w.kernelArgs σ).accepted b ≤ ℓ
    · rw [if_pos hle, Nat.min_eq_left hle, hstored.final]
    · rw [if_neg hle, Nat.min_eq_right (by omega), hstored.draft ℓ (by omega)]
      rfl
  refine ⟨by rw [hlen, hℓ, Nat.add_sub_cancel], ?_⟩
  rw [hlen, hbonus, hℓ, KernelArgs.take_emittedRun, List.map_append, List.map_map,
    List.map_singleton]
  refine congrArg₂ (· ++ ·) (List.map_congr_left fun i hi => ?_) rfl
  have hi' := List.mem_range.mp hi
  rw [← h.drafts i (by omega)]
  rfl

end VerifyBatch

end LatentSpec
