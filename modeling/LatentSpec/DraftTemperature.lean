import LatentSpec.LatentspecSampler
import LatentSpec.VerifyTargetProbs

/-! # The temperature of the draft and of its verification

For a sampled batch without top-k and top-p LatentSpec draws its drafts from logits, keeps the
logits and one log-normaliser for each row, and the verification computes `q` from these again.
The draft clamps the temperatures of the batch from below, in the buffer of the captured sampler
(`stageSamplingParams`) as in the eager path; the verification reads them as they are.

`draftLaw_eq` and `draftQ_eq` give both distributions, and `sameQ_iff` says when they are one.
-/
namespace LatentSpec
open Softmax Coins MeasureTheory Categorical

variable {V : ℕ}

/-- `_SAMPLING_EPS` -/
noncomputable def samplingEps : ℝ := 1 / 10 ^ 6

/-- The floor of the draft's temperatures. -/
noncomputable def draftTemperatureFloor : ℝ := 1 / 10 ^ 5

/-- The special cases of `SamplingParams.__post_init__`: the temperature and the `top_k`. -/
noncomputable def postInit (temperature : ℝ) (topK : ℤ) : ℝ × ℤ :=
  let p := if 0 ≤ temperature ∧ temperature < samplingEps then (1, 1) else (temperature, topK)
  (p.1, if p.2 = -1 then (topKAll : ℤ) else p.2)

/-- A batch that is sampled without top-k and top-p, with the logits of its draft and of the
target.  No request was turned greedy: that would have left it with `top_k = 1`. -/
structure SampledBatch (V : ℕ) where
  bs : ℕ
  numDraftPredictions : ℕ
  temperature : ℕ → ℝ
  topK : ℕ → ℤ
  temperature_nonneg : ∀ b, 0 ≤ temperature b
  no_topK : ∀ b, (postInit (temperature b) (topK b)).2 = (topKAll : ℤ)
  draftLogits : ℕ → ℕ → Fin V → ℝ
  targetLogits : ℕ → ℕ → LogitRow V
  vocab_pos : 0 < V

/-- The way a block is drafted: by the sampler captured for `graphBs` requests, whose buffer of
temperatures held `stale`, or by `_sample_latentspec_draft_block`. -/
inductive DraftPath
  | captured (graphBs : ℕ) (stale : ℕ → {t : ℝ // 0 < t})
  | eager

/-- The graph of the captured sampler holds the batch. -/
def DraftPath.Holds (bs : ℕ) : DraftPath → Prop
  | .captured graphBs _ => bs ≤ graphBs
  | .eager => True

namespace SampledBatch
variable (x : SampledBatch V)

/-- `sampling_info.temperatures` -/
noncomputable def infoTemperature (b : ℕ) : ℝ := (postInit (x.temperature b) (x.topK b)).1

/-- A temperature, clamped from below. -/
noncomputable def clampMin (t : ℝ) : {t : ℝ // 0 < t} :=
  ⟨max t draftTemperatureFloor, lt_max_of_lt_right (by norm_num [draftTemperatureFloor])⟩

/-- `stage_sampling_params`: the buffer of temperatures. -/
noncomputable def stageSamplingParams (stale : ℕ → {t : ℝ // 0 < t}) (b : ℕ) : {t : ℝ // 0 < t} :=
  if b < x.bs then clampMin (x.infoTemperature b) else stale b

/-- What the sampler of a path is launched on. -/
noncomputable def sampleArgs (path : DraftPath) (uniforms : ℕ → Set.Ico (0 : ℝ) 1) :
    LogitSampleArgs V ℝ where
  exp := Real.exp
  log := Real.log
  draftLogits row := x.draftLogits (row / x.numDraftPredictions) (row % x.numDraftPredictions)
  temperatures := match path with
    | .captured _ stale => x.stageSamplingParams stale
    | .eager => fun b => clampMin (x.infoTemperature b)
  uniforms := uniforms
  numRows := match path with
    | .captured graphBs _ => graphBs * x.numDraftPredictions
    | .eager => x.bs * x.numDraftPredictions
  rowsPerRequest := x.numDraftPredictions
  blockSize := 4096
  blockSize_pos := by decide

/-- The buffers the draft leaves. -/
noncomputable def drafted (path : DraftPath) (staleStats : LogitStats ℝ) (stale : LogitSamples ℝ)
    (uniforms : ℕ → Set.Ico (0 : ℝ) 1) : LogitSamples ℝ :=
  (x.sampleArgs path uniforms).samples staleStats stale

/-- `accept_sampling_from_logits`: what its kernel is launched on, for the drafts in `samples`. -/
noncomputable def verifyArgs (samples : LogitSamples ℝ) (candidates : ℕ → ℕ → Fin V)
    (retriveIndex : ℕ → ℕ → ℕ) (coins : ℕ → ℕ → ℝ) (coinsFinal : ℕ → ℝ) : LogitsArgs V where
  candidates := candidates
  retriveIndex := retriveIndex
  uniformSamples := coins
  uniformSamplesFinal := coinsFinal
  targetLogits b i := (x.targetLogits b i).score
  draftLogits b i v := (x.draftLogits b i v : WithBot ℝ)
  targetLogNorm b i := logsumexpTemp 4096 (x.infoTemperature b) (x.targetLogits b i).score
  draftLogNorm b i := samples.logNorm (b * x.numDraftPredictions + i)
  temperatures := x.infoTemperature
  numSlots := x.numDraftPredictions + 1
  blockV := 4096

end SampledBatch

/-! ### Both distributions of a slot -/

namespace SampledBatch
variable (x : SampledBatch V)

/-- The probability with which a path drafts a token in a slot: the other rows' draws are fixed,
the row's own is uniform. -/
noncomputable def draftLaw (path : DraftPath) (staleStats : LogitStats ℝ) (stale : LogitSamples ℝ)
    (uniforms : ℕ → Set.Ico (0 : ℝ) 1) (b i : ℕ) (v : Fin V) : ℝ :=
  let row := b * x.numDraftPredictions + i
  unitLaw.real {u |
    (x.drafted path staleStats stale (Function.update uniforms row u)).tokens row = v}

/-- The draft's row of a slot. -/
def draftScores (b i : ℕ) (v : Fin V) : WithBot ℝ := (x.draftLogits b i v : WithBot ℝ)

variable {x} {path : DraftPath} {b i : ℕ}

theorem sampleArgs_row (hpath : path.Holds x.bs) (hb : b < x.bs)
    (hi : i < x.numDraftPredictions) (uniforms : ℕ → Set.Ico (0 : ℝ) 1) :
    b * x.numDraftPredictions + i < (x.sampleArgs path uniforms).numRows ∧
      ∀ v, (x.sampleArgs path uniforms).weight (b * x.numDraftPredictions + i) v =
        expShift 0 (divTemp (clampMin (x.infoTemperature b)) (x.draftScores b i) v) := by
  have hrow : ∀ bs, x.bs ≤ bs → b * x.numDraftPredictions + i < bs * x.numDraftPredictions :=
    fun bs hle => TiledStores.block_lt (hb.trans_le hle) hi
  have htemp : (x.sampleArgs path uniforms).temperatures b = clampMin (x.infoTemperature b) := by
    cases path with
    | captured graphBs stale => exact if_pos hb
    | eager => rfl
  refine ⟨?_, fun v => ?_⟩
  · cases path with
    | captured graphBs stale => exact hrow graphBs hpath
    | eager => exact hrow x.bs le_rfl
  · have hdiv : (b * x.numDraftPredictions + i) / x.numDraftPredictions = b :=
      TiledStores.block_div hi
    have hmod : (b * x.numDraftPredictions + i) % x.numDraftPredictions = i :=
      TiledStores.block_mod hi
    show Real.exp (x.draftLogits _ _ v / ((x.sampleArgs path uniforms).temperatures
      ((b * x.numDraftPredictions + i) / x.numDraftPredictions) : ℝ)) = _
    rw [hdiv, hmod, htemp]
    simp [divTemp, draftScores]

section Laws
variable (hpath : path.Holds x.bs) (hb : b < x.bs) (hi : i < x.numDraftPredictions)
include hpath hb hi

/-- **The distribution drafted from**: the softmax at the clamped temperature. -/
theorem draftLaw_eq (staleStats : LogitStats ℝ) (stale : LogitSamples ℝ)
    (uniforms : ℕ → Set.Ico (0 : ℝ) 1) (v : Fin V) :
    x.draftLaw path staleStats stale uniforms b i v =
      softmax (divTemp (clampMin (x.infoTemperature b)) (x.draftScores b i)) v := by
  set row := b * x.numDraftPredictions + i with hrow
  have hweight : ∀ u, (x.sampleArgs path (Function.update uniforms row u)).weight row =
      fun w => expShift 0 (divTemp (clampMin (x.infoTemperature b)) (x.draftScores b i) w) :=
    fun u => funext (sampleArgs_row hpath hb hi _).2
  have hfinite : HasFinite (divTemp (clampMin (x.infoTemperature b)) (x.draftScores b i)) :=
    hasFinite_divTemp ⟨v, WithBot.coe_ne_bot⟩ _
  have hpos := sum_expShift_pos hfinite 0
  have hset : {u : Set.Ico (0 : ℝ) 1 |
      (x.drafted path staleStats stale (Function.update uniforms row u)).tokens row = v} =
        {u : Set.Ico (0 : ℝ) 1 | searchFrom 0 (List.ofFn fun w =>
          expShift 0 (divTemp (clampMin (x.infoTemperature b)) (x.draftScores b i) w))
            (u * ∑ w, expShift 0 (divTemp (clampMin (x.infoTemperature b)) (x.draftScores b i) w)) =
              some v.val} := by
    ext u
    have hrows := (sampleArgs_row hpath hb hi (Function.update uniforms row u)).1
    rw [← hrow] at hrows
    obtain ⟨t, ht⟩ := LogitSampleArgs.exists_draws expLaw_exp x.vocab_pos hrows staleStats
    have htoken :
        (x.drafted path staleStats stale (Function.update uniforms row u)).tokens row = t :=
      (load_row _ _ hrows).trans ht.token_eq
    have huniform : (x.sampleArgs path (Function.update uniforms row u)).uniforms row = u := by
      show Function.update uniforms row u row = u
      rw [Function.update_self]
    rw [hweight, huniform] at ht
    have hsearch := ht.searchFrom_eq (fun w => expShift_nonneg 0 _) hpos u.2.1
    rw [Set.mem_ofPred_eq, Set.mem_ofPred_eq, htoken, hsearch, Option.some_inj, Nat.cast_inj]
  rw [draftLaw, ← hrow, hset]
  exact unitLaw_real_searchFrom (fun w => expShift_nonneg 0 _) hpos v

/-- **The normaliser it leaves.** -/
theorem drafted_logNorm (staleStats : LogitStats ℝ) (stale : LogitSamples ℝ)
    (uniforms : ℕ → Set.Ico (0 : ℝ) 1) :
    (x.drafted path staleStats stale uniforms).logNorm (b * x.numDraftPredictions + i) =
      logNorm (divTemp (clampMin (x.infoTemperature b)) (x.draftScores b i)) := by
  obtain ⟨hrows, hweight⟩ := sampleArgs_row hpath hb hi uniforms
  refine (load_row _ _ hrows).trans ?_
  rw [LogitSampleArgs.select_logNorm expLaw_exp x.vocab_pos hrows log_exp_mul]
  exact congrArg Real.log (Finset.sum_congr rfl fun v _ => hweight v)

/-- **The distribution verified against**: weights at the temperature of the batch over the
normaliser at the clamped one. -/
theorem draftQ_eq (staleStats : LogitStats ℝ) (stale : LogitSamples ℝ)
    (uniforms : ℕ → Set.Ico (0 : ℝ) 1) (candidates : ℕ → ℕ → Fin V) (retriveIndex : ℕ → ℕ → ℕ)
    (coins : ℕ → ℕ → ℝ) (coinsFinal : ℕ → ℝ) (v : Fin V) :
    (x.verifyArgs (x.drafted path staleStats stale uniforms) candidates retriveIndex coins
        coinsFinal).draftQ b i v =
      Real.exp (x.draftLogits b i v / x.infoTemperature b) /
        ∑ w, expShift 0 (divTemp (clampMin (x.infoTemperature b)) (x.draftScores b i) w) := by
  have hfinite : HasFinite (divTemp (clampMin (x.infoTemperature b)) (x.draftScores b i)) :=
    hasFinite_divTemp ⟨v, WithBot.coe_ne_bot⟩ _
  show expShift ((x.drafted path staleStats stale uniforms).logNorm _) _ = _
  rw [drafted_logNorm hpath hb hi, logNorm]
  show Real.exp (x.draftLogits b i v / x.infoTemperature b - _) = _
  rw [Real.exp_sub, Real.exp_log (sum_expShift_pos hfinite 0)]

end Laws

theorem expShift_draftScores (t : ℝ) (b i : ℕ) (v : Fin V) :
    expShift 0 (divTemp t (x.draftScores b i) v) = Real.exp (x.draftLogits b i v / t) := by
  simp [divTemp, draftScores]

end SampledBatch

/-- A slot has one `q`: what is tested against is a probability distribution, and it is the one that
was drafted from. -/
def SampledBatch.SameQ (x : SampledBatch V) (q : Fin V → ℝ) (path : DraftPath)
    (staleStats : LogitStats ℝ) (stale : LogitSamples ℝ) (uniforms : ℕ → Set.Ico (0 : ℝ) 1)
    (b i : ℕ) : Prop :=
  (∀ v, 0 ≤ q v) ∧ ∑ v, q v = 1 ∧ ∀ v, q v = x.draftLaw path staleStats stale uniforms b i v

section Slot
variable (x : SampledBatch V) (path : DraftPath) (hpath : path.Holds x.bs)
  (staleStats : LogitStats ℝ) (stale : LogitSamples ℝ) (uniforms : ℕ → Set.Ico (0 : ℝ) 1)
  (candidates : ℕ → ℕ → Fin V) (retriveIndex : ℕ → ℕ → ℕ) (coins : ℕ → ℕ → ℝ) (coinsFinal : ℕ → ℝ)
  {b i : ℕ} (hb : b < x.bs) (hi : i < x.numDraftPredictions)
include hpath hb hi

/-- Both are weights over one normaliser: all that counts is the temperature of the weights. -/
theorem sameQ_iff_div :
    x.SameQ ((x.verifyArgs (x.drafted path staleStats stale uniforms) candidates retriveIndex coins
        coinsFinal).draftQ b i) path staleStats stale uniforms b i ↔
      ∀ v, x.draftLogits b i v / x.infoTemperature b =
        x.draftLogits b i v / (SampledBatch.clampMin (x.infoTemperature b) : ℝ) := by
  have hq := SampledBatch.draftQ_eq hpath hb hi staleStats stale uniforms candidates retriveIndex
    coins coinsFinal
  have hlaw := SampledBatch.draftLaw_eq hpath hb hi staleStats stale uniforms
  have hfinite : HasFinite (divTemp (SampledBatch.clampMin (x.infoTemperature b))
      (x.draftScores b i)) := hasFinite_divTemp ⟨⟨0, x.vocab_pos⟩, WithBot.coe_ne_bot⟩ _
  have hpos := sum_expShift_pos hfinite 0
  have hiff : ∀ v, (x.verifyArgs (x.drafted path staleStats stale uniforms) candidates retriveIndex
      coins coinsFinal).draftQ b i v = x.draftLaw path staleStats stale uniforms b i v ↔
      x.draftLogits b i v / x.infoTemperature b =
        x.draftLogits b i v / (SampledBatch.clampMin (x.infoTemperature b) : ℝ) := by
    intro v
    rw [hlaw, softmax, SampledBatch.expShift_draftScores, hq, div_left_inj' hpos.ne',
      Real.exp_eq_exp]
  unfold SampledBatch.SameQ
  constructor
  · rintro ⟨-, -, heq⟩ v
    exact (hiff v).mp (heq v)
  · intro hdiv
    have hsoft : ∀ v, (x.verifyArgs (x.drafted path staleStats stale uniforms) candidates
        retriveIndex coins coinsFinal).draftQ b i v =
        softmax (divTemp (SampledBatch.clampMin (x.infoTemperature b)) (x.draftScores b i)) v :=
      fun v => ((hiff v).mpr (hdiv v)).trans (hlaw v)
    refine ⟨fun v => ?_, ?_, fun v => (hiff v).mpr (hdiv v)⟩
    · rw [hsoft]
      exact softmax_nonneg v
    · rw [Finset.sum_congr rfl fun v _ => hsoft v]
      exact sum_softmax hfinite

/-- **Draft sampling and verification use the same `q`** in a slot of a batch exactly when the
request's temperature is not below the draft's floor, or all draft logits of the slot are zero. -/
theorem sameQ_iff :
    x.SameQ ((x.verifyArgs (x.drafted path staleStats stale uniforms) candidates retriveIndex coins
        coinsFinal).draftQ b i) path staleStats stale uniforms b i ↔
      draftTemperatureFloor ≤ x.infoTemperature b ∨ ∀ v, x.draftLogits b i v = 0 := by
  rw [sameQ_iff_div x path hpath staleStats stale uniforms candidates retriveIndex coins coinsFinal
    hb hi]
  constructor
  · intro hdiv
    by_contra hnot
    rw [not_or, not_le, not_forall] at hnot
    obtain ⟨hlow, v, hv⟩ := hnot
    have hclamp : (SampledBatch.clampMin (x.infoTemperature b) : ℝ) = draftTemperatureFloor :=
      max_eq_right hlow.le
    have heq := hdiv v
    rw [hclamp, div_eq_mul_inv, div_eq_mul_inv] at heq
    exact hlow.ne (inv_injective (mul_left_cancel₀ hv heq))
  · rintro (hhigh | hzero) v
    · have hclamp : (SampledBatch.clampMin (x.infoTemperature b) : ℝ) = x.infoTemperature b :=
        max_eq_left hhigh
      rw [hclamp]
    · rw [hzero v, zero_div, zero_div]

end Slot

/-- One request with the given temperature, one draft, and logits one and zero. -/
noncomputable def oneRequest (t : ℝ) (ht : samplingEps ≤ t) : SampledBatch 2 where
  bs := 1
  numDraftPredictions := 1
  temperature _ := t
  topK _ := topKAll
  temperature_nonneg _ := le_trans (by norm_num [samplingEps]) ht
  no_topK _ := by
    unfold postInit
    rw [if_neg fun h => not_lt.mpr ht h.2]
    norm_num [topKAll]
  draftLogits _ _ v := if v.val = 0 then 1 else 0
  targetLogits _ _ := ⟨fun _ => ((0 : ℝ) : WithBot ℝ), ⟨0, WithBot.coe_ne_bot⟩⟩
  vocab_pos := Nat.two_pos

theorem oneRequest_infoTemperature (t : ℝ) (ht : samplingEps ≤ t) (b : ℕ) :
    (oneRequest t ht).infoTemperature b = t := by
  show (postInit t topKAll).1 = t
  unfold postInit
  rw [if_neg fun h => not_lt.mpr ht h.2]

/-- What the draft's buffers and the kernel's draws are taken to be below. -/
noncomputable def oneRequestQ (x : SampledBatch 2) (path : DraftPath) : Fin 2 → ℝ :=
  (x.verifyArgs (x.drafted path ⟨fun _ => ⊥, fun _ => 0⟩ ⟨fun _ => 0, fun _ => 0⟩
    fun _ => default) (fun _ _ => 0) (fun _ i => i) (fun _ _ => 0) fun _ => 0).draftQ 0 0

/-- At temperature one the request is verified against what it was drafted from. -/
theorem sameQ_one : (oneRequest 1 (by norm_num [samplingEps])).SameQ
    (oneRequestQ (oneRequest 1 (by norm_num [samplingEps])) .eager) .eager
    ⟨fun _ => ⊥, fun _ => 0⟩ ⟨fun _ => 0, fun _ => 0⟩ (fun _ => default) 0 0 := by
  have hwarm : draftTemperatureFloor ≤
      (oneRequest 1 (by norm_num [samplingEps])).infoTemperature 0 := by
    rw [oneRequest_infoTemperature]
    norm_num [draftTemperatureFloor]
  exact (sameQ_iff _ .eager trivial _ _ _ _ _ _ _ Nat.one_pos Nat.one_pos).mpr (.inl hwarm)

/-- At temperature `5e-6` it is not, drafted by either sampler. -/
theorem not_sameQ_low :
    ¬ (oneRequest (5 / 10 ^ 6) (by norm_num [samplingEps])).SameQ
      (oneRequestQ (oneRequest (5 / 10 ^ 6) (by norm_num [samplingEps])) .eager) .eager
      ⟨fun _ => ⊥, fun _ => 0⟩ ⟨fun _ => 0, fun _ => 0⟩ (fun _ => default) 0 0 ∧
    ¬ (oneRequest (5 / 10 ^ 6) (by norm_num [samplingEps])).SameQ
      (oneRequestQ (oneRequest (5 / 10 ^ 6) (by norm_num [samplingEps]))
        (.captured 1 fun _ => ⟨1, one_pos⟩)) (.captured 1 fun _ => ⟨1, one_pos⟩)
      ⟨fun _ => ⊥, fun _ => 0⟩ ⟨fun _ => 0, fun _ => 0⟩ (fun _ => default) 0 0 := by
  have hdiff : ¬ ∀ v, (oneRequest (5 / 10 ^ 6) (by norm_num [samplingEps])).draftLogits 0 0 v /
      (oneRequest (5 / 10 ^ 6) (by norm_num [samplingEps])).infoTemperature 0 =
        (oneRequest (5 / 10 ^ 6) (by norm_num [samplingEps])).draftLogits 0 0 v /
          (SampledBatch.clampMin ((oneRequest (5 / 10 ^ 6) (by norm_num
            [samplingEps])).infoTemperature 0) : ℝ) := by
    intro hall
    have hzero := hall 0
    rw [oneRequest_infoTemperature] at hzero
    norm_num [oneRequest, SampledBatch.clampMin, draftTemperatureFloor] at hzero
  refine ⟨fun h => hdiff ?_, fun h => hdiff ?_⟩
  · exact (sameQ_iff_div _ .eager trivial _ _ _ _ _ _ _ Nat.one_pos Nat.one_pos).mp h
  · exact (sameQ_iff_div _ (.captured 1 _) le_rfl _ _ _ _ _ _ _ Nat.one_pos Nat.one_pos).mp h

end LatentSpec
