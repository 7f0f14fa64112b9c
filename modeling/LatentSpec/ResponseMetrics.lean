import Mathlib.Data.List.GetD
import Mathlib.Tactic.Positivity
import LatentSpec.DecodingStatistics
import LatentSpec.TiledStores

/-! # Decoding metrics over all ranks

`run_dataset` gives every rank the samples of a stride, `allreduce_response_metrics` adds the
records of their rounds up and then the ranks, and `build_metrics_row` derives the reported
rates (`deepspec/eval/base_evaluator.py`).  `summaryOf` is the summary of a list of records
without the loops.
-/
namespace LatentSpec
open StreamSegments TiledStores

/-! ### Adding up -/

/-- What `allreduce_response_metrics` reads of a response, `none` where the attribute is missing. -/
structure Response where
  acceptanceLengths : Option (List ℕ)
  proposalLengths : Option (List ℕ)
  acceptedDraftLengths : Option (List ℕ)

/-- A sample as a response. -/
def DecodingSample.response {V : ℕ} (sample : DecodingSample V) : Response where
  acceptanceLengths := some sample.acceptanceLengths
  proposalLengths := some sample.proposalLengths
  acceptedDraftLengths := some sample.acceptedDraftLengths

/-- `metric_summary` -/
structure MetricSummary where
  sampleCount : ℕ
  proposalCount : ℕ
  acceptanceLengthSum : ℕ
  proposalLengthSum : ℕ
  proposalsAtPos : List ℕ
  acceptedAtPos : List ℕ

namespace MetricSummary

/-- The summary before the loop. -/
def init (maxProposalTokens sampleCount : ℕ) : MetricSummary where
  sampleCount := sampleCount
  proposalCount := 0
  acceptanceLengthSum := 0
  proposalLengthSum := 0
  proposalsAtPos := List.replicate maxProposalTokens 0
  acceptedAtPos := List.replicate maxProposalTokens 0

/-- The body of the inner loop. -/
def addRecord (m : MetricSummary) (r : RoundRecord) : MetricSummary where
  sampleCount := m.sampleCount
  proposalCount := m.proposalCount + 1
  acceptanceLengthSum := m.acceptanceLengthSum + r.acceptanceLength
  proposalLengthSum := m.proposalLengthSum + r.proposalLength
  proposalsAtPos := m.proposalsAtPos.mapIdx fun posIdx count =>
    if r.proposalLength > posIdx then count + 1 else count
  acceptedAtPos := m.acceptedAtPos.mapIdx fun posIdx count =>
    if r.acceptedDraftLength > posIdx then count + 1 else count

/-- The body of the outer loop. -/
def addResponse (m : MetricSummary) (response : Response) : Except String MetricSummary :=
  match response.acceptanceLengths, response.proposalLengths, response.acceptedDraftLengths with
  | some acceptanceLengths, some proposalLengths, some acceptedDraftLengths =>
    if acceptanceLengths.length = proposalLengths.length ∧
        proposalLengths.length = acceptedDraftLengths.length then
      .ok ((zipRecords acceptanceLengths proposalLengths acceptedDraftLengths).foldl addRecord m)
    else
      .error ("acceptance_lengths, proposal_lengths and accepted_draft_lengths " ++
        "must have the same length.")
  | _, _, _ => .ok m

end MetricSummary

/-- What one rank has before the reduction. -/
def localMetrics (maxProposalTokens : ℕ) (responses : List Response) :
    Except String MetricSummary :=
  responses.foldlM MetricSummary.addResponse (.init maxProposalTokens responses.length)

/-- `dist.all_reduce(tensor, op=dist.ReduceOp.SUM)` for tensors of `size` entries. -/
def allReduceSum (size : ℕ) (tensors : List (List ℕ)) : List ℕ :=
  (List.range size).map fun i => (tensors.map fun tensor => tensor.getD i 0).sum

/-- The reduction of `allreduce_response_metrics`. -/
def reduceMetrics (maxProposalTokens : ℕ) (metrics : List MetricSummary) : MetricSummary :=
  let scalarTensor := allReduceSum 4 (metrics.map fun m =>
    [m.sampleCount, m.proposalCount, m.acceptanceLengthSum, m.proposalLengthSum])
  let positionTensor := allReduceSum (maxProposalTokens + maxProposalTokens) (metrics.map fun m =>
    m.proposalsAtPos ++ m.acceptedAtPos)
  { sampleCount := scalarTensor.getD 0 0
    proposalCount := scalarTensor.getD 1 0
    acceptanceLengthSum := scalarTensor.getD 2 0
    proposalLengthSum := scalarTensor.getD 3 0
    proposalsAtPos := positionTensor.take maxProposalTokens
    acceptedAtPos := positionTensor.drop maxProposalTokens }

/-- `allreduce_response_metrics`, from the responses of all ranks. -/
def allreduceResponseMetrics (maxProposalTokens : ℕ) (ranks : List (List Response)) :
    Except String MetricSummary :=
  (ranks.mapM (localMetrics maxProposalTokens)).map (reduceMetrics maxProposalTokens)

/-- The samples `run_dataset` gives to a rank: `range(rank, len(dataset), world_size)`. -/
def rankResponses {V : ℕ} (worldSize : ℕ) (samples : List (DecodingSample V)) (rank : ℕ) :
    List Response :=
  (stridedSlice samples rank samples.length worldSize).map DecodingSample.response

/-- What `build_metrics_row` returns. -/
structure MetricsRow where
  dataset : String
  numSamples : ℕ
  draftTokensPerProposal : ℚ
  acceptanceLength : ℚ
  verifyRate : ℚ
  acceptRatesByPosition : List (Option ℚ)

/-- `build_metrics_row` -/
def buildMetricsRow (maxProposalTokens : ℕ) (datasetName : String) (m : MetricSummary) :
    MetricsRow :=
  if m.proposalCount = 0 then
    { dataset := datasetName
      numSamples := m.sampleCount
      draftTokensPerProposal := 0
      acceptanceLength := 0
      verifyRate := 0
      acceptRatesByPosition := List.replicate maxProposalTokens none }
  else
    { dataset := datasetName
      numSamples := m.sampleCount
      draftTokensPerProposal := (m.proposalLengthSum : ℚ) / m.proposalCount
      acceptanceLength := (m.acceptanceLengthSum : ℚ) / m.proposalCount
      verifyRate := (m.acceptanceLengthSum : ℚ) / (m.proposalLengthSum + m.proposalCount)
      acceptRatesByPosition := (List.range maxProposalTokens).map fun posIdx =>
        let positionProposalCount := m.proposalsAtPos.getD posIdx 0
        if positionProposalCount = 0 then none
        else some ((m.acceptedAtPos.getD posIdx 0 : ℚ) / positionProposalCount) }

/-! ### The summary of a list of records -/

/-- How many records reach beyond each position. -/
def countsAtPos (maxProposalTokens : ℕ) (lengths : List ℕ) : List ℕ :=
  (List.range maxProposalTokens).map fun posIdx => lengths.countP fun n => posIdx < n

/-- The summary of the records `rs`. -/
def summaryOf (maxProposalTokens sampleCount : ℕ) (rs : List RoundRecord) : MetricSummary where
  sampleCount := sampleCount
  proposalCount := rs.length
  acceptanceLengthSum := (rs.map RoundRecord.acceptanceLength).sum
  proposalLengthSum := (rs.map RoundRecord.proposalLength).sum
  proposalsAtPos := countsAtPos maxProposalTokens (rs.map RoundRecord.proposalLength)
  acceptedAtPos := countsAtPos maxProposalTokens (rs.map RoundRecord.acceptedDraftLength)

theorem countsAtPos_concat (maxProposalTokens : ℕ) (lengths : List ℕ) (n : ℕ) :
    ((countsAtPos maxProposalTokens lengths).mapIdx fun posIdx count =>
      if n > posIdx then count + 1 else count) =
        countsAtPos maxProposalTokens (lengths ++ [n]) := by
  refine List.ext_getElem? fun i => ?_
  rw [List.getElem?_mapIdx, countsAtPos, countsAtPos, List.getElem?_map, List.getElem?_map]
  rcases Nat.lt_or_ge i maxProposalTokens with hi | hi
  · rw [List.getElem?_range hi]
    by_cases hn : i < n <;> simp [List.countP_append, hn]
  · rw [List.getElem?_eq_none (by simpa using hi)]
    rfl

/-- **The step lemma**: the inner loop takes one more record in. -/
theorem addRecord_summaryOf (maxProposalTokens sampleCount : ℕ) (rs : List RoundRecord)
    (r : RoundRecord) :
    (summaryOf maxProposalTokens sampleCount rs).addRecord r =
      summaryOf maxProposalTokens sampleCount (rs ++ [r]) := by
  simp only [MetricSummary.addRecord, summaryOf, countsAtPos_concat, List.map_append,
    List.map_singleton, List.length_append, List.length_singleton, List.sum_append,
    List.sum_singleton]

theorem foldl_addRecord (maxProposalTokens sampleCount : ℕ) (rs added : List RoundRecord) :
    added.foldl .addRecord (summaryOf maxProposalTokens sampleCount rs) =
      summaryOf maxProposalTokens sampleCount (rs ++ added) := by
  induction added generalizing rs with
  | nil => rw [List.foldl_nil, List.append_nil]
  | cons r added ih =>
    rw [List.foldl_cons, addRecord_summaryOf, ih, List.append_assoc, List.singleton_append]

theorem summaryOf_nil (maxProposalTokens sampleCount : ℕ) :
    summaryOf maxProposalTokens sampleCount [] = .init maxProposalTokens sampleCount := by
  simp [summaryOf, MetricSummary.init, countsAtPos]

variable {V : ℕ}

/-- **The run lemma**: one rank summarises the records of its samples. -/
theorem localMetrics_eq {maxProposalTokens : ℕ} {samples : List (DecodingSample V)}
    (hsamples : ∀ sample ∈ samples, sample.Consistent maxProposalTokens) :
    localMetrics maxProposalTokens (samples.map DecodingSample.response) =
      .ok (summaryOf maxProposalTokens samples.length
        (samples.flatMap DecodingSample.records)) := by
  have hloop : ∀ (n : ℕ) (rs : List RoundRecord),
      (samples.map DecodingSample.response).foldlM MetricSummary.addResponse
        (summaryOf maxProposalTokens n rs) =
          .ok (summaryOf maxProposalTokens n (rs ++ samples.flatMap DecodingSample.records)) := by
    induction samples with
    | nil =>
      intro n rs
      rw [List.flatMap_nil, List.append_nil]
      rfl
    | cons sample samples ih =>
      intro n rs
      have hsample := hsamples sample List.mem_cons_self
      have hlengths : sample.acceptanceLengths.length = sample.proposalLengths.length ∧
          sample.proposalLengths.length = sample.acceptedDraftLengths.length :=
        ⟨hsample.length_proposal.symm,
          hsample.length_proposal.trans hsample.length_accepted.symm⟩
      have hadd : (summaryOf maxProposalTokens n rs).addResponse sample.response =
          .ok (summaryOf maxProposalTokens n (rs ++ sample.records)) := by
        rw [MetricSummary.addResponse, DecodingSample.response]
        dsimp only
        rw [if_pos hlengths, foldl_addRecord]
        rfl
      rw [List.map_cons, List.foldlM_cons, hadd, List.flatMap_cons, ← List.append_assoc]
      exact ih (fun s hs => hsamples s (List.mem_cons_of_mem _ hs)) n _
  rw [localMetrics, List.length_map, ← summaryOf_nil, hloop, List.nil_append]

/-! ### The ranks together -/

theorem length_countsAtPos (maxProposalTokens : ℕ) (lengths : List ℕ) :
    (countsAtPos maxProposalTokens lengths).length = maxProposalTokens := by
  rw [countsAtPos, List.length_map, List.length_range]

theorem getD_countsAtPos {maxProposalTokens k : ℕ} (hk : k < maxProposalTokens)
    (lengths : List ℕ) :
    (countsAtPos maxProposalTokens lengths).getD k 0 = lengths.countP fun n => k < n := by
  rw [countsAtPos, List.getD_eq_getElem?_getD, List.getElem?_map, List.getElem?_range hk]
  rfl

/-- The reduced position tensor, taken apart again. -/
theorem allReduceSum_positions {α : Type} (maxProposalTokens : ℕ) (parts : List α)
    (left right : α → List ℕ) :
    let tensor := allReduceSum (maxProposalTokens + maxProposalTokens) (parts.map fun p =>
      countsAtPos maxProposalTokens (left p) ++ countsAtPos maxProposalTokens (right p))
    tensor.take maxProposalTokens = countsAtPos maxProposalTokens (parts.flatMap left) ∧
      tensor.drop maxProposalTokens = countsAtPos maxProposalTokens (parts.flatMap right) := by
  have hcount : ∀ (side : α → List ℕ) (k : ℕ), k < maxProposalTokens →
      (parts.map fun p => (countsAtPos maxProposalTokens (side p)).getD k 0).sum =
        (parts.flatMap side).countP fun n => k < n := by
    intro side k hk
    rw [List.countP_flatMap]
    exact congrArg List.sum (List.map_congr_left fun p _ => getD_countsAtPos hk _)
  dsimp only [allReduceSum]
  rw [List.range_add, List.map_append]
  constructor
  · rw [List.take_left' (by rw [List.length_map, List.length_range])]
    refine List.map_congr_left fun k hk => ?_
    have hk' := List.mem_range.mp hk
    rw [← hcount left k hk', List.map_map]
    refine congrArg List.sum (List.map_congr_left fun p _ => ?_)
    rw [Function.comp_apply, List.getD_append _ _ _ _ (by rwa [length_countsAtPos])]
  · rw [List.drop_left' (by rw [List.length_map, List.length_range]), List.map_map]
    refine List.map_congr_left fun k hk => ?_
    have hk' := List.mem_range.mp hk
    rw [← hcount right k hk', Function.comp_apply, List.map_map]
    refine congrArg List.sum (List.map_congr_left fun p _ => ?_)
    rw [Function.comp_apply, List.getD_append_right _ _ _ _ (by rw [length_countsAtPos]; omega),
      length_countsAtPos, Nat.add_sub_cancel_left]

theorem getD_allReduceSum {size i : ℕ} (hi : i < size) (tensors : List (List ℕ)) :
    (allReduceSum size tensors).getD i 0 = (tensors.map fun tensor => tensor.getD i 0).sum := by
  rw [allReduceSum, List.getD_eq_getElem?_getD, List.getElem?_map, List.getElem?_range hi]
  rfl

/-- Reducing summaries gives the summary of all records. -/
theorem reduceMetrics_summaryOf (maxProposalTokens : ℕ) (parts : List (ℕ × List RoundRecord)) :
    reduceMetrics maxProposalTokens (parts.map fun p => summaryOf maxProposalTokens p.1 p.2) =
      summaryOf maxProposalTokens (parts.map Prod.fst).sum (parts.flatMap Prod.snd) := by
  obtain ⟨hproposals, haccepted⟩ := allReduceSum_positions maxProposalTokens parts
    (fun p => p.2.map RoundRecord.proposalLength)
    (fun p => p.2.map RoundRecord.acceptedDraftLength)
  rw [← List.map_flatMap] at hproposals haccepted
  have hsum : ∀ f : RoundRecord → ℕ, (parts.map fun p => (p.2.map f).sum).sum =
      ((parts.flatMap Prod.snd).map f).sum := by
    intro f
    rw [List.map_flatMap, List.flatMap_def, List.sum_flatten, List.map_map]
    rfl
  rw [reduceMetrics, List.map_map, List.map_map, summaryOf]
  congr 1
  · rw [getD_allReduceSum (by decide), List.map_map]
    rfl
  · rw [getD_allReduceSum (by decide), List.map_map, List.length_flatMap]
    rfl
  · rw [getD_allReduceSum (by decide), List.map_map, ← hsum]
    rfl
  · rw [getD_allReduceSum (by decide), List.map_map, ← hsum]
    rfl

/-- **Any split of the samples over ranks** gives the summary of all records. -/
theorem allreduceResponseMetrics_eq {maxProposalTokens : ℕ}
    {ranks : List (List (DecodingSample V))}
    (hsamples : ∀ samples ∈ ranks, ∀ sample ∈ samples, sample.Consistent maxProposalTokens) :
    allreduceResponseMetrics maxProposalTokens
        (ranks.map fun samples => samples.map DecodingSample.response) =
      .ok (summaryOf maxProposalTokens ranks.flatten.length
        (ranks.flatten.flatMap DecodingSample.records)) := by
  have hlocal : (ranks.map fun samples => samples.map DecodingSample.response).mapM
      (localMetrics maxProposalTokens) = .ok ((ranks.map fun samples =>
        (samples.length, samples.flatMap DecodingSample.records)).map fun p =>
          summaryOf maxProposalTokens p.1 p.2) := by
    induction ranks with
    | nil => rfl
    | cons samples ranks ih =>
      rw [List.map_cons, List.mapM_cons, localMetrics_eq (hsamples samples List.mem_cons_self),
        ih fun s hs => hsamples s (List.mem_cons_of_mem _ hs)]
      rfl
  have hrecords : ranks.flatten.flatMap DecodingSample.records =
      ranks.flatMap fun samples => samples.flatMap DecodingSample.records := by
    rw [List.flatMap_def, List.map_flatten, List.flatten_flatten, List.map_map]
    rfl
  rw [allreduceResponseMetrics, hlocal, Except.map, reduceMetrics_summaryOf, List.map_map,
    List.flatMap_map, List.length_flatten, hrecords]
  rfl

/-! ### What the summary says -/

theorem summaryOf_perm (maxProposalTokens sampleCount : ℕ) {rs rs' : List RoundRecord}
    (h : rs.Perm rs') :
    summaryOf maxProposalTokens sampleCount rs = summaryOf maxProposalTokens sampleCount rs' := by
  have hcounts : ∀ f : RoundRecord → ℕ, countsAtPos maxProposalTokens (rs.map f) =
      countsAtPos maxProposalTokens (rs'.map f) := fun f =>
    List.map_congr_left fun k _ => (h.map f).countP_eq _
  rw [summaryOf, summaryOf, h.length_eq, (h.map _).sum_eq, (h.map _).sum_eq, hcounts, hcounts]

/-- Every length is counted once for each position it reaches beyond. -/
theorem sum_countsAtPos {maxProposalTokens : ℕ} {lengths : List ℕ}
    (h : ∀ n ∈ lengths, n ≤ maxProposalTokens) :
    (countsAtPos maxProposalTokens lengths).sum = lengths.sum := by
  rw [countsAtPos, sum_map_range]
  induction lengths with
  | nil => simp
  | cons n lengths ih =>
    have hn := h n List.mem_cons_self
    simp only [List.countP_cons, Finset.sum_add_distrib, decide_eq_true_eq]
    rw [ih fun n' hn' => h n' (List.mem_cons_of_mem _ hn'), sum_below hn, List.sum_cons,
      Nat.add_comm]

/-- Fewer lengths reach beyond a later position. -/
theorem countsAtPos_antitone (maxProposalTokens : ℕ) (lengths : List ℕ) :
    (countsAtPos maxProposalTokens lengths).Pairwise (· ≥ ·) := by
  refine List.pairwise_map.mpr (List.pairwise_lt_range.imp fun {i j} hij => ?_)
  refine List.countP_mono_left fun n _ hn => ?_
  have hj := of_decide_eq_true hn
  exact decide_eq_true (hij.trans hj)

theorem countsAtPos_le {maxProposalTokens : ℕ} {rs : List RoundRecord}
    (h : ∀ r ∈ rs, r.Within maxProposalTokens) :
    List.Forall₂ (· ≤ ·) (countsAtPos maxProposalTokens (rs.map RoundRecord.acceptedDraftLength))
      (countsAtPos maxProposalTokens (rs.map RoundRecord.proposalLength)) := by
  refine List.forall₂_map_left_iff.mpr (List.forall₂_map_right_iff.mpr (List.forall₂_same.mpr ?_))
  intro k _
  rw [List.countP_map, List.countP_map]
  refine List.countP_mono_left fun r hr hk => ?_
  have hk' : k < r.acceptedDraftLength := of_decide_eq_true hk
  exact decide_eq_true (hk'.trans_le (h r hr).accepted_le)

/-- A round commits at most one token more than it proposed. -/
theorem verifyRate_le_one {maxProposalTokens sampleCount : ℕ} {rs : List RoundRecord}
    (h : ∀ r ∈ rs, r.Within maxProposalTokens) (datasetName : String) :
    (buildMetricsRow maxProposalTokens datasetName
      (summaryOf maxProposalTokens sampleCount rs)).verifyRate ≤ 1 := by
  have hsum : (rs.map RoundRecord.acceptanceLength).sum ≤
      (rs.map RoundRecord.proposalLength).sum + rs.length := by
    induction rs with
    | nil => simp
    | cons r rs ih =>
      have hr := h r List.mem_cons_self
      have hle := hr.accepted_le
      have heq := hr.acceptance_eq
      have ih' := ih fun r' hr' => h r' (List.mem_cons_of_mem _ hr')
      simp only [List.map_cons, List.sum_cons, List.length_cons]
      omega
  unfold buildMetricsRow
  split
  · exact zero_le_one
  · refine div_le_one_of_le₀ ?_ (by positivity)
    exact_mod_cast hsum

/-! ### Runs and their metrics -/

variable {K H Ω Ctx : Type} [Field K] [LinearOrder K] [IsStrictOrderedRing K] [NeZero V]

/-- **Decoding statistics are consistent.**  A run of a drafter that keeps its contract returns.
Whatever the drafter, a run that returns has consistent records and generates one token and
those of its rounds; it returns as many of them as the limit and the first stop token leave.
For every list of samples with consistent records the summary over the ranks of any world size
is the one of a single process; at each position no more tokens are accepted than proposed,
later positions have no larger counts, the counts add up to the proposed and accepted draft
tokens, and the verify rate is at most one. -/
theorem decoding_statistics_consistent :
    (∀ (cfg : DecodingConfig V K H Ω) (drafter : Drafter V K H Ctx) (draws : LoopDraws K Ω)
      (fresh : ℕ → Fin V) (inputIds : List (Fin V)), 1 ≤ cfg.maxNewTokens →
      (inputIds ≠ [] → 1 ≤ cfg.maxProposalTokens → drafter.WellFormed cfg →
        ∃ sample, generateDecodingSample cfg drafter draws fresh inputIds = .ok sample) ∧
      ∀ sample, generateDecodingSample cfg drafter draws fresh inputIds = .ok sample →
        sample.Consistent cfg.maxProposalTokens ∧
        ∃ xs, Generated cfg drafter draws fresh inputIds sample xs ∧
          xs.length = 1 + sample.acceptanceLengths.sum ∧
          sample.numOutputTokens = returnedTokens cfg.stopTokenIds cfg.maxNewTokens xs ∧
          sample.outputIds = inputIds ++ xs.take sample.numOutputTokens) ∧
    ∀ (maxProposalTokens : ℕ) (samples : List (DecodingSample V)),
      (∀ sample ∈ samples, sample.Consistent maxProposalTokens) →
      ∀ worldSize, 0 < worldSize →
        ∃ m, allreduceResponseMetrics maxProposalTokens
            ((List.range worldSize).map (rankResponses worldSize samples)) = .ok m ∧
          allreduceResponseMetrics maxProposalTokens [samples.map DecodingSample.response] =
            .ok m ∧
          List.Forall₂ (· ≤ ·) m.acceptedAtPos m.proposalsAtPos ∧
          m.acceptedAtPos.Pairwise (· ≥ ·) ∧ m.proposalsAtPos.Pairwise (· ≥ ·) ∧
          m.proposalsAtPos.sum =
            ((samples.flatMap DecodingSample.records).map RoundRecord.proposalLength).sum ∧
          m.acceptedAtPos.sum =
            ((samples.flatMap DecodingSample.records).map RoundRecord.acceptedDraftLength).sum ∧
          ∀ datasetName, (buildMetricsRow maxProposalTokens datasetName m).verifyRate ≤ 1 := by
  refine ⟨fun cfg drafter draws fresh inputIds hnew => ⟨fun hprompt hmax hdrafter =>
    exists_generateDecodingSample hprompt hmax hdrafter, fun sample hok =>
      generateDecodingSample_statistics hnew hok⟩, ?_⟩
  intro maxProposalTokens samples hsamples worldSize hworld
  have hwithin : ∀ r ∈ samples.flatMap DecodingSample.records, r.Within maxProposalTokens := by
    intro r hr
    obtain ⟨sample, hmem, hr'⟩ := List.mem_flatMap.mp hr
    exact (hsamples sample hmem).within r hr'
  -- the slices of the ranks are together the samples, in another order
  have hperm := flatMap_stridedSlice_perm hworld samples
  have hranks : allreduceResponseMetrics maxProposalTokens
      ((List.range worldSize).map (rankResponses worldSize samples)) =
        .ok (summaryOf maxProposalTokens samples.length
          (samples.flatMap DecodingSample.records)) := by
    have hslices : ∀ slice ∈ (List.range worldSize).map fun rank =>
        stridedSlice samples rank samples.length worldSize,
          ∀ sample ∈ slice, sample.Consistent maxProposalTokens := by
      intro slice hslice sample hmem
      obtain ⟨rank, hrank, rfl⟩ := List.mem_map.mp hslice
      exact hsamples sample (hperm.mem_iff.mp (List.mem_flatMap.mpr ⟨rank, hrank, hmem⟩))
    have hall := allreduceResponseMetrics_eq hslices
    rw [List.map_map, ← List.flatMap_def, hperm.length_eq,
      summaryOf_perm _ _ (hperm.flatMap_right DecodingSample.records)] at hall
    exact hall
  have hsingle : allreduceResponseMetrics maxProposalTokens
      [samples.map DecodingSample.response] =
        .ok (summaryOf maxProposalTokens samples.length
          (samples.flatMap DecodingSample.records)) := by
    have hone : ∀ slice ∈ [samples], ∀ sample ∈ slice, sample.Consistent maxProposalTokens := by
      intro slice hslice
      rw [List.mem_singleton.mp hslice]
      exact hsamples
    have hall := allreduceResponseMetrics_eq hone
    rw [List.flatten_singleton] at hall
    exact hall
  refine ⟨_, hranks, hsingle, countsAtPos_le hwithin, countsAtPos_antitone _ _,
    countsAtPos_antitone _ _, sum_countsAtPos fun n hn => ?_, sum_countsAtPos fun n hn => ?_,
    fun datasetName => verifyRate_le_one hwithin datasetName⟩
  · obtain ⟨r, hr, rfl⟩ := List.mem_map.mp hn
    exact (hwithin r hr).proposal_le
  · obtain ⟨r, hr, rfl⟩ := List.mem_map.mp hn
    exact (hwithin r hr).accepted_le.trans (hwithin r hr).proposal_le

/-- The counting target with the drafter whose second guess is wrong, on two ranks. -/
theorem decoding_statistics_consistent_counting :
    ∃ sample m, generateDecodingSample countingConfig guessingDrafter
        ⟨⟨0, by decide⟩, fun _ => ⟨fun _ => 1 / 2, ⟨0, by decide⟩⟩⟩ (fun _ => 0) [0] =
          .ok sample ∧
      sample.Consistent 2 ∧
      allreduceResponseMetrics 2 ((List.range 2).map (rankResponses 2 [sample, sample])) = .ok m ∧
      (buildMetricsRow 2 "counting" m).verifyRate ≤ 1 := by
  have hstatistics := @decoding_statistics_consistent 3 ℚ Unit (Set.Ico (0 : ℚ) 1) Unit _ _ _ _
  obtain ⟨hreturns, hruns⟩ := hstatistics.1 countingConfig guessingDrafter
    ⟨⟨0, by decide⟩, fun _ => ⟨fun _ => 1 / 2, ⟨0, by decide⟩⟩⟩ (fun _ => 0) [0] (by decide)
  obtain ⟨sample, hok⟩ := hreturns (by simp) (by decide) guessingDrafter_wellFormed
  have hconsistent : sample.Consistent 2 := (hruns sample hok).1
  obtain ⟨m, hranks, -, -, -, -, -, -, hrate⟩ := hstatistics.2 2 [sample, sample]
    (by simpa using hconsistent) 2 (by decide)
  exact ⟨sample, m, hok, hconsistent, hranks, hrate "counting"⟩

end LatentSpec
