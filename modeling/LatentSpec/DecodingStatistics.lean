import LatentSpec.GreedyDecoding
import LatentSpec.StreamSegments

/-! # The statistics of decoding runs

Every round of `generate_decoding_sample` records how many tokens were proposed, how many of
them were accepted and how many were committed, and `allreduce_response_metrics` adds the
records of all samples and ranks up, per position of the proposal
(`deepspec/eval/base_evaluator.py`).  The facts about a run hold of every drafter whose
proposals the verification accepts; `Drafter.WellFormed` only serves to say that a run ends.
-/
namespace LatentSpec
open LeadingRun WhileLoop StreamSegments

variable {V : ℕ} {K H Ω Ctx : Type}

/-! ### What a round records -/

section Round
variable [Field K] [LinearOrder K] [IsStrictOrderedRing K] [NeZero V]

omit [IsStrictOrderedRing K] [NeZero V] in
/-- No more tokens pass their tests than were proposed. -/
theorem sum_mask_le (targetProbs draftProbs : List (Probs V K)) (proposed : List (Fin V))
    (coins : ℕ → K) :
    (LeadingRun.cumprod ((acceptMask coins (acceptProb targetProbs draftProbs proposed)).map
      Bool.toNat)).sum ≤ proposed.length := by
  refine (sum_cumprod _).le.trans ((leadingRun_le_length _).trans ?_)
  simp only [acceptMask, acceptProb, gatherTokenProbs, List.length_mapIdx, List.length_zipWith]
  omega

/-- **What a verification that raised nothing records**: the accepted tokens are among the
effective ones, these among the proposed ones, and these among the allowed ones. -/
theorem verifyDraftTokens_bounds {cfg : DecodingConfig V K H Ω} {proposal : DraftProposal V K}
    {positionIds : List ℕ} {start : ℕ} {cache cache' : TargetCache V}
    {currentTokenIds : List (Fin V)} {draws : VerifyDraws K Ω} {v : VerificationResult V K H}
    (h : verifyDraftTokens cfg proposal positionIds start cache currentTokenIds draws =
      .ok (v, cache')) :
    proposal.draftTokenCount ≤ cfg.maxProposalTokens ∧
      proposal.verifyInputIds.take 1 = currentTokenIds ∧
      proposal.verifyInputIds.length =
        (slice positionIds start (start + (proposal.draftTokenCount + 1))).length ∧
      v.acceptedDraftTokens ≤ v.effectiveProposalLength ∧
      v.effectiveProposalLength ≤ proposal.draftTokenCount := by
  unfold verifyDraftTokens at h
  by_cases hcount : cfg.maxProposalTokens < proposal.draftTokenCount
  · rw [if_pos hcount] at h
    cases h
  rw [if_neg hcount] at h
  by_cases hhead : proposal.verifyInputIds.take 1 ≠ currentTokenIds
  · rw [if_pos hhead] at h
    cases h
  rw [if_neg hhead] at h
  obtain ⟨⟨output, cache''⟩, hcall, h⟩ := bind_ok h
  obtain ⟨draftProbs, -, h⟩ := bind_ok h
  obtain ⟨nextToken, -, h⟩ := bind_ok h
  have hwidth : proposal.verifyInputIds.length =
      (slice positionIds start (start + (proposal.draftTokenCount + 1))).length := by
    by_contra hne
    rw [TargetModel.call, if_neg hne] at hcall
    cases hcall
  have hproposed : (proposal.verifyInputIds.drop 1).length ≤ proposal.draftTokenCount := by
    rw [List.length_drop, hwidth, length_slice]
    omega
  obtain ⟨rfl, -⟩ := Prod.mk.inj (Except.ok.inj h)
  refine ⟨not_lt.mp hcount, not_ne_iff.mp hhead, hwidth, ?_⟩
  dsimp only
  set mask := if 0 < proposal.draftTokenCount then
    LeadingRun.cumprod ((acceptMask draws.coins (acceptProb (output.logits.map
      (logitsToProbs cfg.softmax · cfg.temperature)) draftProbs
        (proposal.verifyInputIds.drop 1))).map Bool.toNat) else [] with hmask
  have hsum : mask.sum ≤ proposal.draftTokenCount := by
    rw [hmask]
    split
    · exact (sum_mask_le _ _ _ _).trans hproposed
    · exact Nat.zero_le _
  -- a stop token is looked for in the accepted slice only
  have hcut := cutAtStop_le cfg.stopTokenIds (proposal.verifyInputIds.drop 1) mask.sum
  have hslice : slice proposal.verifyInputIds 1 (mask.sum + 1) =
      (proposal.verifyInputIds.drop 1).take mask.sum := by
    rw [slice, List.drop_take, Nat.add_sub_cancel]
  unfold cutAtStop at hcut
  rw [hslice]
  cases hstop : firstStop cfg.stopTokenIds ((proposal.verifyInputIds.drop 1).take mask.sum) with
  | none => exact ⟨hsum, le_refl _⟩
  | some eosPos =>
    rw [hstop] at hcut
    exact ⟨le_refl _, hcut.trans hsum⟩

/-- **One iteration that raised nothing**, whatever the drafter: the state is the old one
advanced by a verification that recorded no more than was allowed. -/
theorem exists_of_iteration {cfg : DecodingConfig V K H Ω} {drafter : Drafter V K H Ctx}
    {draws : LoopDraws K Ω} {s s' : LoopState V Ctx} {N : ℕ} {stopped : Bool}
    (hlen : s.outputIds.length = N) (hroom : s.start + cfg.maxProposalTokens + 2 ≤ N)
    (h : iteration cfg drafter draws (List.range N) s = .ok (s', stopped)) :
    ∃ current x, ∃ v : VerificationResult V K H, ∃ context cache,
      s.outputIds[s.start]? = some current ∧
      x.length ≤ cfg.maxProposalTokens ∧ v.acceptedDraftTokens ≤ v.effectiveProposalLength ∧
      v.effectiveProposalLength ≤ x.length ∧
      (s', stopped) = s.advance drafter.update context current x v cache cfg.stopTokenIds := by
  obtain ⟨current, hcur⟩ : ∃ current, s.outputIds[s.start]? = some current :=
    ⟨_, List.getElem?_eq_getElem (by omega)⟩
  have hcurrent : slice s.outputIds s.start (s.start + 1) = [current] := by
    rw [slice, List.take_add_one, hcur, List.drop_append_of_le_length (by simp; omega)]
    simp
  unfold iteration at h
  obtain ⟨⟨proposal, context⟩, -, h⟩ := bind_ok h
  dsimp only at h
  obtain ⟨⟨v, cache⟩, hverify, h⟩ := bind_ok h
  obtain ⟨hcount, hhead, hwidth, hacc, heff⟩ := verifyDraftTokens_bounds hverify
  rw [hcurrent] at hhead
  rw [slice_range _ _ _ (by omega), List.length_range'] at hwidth
  obtain ⟨c, x, hids⟩ := List.exists_cons_of_length_eq_add_one hwidth
  obtain rfl : c = current := by
    rw [hids] at hhead
    simpa using hhead
  have hx : x.length = proposal.draftTokenCount := by
    rw [hids, List.length_cons] at hwidth
    omega
  obtain ⟨hslice, hindex, hnew⟩ := s.round_eq c (x := x) v (by omega) (by omega)
  refine ⟨c, x, v, context, cache, hcur, by omega, hacc, by omega, ?_⟩
  dsimp only at h
  rw [hids, hslice] at h
  cases hstop : v.terminatedByStopToken with
  | true =>
    simp only [hstop, if_true, bind, Except.bind, pure, Except.pure, Except.ok.injEq] at h
    rw [← h, LoopState.advance, hstop, if_pos rfl]
  | false =>
    simp only [hstop, hindex, hnew, Bool.false_eq_true, if_false, bind, Except.bind, pure,
      Except.pure, Except.ok.injEq] at h
    rw [← h, LoopState.advance, hstop, if_neg Bool.false_ne_true]

end Round

/-! ### The records of a run -/

/-- What one round appends to the three lists. -/
structure RoundRecord where
  acceptanceLength : ℕ
  proposalLength : ℕ
  acceptedDraftLength : ℕ

/-- A record no larger than what was proposed and allowed. -/
structure RoundRecord.Within (maxProposalTokens : ℕ) (r : RoundRecord) : Prop where
  accepted_le : r.acceptedDraftLength ≤ r.proposalLength
  proposal_le : r.proposalLength ≤ maxProposalTokens
  acceptance_eq : r.acceptanceLength = r.acceptedDraftLength ∨
    r.acceptanceLength = r.acceptedDraftLength + 1

/-- `zip(acceptance_lengths, proposal_lengths, accepted_draft_lengths)` -/
def zipRecords (acceptanceLengths proposalLengths acceptedDraftLengths : List ℕ) :
    List RoundRecord :=
  (acceptanceLengths.zip (proposalLengths.zip acceptedDraftLengths)).map fun p =>
    ⟨p.1, p.2.1, p.2.2⟩

theorem zipRecords_map (rs : List RoundRecord) :
    zipRecords (rs.map RoundRecord.acceptanceLength) (rs.map RoundRecord.proposalLength)
      (rs.map RoundRecord.acceptedDraftLength) = rs := by
  rw [zipRecords, List.zip_map', List.zip_map', List.map_map]
  exact List.map_id _

/-- The rounds of a sample. -/
def DecodingSample.records (sample : DecodingSample V) : List RoundRecord :=
  zipRecords sample.acceptanceLengths sample.proposalLengths sample.acceptedDraftLengths

/-- **Consistent records**: one entry in each list for every round, and none too large. -/
structure DecodingSample.Consistent (maxProposalTokens : ℕ) (sample : DecodingSample V) : Prop where
  length_proposal : sample.proposalLengths.length = sample.acceptanceLengths.length
  length_accepted : sample.acceptedDraftLengths.length = sample.acceptanceLengths.length
  within : ∀ r ∈ sample.records, r.Within maxProposalTokens

/-- **The invariant of the loop**: the three lists are the records `rs`, and the buffer holds the
prompt and `xs`, the first token and one committed token for every accepted length. -/
structure LoopState.Recorded (s : LoopState V Ctx) (inputIds : List (Fin V))
    (maxProposalTokens N : ℕ) (rs : List RoundRecord) (xs : List (Fin V)) : Prop where
  length : s.outputIds.length = N
  acceptanceLengths : s.acceptanceLengths = rs.map RoundRecord.acceptanceLength
  proposalLengths : s.proposalLengths = rs.map RoundRecord.proposalLength
  acceptedDraftLengths : s.acceptedDraftLengths = rs.map RoundRecord.acceptedDraftLength
  within : ∀ r ∈ rs, r.Within maxProposalTokens
  generated : s.outputIds.take (s.start + 1) = inputIds ++ xs
  length_generated : xs.length = 1 + s.acceptanceLengths.sum
  start_eq : s.start = inputIds.length + s.acceptanceLengths.sum

/-- A record and its committed tokens appended. -/
theorem LoopState.Recorded.append {s s' : LoopState V Ctx} {inputIds : List (Fin V)}
    {maxProposalTokens N : ℕ} {rs : List RoundRecord} {xs : List (Fin V)}
    (hs : s.Recorded inputIds maxProposalTokens N rs xs) {r : RoundRecord}
    (hr : r.Within maxProposalTokens) {tokens : List (Fin V)}
    (htokens : tokens.length = r.acceptanceLength) (hlen : s'.outputIds.length = N)
    (hgenerated : s'.outputIds.take (s'.start + 1) = inputIds ++ (xs ++ tokens))
    (hstart : s'.start = s.start + r.acceptanceLength)
    (hacceptance : s'.acceptanceLengths = s.acceptanceLengths ++ [r.acceptanceLength])
    (hproposal : s'.proposalLengths = s.proposalLengths ++ [r.proposalLength])
    (haccepted : s'.acceptedDraftLengths = s.acceptedDraftLengths ++ [r.acceptedDraftLength]) :
    s'.Recorded inputIds maxProposalTokens N (rs ++ [r]) (xs ++ tokens) where
  length := hlen
  acceptanceLengths := by rw [hacceptance, hs.acceptanceLengths, List.map_append]; rfl
  proposalLengths := by rw [hproposal, hs.proposalLengths, List.map_append]; rfl
  acceptedDraftLengths := by rw [haccepted, hs.acceptedDraftLengths, List.map_append]; rfl
  within := by
    intro r' hr'
    rcases List.mem_append.mp hr' with hr' | hr'
    · exact hs.within r' hr'
    · rwa [List.mem_singleton.mp hr']
  generated := hgenerated
  length_generated := by
    rw [List.length_append, htokens, hacceptance, List.sum_append, List.sum_singleton,
      hs.length_generated, Nat.add_assoc]
  start_eq := by
    rw [hstart, hacceptance, List.sum_append, List.sum_singleton, hs.start_eq, Nat.add_assoc]

/-- The invariant in the buffer of a run. -/
def LoopState.HasRecords [Field K] [LinearOrder K] (cfg : DecodingConfig V K H Ω)
    (inputIds : List (Fin V)) (s : LoopState V Ctx) : Prop :=
  ∃ rs xs, s.Recorded inputIds cfg.maxProposalTokens
    (inputIds.length + cfg.maxNewTokens + cfg.maxProposalTokens + 1) rs xs

section Run
variable [Field K] [LinearOrder K] [IsStrictOrderedRing K] [NeZero V]

/-- **The step lemma**: a round adds one record and the tokens it commits. -/
theorem LoopState.HasRecords.iteration {cfg : DecodingConfig V K H Ω}
    {drafter : Drafter V K H Ctx} {draws : LoopDraws K Ω} {inputIds : List (Fin V)}
    {s s' : LoopState V Ctx} {stopped : Bool} (hrecords : s.HasRecords cfg inputIds)
    (hrunning : s.running (inputIds.length + cfg.maxNewTokens) = true)
    (h : LatentSpec.iteration cfg drafter draws (cfg.positionIds inputIds) s =
      .ok (s', stopped)) :
    s'.HasRecords cfg inputIds ∧ (stopped = false → s.start < s'.start) := by
  obtain ⟨rs, xs, hs⟩ := hrecords
  have hlt : s.start < inputIds.length + cfg.maxNewTokens := of_decide_eq_true hrunning
  have hroom : s.start + cfg.maxProposalTokens + 2 ≤
      inputIds.length + cfg.maxNewTokens + cfg.maxProposalTokens + 1 := by omega
  obtain ⟨current, x, v, context, cache, hcur, hx, hacc, heff, hadvance⟩ :=
    exists_of_iteration hs.length hroom h
  obtain ⟨hlen, -, htake⟩ := LoopState.take_advance drafter.update context cfg.stopTokenIds
    hs.length hcur (hacc.trans heff) (by omega) cache
  have htakeLen : (x.take v.acceptedDraftTokens).length = v.acceptedDraftTokens := by
    rw [List.length_take]
    omega
  obtain ⟨rfl, hstopped⟩ := Prod.mk.inj (hadvance.trans (Prod.mk.eta).symm)
  rw [hs.generated, List.append_assoc] at htake
  -- the two exits record the same accepted tokens and differ in the bonus token
  cases hstop : v.terminatedByStopToken with
  | true =>
    rw [hstop, if_pos rfl] at htake
    have hrecord : RoundRecord.Within cfg.maxProposalTokens
        ⟨v.acceptedDraftTokens, v.effectiveProposalLength, v.acceptedDraftTokens⟩ :=
      ⟨hacc, heff.trans hx, .inl rfl⟩
    refine ⟨⟨_, _, hs.append hrecord htakeLen hlen htake ?_ ?_ ?_ ?_⟩, fun hfalse => ?_⟩
    · simp only [LoopState.advance, hstop, if_true]
    · simp only [LoopState.advance, hstop, if_true]
    · simp only [LoopState.advance, hstop, if_true]
    · simp only [LoopState.advance, hstop, if_true]
    · rw [hstopped, LoopState.advance, hstop, if_pos rfl] at hfalse
      cases hfalse
  | false =>
    rw [hstop, if_neg Bool.false_ne_true] at htake
    have hrecord : RoundRecord.Within cfg.maxProposalTokens
        ⟨v.acceptedDraftTokens + 1, v.effectiveProposalLength, v.acceptedDraftTokens⟩ :=
      ⟨hacc, heff.trans hx, .inr rfl⟩
    have htokens : (x.take v.acceptedDraftTokens ++ [v.nextToken]).length =
        v.acceptedDraftTokens + 1 := by
      rw [List.length_append, htakeLen, List.length_singleton]
    refine ⟨⟨_, _, hs.append hrecord htokens hlen htake ?_ ?_ ?_ ?_⟩, fun _ => ?_⟩
    · simp only [LoopState.advance, hstop, Bool.false_eq_true, if_false]
    · simp only [LoopState.advance, hstop, Bool.false_eq_true, if_false]
    · simp only [LoopState.advance, hstop, Bool.false_eq_true, if_false]
    · simp only [LoopState.advance, hstop, Bool.false_eq_true, if_false]
    · simp only [LoopState.advance, hstop, Bool.false_eq_true, if_false]
      omega

omit [IsStrictOrderedRing K] [NeZero V] in
/-- The prefill leaves the first token and no records. -/
theorem startState_recorded (cfg : DecodingConfig V K H Ω) (drafter : Drafter V K H Ctx)
    (inputIds : List (Fin V)) (first : Fin V) {tail : List (Fin V)} {N : ℕ}
    (hlen : (inputIds ++ first :: tail).length = N) :
    (cfg.startState drafter inputIds first tail).Recorded inputIds cfg.maxProposalTokens N []
      [first] := by
  constructor
  · exact hlen
  · rfl
  · rfl
  · rfl
  · intro r hr
    cases hr
  · show (inputIds ++ first :: tail).take (inputIds.length + 1) = inputIds ++ [first]
    rw [List.take_length_add_append]
    rfl
  · rfl
  · rfl

end Run

/-! ### Cutting the output -/

theorem firstStop_take (stopTokenIds : Option (List (Fin V))) (xs : List (Fin V)) (n : ℕ) :
    firstStop stopTokenIds (xs.take n) = (firstStop stopTokenIds xs).filter (· < n) := by
  induction xs generalizing n with
  | nil => cases stopTokenIds <;> simp [firstStop]
  | cons t xs ih =>
    cases n with
    | zero => cases stopTokenIds <;> simp [firstStop]
    | succ n =>
      rw [List.take_succ_cons, firstStop_cons, firstStop_cons, ih]
      by_cases ht : isStopToken stopTokenIds t
      · rw [if_pos ht, if_pos ht]
        simp [Option.filter]
      · rw [if_neg ht, if_neg ht]
        cases firstStop stopTokenIds xs with
        | none => rfl
        | some i => by_cases hi : i < n <;> simp [Option.filter, hi]

/-- How many of the generated tokens are returned. -/
def returnedTokens (stopTokenIds : Option (List (Fin V))) (maxNewTokens : ℕ) (xs : List (Fin V)) :
    ℕ :=
  match firstStop stopTokenIds xs with
  | none => min xs.length maxNewTokens
  | some i => min (min xs.length maxNewTokens) (i + 1)

/-- The prompt and the generated tokens, cut at the limit and after the first stop token. -/
theorem trimOutputIds_take (stopTokenIds : Option (List (Fin V))) (inputIds xs : List (Fin V))
    (maxNewTokens : ℕ) :
    trimOutputIds (inputIds ++ xs.take maxNewTokens) inputIds.length stopTokenIds =
      inputIds ++ xs.take (returnedTokens stopTokenIds maxNewTokens xs) := by
  rw [trimOutputIds_append, firstStop_take, returnedTokens]
  congr 1
  cases firstStop stopTokenIds xs with
  | none =>
    dsimp only [Option.filter_none]
    exact List.take_eq_take_iff.mpr (by omega)
  | some i =>
    by_cases hi : i < maxNewTokens
    · simp only [Option.filter, hi, decide_true, if_true, List.take_take]
      exact List.take_eq_take_iff.mpr (by omega)
    · simp only [Option.filter, hi, decide_false, Bool.false_eq_true, if_false]
      exact List.take_eq_take_iff.mpr (by omega)

theorem length_take_returnedTokens (stopTokenIds : Option (List (Fin V))) (maxNewTokens : ℕ)
    (xs : List (Fin V)) :
    (xs.take (returnedTokens stopTokenIds maxNewTokens xs)).length =
      returnedTokens stopTokenIds maxNewTokens xs := by
  rw [List.length_take, returnedTokens]
  cases firstStop stopTokenIds xs with
  | none =>
    dsimp only
    omega
  | some i =>
    dsimp only
    omega

/-! ### A whole run -/

section Run
variable [Field K] [LinearOrder K] [IsStrictOrderedRing K] [NeZero V]
  (cfg : DecodingConfig V K H Ω) (drafter : Drafter V K H Ctx) (draws : LoopDraws K Ω)
  (fresh : ℕ → Fin V) (inputIds : List (Fin V))

/-- The loop of a run, from the state the prefill leaves. -/
def runLoop (s : LoopState V Ctx) : Except DecodeError (LoopState V Ctx) :=
  WhileLoop.run (LoopState.running (inputIds.length + cfg.maxNewTokens))
    (iteration cfg drafter draws (cfg.positionIds inputIds)) .fuel cfg.maxNewTokens s

/-- `xs` are the tokens behind the prompt in the output buffer of a run that returns `sample`,
before the buffer is cut. -/
def Generated (sample : DecodingSample V) (xs : List (Fin V)) : Prop :=
  (prefill cfg drafter draws fresh inputIds = .ok (.inl sample) ∧
      xs = [cfg.firstToken inputIds draws.first]) ∨
    ∃ s₀ s, prefill cfg drafter draws fresh inputIds = .ok (.inr s₀) ∧
      runLoop cfg drafter draws inputIds s₀ = .ok s ∧ sample = finish cfg inputIds s ∧
      s.outputIds.take (s.start + 1) = inputIds ++ xs

variable {cfg drafter draws fresh inputIds}

/-- Nothing is drawn for an empty prompt. -/
theorem prefill_nil : prefill cfg drafter draws fresh [] = .error .shape := by
  have hlen : ((List.range (cfg.positionIds ([] : List (Fin V))).length).map fresh).take (0 + 1) ≠
      [] := by
    rw [← List.length_pos_iff]
    simp [DecodingConfig.positionIds]
  unfold prefill
  simp only [TargetModel.call, slice, List.length_nil, List.take_zero, List.drop_nil, if_true,
    bind, Except.bind, assignSlice, List.range_zero, List.map_nil, List.append_nil,
    List.nil_append, List.drop_zero, List.length_eq_zero_iff]
  rw [if_neg hlen]

/-- What a loop that ended leaves. -/
theorem runLoop_hasRecords {s₀ s : LoopState V Ctx} (hs₀ : s₀.HasRecords cfg inputIds)
    (hrun : runLoop cfg drafter draws inputIds s₀ = .ok s) : s.HasRecords cfg inputIds := by
  have hstep : ∀ s s' : LoopState V Ctx, s.HasRecords cfg inputIds →
      s.running (inputIds.length + cfg.maxNewTokens) = true →
      iteration cfg drafter draws (cfg.positionIds inputIds) s = .ok (s', false) →
        s'.HasRecords cfg inputIds :=
    fun s s' hs hcond hbody => (hs.iteration hcond hbody).1
  have hbreak : ∀ s s' : LoopState V Ctx, s.HasRecords cfg inputIds →
      s.running (inputIds.length + cfg.maxNewTokens) = true →
      iteration cfg drafter draws (cfg.positionIds inputIds) s = .ok (s', true) →
        s'.HasRecords cfg inputIds :=
    fun s s' hs hcond hbody => (hs.iteration hcond hbody).1
  exact run_post hstep hbreak (fun s hs _ => hs) hs₀ hrun

/-- **The statistics of a run that returned.** -/
theorem generateDecodingSample_statistics (hnew : 1 ≤ cfg.maxNewTokens)
    {sample : DecodingSample V}
    (h : generateDecodingSample cfg drafter draws fresh inputIds = .ok sample) :
    sample.Consistent cfg.maxProposalTokens ∧
      ∃ xs, Generated cfg drafter draws fresh inputIds sample xs ∧
        xs.length = 1 + sample.acceptanceLengths.sum ∧
        sample.numOutputTokens = returnedTokens cfg.stopTokenIds cfg.maxNewTokens xs ∧
        sample.outputIds = inputIds ++ xs.take sample.numOutputTokens := by
  unfold generateDecodingSample at h
  by_cases hmax : cfg.maxProposalTokens < 1
  · rw [if_pos hmax] at h
    cases h
  rw [if_neg hmax] at h
  obtain ⟨state, hprefill, h⟩ := bind_ok h
  have hprompt : inputIds ≠ [] := by
    rintro rfl
    rw [prefill_nil] at hprefill
    cases hprefill
  obtain ⟨tail, hlen, heq⟩ := prefill_eq cfg drafter draws fresh hprompt
  have hcut : ∀ xs : List (Fin V), (inputIds ++ xs.take (returnedTokens cfg.stopTokenIds
      cfg.maxNewTokens xs)).length - inputIds.length =
        returnedTokens cfg.stopTokenIds cfg.maxNewTokens xs := fun xs => by
    rw [List.length_append, length_take_returnedTokens, Nat.add_sub_cancel_left]
  rw [heq] at hprefill
  cases hstop : hasStopToken [cfg.firstToken inputIds draws.first] cfg.stopTokenIds with
  | true =>
    -- the first token stops the run before any round
    rw [hstop, if_pos rfl] at hprefill heq
    obtain rfl := Except.ok.inj hprefill
    obtain rfl := Except.ok.inj h
    have htrim := trimOutputIds_take cfg.stopTokenIds inputIds
      [cfg.firstToken inputIds draws.first] cfg.maxNewTokens
    rw [List.take_of_length_le (by simpa using hnew)] at htrim
    refine ⟨⟨rfl, rfl, fun r hr => ?_⟩, [cfg.firstToken inputIds draws.first], .inl ⟨heq, rfl⟩,
      rfl, ?_, ?_⟩
    · cases hr
    · rw [DecodingSample.of, htrim]
      exact hcut _
    · rw [DecodingSample.of, htrim]
      dsimp only
      rw [hcut]
  | false =>
    rw [hstop, if_neg Bool.false_ne_true] at hprefill heq
    obtain rfl := Except.ok.inj hprefill
    obtain ⟨s, hrun, h⟩ := bind_ok h
    obtain rfl := Except.ok.inj h
    obtain ⟨rs, xs, hs⟩ := runLoop_hasRecords
      ⟨_, _, startState_recorded cfg drafter inputIds _ hlen⟩ hrun
    have htake : s.outputIds.take (min (s.start + 1) (inputIds.length + cfg.maxNewTokens)) =
        inputIds ++ xs.take cfg.maxNewTokens := by
      rw [Nat.min_comm, ← List.take_take, hs.generated, List.take_length_add_append]
    have hout : (finish cfg inputIds s).outputIds = inputIds ++ xs.take
        (returnedTokens cfg.stopTokenIds cfg.maxNewTokens xs) := by
      rw [← trimOutputIds_take, ← htake]
      rfl
    have hnum : (finish cfg inputIds s).numOutputTokens =
        returnedTokens cfg.stopTokenIds cfg.maxNewTokens xs := by
      show (finish cfg inputIds s).outputIds.length - inputIds.length = _
      rw [hout, hcut]
    have hrecords : (finish cfg inputIds s).records = rs := by
      show zipRecords s.acceptanceLengths s.proposalLengths s.acceptedDraftLengths = rs
      rw [hs.acceptanceLengths, hs.proposalLengths, hs.acceptedDraftLengths, zipRecords_map]
    refine ⟨⟨?_, ?_, ?_⟩, xs, .inr ⟨_, s, heq, hrun, rfl, hs.generated⟩, hs.length_generated, hnum,
      ?_⟩
    · show s.proposalLengths.length = s.acceptanceLengths.length
      rw [hs.proposalLengths, hs.acceptanceLengths, List.length_map, List.length_map]
    · show s.acceptedDraftLengths.length = s.acceptanceLengths.length
      rw [hs.acceptedDraftLengths, hs.acceptanceLengths, List.length_map, List.length_map]
    · rw [hrecords]
      exact hs.within
    · rw [hnum, hout]

/-- **A run of a drafter that keeps its contract returns.** -/
theorem exists_generateDecodingSample (hprompt : inputIds ≠ []) (hmax : 1 ≤ cfg.maxProposalTokens)
    (hdrafter : drafter.WellFormed cfg) :
    ∃ sample, generateDecodingSample cfg drafter draws fresh inputIds = .ok sample := by
  obtain ⟨tail, hlen, hprefill⟩ := prefill_eq cfg drafter draws fresh hprompt
  unfold generateDecodingSample
  rw [if_neg (by omega), hprefill]
  cases hstop : hasStopToken [cfg.firstToken inputIds draws.first] cfg.stopTokenIds with
  | true => exact ⟨_, rfl⟩
  | false =>
    set s₀ := cfg.startState drafter inputIds (cfg.firstToken inputIds draws.first) tail
    have hs₀ : s₀.HasRecords cfg inputIds :=
      ⟨[], _, startState_recorded cfg drafter inputIds _ hlen⟩
    have hrank : ∀ s : LoopState V Ctx, s.HasRecords cfg inputIds →
        s.running (inputIds.length + cfg.maxNewTokens) = true →
          0 < inputIds.length + cfg.maxNewTokens - s.start := by
      intro s _ hcond
      have hlt : s.start < inputIds.length + cfg.maxNewTokens := of_decide_eq_true hcond
      omega
    have hstep : ∀ s : LoopState V Ctx, s.HasRecords cfg inputIds →
        s.running (inputIds.length + cfg.maxNewTokens) = true →
          (∃ s', iteration cfg drafter draws (cfg.positionIds inputIds) s = .ok (s', false) ∧
            s'.HasRecords cfg inputIds ∧ inputIds.length + cfg.maxNewTokens - s'.start <
              inputIds.length + cfg.maxNewTokens - s.start) ∨
          ∃ s', iteration cfg drafter draws (cfg.positionIds inputIds) s = .ok (s', true) ∧
            True := by
      intro s hs hcond
      have hlt : s.start < inputIds.length + cfg.maxNewTokens := of_decide_eq_true hcond
      obtain ⟨rs, xs, hrecorded⟩ := hs
      have hlength := hrecorded.length
      obtain ⟨current, hcur⟩ : ∃ current, s.outputIds[s.start]? = some current :=
        ⟨_, List.getElem?_eq_getElem (by omega)⟩
      obtain ⟨proposal, context, hpropose, hwf⟩ := hdrafter s.context s.outputIds
        (cfg.positionIds inputIds) s.start current hcur
      obtain ⟨⟨s', stopped⟩, hok⟩ : ∃ result,
          iteration cfg drafter draws (cfg.positionIds inputIds) s = .ok result := by
        obtain ⟨x, rows, -, -, -, hok⟩ := iteration_eq cfg drafter draws
          ⟨hlength, by omega, hcur⟩ hpropose hwf
        exact ⟨_, hok⟩
      obtain ⟨hs', hadv⟩ := LoopState.HasRecords.iteration ⟨rs, xs, hrecorded⟩ hcond hok
      cases stopped with
      | true => exact .inr ⟨s', hok, trivial⟩
      | false =>
        have hlt' := hadv rfl
        exact .inl ⟨s', hok, hs', by omega⟩
    have hfuel : inputIds.length + cfg.maxNewTokens - s₀.start ≤ cfg.maxNewTokens := by
      show inputIds.length + cfg.maxNewTokens - inputIds.length ≤ _
      omega
    obtain ⟨s', hrun, -⟩ := WhileLoop.run_ok DecodeError.fuel hrank hstep (fun _ _ _ => trivial)
      hs₀ hfuel
    simp only [Bool.false_eq_true, if_false, bind, Except.bind, hrun]
    exact ⟨_, rfl⟩

end Run
end LatentSpec
