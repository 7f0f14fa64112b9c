import LatentSpec.LeadingRun
import LatentSpec.Sampling

/-! # Verifying a draft proposal

`verify_draft_tokens` of `deepspec/eval/base_evaluator.py`, at batch size one.  The
target model reads the current token and the proposed ones on top of its cache,
each proposed token is tested against a uniform draw, the accepted run is cut at
a stop token, and one more token is drawn from the residual or from the last row.

A target model is a function of everything it attends to: the cached
token/position pairs followed by those of the call up to the row.  Its cache is
the list of these pairs, which `call` extends.  Errors the code raises are
`DecodeError`s; a slice of a tensor is clamped to its bounds, as in Python.
-/
namespace LatentSpec
open LeadingRun

/-- What the decoding code raises. -/
inductive DecodeError where
  /-- `ValueError`: `draft_token_count` exceeds `max_proposal_tokens`. -/
  | draftTokenCount (maxProposalTokens draftTokenCount : ℕ)
  /-- `ValueError`: `verify_input_ids` must start with the current accepted token. -/
  | verifyInputIds
  /-- `AssertionError`: `draft_probs` is missing although tokens are proposed. -/
  | draftProbs
  /-- `AssertionError`: `past_key_values_draft.get_seq_length() <= start`. -/
  | draftCacheLength
  /-- `AssertionError`: `max_proposal_tokens >= 1`. -/
  | maxProposalTokens
  /-- Two tensors that must have the same width have not. -/
  | shape
  /-- An index outside a tensor. -/
  | index
  /-- The modelled loop was not given enough iterations. -/
  | fuel
  deriving DecidableEq, Repr

/-- `xs[a:b]`, clamped to the bounds of `xs`. -/
def slice {α : Type*} (xs : List α) (a b : ℕ) : List α := (xs.take b).drop a

theorem length_slice {α : Type*} (xs : List α) (a b : ℕ) :
    (slice xs a b).length = min b xs.length - a := by
  simp [slice]

/-- The keys a target cache holds: the tokens it has read, with their positions. -/
abbrev TargetCache (V : ℕ) := List (Fin V × ℕ)

/-- A deterministic target model: next-token logits and a hidden state for the
last of the token/position pairs it attends to. -/
structure TargetModel (V : ℕ) (K H : Type) where
  logits : TargetCache V → Fin V → K
  hidden : TargetCache V → H

/-- `target_output`: one row per token of the call. -/
structure TargetOutput (V : ℕ) (K H : Type) where
  logits : List (Fin V → K)
  hiddenStates : List H

variable {V : ℕ} {K H Ω : Type}

/-- One forward pass: row `j` attends to the cache and to the call's first
`j + 1` tokens, and the cache takes in the whole call. -/
def TargetModel.call (model : TargetModel V K H) (inputIds : List (Fin V)) (positionIds : List ℕ)
    (cache : TargetCache V) : Except DecodeError (TargetOutput V K H × TargetCache V) :=
  if inputIds.length = positionIds.length then
    let entries := inputIds.zip positionIds
    let seen := (List.range inputIds.length).map fun j => cache ++ entries.take (j + 1)
    .ok (⟨seen.map model.logits, seen.map model.hidden⟩, cache ++ entries)
  else .error .shape

/-- `DraftProposal`. -/
structure DraftProposal (V : ℕ) (K : Type) [Zero K] [LE K] where
  draftTokenCount : ℕ
  verifyInputIds : List (Fin V)
  draftProbs : Option (List (Probs V K))

/-- `VerificationResult`. -/
structure VerificationResult (V : ℕ) (K H : Type) [Zero K] [LE K] where
  targetOutput : TargetOutput V K H
  targetProbs : List (Probs V K)
  acceptPrefixMask : Option (List ℕ)
  acceptedDraftTokens : ℕ
  nextToken : Fin V
  effectiveProposalLength : ℕ
  terminatedByStopToken : Bool
  committedTokens : List (Fin V)

variable [Field K] [LinearOrder K]

/-- `gather_token_probs`: the entry of each row at its token. -/
def gatherTokenProbs (probs : List (Probs V K)) (tokenIds : List (Fin V)) : List K :=
  List.zipWith (fun row t => row.val t) probs tokenIds

/-- The acceptance probabilities of the proposed tokens: the ratio of the target
and draft probabilities, the draft one clamped from below at `1e-8`, at most one. -/
def acceptProb (targetProbs draftProbs : List (Probs V K)) (proposed : List (Fin V)) : List K :=
  List.zipWith (fun p q => min (p / max q clampMin) 1)
    (gatherTokenProbs targetProbs.dropLast proposed) (gatherTokenProbs draftProbs proposed)

/-- `torch.rand_like(accept_prob) < accept_prob`, with `coins i` the draw of
position `i`. -/
def acceptMask (coins : ℕ → K) (accept : List K) : List Bool :=
  accept.mapIdx fun i a => decide (coins i < a)

/-- The position of the first stop token of a run, `eos_hits[0]`. -/
def firstStop (stopTokenIds : Option (List (Fin V))) (tokenIds : List (Fin V)) : Option ℕ :=
  match stopTokenIds with
  | none => none
  | some stops => tokenIds.findIdx? (· ∈ stops)

/-- Is `t` one of the stop tokens? -/
def isStopToken (stopTokenIds : Option (List (Fin V))) (t : Fin V) : Bool :=
  match stopTokenIds with
  | none => false
  | some stops => decide (t ∈ stops)

/-- `has_stop_token`. -/
def hasStopToken (tokenIds : List (Fin V)) (stopTokenIds : Option (List (Fin V))) : Bool :=
  match stopTokenIds with
  | none => false
  | some stops => tokenIds.any (· ∈ stops)

/-- Everything `generate_decoding_sample` is configured with. -/
structure DecodingConfig (V : ℕ) (K H Ω : Type) [Field K] [LinearOrder K] where
  targetModel : TargetModel V K H
  softmax : (Fin V → K) → Probs V K
  multinomial : Multinomial V K Ω
  temperature : K
  maxNewTokens : ℕ
  maxProposalTokens : ℕ
  stopTokenIds : Option (List (Fin V))

/-- The random draws of one verification: one uniform number per proposed token
and the generator's draw for the next token. -/
structure VerifyDraws (K Ω : Type) where
  coins : ℕ → K
  ω : Ω

/-- The rows `draft_probs` a proposal with tokens must carry; none are looked at
when nothing is proposed. -/
def requireDraftProbs (proposal : DraftProposal V K) : Except DecodeError (List (Probs V K)) :=
  if 0 < proposal.draftTokenCount then
    match proposal.draftProbs with
    | none => .error .draftProbs
    | some rows => .ok rows
  else .ok []

variable [IsStrictOrderedRing K]

/-- The next token after `accepted` accepted ones: a residual draw when a proposed
token was not accepted, otherwise a draw from the last target row. -/
def drawNextToken (M : Multinomial V K Ω) (targetProbs draftProbs : List (Probs V K))
    (draftTokenCount accepted : ℕ) (ω : Ω) : Except DecodeError (Fin V) :=
  if 0 < draftTokenCount ∧ accepted < draftTokenCount then
    match targetProbs[accepted]?, draftProbs[accepted]? with
    | some target, some draft => .ok (sampleResidual M target draft ω)
    | _, _ => .error .index
  else
    match targetProbs.getLast? with
    | some target => .ok (sampleFromProbs M target ω)
    | none => .error .index

variable [NeZero V]

/-- `verify_draft_tokens`; the second component is the target cache it leaves. -/
def verifyDraftTokens (cfg : DecodingConfig V K H Ω) (proposal : DraftProposal V K)
    (positionIds : List ℕ) (start : ℕ) (cache : TargetCache V) (currentTokenIds : List (Fin V))
    (draws : VerifyDraws K Ω) :
    Except DecodeError (VerificationResult V K H × TargetCache V) := do
  if cfg.maxProposalTokens < proposal.draftTokenCount then
    throw (.draftTokenCount cfg.maxProposalTokens proposal.draftTokenCount)
  if proposal.verifyInputIds.take 1 ≠ currentTokenIds then
    throw .verifyInputIds
  let verifyPositionIds := slice positionIds start (start + (proposal.draftTokenCount + 1))
  let (output, cache) ← cfg.targetModel.call proposal.verifyInputIds verifyPositionIds cache
  let targetProbs := output.logits.map (logitsToProbs cfg.softmax · cfg.temperature)
  let draftProbs ← requireDraftProbs proposal
  let proposed := proposal.verifyInputIds.drop 1
  let mask := if 0 < proposal.draftTokenCount then
    LeadingRun.cumprod
      ((acceptMask draws.coins (acceptProb targetProbs draftProbs proposed)).map Bool.toNat)
    else []
  -- `eos_hits` looks at the accepted slice only; without stop tokens it is empty
  let eos := firstStop cfg.stopTokenIds (slice proposal.verifyInputIds 1 (mask.sum + 1))
  let accepted := match eos with
    | some eosPos => eosPos + 1
    | none => mask.sum
  let effective := match eos with
    | some eosPos => eosPos + 1
    | none => proposal.draftTokenCount
  let nextToken ← drawNextToken cfg.multinomial targetProbs draftProbs proposal.draftTokenCount
    accepted draws.ω
  return ({ targetOutput := output
            targetProbs := targetProbs
            acceptPrefixMask := if 0 < proposal.draftTokenCount then some mask else none
            acceptedDraftTokens := accepted
            nextToken := nextToken
            effectiveProposalLength := effective
            terminatedByStopToken := eos.isSome
            committedTokens := slice proposal.verifyInputIds 1 (accepted + 1) ++ [nextToken] },
          cache)

/-! ### What a well-formed proposal gives -/

omit [IsStrictOrderedRing K] [NeZero V] in
/-- **A well-formed proposal**: it starts with the current token, proposes
`draft_token_count` more tokens, no more than allowed, and carries one draft row
per proposed token. -/
structure DraftProposal.WellFormed (proposal : DraftProposal V K) (maxProposalTokens : ℕ)
    (current : Fin V) : Prop where
  count_le : proposal.draftTokenCount ≤ maxProposalTokens
  head : proposal.verifyInputIds.take 1 = [current]
  length : proposal.verifyInputIds.length = proposal.draftTokenCount + 1
  probs : 0 < proposal.draftTokenCount →
    ∃ rows, proposal.draftProbs = some rows ∧ rows.length = proposal.draftTokenCount

/-- The target row that tests position `j` of a call on top of `cache`. -/
def DecodingConfig.rowProbs (cfg : DecodingConfig V K H Ω) (cache entries : TargetCache V) (j : ℕ) :
    Probs V K :=
  logitsToProbs cfg.softmax (cfg.targetModel.logits (cache ++ entries.take (j + 1))) cfg.temperature

omit [IsStrictOrderedRing K] [NeZero V] in
/-- The number of proposed tokens that pass their tests, before any stop token is
looked for: `P j` is the target row of position `j`. -/
def rawAccepted (P : ℕ → Probs V K) (rows : List (Probs V K)) (x : List (Fin V)) (coins : ℕ → K) :
    ℕ :=
  leadingRun (acceptMask coins (acceptProb ((List.range (x.length + 1)).map P) rows x))

omit [IsStrictOrderedRing K] [NeZero V] [Field K] [LinearOrder K] in
/-- The accepted run after it is cut at a stop token. -/
def cutAtStop (stopTokenIds : Option (List (Fin V))) (x : List (Fin V)) (accepted : ℕ) : ℕ :=
  match firstStop stopTokenIds (x.take accepted) with
  | some eosPos => eosPos + 1
  | none => accepted

omit [NeZero V] in
/-- The next token of a well-formed proposal: a residual draw against the draft
row of the first unaccepted token, or a draw from the last row. -/
def nextTokenOf (M : Multinomial V K Ω) (P : ℕ → Probs V K) (rows : List (Probs V K))
    (accepted : ℕ) (ω : Ω) : Fin V :=
  match rows[accepted]? with
  | some draft => sampleResidual M (P accepted) draft ω
  | none => sampleFromProbs M (P rows.length) ω

omit [IsStrictOrderedRing K] [NeZero V] in
theorem length_acceptProb (P : ℕ → Probs V K) {rows : List (Probs V K)} {x : List (Fin V)}
    (h : rows.length = x.length) :
    (acceptProb ((List.range (x.length + 1)).map P) rows x).length = x.length := by
  simp [acceptProb, gatherTokenProbs, h]

omit [IsStrictOrderedRing K] [NeZero V] in
/-- The test of position `i`: its coin against the clamped ratio of the two
probabilities of the proposed token. -/
theorem getElem?_acceptMask (P : ℕ → Probs V K) (rows : List (Probs V K)) (x : List (Fin V))
    (coins : ℕ → K) (i : ℕ) :
    (acceptMask coins (acceptProb ((List.range (x.length + 1)).map P) rows x))[i]? =
      match x[i]?, rows[i]? with
      | some t, some q =>
        some (decide (coins i < min ((P i).val t / max (q.val t) clampMin) 1))
      | _, _ => none := by
  have hdrop : ((List.range (x.length + 1)).map P).dropLast = (List.range x.length).map P := by
    rw [List.range_succ, List.map_append, List.map_singleton, List.dropLast_concat]
  simp only [acceptMask, acceptProb, gatherTokenProbs, hdrop, List.getElem?_mapIdx,
    List.getElem?_zipWith, List.getElem?_map]
  cases hx : x[i]? with
  | none => simp
  | some t =>
    have hi : i < x.length := (List.getElem?_eq_some_iff.mp hx).1
    rw [List.getElem?_range hi]
    cases rows[i]? with
    | none => rfl
    | some q => rfl

omit [IsStrictOrderedRing K] [NeZero V] in
theorem rawAccepted_le (P : ℕ → Probs V K) {rows : List (Probs V K)} {x : List (Fin V)}
    (h : rows.length = x.length) (coins : ℕ → K) : rawAccepted P rows x coins ≤ x.length := by
  refine (leadingRun_le_length _).trans ?_
  rw [acceptMask, List.length_mapIdx, length_acceptProb P h]

omit [IsStrictOrderedRing K] [NeZero V] [Field K] [LinearOrder K] in
theorem cutAtStop_le (stopTokenIds : Option (List (Fin V))) (x : List (Fin V)) (accepted : ℕ) :
    cutAtStop stopTokenIds x accepted ≤ accepted := by
  unfold cutAtStop
  split
  · rename_i e he
    unfold firstStop at he
    split at he
    · cases he
    · have := (List.findIdx?_eq_some_iff_findIdx_eq.mp he).1
      simp only [List.length_take] at this
      omega
  · exact Nat.le_refl _

omit [IsStrictOrderedRing K] [NeZero V] [Field K] [LinearOrder K] in
theorem cutAtStop_of_no_stops {stopTokenIds : Option (List (Fin V))}
    (h : stopTokenIds.getD [] = []) (x : List (Fin V)) (accepted : ℕ) :
    cutAtStop stopTokenIds x accepted = accepted := by
  cases stopTokenIds with
  | none => rfl
  | some stops =>
    obtain rfl : stops = [] := h
    have hnone : firstStop (some ([] : List (Fin V))) (x.take accepted) = none :=
      List.findIdx?_eq_none_iff.mpr fun t _ => by simp
    rw [cutAtStop, hnone]

omit [NeZero V] in
theorem drawNextToken_ok (M : Multinomial V K Ω) (P : ℕ → Probs V K) {rows : List (Probs V K)}
    {n accepted : ℕ} (hrows : rows.length = n) (hacc : accepted ≤ n) (ω : Ω) :
    drawNextToken M ((List.range (n + 1)).map P) rows n accepted ω =
      .ok (nextTokenOf M P rows accepted ω) := by
  unfold drawNextToken nextTokenOf
  by_cases hlt : accepted < n
  · obtain ⟨row, hrow⟩ : ∃ row, rows[accepted]? = some row :=
      ⟨_, List.getElem?_eq_getElem (by omega)⟩
    have htarget : ((List.range (n + 1)).map P)[accepted]? = some (P accepted) := by
      simp [show accepted < n + 1 by omega]
    rw [if_pos ⟨by omega, hlt⟩, htarget, hrow]
  · have hrow : rows[accepted]? = none := List.getElem?_eq_none (by omega)
    rw [if_neg (fun h => hlt h.2), hrow, List.range_succ, List.map_append, List.map_singleton,
      List.getLast?_concat, hrows]

omit [Field K] [LinearOrder K] [IsStrictOrderedRing K] [NeZero V] in
theorem TargetModel.call_ok (model : TargetModel V K H) {inputIds : List (Fin V)}
    {positionIds : List ℕ} (cache : TargetCache V) (h : inputIds.length = positionIds.length) :
    model.call inputIds positionIds cache =
      .ok (⟨(List.range inputIds.length).map
              (fun j => model.logits (cache ++ (inputIds.zip positionIds).take (j + 1))),
            (List.range inputIds.length).map
              (fun j => model.hidden (cache ++ (inputIds.zip positionIds).take (j + 1)))⟩,
        cache ++ inputIds.zip positionIds) := by
  simp [TargetModel.call, h]

/-- What `verify_draft_tokens` returns for the proposed tokens `x` with draft rows
`rows`, when the call's token/position pairs are `entries`. -/
def verifyResult (cfg : DecodingConfig V K H Ω) (cache entries : TargetCache V) (x : List (Fin V))
    (rows : List (Probs V K)) (draws : VerifyDraws K Ω) : VerificationResult V K H :=
  let P := cfg.rowProbs cache entries
  let raw := rawAccepted P rows x draws.coins
  let accepted := cutAtStop cfg.stopTokenIds x raw
  let nextToken := nextTokenOf cfg.multinomial P rows accepted draws.ω
  { targetOutput :=
      ⟨(List.range (x.length + 1)).map
          (fun j => cfg.targetModel.logits (cache ++ entries.take (j + 1))),
        (List.range (x.length + 1)).map
          (fun j => cfg.targetModel.hidden (cache ++ entries.take (j + 1)))⟩
    targetProbs := (List.range (x.length + 1)).map P
    acceptPrefixMask := if 0 < x.length then
        some (LeadingRun.cumprod ((acceptMask draws.coins
          (acceptProb ((List.range (x.length + 1)).map P) rows x)).map Bool.toNat))
      else none
    acceptedDraftTokens := accepted
    nextToken := nextToken
    effectiveProposalLength := match firstStop cfg.stopTokenIds (x.take raw) with
      | some eosPos => eosPos + 1
      | none => x.length
    terminatedByStopToken := (firstStop cfg.stopTokenIds (x.take raw)).isSome
    committedTokens := x.take accepted ++ [nextToken] }

/-- No more tokens are accepted than were proposed. -/
theorem verifyResult_accepted_le (cfg : DecodingConfig V K H Ω) (cache entries : TargetCache V)
    {x : List (Fin V)} {rows : List (Probs V K)} (h : rows.length = x.length)
    (draws : VerifyDraws K Ω) :
    (verifyResult cfg cache entries x rows draws).acceptedDraftTokens ≤ x.length :=
  (cutAtStop_le cfg.stopTokenIds x _).trans (rawAccepted_le _ h draws.coins)

/-- **`verify_draft_tokens` on a well-formed proposal** whose positions are in
bounds raises nothing and returns `verifyResult`. -/
theorem verifyDraftTokens_ok (cfg : DecodingConfig V K H Ω) {proposal : DraftProposal V K}
    {current : Fin V} {positionIds : List ℕ} {start : ℕ} (cache : TargetCache V)
    (draws : VerifyDraws K Ω) (hwf : proposal.WellFormed cfg.maxProposalTokens current)
    (hpos : (slice positionIds start (start + (proposal.draftTokenCount + 1))).length =
      proposal.draftTokenCount + 1) :
    ∃ x rows, proposal.verifyInputIds = current :: x ∧ x.length = proposal.draftTokenCount ∧
      rows.length = x.length ∧ (x ≠ [] → proposal.draftProbs = some rows) ∧
      let entries := (current :: x).zip (slice positionIds start (start + (x.length + 1)))
      verifyDraftTokens cfg proposal positionIds start cache [current] draws =
        .ok (verifyResult cfg cache entries x rows draws, cache ++ entries) := by
  obtain ⟨hcount, hhead, hlen, hprobs⟩ := hwf
  obtain ⟨c, x, hids⟩ := List.exists_cons_of_length_eq_add_one hlen
  obtain rfl : c = current := by
    rw [hids] at hhead
    simpa using hhead
  have hxlen : proposal.draftTokenCount = x.length := by
    rw [hids] at hlen
    simpa using hlen.symm
  rw [hxlen] at hpos hcount
  obtain ⟨rows, hreq, hrl, hsome⟩ : ∃ rows, requireDraftProbs proposal = .ok rows ∧
      rows.length = x.length ∧ (x ≠ [] → proposal.draftProbs = some rows) := by
    by_cases h0 : 0 < proposal.draftTokenCount
    · obtain ⟨rows, hrows, hl⟩ := hprobs h0
      exact ⟨rows, by simp [requireDraftProbs, h0, hrows], by rw [hl, hxlen], fun _ => hrows⟩
    · have hx : x = [] := List.length_eq_zero_iff.mp (by omega)
      exact ⟨[], by simp [requireDraftProbs, h0], by simp [hx], fun h => absurd hx h⟩
  refine ⟨x, rows, hids, hxlen.symm, hrl, hsome, ?_⟩
  intro entries
  have hwidth : (c :: x).length = (slice positionIds start (start + (x.length + 1))).length :=
    (List.length_cons ..).trans hpos.symm
  have hcall := cfg.targetModel.call_ok cache hwidth
  have hmask : (if 0 < x.length then
      LeadingRun.cumprod ((acceptMask draws.coins
        (acceptProb ((List.range (x.length + 1)).map (cfg.rowProbs cache entries)) rows x)).map
          Bool.toNat) else []).sum =
          rawAccepted (cfg.rowProbs cache entries) rows x draws.coins := by
    split
    · exact sum_cumprod _
    · have hx : x = [] := List.length_eq_zero_iff.mp (by omega)
      subst hx
      rfl
  have hle := (cutAtStop_le cfg.stopTokenIds x _).trans
    (rawAccepted_le (cfg.rowProbs cache entries) hrl draws.coins)
  have hnext := drawNextToken_ok cfg.multinomial (cfg.rowProbs cache entries) hrl hle draws.ω
  have hrows : ((List.range (c :: x).length).map fun j => cfg.targetModel.logits
      (cache ++ ((c :: x).zip (slice positionIds start (start + (x.length + 1)))).take (j + 1))).map
        (logitsToProbs cfg.softmax · cfg.temperature) =
      (List.range (x.length + 1)).map (cfg.rowProbs cache entries) := by
    rw [List.map_map]
    rfl
  have hslice : ∀ k, slice (c :: x) 1 (k + 1) = x.take k := fun _ => rfl
  have hhead' : (c :: x).take 1 = [c] := rfl
  have hdrop : (c :: x).drop 1 = x := rfl
  unfold cutAtStop at hnext
  unfold verifyDraftTokens
  rw [hids, hxlen]
  simp only [not_lt.mpr hcount, hreq, hcall, hhead', hdrop, hrows, hslice, hmask, hnext, if_false,
    ne_eq, not_true_eq_false, bind, Except.bind, pure, Except.pure]
  have hpre : (if 0 < x.length then some (if 0 < x.length then
      LeadingRun.cumprod ((acceptMask draws.coins
        (acceptProb ((List.range (x.length + 1)).map (cfg.rowProbs cache entries)) rows x)).map
          Bool.toNat) else []) else none) =
      (verifyResult cfg cache entries x rows draws).acceptPrefixMask := by
    unfold verifyResult
    split <;> rfl
  rw [hpre]
  rfl

end LatentSpec
