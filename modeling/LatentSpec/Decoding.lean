import LatentSpec.Verify
import LatentSpec.WhileLoop

/-! # The speculative decoding loop

`generate_decoding_sample` of `deepspec/eval/base_evaluator.py`, at batch size one,
with its three callbacks gathered in a `Drafter`.  The output buffer is a list of
fixed length whose unwritten cells hold whatever the fresh memory held; writes into
it raise when they do not fit, which is stricter than a tensor assignment (that
would broadcast a single column).  A run reads its random numbers from `LoopDraws`,
one `VerifyDraws` per round.

`iteration_eq` says once what one iteration does to the loop state when its proposal
is well formed; every invariant of the loop is derived from it.
-/
namespace LatentSpec

/-- `output_ids[:, a:b] = values`. -/
def assignSlice {α : Type} (xs : List α) (a b : ℕ) (values : List α) :
    Except DecodeError (List α) :=
  if (slice xs a b).length = values.length then .ok (xs.take a ++ values ++ xs.drop b)
  else .error .shape

/-- `output_ids[:, i] = value`. -/
def assignIndex {α : Type} (xs : List α) (i : ℕ) (value : α) : Except DecodeError (List α) :=
  if i < xs.length then .ok (xs.set i value) else .error .index

/-- `DynamicCache.crop`. -/
def TargetCache.crop {V : ℕ} (cache : TargetCache V) (n : ℕ) : TargetCache V := cache.take n

variable {V : ℕ} {K H Ω Ctx : Type}

/-- `trim_output_ids`. -/
def trimOutputIds (outputIds : List (Fin V)) (numInputTokens : ℕ)
    (stopTokenIds : Option (List (Fin V))) : List (Fin V) :=
  match firstStop stopTokenIds (outputIds.drop numInputTokens) with
  | none => outputIds
  | some i => outputIds.take (numInputTokens + i + 1)

/-- What `generate_decoding_sample` returns. -/
structure DecodingSample (V : ℕ) where
  outputIds : List (Fin V)
  numInputTokens : ℕ
  numOutputTokens : ℕ
  acceptanceLengths : List ℕ
  proposalLengths : List ℕ
  acceptedDraftLengths : List ℕ
  verifyCount : ℕ

/-- The returned record for the final `outputIds`; `verify_count` is the number of
recorded proposals, zero at the early return. -/
def DecodingSample.of (outputIds : List (Fin V)) (numInputTokens : ℕ)
    (acceptanceLengths proposalLengths acceptedDraftLengths : List ℕ) : DecodingSample V where
  outputIds := outputIds
  numInputTokens := numInputTokens
  numOutputTokens := outputIds.length - numInputTokens
  acceptanceLengths := acceptanceLengths
  proposalLengths := proposalLengths
  acceptedDraftLengths := acceptedDraftLengths
  verifyCount := proposalLengths.length

/-- The variables the loop carries. -/
structure LoopState (V : ℕ) (Ctx : Type) where
  outputIds : List (Fin V)
  start : ℕ
  cache : TargetCache V
  context : Ctx
  acceptanceLengths : List ℕ
  proposalLengths : List ℕ
  acceptedDraftLengths : List ℕ

/-- The random draws of a run: the generator's draw for the first token and those
of each verification round. -/
structure LoopDraws (K Ω : Type) where
  first : Ω
  round : ℕ → VerifyDraws K Ω

variable [Field K] [LinearOrder K]

/-- The callbacks.  `propose` may change the context it is given. -/
structure Drafter (V : ℕ) (K H Ctx : Type) [Zero K] [LE K] where
  initContext : TargetOutput V K H → List (Fin V) → List ℕ → ℕ → Ctx
  propose : Ctx → List (Fin V) → List ℕ → ℕ → Option (List (Fin V)) →
    Except DecodeError (DraftProposal V K × Ctx)
  update : Ctx → VerificationResult V K H → Ctx

variable [IsStrictOrderedRing K] [NeZero V]

/-- The loop body; the flag it returns is its `break`. -/
def iteration (cfg : DecodingConfig V K H Ω) (drafter : Drafter V K H Ctx) (draws : LoopDraws K Ω)
    (positionIds : List ℕ) (s : LoopState V Ctx) :
    Except DecodeError (LoopState V Ctx × Bool) := do
  let (proposal, context) ←
    drafter.propose s.context s.outputIds positionIds s.start cfg.stopTokenIds
  let (verification, cache) ← verifyDraftTokens cfg proposal positionIds s.start s.cache
    (slice s.outputIds s.start (s.start + 1)) (draws.round s.proposalLengths.length)
  let proposalLengths := s.proposalLengths ++ [verification.effectiveProposalLength]
  let accepted := verification.acceptedDraftTokens
  let acceptedDraftLengths := s.acceptedDraftLengths ++ [accepted]
  let outputIds ← assignSlice s.outputIds s.start (s.start + accepted + 1)
    (proposal.verifyInputIds.take (accepted + 1))
  if verification.terminatedByStopToken then
    return ({ outputIds := outputIds
              start := s.start + accepted
              cache := cache.crop (s.start + accepted)
              context := context
              acceptanceLengths := s.acceptanceLengths ++ [accepted]
              proposalLengths := proposalLengths
              acceptedDraftLengths := acceptedDraftLengths }, true)
  let outputIds ← assignIndex outputIds (s.start + accepted + 1) verification.nextToken
  let newTokenIds := slice outputIds (s.start + 1) (s.start + accepted + 2)
  return ({ outputIds := outputIds
            start := s.start + (accepted + 1)
            cache := cache.crop (s.start + (accepted + 1))
            context := drafter.update context verification
            acceptanceLengths := s.acceptanceLengths ++ [accepted + 1]
            proposalLengths := proposalLengths
            acceptedDraftLengths :=
            acceptedDraftLengths }, hasStopToken newTokenIds cfg.stopTokenIds)

/-- `position_ids`. -/
def DecodingConfig.positionIds (cfg : DecodingConfig V K H Ω) (inputIds : List (Fin V)) : List ℕ :=
  List.range (inputIds.length + cfg.maxNewTokens + cfg.maxProposalTokens + 1)

/-- Everything before the loop: the prefill call, the first token and the
context.  `.inl` is the early return on a stop token, `.inr` the state in which
the loop starts. -/
def prefill (cfg : DecodingConfig V K H Ω) (drafter : Drafter V K H Ctx) (draws : LoopDraws K Ω)
    (fresh : ℕ → Fin V) (inputIds : List (Fin V)) :
    Except DecodeError (DecodingSample V ⊕ LoopState V Ctx) := do
  let n := inputIds.length
  let positionIds := cfg.positionIds inputIds
  let outputIds := (List.range positionIds.length).map fresh
  let (output, cache) ← cfg.targetModel.call inputIds (slice positionIds 0 n) []
  -- `logits_to_keep=1`
  let output := { output with logits := output.logits.drop (output.logits.length - 1) }
  let outputIds ← assignSlice outputIds 0 n inputIds
  let outputIds ← assignSlice outputIds n (n + 1) (output.logits.map fun row =>
    sampleFromProbs cfg.multinomial (logitsToProbs cfg.softmax row cfg.temperature) draws.first)
  if hasStopToken (slice outputIds n (n + 1)) cfg.stopTokenIds then
    return .inl (.of (trimOutputIds (outputIds.take (n + 1)) n cfg.stopTokenIds) n [] [] [])
  return .inr { outputIds := outputIds
                start := n
                cache := cache
                context := drafter.initContext output outputIds positionIds n
                acceptanceLengths := []
                proposalLengths := []
                acceptedDraftLengths := [] }

/-- The loop condition, `start < max_length`. -/
def LoopState.running (maxLength : ℕ) (s : LoopState V Ctx) : Bool := decide (s.start < maxLength)

/-- What is returned after the loop. -/
def finish (cfg : DecodingConfig V K H Ω) (inputIds : List (Fin V)) (s : LoopState V Ctx) :
    DecodingSample V :=
  let n := inputIds.length
  .of (trimOutputIds (s.outputIds.take (min (s.start + 1) (n + cfg.maxNewTokens))) n
    cfg.stopTokenIds) n s.acceptanceLengths s.proposalLengths s.acceptedDraftLengths

/-- `generate_decoding_sample`.  Every iteration that does not break advances
`start`, so `max_new_tokens` iterations are enough. -/
def generateDecodingSample (cfg : DecodingConfig V K H Ω) (drafter : Drafter V K H Ctx)
    (draws : LoopDraws K Ω) (fresh : ℕ → Fin V) (inputIds : List (Fin V)) :
    Except DecodeError (DecodingSample V) := do
  if cfg.maxProposalTokens < 1 then
    throw .maxProposalTokens
  match ← prefill cfg drafter draws fresh inputIds with
  | .inl sample => return sample
  | .inr s =>
    let s ← WhileLoop.run (LoopState.running (inputIds.length + cfg.maxNewTokens))
      (iteration cfg drafter draws (cfg.positionIds inputIds)) .fuel cfg.maxNewTokens s
    return finish cfg inputIds s

/-! ### What one iteration does -/

section Buffers
variable {α : Type}

theorem slice_range (N start n : ℕ) (h : start + n ≤ N) :
    slice (List.range N) start (start + n) = List.range' start n := by
  rw [slice, List.take_range, Nat.min_eq_left h, List.range_eq_range', List.drop_range']
  simp

theorem take_zipIdx (xs : List α) (k n : ℕ) : (xs.zipIdx k).take n = (xs.take n).zipIdx k := by
  refine List.ext_getElem? fun i => ?_
  rw [List.getElem?_take, List.getElem?_zipIdx, List.getElem?_zipIdx, List.getElem?_take]
  split <;> rfl

/-- The keys seen by row `j` of a call that continues a cached prefix are those of
the prefix and the call's first tokens. -/
theorem zipIdx_append_take (tokens : List α) (current : α) (x : List α) (j : ℕ) :
    tokens.zipIdx ++ ((current :: x).zipIdx tokens.length).take (j + 1) =
      (tokens ++ [current] ++ x.take j).zipIdx := by
  rw [List.append_assoc, List.singleton_append, List.zipIdx_append, Nat.zero_add, take_zipIdx,
    List.take_succ_cons]

theorem assignSlice_ok (xs values : List α) {a b : ℕ} (hb : b = a + values.length)
    (h : b ≤ xs.length) : assignSlice xs a b values = .ok (xs.take a ++ values ++ xs.drop b) := by
  rw [assignSlice, length_slice, Nat.min_eq_left h, if_pos (by omega)]

theorem assignIndex_ok (xs : List α) (i : ℕ) (value : α) (h : i < xs.length) :
    assignIndex xs i value = .ok (xs.take i ++ [value] ++ xs.drop (i + 1)) := by
  rw [assignIndex, if_pos h, List.set_eq_take_append_cons_drop, if_pos h]
  simp

omit [Field K] [LinearOrder K] [IsStrictOrderedRing K] [NeZero V]

/-- The output buffer with `tokens` written from `start` on. -/
def LoopState.written (s : LoopState V Ctx) (tokens : List (Fin V)) : List (Fin V) :=
  s.outputIds.take s.start ++ tokens ++ s.outputIds.drop (s.start + tokens.length)

theorem LoopState.length_written (s : LoopState V Ctx) (tokens : List (Fin V))
    (h : s.start + tokens.length ≤ s.outputIds.length) :
    (s.written tokens).length = s.outputIds.length := by
  simp only [written, List.length_append, List.length_take, List.length_drop]
  omega

theorem LoopState.take_written (s : LoopState V Ctx) (tokens : List (Fin V))
    (h : s.start + tokens.length ≤ s.outputIds.length) :
    (s.written tokens).take (s.start + tokens.length) = s.outputIds.take s.start ++ tokens := by
  have hlen : (s.outputIds.take s.start ++ tokens).length = s.start + tokens.length := by
    simp only [List.length_append, List.length_take]
    omega
  rw [written, ← hlen, List.take_left]

/-- One more token after the written ones. -/
theorem LoopState.assignIndex_written (s : LoopState V Ctx) (tokens : List (Fin V)) (t : Fin V)
    (h : s.start + tokens.length < s.outputIds.length) :
    assignIndex (s.written tokens) (s.start + tokens.length) t =
      .ok (s.written (tokens ++ [t])) := by
  rw [assignIndex_ok _ _ _ (by rw [s.length_written tokens h.le]; exact h),
    s.take_written tokens h.le]
  have hdrop : (s.written tokens).drop (s.start + tokens.length + 1) =
      s.outputIds.drop (s.start + (tokens ++ [t]).length) := by
    have hlen : (s.outputIds.take s.start ++ tokens).length = s.start + tokens.length := by
      simp only [List.length_append, List.length_take]
      omega
    rw [written, List.drop_append, List.drop_eq_nil_of_le (by omega), List.drop_drop, hlen]
    simp only [List.nil_append, List.length_append, List.length_singleton]
    congr 1
    omega
  rw [hdrop, written]
  simp only [List.append_assoc]

/-- The tokens written after the first. -/
theorem LoopState.slice_written (s : LoopState V Ctx) (current : Fin V) (tokens : List (Fin V))
    (h : s.start + (tokens.length + 1) ≤ s.outputIds.length) :
    slice (s.written (current :: tokens)) (s.start + 1) (s.start + (tokens.length + 1)) =
    tokens := by
  have htake : (s.written (current :: tokens)).take (s.start + (tokens.length + 1)) =
      s.outputIds.take s.start ++ current :: tokens := s.take_written (current :: tokens) h
  have hlen : (s.outputIds.take s.start).length = s.start := by
    rw [List.length_take]
    omega
  rw [slice, htake, List.drop_append, hlen]
  simp [List.drop_eq_nil_of_le, hlen]

end Buffers

/-- The state after a round that verified the tokens `x` after `current` with
outcome `v` and left the target cache `cache`. -/
def LoopState.advance (s : LoopState V Ctx) (update : Ctx → VerificationResult V K H → Ctx)
    (context : Ctx) (current : Fin V) (x : List (Fin V)) (v : VerificationResult V K H)
    (cache : TargetCache V) (stopTokenIds : Option (List (Fin V))) : LoopState V Ctx × Bool :=
  let accepted := v.acceptedDraftTokens
  let proposalLengths := s.proposalLengths ++ [v.effectiveProposalLength]
  let acceptedDraftLengths := s.acceptedDraftLengths ++ [accepted]
  if v.terminatedByStopToken then
    ({ outputIds := s.written (current :: x.take accepted)
       start := s.start + accepted
       cache := cache.crop (s.start + accepted)
       context := context
       acceptanceLengths := s.acceptanceLengths ++ [accepted]
       proposalLengths := proposalLengths
       acceptedDraftLengths := acceptedDraftLengths }, true)
  else
    ({ outputIds := s.written (current :: x.take accepted ++ [v.nextToken])
       start := s.start + (accepted + 1)
       cache := cache.crop (s.start + (accepted + 1))
       context := update context v
       acceptanceLengths := s.acceptanceLengths ++ [accepted + 1]
       proposalLengths := proposalLengths
       acceptedDraftLengths := acceptedDraftLengths },
      hasStopToken (x.take accepted ++ [v.nextToken]) stopTokenIds)

/-- What the loop keeps about its buffer: it has its full length and a current
token, and there is room for a whole proposal. -/
structure LoopState.Roomy (s : LoopState V Ctx) (maxProposalTokens N : ℕ) (current : Fin V) :
    Prop where
  length : s.outputIds.length = N
  room : s.start + maxProposalTokens + 2 ≤ N
  current : s.outputIds[s.start]? = some current

omit [IsStrictOrderedRing K] [NeZero V] in
/-- What a round writes into the buffer, and what it reads back of it. -/
theorem LoopState.round_eq (s : LoopState V Ctx) (current : Fin V) {x : List (Fin V)}
    (v : VerificationResult V K H) (hroom : s.start + x.length + 2 ≤ s.outputIds.length)
    (hle : v.acceptedDraftTokens ≤ x.length) :
    assignSlice s.outputIds s.start (s.start + v.acceptedDraftTokens + 1)
        ((current :: x).take (v.acceptedDraftTokens + 1)) =
          .ok (s.written (current :: x.take v.acceptedDraftTokens)) ∧
      assignIndex (s.written (current :: x.take v.acceptedDraftTokens))
        (s.start + v.acceptedDraftTokens + 1) v.nextToken =
          .ok (s.written (current :: x.take v.acceptedDraftTokens ++ [v.nextToken])) ∧
      slice (s.written (current :: x.take v.acceptedDraftTokens ++ [v.nextToken]))
        (s.start + 1) (s.start + v.acceptedDraftTokens + 2) =
          x.take v.acceptedDraftTokens ++ [v.nextToken] := by
  have htake : (x.take v.acceptedDraftTokens).length = v.acceptedDraftTokens := by
    rw [List.length_take]; omega
  refine ⟨?_, ?_, ?_⟩
  · rw [List.take_succ_cons, assignSlice_ok]
    · simp only [LoopState.written, List.length_cons, htake, Nat.add_assoc]
    · rw [List.length_cons, htake]; omega
    · omega
  · have := s.assignIndex_written (current :: x.take v.acceptedDraftTokens) v.nextToken
    rw [List.length_cons, htake] at this
    exact this (by omega)
  · have := s.slice_written current (x.take v.acceptedDraftTokens ++ [v.nextToken])
    rw [List.length_append, List.length_singleton, htake] at this
    exact this (by omega)

/-- **One iteration on a well-formed proposal.**  It raises nothing, and the new
state is the old one advanced by what verification returned. -/
theorem iteration_eq (cfg : DecodingConfig V K H Ω) (drafter : Drafter V K H Ctx)
    (draws : LoopDraws K Ω) {s : LoopState V Ctx} {N : ℕ} {current : Fin V}
    (hs : s.Roomy cfg.maxProposalTokens N current) {proposal : DraftProposal V K} {context : Ctx}
    (hpropose : drafter.propose s.context s.outputIds (List.range N) s.start cfg.stopTokenIds =
      .ok (proposal, context)) (hwf : proposal.WellFormed cfg.maxProposalTokens current) :
    ∃ x rows, proposal.verifyInputIds = current :: x ∧ rows.length = x.length ∧
      x.length ≤ cfg.maxProposalTokens ∧
      iteration cfg drafter draws (List.range N) s =
        .ok (s.advance drafter.update context current x
          (verifyResult cfg s.cache ((current :: x).zipIdx s.start) x rows
            (draws.round s.proposalLengths.length))
          (s.cache ++ (current :: x).zipIdx s.start) cfg.stopTokenIds) := by
  obtain ⟨hlen, hroom, hcur⟩ := hs
  have hcount := hwf.count_le
  have hpos : (slice (List.range N) s.start (s.start + (proposal.draftTokenCount + 1))).length =
      proposal.draftTokenCount + 1 := by
    rw [slice_range _ _ _ (by omega), List.length_range']
  obtain ⟨x, rows, hids, hx, hrows, -, hverify⟩ := verifyDraftTokens_ok cfg s.cache
    (draws.round s.proposalLengths.length) hwf hpos
  refine ⟨x, rows, hids, hrows, by omega, ?_⟩
  have hentries : (current :: x).zip (slice (List.range N) s.start (s.start + (x.length + 1))) =
      (current :: x).zipIdx s.start := by
    rw [slice_range _ _ _ (by omega), List.zipIdx_eq_zip_range', List.length_cons]
  have hcurrent : slice s.outputIds s.start (s.start + 1) = [current] := by
    rw [slice, List.take_add_one, hcur, List.drop_append_of_le_length (by simp; omega)]
    simp
  rw [hentries] at hverify
  unfold iteration
  simp only [hpropose, hcurrent, hverify, hids, bind, Except.bind, pure, Except.pure]
  have hle := verifyResult_accepted_le cfg s.cache ((current :: x).zipIdx s.start) hrows
    (draws.round s.proposalLengths.length)
  generalize verifyResult cfg s.cache ((current :: x).zipIdx s.start) x rows
    (draws.round s.proposalLengths.length) = v at hle ⊢
  obtain ⟨hslice, hindex, hnew⟩ := s.round_eq current v (by omega) hle
  rw [hslice]
  cases hstop : v.terminatedByStopToken with
  | true => simp only [LoopState.advance, hstop, if_true]
  | false => simp only [LoopState.advance, hstop, hindex, hnew, Bool.false_eq_true, if_false]

/-- **The target half of the loop invariant**: the buffer has its full length, the
current token is in it, and the target cache holds exactly the keys of the tokens
before it. -/
structure LoopState.Cached (s : LoopState V Ctx) (N : ℕ) : Prop where
  length : s.outputIds.length = N
  start_lt : s.start < N
  cache : s.cache = (s.outputIds.take s.start).zipIdx

section Advance
omit [IsStrictOrderedRing K] [NeZero V]
variable {s : LoopState V Ctx} {N : ℕ} {current : Fin V} {x : List (Fin V)}
  {v : VerificationResult V K H} (update : Ctx → VerificationResult V K H → Ctx) (context : Ctx)
  (stopTokenIds : Option (List (Fin V)))

omit [Field K] [LinearOrder K] in
theorem LoopState.take_current (hcur : s.outputIds[s.start]? = some current) :
    s.outputIds.take (s.start + 1) = s.outputIds.take s.start ++ [current] := by
  rw [List.take_add_one, hcur]
  rfl

/-- The committed tokens stand in the buffer after a round. -/
theorem LoopState.take_advance (hlen : s.outputIds.length = N)
    (hcur : s.outputIds[s.start]? = some current) (hacc : v.acceptedDraftTokens ≤ x.length)
    (hroom : s.start + x.length + 2 ≤ N) (cache : TargetCache V) :
    let s' := (s.advance update context current x v cache stopTokenIds).1
    s'.outputIds.length = N ∧ s'.start < N ∧
      s'.outputIds.take (s'.start + 1) = s.outputIds.take (s.start + 1) ++
        (if v.terminatedByStopToken then x.take v.acceptedDraftTokens
          else x.take v.acceptedDraftTokens ++ [v.nextToken]) := by
  have htake : (x.take v.acceptedDraftTokens).length = v.acceptedDraftTokens := by
    rw [List.length_take]; omega
  have hwritten : ∀ tokens : List (Fin V), tokens.length ≤ x.length + 1 →
      (s.written (current :: tokens)).length = N ∧
      (s.written (current :: tokens)).take (s.start + (tokens.length + 1)) =
        s.outputIds.take (s.start + 1) ++ tokens := by
    intro tokens h
    have hfit : s.start + (current :: tokens).length ≤ s.outputIds.length := by
      rw [List.length_cons]; omega
    refine ⟨(s.length_written _ hfit).trans hlen, ?_⟩
    rw [s.take_current hcur, List.append_assoc, List.singleton_append]
    exact s.take_written _ hfit
  unfold LoopState.advance
  cases v.terminatedByStopToken with
  | true =>
    obtain ⟨hl, ht⟩ := hwritten (x.take v.acceptedDraftTokens) (by omega)
    rw [htake] at ht
    exact ⟨hl, by simp; omega, ht⟩
  | false =>
    obtain ⟨hl, ht⟩ := hwritten (x.take v.acceptedDraftTokens ++ [v.nextToken])
      (by rw [List.length_append, htake, List.length_singleton]; omega)
    rw [List.length_append, htake, List.length_singleton] at ht
    exact ⟨hl, by simp; omega, ht⟩

/-- A round that does not end on a stop token keeps the invariant. -/
theorem LoopState.Cached.advance (hs : s.Cached N) (hcur : s.outputIds[s.start]? = some current)
    (hacc : v.acceptedDraftTokens ≤ x.length) (hroom : s.start + x.length + 2 ≤ N)
    (hstop : v.terminatedByStopToken = false) :
    (s.advance update context current x v (s.cache ++ (current :: x).zipIdx s.start)
      stopTokenIds).1.Cached N := by
  obtain ⟨hlen', hlt', htake⟩ := LoopState.take_advance update context stopTokenIds hs.length hcur
    hacc hroom (s.cache ++ (current :: x).zipIdx s.start)
  refine ⟨hlen', hlt', ?_⟩
  have hstart : (s.outputIds.take s.start).length = s.start := by
    rw [List.length_take, hs.length]
    exact Nat.min_eq_left hs.start_lt.le
  have hcrop : (s.advance update context current x v (s.cache ++ (current :: x).zipIdx s.start)
      stopTokenIds).1.cache =
      (s.outputIds.take s.start ++ [current] ++ x.take v.acceptedDraftTokens).zipIdx := by
    have hkeys := zipIdx_append_take (s.outputIds.take s.start) current x v.acceptedDraftTokens
    rw [hstart] at hkeys
    simp only [LoopState.advance, hstop, Bool.false_eq_true, if_false, TargetCache.crop]
    rw [hs.cache, ← hkeys, List.take_append, List.length_zipIdx, hstart, Nat.add_sub_cancel_left,
      List.take_of_length_le]
    rw [List.length_zipIdx, hstart]
    omega
  have hpre : (s.advance update context current x v (s.cache ++ (current :: x).zipIdx s.start)
      stopTokenIds).1.outputIds.take (s.start + (v.acceptedDraftTokens + 1)) =
      s.outputIds.take s.start ++ [current] ++ x.take v.acceptedDraftTokens := by
    have hlenx : (s.outputIds.take s.start ++ [current] ++ x.take v.acceptedDraftTokens).length =
        s.start + (v.acceptedDraftTokens + 1) := by
      simp only [List.length_append, hstart, List.length_take, List.length_singleton]
      omega
    rw [hstop, s.take_current hcur, if_neg Bool.false_ne_true, ← List.append_assoc] at htake
    have := congrArg (List.take (s.start + (v.acceptedDraftTokens + 1))) htake
    rw [List.take_take, List.take_append_of_le_length hlenx.ge, List.take_of_length_le hlenx.le,
      Nat.min_eq_left] at this
    · exact this
    · simp only [LoopState.advance, hstop, Bool.false_eq_true, if_false]
      omega
  rw [hcrop, ← hpre]
  simp only [LoopState.advance, hstop, Bool.false_eq_true, if_false]

end Advance

/-! ### What the prefill leaves -/

/-- The output of the prefill call: the last logits row and every hidden state. -/
def DecodingConfig.prefillOutput (cfg : DecodingConfig V K H Ω) (inputIds : List (Fin V)) :
    TargetOutput V K H :=
  ⟨[cfg.targetModel.logits inputIds.zipIdx],
    (List.range inputIds.length).map fun j =>
      cfg.targetModel.hidden (inputIds.zipIdx.take (j + 1))⟩

/-- The token drawn from the prefill's logits. -/
def DecodingConfig.firstToken (cfg : DecodingConfig V K H Ω) (inputIds : List (Fin V)) (ω : Ω) :
    Fin V :=
  sampleFromProbs cfg.multinomial
    (logitsToProbs cfg.softmax (cfg.targetModel.logits inputIds.zipIdx) cfg.temperature) ω

/-- The state in which the loop starts; `tail` is the unwritten part of the buffer. -/
def DecodingConfig.startState (cfg : DecodingConfig V K H Ω) (drafter : Drafter V K H Ctx)
    (inputIds : List (Fin V)) (first : Fin V) (tail : List (Fin V)) : LoopState V Ctx where
  outputIds := inputIds ++ first :: tail
  start := inputIds.length
  cache := inputIds.zipIdx
  context := drafter.initContext (cfg.prefillOutput inputIds) (inputIds ++ first :: tail)
    (cfg.positionIds inputIds) inputIds.length
  acceptanceLengths := []
  proposalLengths := []
  acceptedDraftLengths := []

/-- **The prefill** of a non-empty prompt raises nothing; it writes the prompt and
the first token and leaves the prompt's keys in the cache. -/
theorem prefill_eq (cfg : DecodingConfig V K H Ω) (drafter : Drafter V K H Ctx)
    (draws : LoopDraws K Ω) (fresh : ℕ → Fin V) {inputIds : List (Fin V)} (h : inputIds ≠ []) :
    ∃ tail, (inputIds ++ cfg.firstToken inputIds draws.first :: tail).length =
        inputIds.length + cfg.maxNewTokens + cfg.maxProposalTokens + 1 ∧
      prefill cfg drafter draws fresh inputIds =
        .ok (if hasStopToken [cfg.firstToken inputIds draws.first] cfg.stopTokenIds then
          .inl (.of (trimOutputIds (inputIds ++ [cfg.firstToken inputIds draws.first])
            inputIds.length cfg.stopTokenIds) inputIds.length [] [] [])
        else .inr
          (cfg.startState drafter inputIds (cfg.firstToken inputIds draws.first) tail)) := by
  set t := cfg.firstToken inputIds draws.first with ht
  set N := inputIds.length + cfg.maxNewTokens + cfg.maxProposalTokens + 1 with hN
  set buffer := (List.range N).map fresh with hbuffer
  have hlenb : buffer.length = N := by simp [hbuffer]
  have hn : 0 < inputIds.length := List.length_pos_of_ne_nil h
  refine ⟨buffer.drop (inputIds.length + 1), ?_, ?_⟩
  · simp only [List.length_append, List.length_cons, List.length_drop]
    omega
  have hslice : slice (cfg.positionIds inputIds) 0 inputIds.length =
      List.range' 0 inputIds.length := by
    have := slice_range N 0 inputIds.length (by omega)
    rwa [Nat.zero_add] at this
  have hwidth : inputIds.length = (slice (cfg.positionIds inputIds) 0 inputIds.length).length := by
    rw [hslice, List.length_range']
  have hcall := cfg.targetModel.call_ok [] hwidth
  rw [hslice, ← List.zipIdx_eq_zip_range'] at hcall
  have hlogits : ((List.range inputIds.length).map fun j =>
      cfg.targetModel.logits ([] ++ inputIds.zipIdx.take (j + 1))).drop
        (((List.range inputIds.length).map fun j =>
          cfg.targetModel.logits ([] ++ inputIds.zipIdx.take (j + 1))).length - 1) =
      [cfg.targetModel.logits inputIds.zipIdx] := by
    obtain ⟨k, hk⟩ : ∃ k, inputIds.length = k + 1 := ⟨inputIds.length - 1, by omega⟩
    have htop : inputIds.zipIdx.take (k + 1) = inputIds.zipIdx := by
      rw [← hk]
      simp
    have hdrop : ∀ rows : List (Fin V → K), rows.length = k → ∀ row,
        (rows ++ [row]).drop ((rows ++ [row]).length - 1) = [row] := by
      rintro rows rfl row
      simp
    rw [hk, List.range_succ, List.map_append, List.map_singleton, hdrop _ (by simp),
      List.nil_append, htop]
  have hprompt : assignSlice buffer 0 inputIds.length inputIds =
      .ok (inputIds ++ buffer.drop inputIds.length) := by
    rw [assignSlice_ok _ _ (by omega) (by omega)]
    rfl
  have hfirst : assignSlice (inputIds ++ buffer.drop inputIds.length) inputIds.length
      (inputIds.length + 1) [t] = .ok (inputIds ++ t :: buffer.drop (inputIds.length + 1)) := by
    rw [assignSlice_ok _ _ (by simp) (by simp; omega), List.take_left, List.drop_append]
    simp
  have hslot : slice (inputIds ++ t :: buffer.drop (inputIds.length + 1)) inputIds.length
      (inputIds.length + 1) = [t] := by
    rw [slice, List.take_append]
    simp
  have htake : (inputIds ++ t :: buffer.drop (inputIds.length + 1)).take (inputIds.length + 1) =
      inputIds ++ [t] := by
    rw [List.take_append]
    simp
  unfold prefill
  have hposlen : (cfg.positionIds inputIds).length = N := by simp [DecodingConfig.positionIds, hN]
  simp only [hslice, hcall, hlogits, hposlen, ← hbuffer, hprompt, List.map_singleton,
    bind, Except.bind, pure, Except.pure]
  have htoken : sampleFromProbs cfg.multinomial (logitsToProbs cfg.softmax
      (cfg.targetModel.logits inputIds.zipIdx) cfg.temperature) draws.first = t := rfl
  simp only [htoken, hfirst, hslot, htake]
  split <;> rfl

omit [IsStrictOrderedRing K] [NeZero V] in
/-- The loop starts with the target half of its invariant. -/
theorem DecodingConfig.startState_cached (cfg : DecodingConfig V K H Ω)
    (drafter : Drafter V K H Ctx) (inputIds : List (Fin V)) (first : Fin V)
    {tail : List (Fin V)} {N : ℕ} (hlen : (inputIds ++ first :: tail).length = N) :
    (cfg.startState drafter inputIds first tail).Cached N := by
  refine ⟨hlen, ?_, ?_⟩
  · show inputIds.length < N
    rw [← hlen, List.length_append, List.length_cons]
    omega
  · show inputIds.zipIdx = _
    rw [startState, List.take_left]

end LatentSpec
