import LatentSpec.Decoding

/-! # Greedy decoding is lossless

Below temperature `1e-5` every target row is the one-hot row of its argmax, so a
verified token is the argmax of its row whether it was accepted, drawn from the
residual or drawn from the last row (`verifyResult_greedy`).  The loop invariant
`GreedyInv` ties the buffer, `start` and the target cache together: what the buffer
holds up to `start` is the prompt followed by a greedy path, and the cache holds
exactly the keys before `start`.  `generateDecodingSample_greedy` then compares the
run with plain one-token-at-a-time decoding, `greedyDecode`.
-/
namespace LatentSpec
open LeadingRun
open scoped Coins

variable {V : ℕ} {K H Ω Ctx : Type} [LinearOrder K] [NeZero V]

/-- The target's greedy next token after a sequence of tokens. -/
def TargetModel.greedyToken (model : TargetModel V K H) (tokens : List (Fin V)) : Fin V :=
  argmax (model.logits tokens.zipIdx)

/-- **Plain greedy decoding**: one target call per token, up to `n` tokens, ending
after the first stop token. -/
def TargetModel.greedyDecode (model : TargetModel V K H) (stopTokenIds : Option (List (Fin V))) :
    ℕ → List (Fin V) → List (Fin V)
  | 0, _ => []
  | n + 1, tokens =>
    let t := model.greedyToken tokens
    if isStopToken stopTokenIds t then [t]
    else t :: model.greedyDecode stopTokenIds n (tokens ++ [t])

/-- Every token of `xs` is the greedy one after everything before it. -/
def TargetModel.GreedyPath (model : TargetModel V K H) (tokens xs : List (Fin V)) : Prop :=
  ∀ i t, xs[i]? = some t → t = model.greedyToken (tokens ++ xs.take i)

section Paths
variable {model : TargetModel V K H} {tokens xs ys : List (Fin V)}

theorem TargetModel.GreedyPath.append (hx : model.GreedyPath tokens xs)
    (hy : model.GreedyPath (tokens ++ xs) ys) : model.GreedyPath tokens (xs ++ ys) := by
  intro i t hi
  rcases Nat.lt_or_ge i xs.length with hlt | hge
  · rw [List.getElem?_append_left hlt] at hi
    rw [List.take_append_of_le_length hlt.le]
    exact hx i t hi
  · rw [List.getElem?_append_right hge] at hi
    rw [List.take_append, List.take_of_length_le hge, ← List.append_assoc]
    exact hy _ t hi

theorem TargetModel.GreedyPath.take (h : model.GreedyPath tokens xs) (n : ℕ) :
    model.GreedyPath tokens (xs.take n) := by
  intro i t hi
  obtain ⟨hlt, -⟩ := List.getElem?_eq_some_iff.mp hi
  rw [List.length_take] at hlt
  rw [List.getElem?_take_of_lt (by omega)] at hi
  rw [List.take_take, Nat.min_eq_left (by omega)]
  exact h i t hi

theorem TargetModel.greedyPath_cons {t : Fin V} (h : model.GreedyPath tokens (t :: xs)) :
    t = model.greedyToken tokens ∧ model.GreedyPath (tokens ++ [t]) xs := by
  refine ⟨by simpa using h 0 t rfl, fun i s hi => ?_⟩
  have := h (i + 1) s (by simpa using hi)
  simpa using this

end Paths

/-! ### Cutting after the first stop token -/

section Stops
omit [NeZero V]
variable (stopTokenIds : Option (List (Fin V)))

theorem firstStop_cons (t : Fin V) (xs : List (Fin V)) :
    firstStop stopTokenIds (t :: xs) = if isStopToken stopTokenIds t then some 0
      else (firstStop stopTokenIds xs).map (· + 1) := by
  cases stopTokenIds with
  | none => rfl
  | some stops =>
    simp only [firstStop, isStopToken, List.findIdx?_cons]
    by_cases h : t ∈ stops <;> simp [h]

theorem hasStopToken_cons (t : Fin V) (xs : List (Fin V)) :
    hasStopToken (t :: xs) stopTokenIds =
      (isStopToken stopTokenIds t || hasStopToken xs stopTokenIds) := by
  cases stopTokenIds with
  | none => rfl
  | some stops => simp [hasStopToken, isStopToken]

theorem hasStopToken_append (xs ys : List (Fin V)) :
    hasStopToken (xs ++ ys) stopTokenIds =
      (hasStopToken xs stopTokenIds || hasStopToken ys stopTokenIds) := by
  cases stopTokenIds with
  | none => rfl
  | some stops => simp [hasStopToken]

/-- The run up to and including its first stop token holds one. -/
theorem hasStopToken_take_firstStop {xs : List (Fin V)} {i : ℕ}
    (h : firstStop stopTokenIds xs = some i) :
    hasStopToken (xs.take (i + 1)) stopTokenIds = true := by
  induction xs generalizing i with
  | nil =>
    cases stopTokenIds with
    | none => cases h
    | some stops => cases h
  | cons t xs ih =>
    rw [firstStop_cons] at h
    rw [List.take_succ_cons, hasStopToken_cons]
    by_cases ht : isStopToken stopTokenIds t
    · rw [ht, Bool.true_or]
    · rw [if_neg ht] at h
      obtain ⟨j, hj, rfl⟩ := Option.map_eq_some_iff.mp h
      rw [ih hj, Bool.or_true]

/-- The generated part of a trimmed output. -/
theorem trimOutputIds_append (inputIds xs : List (Fin V)) :
    trimOutputIds (inputIds ++ xs) inputIds.length stopTokenIds =
      inputIds ++ match firstStop stopTokenIds xs with
        | none => xs
        | some i => xs.take (i + 1) := by
  unfold trimOutputIds
  rw [List.drop_left]
  cases firstStop stopTokenIds xs with
  | none => rfl
  | some i => simp only [Nat.add_assoc, List.take_length_add_append]

end Stops

/-- **A greedy path, cut like an output, is the greedy decoding**, once it is long
enough or holds a stop token. -/
theorem TargetModel.GreedyPath.trim {model : TargetModel V K H}
    {stopTokenIds : Option (List (Fin V))} {tokens xs : List (Fin V)} {n : ℕ}
    (h : model.GreedyPath tokens xs) (hend : n ≤ xs.length ∨ hasStopToken xs stopTokenIds = true) :
    (match firstStop stopTokenIds (xs.take n) with
      | none => xs.take n
      | some i => (xs.take n).take (i + 1)) = model.greedyDecode stopTokenIds n tokens := by
  induction xs generalizing tokens n with
  | nil =>
    have hstop : hasStopToken ([] : List (Fin V)) stopTokenIds = false := by
      cases stopTokenIds <;> rfl
    obtain rfl : n = 0 := by simpa [hstop] using hend
    cases stopTokenIds <;> rfl
  | cons t xs ih =>
    obtain ⟨ht, htail⟩ := greedyPath_cons h
    cases n with
    | zero => cases stopTokenIds <;> rfl
    | succ n =>
      rw [List.take_succ_cons, firstStop_cons, greedyDecode, ← ht]
      by_cases hs : isStopToken stopTokenIds t
      · simp [hs]
      · rw [if_neg hs, if_neg hs, ← ih htail]
        · cases firstStop stopTokenIds (xs.take n) with
          | none => rfl
          | some i => rfl
        · rw [hasStopToken_cons] at hend
          simpa [hs] using hend

/-! ### A greedy verification -/

variable [Field K] [IsStrictOrderedRing K]

omit [NeZero V] in
/-- A draw against a token the one-hot row gives no weight to never passes. -/
theorem eq_of_lt_oneHot {t s : Fin V} {q u : K} (hu : 0 ≤ u)
    (h : u < min ((oneHot t : Probs V K).val s / max q clampMin) 1) : s = t := by
  by_contra hne
  have hzero : (oneHot t : Probs V K).val s = 0 := if_neg hne
  have := (lt_min_iff.mp h).1
  rw [hzero, zero_div] at this
  exact absurd this (not_lt.mpr hu)

/-- **A greedy verification commits greedy tokens**, whichever of them were
proposed, accepted or redrawn. -/
theorem verifyResult_greedy (cfg : DecodingConfig V K H Ω) (htemp : cfg.temperature < 1 / 100000)
    (tokens : List (Fin V)) (current : Fin V) {x : List (Fin V)} {rows : List (Probs V K)}
    (hrows : rows.length = x.length) (draws : VerifyDraws K Ω) (hcoins : ∀ i, 0 ≤ draws.coins i) :
    let v := verifyResult cfg tokens.zipIdx ((current :: x).zipIdx tokens.length) x rows draws
    cfg.targetModel.GreedyPath (tokens ++ [current])
      (x.take v.acceptedDraftTokens ++ [v.nextToken]) := by
  intro v
  set P := cfg.rowProbs tokens.zipIdx ((current :: x).zipIdx tokens.length) with hP
  have hrow :
      ∀ j, P j = oneHot (cfg.targetModel.greedyToken (tokens ++ [current] ++ x.take j)) := by
    intro j
    rw [hP, DecodingConfig.rowProbs, logitsToProbs_greedy _ _ htemp, zipIdx_append_take]
    rfl
  have hpath : cfg.targetModel.GreedyPath (tokens ++ [current])
      (x.take (rawAccepted P rows x draws.coins)) := by
    intro i t hi
    have hlt : i < rawAccepted P rows x draws.coins := by
      have := (List.getElem?_eq_some_iff.mp hi).1
      rw [List.length_take] at this
      omega
    rw [List.getElem?_take_of_lt hlt] at hi
    rw [List.take_take, Nat.min_eq_left hlt.le]
    have hpass := getElem?_of_lt_leadingRun hlt
    rw [getElem?_acceptMask, hi] at hpass
    cases hq : rows[i]? with
    | none => simp [hq] at hpass
    | some q =>
      simp only [hq, Option.some.injEq, decide_eq_true_eq, hrow i] at hpass
      exact eq_of_lt_oneHot (hcoins i) hpass
  have hle : v.acceptedDraftTokens ≤ rawAccepted P rows x draws.coins :=
    cutAtStop_le cfg.stopTokenIds x _
  have haccepted : cfg.targetModel.GreedyPath (tokens ++ [current])
      (x.take v.acceptedDraftTokens) := by
    have := hpath.take v.acceptedDraftTokens
    rwa [List.take_take, Nat.min_eq_left hle] at this
  have hnext : v.nextToken =
      cfg.targetModel.greedyToken (tokens ++ [current] ++ x.take v.acceptedDraftTokens) := by
    show nextTokenOf cfg.multinomial P rows v.acceptedDraftTokens draws.ω = _
    unfold nextTokenOf
    cases hq : rows[v.acceptedDraftTokens]? with
    | some q =>
      simp only [hrow]
      exact sampleResidual_oneHot _ _ _ _
    | none =>
      have hge : rows.length ≤ v.acceptedDraftTokens := List.getElem?_eq_none_iff.mp hq
      have heq : v.acceptedDraftTokens = rows.length := by
        have := rawAccepted_le P hrows draws.coins
        omega
      simp only [hrow, heq]
      exact sampleFromProbs_oneHot _ _ _
  refine haccepted.append fun i t hi => ?_
  cases i with
  | zero =>
    obtain rfl : v.nextToken = t := by simpa using hi
    simpa using hnext
  | succ i => simp at hi

/-- A verification that ends on a stop token accepted one. -/
theorem hasStopToken_of_terminated (cfg : DecodingConfig V K H Ω) (cache entries : TargetCache V)
    (x : List (Fin V)) (rows : List (Probs V K)) (draws : VerifyDraws K Ω)
    (h : (verifyResult cfg cache entries x rows draws).terminatedByStopToken = true) :
    hasStopToken (x.take (verifyResult cfg cache entries x rows draws).acceptedDraftTokens)
      cfg.stopTokenIds = true := by
  simp only [verifyResult] at h ⊢
  set raw := rawAccepted (cfg.rowProbs cache entries) rows x draws.coins
  obtain ⟨e, he⟩ := Option.isSome_iff_exists.mp h
  have hcut : cutAtStop cfg.stopTokenIds x raw = e + 1 := by rw [cutAtStop, he]
  have hle := cutAtStop_le cfg.stopTokenIds x raw
  have hstop := hasStopToken_take_firstStop cfg.stopTokenIds he
  rwa [List.take_take, Nat.min_eq_left (by omega), ← hcut] at hstop

/-! ### The run -/

/-- **The contract of a drafter**: whatever its context, it proposes at most
`max_proposal_tokens` tokens after the current one, with one draft row each. -/
def Drafter.WellFormed (drafter : Drafter V K H Ctx) (cfg : DecodingConfig V K H Ω) : Prop :=
  ∀ context outputIds positionIds start current, outputIds[start]? = some current →
    ∃ proposal context', drafter.propose context outputIds positionIds start cfg.stopTokenIds =
        .ok (proposal, context') ∧ proposal.WellFormed cfg.maxProposalTokens current

/-- The buffer holds the prompt and a greedy path up to the current token. -/
def GreedyUpTo (cfg : DecodingConfig V K H Ω) (inputIds xs : List (Fin V)) (s : LoopState V Ctx) :
    Prop :=
  s.outputIds.take (s.start + 1) = inputIds ++ xs ∧ cfg.targetModel.GreedyPath inputIds xs

/-- **The loop invariant of greedy decoding.** -/
structure GreedyInv (cfg : DecodingConfig V K H Ω) (inputIds : List (Fin V)) (s : LoopState V Ctx) :
    Prop where
  cached : s.Cached (inputIds.length + cfg.maxNewTokens + cfg.maxProposalTokens + 1)
  path : ∃ xs, GreedyUpTo cfg inputIds xs s

/-- What both exits of the loop establish: the greedy path is long enough, or it
holds a stop token. -/
def GreedyDone (cfg : DecodingConfig V K H Ω) (inputIds : List (Fin V)) (s : LoopState V Ctx) :
    Prop :=
  ∃ xs, GreedyUpTo cfg inputIds xs s ∧
    (cfg.maxNewTokens ≤ xs.length ∨ hasStopToken xs cfg.stopTokenIds = true)

/-- **The step lemma.**  An iteration keeps the invariant and advances `start`, or
breaks with a stop token on the path. -/
theorem GreedyInv.iteration {cfg : DecodingConfig V K H Ω} {drafter : Drafter V K H Ctx}
    {draws : LoopDraws K Ω} {inputIds : List (Fin V)} {s : LoopState V Ctx}
    (htemp : cfg.temperature < 1 / 100000) (hdrafter : drafter.WellFormed cfg)
    (hcoins : ∀ r i, 0 ≤ (draws.round r).coins i) (hs : GreedyInv cfg inputIds s)
    (hrun : s.start < inputIds.length + cfg.maxNewTokens) :
    (∃ s', iteration cfg drafter draws (cfg.positionIds inputIds) s = .ok (s', false) ∧
        GreedyInv cfg inputIds s' ∧ s.start < s'.start) ∨
      ∃ s', iteration cfg drafter draws (cfg.positionIds inputIds) s = .ok (s', true) ∧
        GreedyDone cfg inputIds s' := by
  obtain ⟨hcached, xs, hbuf, hpath⟩ := hs
  set N := inputIds.length + cfg.maxNewTokens + cfg.maxProposalTokens + 1 with hN
  have hlen := hcached.length
  obtain ⟨current, hcur⟩ : ∃ current, s.outputIds[s.start]? = some current :=
    ⟨_, List.getElem?_eq_getElem (by omega)⟩
  obtain ⟨proposal, context, hpropose, hwf⟩ := hdrafter s.context s.outputIds
    (cfg.positionIds inputIds) s.start current hcur
  obtain ⟨x, rows, -, hrows, hx, hiter⟩ := iteration_eq cfg drafter draws
    ⟨hlen, by omega, hcur⟩ hpropose hwf
  have hstart : (s.outputIds.take s.start).length = s.start := by
    rw [List.length_take]; omega
  have hgreedy := verifyResult_greedy cfg htemp (s.outputIds.take s.start) current hrows
    (draws.round s.proposalLengths.length) (hcoins _)
  have hacc := verifyResult_accepted_le cfg s.cache ((current :: x).zipIdx s.start) hrows
    (draws.round s.proposalLengths.length)
  rw [hstart, ← hcached.cache, ← s.take_current hcur, hbuf] at hgreedy
  have hstopped := hasStopToken_of_terminated cfg s.cache ((current :: x).zipIdx s.start) x rows
    (draws.round s.proposalLengths.length)
  rw [DecodingConfig.positionIds, ← hN, hiter]
  generalize verifyResult cfg s.cache ((current :: x).zipIdx s.start) x rows
    (draws.round s.proposalLengths.length) = v at hgreedy hacc hstopped ⊢
  have hroom : s.start + x.length + 2 ≤ N := by omega
  obtain ⟨-, -, htake⟩ := LoopState.take_advance drafter.update context cfg.stopTokenIds hlen hcur
    hacc hroom (s.cache ++ (current :: x).zipIdx s.start)
  rw [hbuf, List.append_assoc] at htake
  cases hstop : v.terminatedByStopToken with
  | true =>
    refine .inr ⟨_, by simp only [LoopState.advance, hstop, if_true]; rfl, ?_⟩
    rw [hstop, if_pos rfl] at htake
    have hacc' := hgreedy.take v.acceptedDraftTokens
    rw [List.take_left' (by rw [List.length_take]; omega)] at hacc'
    refine ⟨xs ++ x.take v.acceptedDraftTokens, ⟨?_, hpath.append hacc'⟩, .inr ?_⟩
    · simpa only [LoopState.advance, hstop, if_true] using htake
    · rw [hasStopToken_append, hstopped hstop, Bool.or_true]
  | false =>
    have hcached' := hcached.advance drafter.update context cfg.stopTokenIds hcur hacc hroom hstop
    rw [hstop, if_neg Bool.false_ne_true] at htake
    have hnew : GreedyUpTo cfg inputIds (xs ++ (x.take v.acceptedDraftTokens ++ [v.nextToken]))
        (s.advance drafter.update context current x v (s.cache ++ (current :: x).zipIdx s.start)
          cfg.stopTokenIds).1 := ⟨htake, hpath.append hgreedy⟩
    have hflag : (s.advance drafter.update context current x v
        (s.cache ++ (current :: x).zipIdx s.start) cfg.stopTokenIds).2 =
          hasStopToken (x.take v.acceptedDraftTokens ++ [v.nextToken]) cfg.stopTokenIds := by
      simp only [LoopState.advance, hstop, Bool.false_eq_true, if_false]
    have hadv : s.start < (s.advance drafter.update context current x v
        (s.cache ++ (current :: x).zipIdx s.start) cfg.stopTokenIds).1.start := by
      simp only [LoopState.advance, hstop, Bool.false_eq_true, if_false]
      omega
    cases hmore : hasStopToken (x.take v.acceptedDraftTokens ++ [v.nextToken]) cfg.stopTokenIds with
    | true =>
      refine .inr ⟨_, by rw [← hmore, ← hflag], _, hnew, .inr ?_⟩
      rw [hasStopToken_append, hmore, Bool.or_true]
    | false => exact .inl ⟨_, by rw [← hmore, ← hflag], ⟨hcached', _, hnew⟩, hadv⟩

omit [IsStrictOrderedRing K] in
/-- Cutting the buffer of a finished run is greedy decoding. -/
theorem GreedyDone.outputIds {cfg : DecodingConfig V K H Ω} {inputIds : List (Fin V)}
    {s : LoopState V Ctx} (h : GreedyDone cfg inputIds s) :
    (finish cfg inputIds s).outputIds =
      inputIds ++ cfg.targetModel.greedyDecode cfg.stopTokenIds cfg.maxNewTokens inputIds := by
  obtain ⟨xs, ⟨hbuf, hpath⟩, hend⟩ := h
  have htake : s.outputIds.take (min (s.start + 1) (inputIds.length + cfg.maxNewTokens)) =
      inputIds ++ xs.take cfg.maxNewTokens := by
    rw [Nat.min_comm, ← List.take_take, hbuf, List.take_length_add_append]
  show trimOutputIds _ _ _ = _
  rw [htake, trimOutputIds_append, hpath.trim hend]

/-- **Greedy losslessness.**  For every target model, every drafter that keeps its
contract, every prompt, stop set and length limit and every sequence of draws, the
run below temperature `1e-5` raises nothing and returns the prompt followed by the
target's plain greedy continuation, cut after its first stop token and at
`max_new_tokens`. -/
theorem generateDecodingSample_greedy (cfg : DecodingConfig V K H Ω) (drafter : Drafter V K H Ctx)
    (draws : LoopDraws K Ω) (fresh : ℕ → Fin V) (inputIds : List (Fin V)) (hprompt : inputIds ≠ [])
    (htemp : cfg.temperature < 1 / 100000) (hnew : 1 ≤ cfg.maxNewTokens)
    (hmax : 1 ≤ cfg.maxProposalTokens) (hdrafter : drafter.WellFormed cfg)
    (hcoins : ∀ r i, 0 ≤ (draws.round r).coins i ∧ (draws.round r).coins i < 1) :
    ∃ sample, generateDecodingSample cfg drafter draws fresh inputIds = .ok sample ∧
      sample.outputIds =
        inputIds ++ cfg.targetModel.greedyDecode cfg.stopTokenIds cfg.maxNewTokens inputIds := by
  obtain ⟨tail, hlen, hprefill⟩ := prefill_eq cfg drafter draws fresh hprompt
  have hfirst : cfg.firstToken inputIds draws.first = cfg.targetModel.greedyToken inputIds := by
    rw [DecodingConfig.firstToken, logitsToProbs_greedy _ _ htemp, sampleFromProbs_oneHot]
    rfl
  have hpath : cfg.targetModel.GreedyPath inputIds [cfg.firstToken inputIds draws.first] := by
    intro i t hi
    cases i with
    | zero =>
      obtain rfl : cfg.firstToken inputIds draws.first = t := by simpa using hi
      simpa using hfirst
    | succ i => simp at hi
  unfold generateDecodingSample
  rw [if_neg (by omega), hprefill]
  cases hstop : hasStopToken [cfg.firstToken inputIds draws.first] cfg.stopTokenIds with
  | true =>
    refine ⟨_, rfl, ?_⟩
    have htrim := hpath.trim (n := cfg.maxNewTokens) (.inr hstop)
    rw [List.take_of_length_le (by simpa using hnew)] at htrim
    rw [← htrim, ← trimOutputIds_append]
    rfl
  | false =>
    set s₀ := cfg.startState drafter inputIds (cfg.firstToken inputIds draws.first) tail
    have hinv : GreedyInv cfg inputIds s₀ := by
      refine ⟨cfg.startState_cached drafter inputIds _ hlen, _, ?_, hpath⟩
      show (inputIds ++ _ :: tail).take (inputIds.length + 1) = _
      rw [List.take_length_add_append]
      rfl
    have hrunning : ∀ s : LoopState V Ctx,
        s.running (inputIds.length + cfg.maxNewTokens) = true ↔
          s.start < inputIds.length + cfg.maxNewTokens := fun s => decide_eq_true_iff
    have hrank : ∀ s : LoopState V Ctx, GreedyInv cfg inputIds s →
        s.running (inputIds.length + cfg.maxNewTokens) = true →
          0 < inputIds.length + cfg.maxNewTokens - s.start := by
      intro s _ h
      have := (hrunning s).mp h
      omega
    have hstep : ∀ s : LoopState V Ctx, GreedyInv cfg inputIds s →
        s.running (inputIds.length + cfg.maxNewTokens) = true →
          (∃ s', iteration cfg drafter draws (cfg.positionIds inputIds) s = .ok (s', false) ∧
            GreedyInv cfg inputIds s' ∧ inputIds.length + cfg.maxNewTokens - s'.start <
              inputIds.length + cfg.maxNewTokens - s.start) ∨
          ∃ s', iteration cfg drafter draws (cfg.positionIds inputIds) s = .ok (s', true) ∧
            GreedyDone cfg inputIds s' := by
      intro s hs h
      have hlt := (hrunning s).mp h
      rcases hs.iteration htemp hdrafter (fun r i => (hcoins r i).1) hlt with
        ⟨s', hok, hs', hadv⟩ | hbreak
      · exact .inl ⟨s', hok, hs', by omega⟩
      · exact .inr hbreak
    have hexit : ∀ s : LoopState V Ctx, GreedyInv cfg inputIds s →
        s.running (inputIds.length + cfg.maxNewTokens) = false → GreedyDone cfg inputIds s := by
      intro s hs h
      have hge : inputIds.length + cfg.maxNewTokens ≤ s.start := by
        simpa [LoopState.running] using h
      obtain ⟨hcached, xs, hup⟩ := hs
      refine ⟨xs, hup, .inl ?_⟩
      have hl := congrArg List.length hup.1
      rw [List.length_take, List.length_append, hcached.length] at hl
      have := hcached.start_lt
      omega
    have hfuel : inputIds.length + cfg.maxNewTokens - s₀.start ≤ cfg.maxNewTokens := by
      show inputIds.length + cfg.maxNewTokens - inputIds.length ≤ _
      omega
    obtain ⟨s', hrun, hdone⟩ := WhileLoop.run_ok DecodeError.fuel hrank hstep hexit hinv hfuel
    simp only [Bool.false_eq_true, if_false, bind, Except.bind, hrun]
    exact ⟨_, rfl, hdone.outputIds⟩

/-- A target that counts modulo three. -/
def countingModel : TargetModel 3 ℚ Unit where
  logits seen t := if t = ((seen.getLast?.map Prod.fst).getD 0) + 1 then 1 else 0
  hidden _ := ()

/-- Greedy decoding of the counting target, stopping at token `2`. -/
def countingConfig : DecodingConfig 3 ℚ Unit (Set.Ico (0 : ℚ) 1) where
  targetModel := countingModel
  softmax _ := oneHot 0
  multinomial := .inverseCdf
  temperature := 0
  maxNewTokens := 4
  maxProposalTokens := 2
  stopTokenIds := some [2]

/-- A drafter whose first proposed token is right and whose second is wrong. -/
def guessingDrafter : Drafter 3 ℚ Unit Unit where
  initContext _ _ _ _ := ()
  propose _ outputIds _ start _ :=
    match outputIds[start]? with
    | some c => .ok (⟨2, [c, c + 1, c], some [oneHot (c + 1), oneHot c]⟩, ())
    | none => .error .index
  update _ _ := ()

theorem guessingDrafter_wellFormed : guessingDrafter.WellFormed countingConfig := by
  intro context outputIds positionIds start current hcur
  refine ⟨⟨2, [current, current + 1, current], some [oneHot (current + 1), oneHot current]⟩, (),
    ?_, Nat.le_refl 2, rfl, rfl, fun _ => ⟨_, rfl, rfl⟩⟩
  simp only [guessingDrafter, hcur]

theorem generateDecodingSample_greedy_counting :
    ∃ sample, generateDecodingSample countingConfig guessingDrafter
        ⟨⟨0, by decide⟩, fun _ => ⟨fun _ => 1 / 2, ⟨0, by decide⟩⟩⟩ (fun _ => 0) [0] =
          .ok sample ∧
      sample.outputIds = [0, 1, 2] := by
  have hdecode : countingConfig.targetModel.greedyDecode countingConfig.stopTokenIds
      countingConfig.maxNewTokens [0] = [1, 2] := by
    decide
  obtain ⟨sample, hok, hout⟩ := generateDecodingSample_greedy countingConfig guessingDrafter
    ⟨⟨0, by decide⟩, fun _ => ⟨fun _ => 1 / 2, ⟨0, by decide⟩⟩⟩ (fun _ => 0) [0] (by simp)
    (by norm_num [countingConfig]) (by decide) (by decide) guessingDrafter_wellFormed
    (fun _ _ => by norm_num)
  exact ⟨sample, hok, by rw [hout, hdecode]; rfl⟩

end LatentSpec
