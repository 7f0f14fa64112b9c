import LatentSpec.ChainRun
import LatentSpec.Decoding
import LatentSpec.MyspecProposal
import LatentSpec.RejectSamplingLaw

/-! # Block rejection sampling keeps the target's law

The draws of one round are independent: one draw of the generator per drafted
token, one uniform number per proposed token, and one draw for the next token
(`Round.drawsLaw`).  For a fixed block, what a round commits is a `ChainRun.run`: the
passing prefix of the proposal and one more token (`Round.commit_eq`).  The code's
acceptance test, residual draw and last-row draw meet the requirements of
`ChainLaw.Exact` (`Round.exact`), whatever the confidence rule cuts, and the law of
the whole round follows.
-/
namespace LatentSpec
open ChainLaw ChainRun DrawLaw Coins MeasureTheory Set

variable {V : ℕ} {H Ω Hd St : Type}

/-- The law of `torch.multinomial`: a row with weight is drawn in proportion to its
weights. -/
structure Multinomial.Law [MeasurableSpace Ω] (M : Multinomial V ℝ Ω) (μ : Measure Ω) : Prop where
  measurable : ∀ w t, MeasurableSet {ω | M.pick w ω = t}
  law : ∀ w, 0 < ∑ i, w.val i → ∀ t, μ.real {ω | M.pick w ω = t} = w.val t / ∑ i, w.val i

section Rows
variable [MeasurableSpace Ω] {M : Multinomial V ℝ Ω} {μ : Measure Ω} (hM : M.Law μ)
include hM

theorem Multinomial.Law.sampleFromProbs {w : Probs V ℝ} (hw : ∑ i, w.val i = 1) (t : Fin V) :
    μ.real {ω | sampleFromProbs M w ω = t} = w.val t := by
  have := hM.law w (by rw [hw]; exact one_pos) t
  rwa [hw, div_one] at this

theorem Multinomial.Law.sampleTokens [IsProbabilityMeasure μ] [NeZero V]
    {softmax : (Fin V → ℝ) → Probs V ℝ}
    (hsoftmax : ∀ l, ∑ i, (softmax l).val i = 1) (logits : Fin V → ℝ)
    (temperature : ℝ) (t : Fin V) :
    μ.real {ω | sampleTokens softmax M logits temperature ω = t} =
      (logitsToProbs softmax logits temperature).val t := by
  unfold LatentSpec.sampleTokens logitsToProbs
  by_cases h : temperature < 1 / 100000
  · simp only [if_pos h, oneHot_val]
    by_cases ht : argmax logits = t
    · rw [if_pos ht.symm]
      simp [ht]
    · rw [if_neg (Ne.symm ht)]
      simp [ht]
  · simp only [if_neg h]
    exact hM.sampleFromProbs (hsoftmax _) t

/-- The residual draw has the normalised excess as its law. -/
theorem Multinomial.Law.sampleResidual {target draft : Probs V ℝ}
    (h : clampMin < ∑ i, excess target.val draft.val i) (t : Fin V) :
    μ.real {ω | sampleResidual M target draft ω = t} =
      excess target.val draft.val t / ∑ i, excess target.val draft.val i := by
  have hres : ∀ i, (residual target draft).val i = excess target.val draft.val i := fun _ => rfl
  have hmass : ∑ i, (residual target draft).val i = ∑ i, excess target.val draft.val i := rfl
  have hval : ∀ i, (residualProbs target draft).val i =
      excess target.val draft.val i / ∑ i, excess target.val draft.val i := by
    intro i
    simp only [residualProbs, if_neg (not_le.mpr (hmass ▸ h)), hres, max_eq_left h.le]
  have hpos : (0 : ℝ) < ∑ i, excess target.val draft.val i := clampMin_pos.trans h
  have hsum : ∑ i, (residualProbs target draft).val i = 1 := by
    simp only [hval, ← Finset.sum_div]
    exact div_self hpos.ne'
  exact (hM.sampleFromProbs hsum t).trans (hval t)

end Rows

/-- Searching the running totals with a uniform draw follows the weights. -/
theorem Multinomial.inverseCdf_law [NeZero V] : (Multinomial.inverseCdf (V := V)).Law unitLaw where
  measurable w t := by
    have hset : MeasurableSet (⋃ o ∈ {o | foundIndex o = t},
        {v : ℝ | Categorical.searchFrom 0 (List.ofFn w.val) (v * ∑ i, w.val i) = o}) :=
      MeasurableSet.biUnion (Set.to_countable _) fun o _ =>
        Categorical.measurableSet_searchFrom _ _ _ _
    convert measurable_subtype_coe hset using 1
    ext u
    simp [inverseCdf]
  law w hpos t := by
    have hpick : ∀ u : Ico (0 : ℝ) 1, inverseCdf.pick w u = t ↔
        Categorical.searchFrom 0 (List.ofFn w.val) (u * ∑ i, w.val i) = some t.val := by
      intro u
      obtain ⟨s, hs⟩ := Categorical.exists_searchFrom_ofFn hpos u
      simp only [inverseCdf, hs, foundIndex, Option.some.injEq, Fin.ofNat, Nat.mod_eq_of_lt s.2]
      exact Fin.ext_iff
    simp only [hpick]
    exact Categorical.unitLaw_real_searchFrom w.nonneg hpos t

theorem sum_logitsToProbs [NeZero V] {softmax : (Fin V → ℝ) → Probs V ℝ}
    (hsoftmax : ∀ l, ∑ i, (softmax l).val i = 1) (logits : Fin V → ℝ) (temperature : ℝ) :
    ∑ i, (logitsToProbs softmax logits temperature).val i = 1 := by
  unfold logitsToProbs
  split
  · exact sum_oneHot _
  · exact hsoftmax _

/-- The acceptance probability of one proposed token. -/
noncomputable def acceptRatio (p q : ℝ) : ℝ := min (p / max q clampMin) 1

theorem acceptRatio_nonneg {p : ℝ} (hp : 0 ≤ p) (q : ℝ) : 0 ≤ acceptRatio p q :=
  le_min (div_nonneg hp (le_max_of_le_right clampMin_pos.le)) zero_le_one

theorem acceptRatio_le_one (p q : ℝ) : acceptRatio p q ≤ 1 := min_le_right _ _

/-- Where the clamp is inactive, a token passes with the overlap of its two
probabilities. -/
theorem mul_acceptRatio {p q : ℝ} (hp : 0 ≤ p) (hq : 0 ≤ q) (hclamp : 0 < q → clampMin ≤ q) :
    q * acceptRatio p q = min p q := by
  rcases hq.eq_or_lt with rfl | hpos
  · rw [zero_mul, min_eq_right hp]
  · rw [acceptRatio, max_eq_left (hclamp hpos), mul_min_of_nonneg _ _ hq, mul_one,
      mul_div_cancel₀ _ hpos.ne']

/-! ### One round -/

/-- One draft-and-verify round after `tokens`, the last of which is `current`: the
drafted block's hidden states are those of `max_proposal_tokens` positions, and the
position ids reach past the block. -/
structure Round (V : ℕ) (H Ω Hd St : Type) where
  cfg : DecodingConfig V ℝ H Ω
  model : MySpecHeads V ℝ Hd St
  tokens : List (Fin V)
  current : Fin V
  hidden : List Hd
  threshold : ℝ
  positions : ℕ
  hidden_length : hidden.length = cfg.maxProposalTokens
  positions_le : tokens.length + cfg.maxProposalTokens + 1 ≤ positions

variable [NeZero V]

namespace Round
variable (r : Round V H Ω Hd St)

/-- Draft tokens are drawn at the target's temperature. -/
def sampler : TokenSampler V ℝ Ω := ⟨r.cfg.softmax, r.cfg.multinomial, r.cfg.temperature⟩

/-- The target conditional `p(· | tokens, current, xs)`. -/
noncomputable def targetProbs (xs : List (Fin V)) : Probs V ℝ :=
  logitsToProbs r.cfg.softmax
    (r.cfg.targetModel.logits (r.tokens ++ [r.current] ++ xs).zipIdx) r.cfg.temperature

/-- The draft conditional `q(· | xs)` of the block. -/
noncomputable def draftProbs (xs : List (Fin V)) : Probs V ℝ :=
  r.model.draftProbs r.sampler r.hidden r.current xs

/-- The confidence rule. -/
noncomputable def cut : List (Fin V) → Bool := r.model.cutAfter r.hidden r.current r.threshold

/-- The drafted block. -/
noncomputable def block (draft : List Ω) : List (Fin V) :=
  seqDraw (r.model.drawDraft r.sampler r.hidden r.current) [] draft

/-- The tokens a round commits: propose with `build_myspec_proposal`, then verify. -/
noncomputable def commit (draft : List Ω) (draws : VerifyDraws ℝ Ω) :
    Except DecodeError (List (Fin V)) := do
  let proposal := r.model.buildMyspecProposal r.sampler r.current r.hidden
    r.cfg.maxProposalTokens r.threshold draft
  let (verification, _) ← verifyDraftTokens r.cfg proposal.toDraftProposal
    (List.range r.positions) r.tokens.length r.tokens.zipIdx [r.current] draws
  return verification.committedTokens

/-- The test of drafted token `i` with the uniform number `v`. -/
noncomputable def pass (x : List (Fin V)) (i : ℕ) (v : ℝ) : Bool :=
  decide (v < acceptRatio ((r.targetProbs (x.take i)).val (x.getD i 0))
    ((r.draftProbs (x.take i)).val (x.getD i 0)))

/-- The token that closes the run after `c`. -/
noncomputable def closing (x c : List (Fin V)) (ω : Ω) : Fin V :=
  if c.length < kept r.cut [] x then
    sampleResidual r.cfg.multinomial (r.targetProbs c) (r.draftProbs c) ω
  else sampleFromProbs r.cfg.multinomial (r.targetProbs c) ω

theorem length_block (draft : List Ω) : (r.block draft).length = draft.length :=
  length_seqDraw _ _ _

/-- The target row of position `j` of the call. -/
theorem rowProbs_eq (x : List (Fin V)) (j : ℕ) :
    r.cfg.rowProbs r.tokens.zipIdx ((r.current :: x).zipIdx r.tokens.length) j =
      r.targetProbs (x.take j) := by
  rw [DecodingConfig.rowProbs, zipIdx_append_take]
  rfl

/-- The accepted count of the code is that of the drafted block. -/
theorem rawAccepted_eq {x : List (Fin V)} (coins : ℕ → ℝ) :
    rawAccepted (fun j => r.targetProbs ((x.take (kept r.cut [] x)).take j))
      ((List.range (kept r.cut [] x)).map fun i => r.draftProbs (x.take i))
      (x.take (kept r.cut [] x)) coins = passed (r.pass x) (kept r.cut [] x) coins := by
  have hk := kept_le_length r.cut [] x
  unfold rawAccepted passed
  congr 1
  refine List.ext_getElem? fun i => ?_
  rw [getElem?_acceptMask]
  rcases Nat.lt_or_ge i (kept r.cut [] x) with hi | hi
  · have hx : (x.take (kept r.cut [] x))[i]? = some (x.getD i 0) := by
      rw [List.getElem?_take_of_lt hi, List.getD_eq_getElem?_getD,
        List.getElem?_eq_getElem (by omega)]
      rfl
    simp only [hx, List.getElem?_map, List.getElem?_range hi, Option.map_some, List.take_take,
      Nat.min_eq_left hi.le]
    rfl
  · have hx : (x.take (kept r.cut [] x))[i]? = none :=
      List.getElem?_eq_none ((List.length_take_le _ _).trans hi)
    simp only [hx, List.getElem?_map, List.getElem?_eq_none (List.length_range.le.trans hi)]
    rfl

/-- **What a round commits**, for the drafted block `x`. -/
theorem commit_eq (hstop : r.cfg.stopTokenIds.getD [] = []) {draft : List Ω}
    (hdraft : draft.length = r.cfg.maxProposalTokens) (draws : VerifyDraws ℝ Ω) :
    let x := r.block draft
    r.commit draft draws =
      .ok (run (r.pass x) (r.closing x) x (kept r.cut [] x) draws.coins draws.ω) := by
  intro x
  obtain ⟨hcount, hids, hprobs⟩ := r.model.buildMyspecProposal_spec r.sampler r.current
    r.hidden_length r.threshold hdraft
  change _ = kept r.cut [] x at hcount
  change _ = r.current :: x.take (kept r.cut [] x) at hids
  change 0 < kept r.cut [] x → _ = some ((List.range (kept r.cut [] x)).map
    fun i => r.draftProbs (x.take i)) at hprobs
  have hk : kept r.cut [] x ≤ x.length := kept_le_length _ _ _
  have hxlen : x.length = r.cfg.maxProposalTokens := (r.length_block draft).trans hdraft
  have hacc := passed_le (r.pass x) (kept r.cut [] x) draws.coins
  have hraw := r.rawAccepted_eq (x := x) draws.coins
  have hpos := r.positions_le
  set k := kept r.cut [] x with hkdef
  have htake : (x.take k).length = k := by rw [List.length_take]; omega
  have hwf : (r.model.buildMyspecProposal r.sampler r.current r.hidden r.cfg.maxProposalTokens
      r.threshold draft).toDraftProposal.WellFormed r.cfg.maxProposalTokens r.current := by
    refine ⟨by omega, by rw [hids]; rfl, by rw [hids, hcount, List.length_cons, htake], fun h => ?_⟩
    exact ⟨_, hprobs (by omega), by rw [hcount]; simp⟩
  have hwidth :
      (slice (List.range r.positions) r.tokens.length (r.tokens.length + (k + 1))).length =
      k + 1 := by
    rw [length_slice, List.length_range]
    omega
  rw [← hcount] at hwidth
  obtain ⟨x', rows, hids', hx', hrows, hsome, hverify⟩ :=
    verifyDraftTokens_ok r.cfg r.tokens.zipIdx draws hwf hwidth
  obtain rfl : x' = x.take k := by
    rw [hids] at hids'
    exact (List.cons.inj hids').2.symm
  obtain rfl : rows = (List.range k).map fun i => r.draftProbs (x.take i) := by
    by_cases h0 : 0 < k
    · have := hsome (by rw [← List.length_pos_iff]; omega)
      rw [hprobs h0] at this
      exact (Option.some.inj this).symm
    · have hk0 : k = 0 := by omega
      have : rows.length = 0 := by omega
      rw [List.length_eq_zero_iff.mp this, hk0]
      rfl
  have hentries : (r.current :: x.take k).zip (slice (List.range r.positions) r.tokens.length
      (r.tokens.length + ((x.take k).length + 1))) =
      (r.current :: x.take k).zipIdx r.tokens.length := by
    rw [slice_range _ _ _ (by omega), List.zipIdx_eq_zip_range', List.length_cons]
  have hP : r.cfg.rowProbs r.tokens.zipIdx ((r.current :: x.take k).zipIdx r.tokens.length) =
      fun j => r.targetProbs ((x.take k).take j) := funext (r.rowProbs_eq _)
  have hcommitted : (verifyResult r.cfg r.tokens.zipIdx
      ((r.current :: x.take k).zipIdx r.tokens.length) (x.take k)
      ((List.range k).map fun i => r.draftProbs (x.take i)) draws).committedTokens =
        run (r.pass x) (r.closing x) x k draws.coins draws.ω := by
    set accepted := passed (r.pass x) k draws.coins with haccepted
    have hc : (x.take k).take accepted = x.take accepted := by
      rw [List.take_take, Nat.min_eq_left hacc]
    have hclen : (x.take accepted).length = accepted := by
      rw [List.length_take]
      omega
    simp only [verifyResult, hP, hraw, cutAtStop_of_no_stops hstop, hc, run, ← haccepted]
    congr 2
    unfold nextTokenOf closing
    rw [← hkdef, hclen, List.getElem?_map]
    rcases Nat.lt_or_ge accepted k with hlt | hge
    · simp only [List.getElem?_range hlt, Option.map_some, if_pos hlt, hc]
    · have heq : k = accepted := by omega
      simp only [List.getElem?_eq_none (List.length_range.le.trans hge), Option.map_none,
        if_neg (not_lt.mpr hge), List.length_map, List.length_range]
      rw [← hc, ← heq]
  rw [hentries] at hverify
  unfold commit
  simp only [hverify, hcommitted, bind, Except.bind, pure, Except.pure]

/-! ### The law of a round -/

section Law
variable [MeasurableSpace Ω] (μ : Measure Ω)

/-- The passing probability of a test. -/
noncomputable def acc (xs : List (Fin V)) (s : Fin V) : ℝ :=
  acceptRatio ((r.targetProbs xs).val s) ((r.draftProbs xs).val s)

/-- The law of the residual draw. -/
noncomputable def res (xs : List (Fin V)) (t : Fin V) : ℝ :=
  μ.real {ω | sampleResidual r.cfg.multinomial (r.targetProbs xs) (r.draftProbs xs) ω = t}

/-- The law of the last-row draw; it does not look at the untested tokens. -/
noncomputable def fin (xs _rest : List (Fin V)) (t : Fin V) : ℝ :=
  μ.real {ω | sampleFromProbs r.cfg.multinomial (r.targetProbs xs) ω = t}

/-- The law of all the draws of a round: those of the drafted tokens, the uniform
numbers of the tests and the draw of the next token, all independent. -/
noncomputable def drawsLaw : Measure ((Fin r.cfg.maxProposalTokens → Ω) ×
    (Fin r.cfg.maxProposalTokens → ℝ) × Ω) :=
  (Measure.pi fun _ => μ).prod ((coins r.cfg.maxProposalTokens).prod μ)

/-- The tests and the closing draw with which the drafted block `x` commits `c`. -/
def committing (c x : List (Fin V)) : Set ((Fin r.cfg.maxProposalTokens → ℝ) × Ω) :=
  {e | run (r.pass x) (r.closing x) x (kept r.cut [] x) (stream e.1) e.2 = c}

variable (x : List (Fin V))

omit [MeasurableSpace Ω] in
theorem measurableSet_pass (i : ℕ) : MeasurableSet {v | r.pass x i v = true} := by
  simp only [pass, decide_eq_true_eq]
  exact measurableSet_Iio

omit [MeasurableSpace Ω] in
/-- A test passes with its acceptance ratio. -/
theorem coin_real_pass {i : ℕ} (hi : i < x.length) :
    coin.real {v | r.pass x i v = true} = (accepts r.acc [] x).getD i 0 := by
  rw [getD_accepts r.acc [] hi 0, List.nil_append]
  simp only [pass, decide_eq_true_eq]
  exact coin_real_lt (acceptRatio_nonneg ((r.targetProbs _).nonneg _) _) (acceptRatio_le_one _ _)

theorem measurableSet_closing (hM : r.cfg.multinomial.Law μ) (c : List (Fin V)) (t : Fin V) :
    MeasurableSet {ω | r.closing x c ω = t} := by
  unfold closing
  split
  · exact hM.measurable _ _
  · exact hM.measurable _ _

end Law

/-! ### Distribution preservation -/

/-- What the code's clamps leave untouched: every draft probability that can be
drawn is at least `1e-8`, and every residual mass is zero or above `1e-8`. -/
structure ClampFree (r : Round V H Ω Hd St) : Prop where
  draft : ∀ xs t, xs.length < r.cfg.maxProposalTokens → 0 < (r.draftProbs xs).val t →
    clampMin ≤ (r.draftProbs xs).val t
  residual : ∀ xs, xs.length < r.cfg.maxProposalTokens →
    ∑ t, excess (r.targetProbs xs).val (r.draftProbs xs).val t = 0 ∨
      clampMin < ∑ t, excess (r.targetProbs xs).val (r.draftProbs xs).val t

section Preservation
variable [MeasurableSpace Ω] {μ : Measure Ω} [IsProbabilityMeasure μ]
variable (hM : r.cfg.multinomial.Law μ) (hsoftmax : ∀ l, ∑ i, (r.cfg.softmax l).val i = 1)

omit [MeasurableSpace Ω] in
include hsoftmax in
theorem sum_targetProbs (xs : List (Fin V)) : ∑ t, (r.targetProbs xs).val t = 1 :=
  sum_logitsToProbs hsoftmax _ _

omit [MeasurableSpace Ω] in
include hsoftmax in
theorem sum_draftProbs (xs : List (Fin V)) : ∑ t, (r.draftProbs xs).val t = 1 :=
  sum_logitsToProbs hsoftmax _ _

include hM hsoftmax

/-- The drafted block follows the draft conditionals. -/
theorem follows : Follows μ (r.model.drawDraft r.sampler r.hidden r.current)
    fun xs t => (r.draftProbs xs).val t where
  measurable xs t := by
    unfold MySpecHeads.drawDraft sampleTokens
    split
    · exact MeasurableSet.const _
    · exact hM.measurable _ _
  law xs t := hM.sampleTokens hsoftmax _ _ t

omit [IsProbabilityMeasure μ] in
/-- **The code's tests and draws are exact.** -/
theorem exact (hclamp : r.ClampFree) :
    Exact r.acc (r.res μ) (r.fin μ) (fun xs t => (r.targetProbs xs).val t)
      (fun xs t => (r.draftProbs xs).val t) r.cfg.maxProposalTokens where
  accept xs s hxs :=
    mul_acceptRatio ((r.targetProbs xs).nonneg s) ((r.draftProbs xs).nonneg s)
      (hclamp.draft xs s hxs)
  residual xs t hxs := by
    refine residual_of_accept (r.sum_targetProbs hsoftmax xs) (r.sum_draftProbs hsoftmax xs)
      (fun s => mul_acceptRatio ((r.targetProbs xs).nonneg s) ((r.draftProbs xs).nonneg s)
        (hclamp.draft xs s hxs)) (fun hne s => ?_) t
    rcases hclamp.residual xs hxs with h0 | hpos
    · exact absurd h0 hne
    · exact hM.sampleResidual hpos s
  close n xs t _ :=
    (drawExp_const (r.sum_draftProbs hsoftmax) n xs _).trans
      (hM.sampleFromProbs (r.sum_targetProbs hsoftmax xs) t)

/-- The probability that a round commits `c`. -/
theorem real_commit (hstop : r.cfg.stopTokenIds.getD [] = []) (hclamp : r.ClampFree)
    (c : List (Fin V)) :
    (r.drawsLaw μ).real {d | r.commit (List.ofFn d.1) ⟨stream d.2.1, d.2.2⟩ = .ok c} =
      runLaw (fun xs t => (r.targetProbs xs).val t) (fun xs t => (r.draftProbs xs).val t) r.cut
        r.cfg.maxProposalTokens [] c := by
  have hset : {d : (Fin r.cfg.maxProposalTokens → Ω) × (Fin r.cfg.maxProposalTokens → ℝ) × Ω |
      r.commit (List.ofFn d.1) ⟨stream d.2.1, d.2.2⟩ = .ok c} =
      {d | d.2 ∈ r.committing c (seqDraw (r.model.drawDraft r.sampler r.hidden r.current) []
        (List.ofFn d.1))} := by
    ext d
    simp only [mem_ofPred_eq, r.commit_eq hstop (List.length_ofFn), Except.ok.injEq, committing]
    rfl
  have hmeas : ∀ x : List (Fin V), x.length = r.cfg.maxProposalTokens →
      MeasurableSet (r.committing c x) := fun x hx =>
    measurableSet_run (r.measurableSet_pass x) hx.le (kept_le_length _ _ _)
      (r.measurableSet_closing μ x hM) c
  have hgiven : ∀ x : List (Fin V), x.length = r.cfg.maxProposalTokens →
      ((coins r.cfg.maxProposalTokens).prod μ).real (r.committing c x) =
        runGiven r.acc (r.res μ) (r.fin μ) r.cut [] x c := by
    intro x hx
    have hk := kept_le_length r.cut [] x
    refine real_run (r.measurableSet_pass x) hx.le hk μ rfl
      (fun i hi => r.coin_real_pass x (by omega)) (fun c t _ => ?_) c
    unfold closing
    split <;> rfl
  rw [hset, drawsLaw, prod_real_seqDraw (r.follows hM hsoftmax) _ _ [] _ hmeas,
    drawExp_congr hgiven]
  exact drawExp_runGiven (r.sum_draftProbs hsoftmax) (r.exact hM hsoftmax hclamp) _ [] c
    (by simp)

/-- **Block rejection sampling keeps the target's law.** -/
theorem sum_real_commit_seqProb (hstop : r.cfg.stopTokenIds.getD [] = []) (hclamp : r.ClampFree)
    (y : List (Fin V)) (hy : y.length = r.cfg.maxProposalTokens + 1) :
    ∑ m ∈ Finset.range (r.cfg.maxProposalTokens + 2),
        (r.drawsLaw μ).real {d | r.commit (List.ofFn d.1) ⟨stream d.2.1, d.2.2⟩ = .ok (y.take m)} *
          seqProb (fun xs t => (r.targetProbs xs).val t) (y.take m) (y.drop m) =
      seqProb (fun xs t => (r.targetProbs xs).val t) [] y := by
  simp only [r.real_commit hM hsoftmax hstop hclamp]
  exact sum_runLaw_seqProb _ _ r.cut r.cfg.maxProposalTokens [] y hy

end Preservation

end Round

/-- Two rows to draw from: even odds for logits that vanish at token `1`, odds of
three to one otherwise. -/
noncomputable def twoRows (logits : Fin 2 → ℝ) : Probs 2 ℝ where
  val i := if logits (Fin.last 1) = 0 then evenDist.val i else leaningDist.val i
  nonneg i := by
    split_ifs
    · exact evenDist.nonneg i
    · exact leaningDist.nonneg i

/-- A round of two drafted tokens: the target is even, the draft leans to token `0`,
and the confidence head cuts after token `1`. -/
noncomputable def leaningRound : Round 2 Unit (Ico (0 : ℝ) 1) Unit Unit where
  cfg :=
    { targetModel := ⟨fun _ _ => 0, fun _ => ()⟩
      softmax := twoRows
      multinomial := .inverseCdf
      temperature := 1
      maxNewTokens := 1
      maxProposalTokens := 2
      stopTokenIds := none }
  model :=
    { computeLogits := fun _ _ => 1
      markovHead := none
      confidenceHead := some fun _ prev => if prev = Fin.last 1 then 0 else 1
      sigmoid := id }
  tokens := []
  current := Fin.last 1
  hidden := [(), ()]
  threshold := 1
  positions := 3
  hidden_length := rfl
  positions_le := Nat.le_refl 3

theorem sum_real_commit_seqProb_leaning :
    ∑ m ∈ Finset.range 4, (leaningRound.drawsLaw unitLaw).real
        {d | leaningRound.commit (List.ofFn d.1) ⟨stream d.2.1, d.2.2⟩ = .ok ([0, 1, 1].take m)} *
          seqProb (fun xs t => (leaningRound.targetProbs xs).val t) ([0, 1, 1].take m)
            ([0, 1, 1].drop m) = 1 / 8 := by
  have hsoftmax : ∀ l, ∑ i, (leaningRound.cfg.softmax l).val i = 1 := by
    intro l
    show ∑ i, (twoRows l).val i = 1
    by_cases h : l (Fin.last 1) = 0
    · simp only [twoRows, h, if_true]
      exact evenDist.sum_one
    · simp only [twoRows, h, if_false]
      exact leaningDist.sum_one
  have htarget : ∀ xs t, (leaningRound.targetProbs xs).val t = 1 / 2 := by
    intro xs t
    simp [Round.targetProbs, leaningRound, logitsToProbs, twoRows, evenDist]
    norm_num
  have hdraft : ∀ xs t, xs.length < 2 →
      (leaningRound.draftProbs xs).val t = leaningDist.val t := by
    intro xs t hxs
    have hhidden : leaningRound.hidden[xs.length]? = some () := List.getElem?_eq_getElem hxs
    have hlogits : leaningRound.model.draftLogits leaningRound.hidden leaningRound.current xs =
        fun _ => 1 := by
      show (leaningRound.hidden[xs.length]?.map leaningRound.model.computeLogits).getD _ = _
      rw [hhidden]
      rfl
    rw [Round.draftProbs, MySpecHeads.draftProbs, hlogits]
    simp [Round.sampler, leaningRound, logitsToProbs, twoRows]
    norm_num
  have hclamp : leaningRound.ClampFree := by
    refine ⟨fun xs t hxs _ => ?_, fun xs hxs => .inr ?_⟩
    · rw [hdraft xs t hxs]
      simp only [leaningDist, clampMin]
      split_ifs <;> norm_num
    · simp only [excess, htarget, hdraft xs _ hxs, Fin.sum_univ_two, clampMin, leaningDist,
        show (1 : Fin 2) = Fin.last 1 from rfl]
      norm_num
  refine (leaningRound.sum_real_commit_seqProb Multinomial.inverseCdf_law hsoftmax rfl hclamp
    [0, 1, 1] rfl).trans ?_
  simp only [seqProb, htarget]
  norm_num

end LatentSpec
