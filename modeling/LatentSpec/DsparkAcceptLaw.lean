import LatentSpec.DsparkAccept
import LatentSpec.RejectSamplingLaw

/-! # Capped verification is lossless

What a greedy request commits depends on its verified rows alone (`Capped.observed_greedy`)
and is the target's greedy continuation; what a sampled request commits has the target's
law.  For the latter, a capped run is that of a chain which stops proposing at the cap and
closes by testing one more draft (`ChainRun.real_take_run`), and such a chain is exact.

What fills the rows of a compact run that no slot is packed for does not matter
(`runCompact_observed`).

A sampled request looks at one candidate past its verified slots: the draft that would
stand in the slot at the verify length is tested against the last verified row, and becomes
the bonus when it passes (`Capped.observed_sampling`).
-/
namespace LatentSpec
open ChainLaw ChainRun Coins LeadingRun MeasureTheory Set

variable {V : ℕ} {K : Type}

/-- What a verification hands on: everything but the trimmed length. -/
def AcceptOuts.observed (o : AcceptOuts) : ℕ × ℤ × ℕ × ℕ × List ℤ :=
  (o.correctLen, o.bonus, o.commitLens, o.newSeqLens, o.committed)

namespace VerifyBatch

/-- `w'` shows request `b` the same verified rows as `w`: logits and candidates of the
first `verifyLens b` slots and the drafts among them. -/
structure SameVerified (verifyLens : ℕ → ℕ) (b : ℕ) (w w' : VerifyBatch V K) : Prop where
  stride : w'.stride = w.stride
  prefixLens : w'.prefixLens b = w.prefixLens b
  logits : ∀ i < verifyLens b, w'.targetLogits b i = w.targetLogits b i
  candidates : ∀ i < verifyLens b, w'.candidates b i = w.candidates b i
  drafts : ∀ i, i + 1 < verifyLens b → w'.draftTokens b i = w.draftTokens b i

/-- And the same sampling inputs: the rows of the verified slots, their draws, and the
candidate in the slot after them, which is the draft tested against the last row. -/
structure SameSampling (verifyLens : ℕ → ℕ) (b : ℕ) (w w' : VerifyBatch V K)
    (σ σ' : SamplingInputs V K) : Prop where
  next : verifyLens b < w.stride → w'.candidates b (verifyLens b) = w.candidates b (verifyLens b)
  rowProbs : σ'.rowProbs b = σ.rowProbs b
  blockV : σ'.blockV = σ.blockV
  final : σ'.uniformSamplesFinal b = σ.uniformSamplesFinal b
  draft : ∀ i < verifyLens b, i + 1 < w.stride → σ'.draftProbs b i = σ.draftProbs b i
  coins : ∀ i < verifyLens b, i + 1 < w.stride → σ'.uniformSamples b i = σ.uniformSamples b i

section Requests
variable [Field K] [LinearOrder K] [NeZero V] {verifyLens : ℕ → ℕ} {b : ℕ}
  {w w' : VerifyBatch V K} {σ σ' : SamplingInputs V K}

/-- **A capped request commits between one token and its verify length.** -/
theorem Capped.correctLen_lt (h : w.Capped verifyLens b) (σ : SamplingInputs V K) :
    (w.acceptDraftTokens σ b).correctLen < verifyLens b := by
  have hpos := h.pos
  rw [acceptDraftTokens_eq _ _ h.mem]
  split
  · have hle := (w.greedyBlock.cut (verifyLens b)).acceptLen_le b
    rw [h.acceptGreedy_correctLen]
    exact lt_of_le_of_lt hle (Nat.sub_lt hpos Nat.one_pos)
  · rw [(h.acceptSampling_run σ).1]
    omega

theorem Capped.committed_eq (h : w.Capped verifyLens b) (σ : SamplingInputs V K) :
    (w.acceptAndFinalize σ b).committed =
      ((List.range (w.acceptDraftTokens σ b).correctLen).map fun i =>
        ((w.draftTokens b i).val : ℤ)) ++ [(w.acceptDraftTokens σ b).bonus] :=
  w.committed_eq σ ((h.correctLen_lt σ).trans_le h.le)

/-- Requests that accept alike hand on alike. -/
theorem Capped.observed_congr (h : w.Capped verifyLens b) (h' : w'.Capped verifyLens b)
    (hsame : SameVerified verifyLens b w w')
    (hlen : (w'.acceptDraftTokens σ' b).correctLen = (w.acceptDraftTokens σ b).correctLen)
    (hbonus : (w'.acceptDraftTokens σ' b).bonus = (w.acceptDraftTokens σ b).bonus) :
    (w'.acceptAndFinalize σ' b).observed = (w.acceptAndFinalize σ b).observed := by
  have hcommitted :
      (w'.acceptAndFinalize σ' b).committed = (w.acceptAndFinalize σ b).committed := by
    have hlt := h.correctLen_lt σ
    rw [h.committed_eq, h'.committed_eq, hlen, hbonus]
    refine congrArg₂ (· ++ ·) (List.map_congr_left fun i hi => ?_) rfl
    have hi' := List.mem_range.mp hi
    rw [hsame.drafts i (by omega)]
  simp only [AcceptOuts.observed, hcommitted]
  simp only [acceptAndFinalize, hlen, hbonus, hsame.prefixLens]

/-- **A greedy request sees its verified rows only.** -/
theorem Capped.observed_greedy (h : w.Capped verifyLens b) (h' : w'.Capped verifyLens b)
    (hsame : SameVerified verifyLens b w w') (hmask : σ.greedyMask b) (hmask' : σ'.greedyMask b) :
    (w'.acceptAndFinalize σ' b).observed = (w.acceptAndFinalize σ b).observed := by
  have hcandidates : ∀ i < verifyLens b,
      w'.greedyBlock.candidates b i = w.greedyBlock.candidates b i := by
    intro i hi
    simp only [greedyBlock, hsame.candidates i hi]
  have htarget : ∀ i < verifyLens b,
      w'.greedyBlock.targetPredict b i = w.greedyBlock.targetPredict b i := by
    intro i hi
    simp only [greedyBlock, hsame.logits i hi]
  have hlen : (w'.acceptGreedy b).correctLen = (w.acceptGreedy b).correctLen := by
    rw [h.acceptGreedy_correctLen, h'.acceptGreedy_correctLen,
      GreedyBlock.acceptLen_cut_congr hcandidates htarget]
  have hlt := h.correctLen_lt σ
  rw [acceptDraftTokens_eq _ _ h.mem, if_pos hmask] at hlt
  refine h.observed_congr h' hsame ?_ ?_
  · rw [acceptDraftTokens_eq _ _ h.mem, acceptDraftTokens_eq _ _ h'.mem, if_pos hmask,
      if_pos hmask', hlen]
  · rw [acceptDraftTokens_eq _ _ h.mem, acceptDraftTokens_eq _ _ h'.mem, if_pos hmask,
      if_pos hmask']
    show w'.greedyBlock.targetPredict b (w'.acceptGreedy b).correctLen =
      w.greedyBlock.targetPredict b (w.acceptGreedy b).correctLen
    rw [hlen, htarget _ hlt]

/-- **A greedy request commits the target's greedy continuation.** -/
theorem Capped.committed_greedy (h : w.Capped verifyLens b) (hmask : σ.greedyMask b)
    {next : List ℤ → ℤ} {pre : List ℤ}
    (hnext : (w.greedyBlock.cut (verifyLens b)).TargetPredicts b next pre) :
    (w.acceptAndFinalize σ b).committed =
      GreedyBlock.greedyContinuation next ((w.acceptAndFinalize σ b).correctLen + 1)
        (pre ++ [(w.greedyBlock).candidates b 0]) := by
  have hlt := h.correctLen_lt σ
  have hsize : (w.greedyBlock.cut (verifyLens b)).blockSize = verifyLens b := rfl
  have haccept : w.acceptDraftTokens σ b = w.acceptGreedy b := by
    rw [acceptDraftTokens_eq _ _ h.mem, if_pos hmask]
  have hcont := (w.greedyBlock.cut (verifyLens b)).greedyContinuation_eq b hnext
    (n := (w.acceptGreedy b).correctLen + 1) (i := 0)
    (by rw [h.acceptGreedy_correctLen]; omega) (by rw [← haccept]; omega)
  simp only [Nat.zero_add] at hcont
  rw [h.committed_eq, haccept, h.acceptGreedy_run]
  show _ = GreedyBlock.greedyContinuation next ((w.acceptDraftTokens σ b).correctLen + 1) _
  rw [haccept]
  exact hcont.symm

/-- **A sampled request sees its verified rows and the next draft only.** -/
theorem Capped.observed_sampling (h : w.Capped verifyLens b) (h' : w'.Capped verifyLens b)
    (hsame : SameVerified verifyLens b w w') (hsampling : SameSampling verifyLens b w w' σ σ')
    (hmask : σ.greedyMask b = false) (hmask' : σ'.greedyMask b = false) :
    (w'.acceptAndFinalize σ' b).observed = (w.acceptAndFinalize σ b).observed := by
  have hpos := h.pos
  have hagree : KernelArgs.AgreeUpTo (verifyLens b - 1) (w.kernelArgs σ) b (w'.kernelArgs σ') b :=
    { numSlots := hsame.stride
      blockV := hsampling.blockV
      final := hsampling.final
      target := by
        intro i hi _
        show σ'.rowProbs b (w'.targetLogits b i) = σ.rowProbs b (w.targetLogits b i)
        rw [hsampling.rowProbs, hsame.logits i (by omega)]
      candidates := by
        intro i hi hslot
        rcases Nat.lt_or_ge (i + 1) (verifyLens b) with hlt | hge
        · exact hsame.candidates (i + 1) hlt
        · have hnext : i + 1 = verifyLens b := by omega
          rw [hnext] at hslot ⊢
          exact hsampling.next hslot
      draft := fun i hi hslot => hsampling.draft i (by omega) hslot
      coins := fun i hi hslot => hsampling.coins i (by omega) hslot }
  have hslots : 0 < (w.kernelArgs σ).numSlots := lt_of_lt_of_le h.pos h.le
  obtain ⟨hlen, hrun⟩ := h.acceptSampling_run σ
  obtain ⟨hlen', hrun'⟩ := h'.acceptSampling_run σ'
  have htake := hagree.take_eq hslots
  have hmin := hagree.min_accepted
  rw [Nat.sub_add_cancel hpos] at htake hmin
  have haccept : w.acceptDraftTokens σ b = w.acceptSampling σ b := by
    rw [acceptDraftTokens_eq _ _ h.mem, hmask, if_neg Bool.false_ne_true]
  have haccept' : w'.acceptDraftTokens σ' b = w'.acceptSampling σ' b := by
    rw [acceptDraftTokens_eq _ _ h'.mem, hmask', if_neg Bool.false_ne_true]
  rw [htake, ← hrun, List.append_singleton_inj] at hrun'
  refine h.observed_congr h' hsame ?_ ?_
  · rw [haccept, haccept', hlen, hlen']
    omega
  · rw [haccept, haccept', hrun'.2]

omit [Field K] [LinearOrder K] [NeZero V] in
/-- The verified rows of a compact run are the packed rows. -/
theorem runCompact_targetLogits (w : VerifyBatch V K) (compactLogits : ℕ → Fin V → K)
    (fillValue : Fin V → K) (hle : verifyLens b ≤ w.stride) {i : ℕ} (hi : i < verifyLens b) :
    (w.runCompact compactLogits verifyLens fillValue).targetLogits b i =
      compactLogits (TiledStores.offset verifyLens b + i) := by
  show scatterCompactToStrided compactLogits verifyLens fillValue w.stride (b * w.stride + i) = _
  rw [scatterCompactToStrided_row _ _ _ (hi.trans_le hle), if_pos hi]

/-- **The fill value of a compact run does not matter.** -/
theorem runCompact_observed (compactLogits : ℕ → Fin V → K) (fillValue fillValue' : Fin V → K)
    (h : (w.runCompact compactLogits verifyLens fillValue).Capped verifyLens b) :
    ((w.runCompact compactLogits verifyLens fillValue').acceptAndFinalize σ b).observed =
      ((w.runCompact compactLogits verifyLens fillValue).acceptAndFinalize σ b).observed := by
  have h' : (w.runCompact compactLogits verifyLens fillValue').Capped verifyLens b :=
    ⟨h.mem, rfl, h.pos, h.le, h.drafts⟩
  have hsame : SameVerified verifyLens b (w.runCompact compactLogits verifyLens fillValue)
      (w.runCompact compactLogits verifyLens fillValue') := by
    refine ⟨rfl, rfl, fun i hi => ?_, fun _ _ => rfl, fun _ _ => rfl⟩
    rw [w.runCompact_targetLogits _ _ h.le hi, w.runCompact_targetLogits _ _ h.le hi]
  cases hmask : σ.greedyMask b with
  | true => exact h.observed_greedy h' hsame hmask hmask
  | false =>
    exact h.observed_sampling h' hsame ⟨fun _ => rfl, rfl, rfl, rfl, fun _ _ _ => rfl,
      fun _ _ _ => rfl⟩ hmask hmask

end Requests

end VerifyBatch

/-! ### The law of a capped request -/

namespace Chain
variable (c : Chain V) {ℓ : ℕ}

theorem emittedRun_args {x : List (Fin V)} (hx : x.length = c.numDrafts) (u : ℕ → ℝ)
    (v : Ico (0 : ℝ) 1) :
    (c.args x u v).emittedRun 0 = (run (c.pass x) c.close x c.numDrafts u v).map Fin.val := by
  have hstored : (c.args x u v).Stored 0 ((c.args x u v).program 0 ⟨fun _ => 0, fun _ _ => 0,
      fun _ => 0⟩) :=
    KernelArgs.program_stored (Nat.succ_pos _) (fun i j _ _ heq => c.cells heq) _
  exact hstored.emitted.symm.trans (c.emit_eq _ hx u v)

/-- The law of a capped run for fixed drafts. -/
theorem real_take_run (hℓ : ℓ ≤ c.numDrafts) {x : List (Fin V)} (hx : x.length = c.numDrafts)
    (y : List (Fin V)) :
    ((coins c.numDrafts).prod unitLaw).real
        {d | (run (c.pass x) c.close x c.numDrafts (stream d.1) d.2).take (ℓ + 1) = y} =
      runGiven c.acc c.res (testClose (fun xs t => (c.target xs).val t) c.acc c.res)
        (fun xs => decide (xs.length = ℓ)) [] x y := by
  have hacc : ∀ i, i < c.numDrafts →
      coin.real {v | c.pass x i v = true} = (accepts c.acc [] x).getD i 0 := by
    intro i hi
    rw [getD_accepts c.acc [] (by omega) c.root, List.nil_append]
    simp only [pass, decide_eq_true_eq]
    rfl
  rcases Nat.lt_or_ge ℓ c.numDrafts with hlt | hge
  · exact ChainRun.real_take_run (c.measurableSet_pass x) hx.le hx.ge unitLaw _ hlt
      (fun i hi => hacc i (by omega)) (fun _ _ _ => rfl) y
  · -- without a cap the run is closed from the last target row
    obtain rfl : ℓ = c.numDrafts := by omega
    have hwhole : ∀ d : (Fin c.numDrafts → ℝ) × Ico (0 : ℝ) 1,
        (run (c.pass x) c.close x c.numDrafts (stream d.1) d.2).take (c.numDrafts + 1) =
          run (c.pass x) c.close x c.numDrafts (stream d.1) d.2 := by
      intro d
      have hle := passed_le (c.pass x) c.numDrafts (stream d.1)
      refine List.take_of_length_le ?_
      simp only [run, List.length_append, List.length_take, List.length_singleton]
      omega
    simp only [hwhole]
    refine real_run (c.measurableSet_pass x) hx.le hx.ge unitLaw ?_ hacc (fun xs t hxs => ?_) y
    · rw [kept_length _ [] x (Nat.zero_le _), List.length_nil]
      omega
    · split
      · rfl
      · rename_i hnlt
        have hlen : xs.length = c.numDrafts := by
          have := hxs.length_le
          rw [List.length_take] at this
          omega
        have hrow : c.closeWeights xs = (c.target xs).val := if_pos hlen
        rw [c.real_close (by rw [hrow, (c.target xs).sum_one]; exact one_pos), hrow,
          (c.target xs).sum_one, div_one, hlen, ← hx, List.drop_length]
        rfl

/-- A chain that closes with one more test is exact. -/
theorem exact_testClose : Exact c.acc c.res
    (testClose (fun xs t => (c.target xs).val t) c.acc c.res) (fun xs t => (c.target xs).val t)
    (fun xs t => (c.draft xs).val t) c.numDrafts where
  accept := c.exact.accept
  residual := c.exact.residual
  close n pre t hn := close_of_test (fun xs => (c.draft xs).sum_one)
    (fun hpos s => c.exact.accept pre s (by omega))
    (fun hpos t => c.exact.residual pre t (by omega)) t

/-- **A capped run has the target's law.** -/
theorem sum_drawExp_take_run (hℓ : ℓ ≤ c.numDrafts) (y : List (Fin V))
    (hy : y.length = c.numDrafts + 1) :
    ∑ k ∈ Finset.range (c.numDrafts + 2),
        drawExp (fun xs t => (c.draft xs).val t) c.numDrafts [] (fun x =>
          ((coins c.numDrafts).prod unitLaw).real
            {d | (run (c.pass x) c.close x c.numDrafts (stream d.1) d.2).take (ℓ + 1) =
              y.take k}) *
          seqProb (fun xs t => (c.target xs).val t) (y.take k) (y.drop k) =
      seqProb (fun xs t => (c.target xs).val t) [] y := by
  have hrun : ∀ k, drawExp (fun xs t => (c.draft xs).val t) c.numDrafts [] (fun x =>
      ((coins c.numDrafts).prod unitLaw).real
        {d | (run (c.pass x) c.close x c.numDrafts (stream d.1) d.2).take (ℓ + 1) = y.take k}) =
      runLaw (fun xs t => (c.target xs).val t) (fun xs t => (c.draft xs).val t)
        (fun xs => decide (xs.length = ℓ)) c.numDrafts [] (y.take k) := by
    intro k
    rw [drawExp_congr fun x hx => c.real_take_run hℓ hx (y.take k)]
    exact drawExp_runGiven (fun pre => (c.draft pre).sum_one) c.exact_testClose _ [] _ (by simp)
  simp only [hrun]
  exact sum_runLaw_seqProb _ _ _ c.numDrafts [] y hy

end Chain

/-- Request `b` verifies the chain `c` with the drafts `x` and the draws `u` and `v`, as far
as its verified rows go; nothing is said of the rows beyond and of other requests. -/
structure VerifyBatch.Verifies (w : VerifyBatch V ℝ) (σ : SamplingInputs V ℝ) (verifyLens : ℕ → ℕ)
    (b : ℕ) (c : Chain V) (x : List (Fin V)) (u : ℕ → ℝ) (v : ℝ) : Prop where
  capped : w.Capped verifyLens b
  sampled : σ.greedyMask b = false
  stride : w.stride = c.numDrafts + 1
  blockV : σ.blockV = c.blockV
  final : σ.uniformSamplesFinal b = v
  target : ∀ i < verifyLens b, σ.rowProbs b (w.targetLogits b i) = (c.target (x.take i)).val
  candidates : ∀ i < verifyLens b, i < c.numDrafts → w.candidates b (i + 1) = x.getD i c.root
  draft : ∀ i < verifyLens b, i < c.numDrafts → σ.draftProbs b i = (c.draft (x.take i)).val
  coins : ∀ i < verifyLens b, i < c.numDrafts → σ.uniformSamples b i = u i

namespace VerifyBatch.Verifies
variable [NeZero V] {w : VerifyBatch V ℝ} {σ : SamplingInputs V ℝ} {verifyLens : ℕ → ℕ} {b : ℕ}
  {c : Chain V} {x : List (Fin V)} {u : ℕ → ℝ} {v : Ico (0 : ℝ) 1}
  (h : w.Verifies σ verifyLens b c x u v)
include h

omit [NeZero V] in
theorem agreeUpTo :
    KernelArgs.AgreeUpTo (verifyLens b - 1) (c.args x u v) 0 (w.kernelArgs σ) b where
  numSlots := h.stride
  blockV := h.blockV
  final := h.final
  target := by
    intro i hi _
    have hpos := h.capped.pos
    exact h.target i (by omega)
  candidates := by
    intro i hi hslot
    have hpos := h.capped.pos
    exact (h.candidates i (by omega) (Nat.lt_of_succ_lt_succ hslot)).trans
      List.getD_cons_succ.symm
  draft := by
    intro i hi hslot
    have hpos := h.capped.pos
    exact h.draft i (by omega) (Nat.lt_of_succ_lt_succ hslot)
  coins := by
    intro i hi hslot
    have hpos := h.capped.pos
    exact h.coins i (by omega) (Nat.lt_of_succ_lt_succ hslot)

/-- What the request commits is the capped run of the chain. -/
theorem committed_eq (hx : x.length = c.numDrafts) :
    (w.acceptAndFinalize σ b).committed =
      ((run (c.pass x) c.close x c.numDrafts u v).take (verifyLens b)).map fun t =>
        (t.val : ℤ) := by
  have hpos := h.capped.pos
  have haccept : w.acceptDraftTokens σ b = w.acceptSampling σ b := by
    rw [acceptDraftTokens_eq _ _ h.capped.mem, h.sampled, if_neg Bool.false_ne_true]
  have htake := h.agreeUpTo.take_eq (Nat.succ_pos c.numDrafts)
  rw [Nat.sub_add_cancel hpos, c.emittedRun_args hx] at htake
  rw [h.capped.committed_eq, haccept, (h.capped.acceptSampling_run σ).2, htake, List.map_take,
    List.map_take, List.map_map]
  rfl

end VerifyBatch.Verifies

/-- **Capped verification is lossless.**  Whatever stands in the rows beyond its verify
length and in the rest of the batch, a capped request commits between one token and its
verify length; a greedy request commits the target's greedy continuation, and what it hands
on depends on its verified rows alone; what a sampled request hands on depends on its
verified rows and on the one draft after them, and when that is the draft of the chain, what
it commits has the target's law. -/
theorem acceptAndFinalize_capped [Field K] [LinearOrder K] [NeZero V] (verifyLens : ℕ → ℕ) (b : ℕ) :
    (∀ (w : VerifyBatch V K) (σ : SamplingInputs V K), w.Capped verifyLens b →
      (w.acceptAndFinalize σ b).commitLens = (w.acceptAndFinalize σ b).correctLen + 1 ∧
      (w.acceptAndFinalize σ b).newSeqLens =
        w.prefixLens b + (w.acceptAndFinalize σ b).commitLens ∧
      1 ≤ (w.acceptAndFinalize σ b).commitLens ∧
      (w.acceptAndFinalize σ b).commitLens ≤ verifyLens b) ∧
    (∀ (w : VerifyBatch V K) (σ : SamplingInputs V K), w.Capped verifyLens b → σ.greedyMask b →
      (∀ (w' : VerifyBatch V K) (σ' : SamplingInputs V K), w'.Capped verifyLens b →
        σ'.greedyMask b → VerifyBatch.SameVerified verifyLens b w w' →
        (w'.acceptAndFinalize σ' b).observed = (w.acceptAndFinalize σ b).observed) ∧
      ∀ (next : List ℤ → ℤ) (pre : List ℤ),
        (w.greedyBlock.cut (verifyLens b)).TargetPredicts b next pre →
        (w.acceptAndFinalize σ b).committed =
          GreedyBlock.greedyContinuation next ((w.acceptAndFinalize σ b).correctLen + 1)
            (pre ++ [((w.candidates b 0).val : ℤ)])) ∧
    (∀ (w w' : VerifyBatch V K) (σ σ' : SamplingInputs V K), w.Capped verifyLens b →
      w'.Capped verifyLens b → σ.greedyMask b = false → σ'.greedyMask b = false →
      VerifyBatch.SameVerified verifyLens b w w' →
      VerifyBatch.SameSampling verifyLens b w w' σ σ' →
      (w'.acceptAndFinalize σ' b).observed = (w.acceptAndFinalize σ b).observed) ∧
    ∀ (c : Chain V)
      (batch : List (Fin V) → (Fin c.numDrafts → ℝ) × Ico (0 : ℝ) 1 → VerifyBatch V ℝ)
      (inputs : List (Fin V) → (Fin c.numDrafts → ℝ) × Ico (0 : ℝ) 1 → SamplingInputs V ℝ),
      (∀ x d, x.length = c.numDrafts →
        (batch x d).Verifies (inputs x d) verifyLens b c x (stream d.1) d.2) →
      ∀ y : List (Fin V), y.length = c.numDrafts + 1 →
      ∑ k ∈ Finset.range (c.numDrafts + 2),
          drawExp (fun xs t => (c.draft xs).val t) c.numDrafts [] (fun x =>
            ((coins c.numDrafts).prod unitLaw).real
              {d | ((batch x d).acceptAndFinalize (inputs x d) b).committed =
                (y.take k).map fun t => (t.val : ℤ)}) *
            seqProb (fun xs t => (c.target xs).val t) (y.take k) (y.drop k) =
        seqProb (fun xs t => (c.target xs).val t) [] y := by
  refine ⟨fun w σ h => ⟨rfl, rfl, Nat.succ_pos _, h.correctLen_lt σ⟩,
    fun w σ h hmask => ⟨fun w' σ' h' hmask' hsame => h.observed_greedy h' hsame hmask hmask',
      fun next pre hnext => h.committed_greedy hmask hnext⟩,
    fun w w' σ σ' h h' hmask hmask' hsame hsampling =>
      h.observed_sampling h' hsame hsampling hmask hmask', fun c batch inputs hverifies y hy => ?_⟩
  have hcast : Function.Injective fun t : Fin V => (t.val : ℤ) :=
    Nat.cast_injective.comp Fin.val_injective
  have hfirst := hverifies (List.replicate c.numDrafts 0) (fun _ => 0, ⟨0, by norm_num⟩) (by simp)
  have hpos := hfirst.capped.pos
  have hle := hfirst.capped.le
  rw [hfirst.stride] at hle
  obtain ⟨ℓ, hℓ⟩ : ∃ ℓ, verifyLens b = ℓ + 1 := ⟨verifyLens b - 1, by omega⟩
  have hset : ∀ x, x.length = c.numDrafts → ∀ k,
      {d | ((batch x d).acceptAndFinalize (inputs x d) b).committed =
        (y.take k).map fun t => (t.val : ℤ)} =
      {d | (run (c.pass x) c.close x c.numDrafts (stream d.1) d.2).take (ℓ + 1) = y.take k} := by
    intro x hx k
    ext d
    rw [mem_ofPred_eq, (hverifies x d hx).committed_eq hx, hℓ]
    exact (List.map_injective_iff.mpr hcast).eq_iff
  rw [← c.sum_drawExp_take_run (ℓ := ℓ) (by omega) y hy]
  refine Finset.sum_congr rfl fun k _ => congrArg (· * _) (drawExp_congr fun x hx => ?_)
  rw [hset x hx k]

/-- A window of two slots of which one is verified; the slot after it holds `t`. -/
def pairWindow (t : Fin 2) : VerifyBatch 2 ℚ where
  bs := 1
  stride := 2
  candidates _ i := if i = 1 then t else Fin.last 1
  draftTokens _ _ := t
  targetLogits _ _ _ := 0
  prefixLens _ := 5
  cutoffVerifyLens := some fun _ => 1

/-- Even rows, as a softmax makes them of equal logits, and draws of zero. -/
def evenInputs (greedy : Bool) : SamplingInputs 2 ℚ where
  greedyMask _ := greedy
  rowProbs _ _ _ := 1 / 2
  draftProbs _ _ _ := 1 / 2
  uniformSamples _ _ := 0
  uniformSamplesFinal _ := 0
  blockV := 2
  buffers := ⟨fun _ => 0, fun _ _ => 0, fun _ => 0⟩

theorem pairWindow_capped (t : Fin 2) : (pairWindow t).Capped (fun _ => 1) 0 where
  mem := Nat.one_pos
  cutoff := rfl
  pos := le_rfl
  le := Nat.le_succ 1
  drafts i hi := by omega

theorem pairWindow_same (t t' : Fin 2) :
    VerifyBatch.SameVerified (fun _ => 1) 0 (pairWindow t) (pairWindow t') where
  stride := rfl
  prefixLens := rfl
  logits _ _ := rfl
  candidates i hi := by
    obtain rfl : i = 0 := by omega
    rfl
  drafts i hi := by omega

/-- **A sampled bonus reads the candidate past the verified slots**: two windows with the
same verified row, normalised rows and the same draws, and two bonus tokens. -/
theorem bonus_reads_next_candidate :
    (pairWindow 0).Capped (fun _ => 1) 0 ∧ (pairWindow 1).Capped (fun _ => 1) 0 ∧
      VerifyBatch.SameVerified (fun _ => 1) 0 (pairWindow 0) (pairWindow 1) ∧
      (∀ logits, ∑ t, (evenInputs false).rowProbs 0 logits t = 1) ∧
      (∀ i, ∑ t, (evenInputs false).draftProbs 0 i t = 1) ∧
      ((pairWindow 0).acceptAndFinalize (evenInputs false) 0).bonus = 0 ∧
      ((pairWindow 1).acceptAndFinalize (evenInputs false) 0).bonus = 1 := by
  refine ⟨pairWindow_capped 0, pairWindow_capped 1, pairWindow_same 0 1, ?_, ?_, ?_, ?_⟩
  · intro logits
    simp only [evenInputs, Fin.sum_univ_two]
    norm_num
  · intro i
    simp only [evenInputs, Fin.sum_univ_two]
    norm_num
  · decide +kernel
  · decide +kernel

/-- One request of the leaning chain, with one verified row and a second row of the same
even odds. -/
noncomputable def leaningWindow (x : List (Fin 2)) : VerifyBatch 2 ℝ where
  bs := 1
  stride := 2
  candidates _ i := (leaningChain.root :: x).getD i leaningChain.root
  draftTokens _ i := x.getD i leaningChain.root
  targetLogits _ _ _ := 0
  prefixLens _ := 5
  cutoffVerifyLens := some fun _ => 1

/-- Its sampling inputs. -/
noncomputable def leaningInputs (u : ℕ → ℝ) (v : ℝ) : SamplingInputs 2 ℝ where
  greedyMask _ := false
  rowProbs _ _ := evenDist.val
  draftProbs _ _ := leaningDist.val
  uniformSamples _ := u
  uniformSamplesFinal _ := v
  blockV := 4096
  buffers := zeroMemory

theorem leaningWindow_verifies (x : List (Fin 2)) (u : ℕ → ℝ) (v : ℝ) :
    (leaningWindow x).Verifies (leaningInputs u v) (fun _ => 1) 0 leaningChain x u v where
  capped :=
    { mem := Nat.one_pos
      cutoff := rfl
      pos := le_rfl
      le := Nat.le_succ 1
      drafts := fun i hi => by omega }
  sampled := rfl
  stride := rfl
  blockV := rfl
  final := rfl
  target _ _ := rfl
  candidates i _ _ := List.getD_cons_succ
  draft _ _ _ := rfl
  coins _ _ _ := rfl

theorem acceptAndFinalize_capped_leaning :
    ((pairWindow 0).acceptAndFinalize (evenInputs true) 0).committed = [0] ∧
      ∑ k ∈ Finset.range 3,
          drawExp (fun xs t => (leaningChain.draft xs).val t) 1 [] (fun x =>
            ((coins 1).prod unitLaw).real
              {d | ((leaningWindow x).acceptAndFinalize
              (leaningInputs (stream d.1) d.2) 0).committed =
                (([0, 1] : List (Fin 2)).take k).map fun t => (t.val : ℤ)}) *
            seqProb (fun xs t => (leaningChain.target xs).val t) ([0, 1].take k) ([0, 1].drop k) =
        1 / 4 := by
  obtain ⟨hlens, hgreedy, -, hlaw⟩ :=
    @acceptAndFinalize_capped 2 ℚ _ _ _ (fun _ => 1) 0
  refine ⟨?_, (hlaw leaningChain (fun x _ => leaningWindow x)
    (fun _ d => leaningInputs (stream d.1) d.2) (fun x d _ => leaningWindow_verifies x _ _)
    [0, 1] rfl).trans ?_⟩
  · have hle := (hlens (pairWindow 0) (evenInputs true) (pairWindow_capped 0)).2.2.2
    have hcorrect : ((pairWindow 0).acceptAndFinalize (evenInputs true) 0).correctLen = 0 :=
      Nat.le_zero.mp (Nat.succ_le_succ_iff.mp hle)
    have hcommitted := (hgreedy (pairWindow 0) (evenInputs true) (pairWindow_capped 0) rfl).2
      (fun _ => 0) [] (by intro j hj; obtain rfl : j = 0 := Nat.lt_one_iff.mp hj; rfl)
    rw [hcorrect] at hcommitted
    exact hcommitted
  · simp only [seqProb, leaningChain, evenDist]
    norm_num

end LatentSpec
