import LatentSpec.OnlineSoftmax

/-! # The fused soft cross entropy

The loss of a draft head is computed by two kernels, a program for each row.  The forward kernel
finds the normaliser of the row in one pass and adds up the weighted log-probabilities in a
second; the backward kernel overwrites the row with its gradient, tile by tile, from the pair the
forward kernel saved.  `forward_eq` says that the value is the masked cross entropy over the
normaliser, and `backward_eq` what is left in the memory of the logits; that it is the derivative
is `fusedLogSoftmaxLoss_spec`.
-/
namespace LatentSpec
open OnlineSoftmax Softmax TiledSearch TiledStores

/-- The arguments of `FusedLogSoftmaxLoss`: tensors of `rows` rows of `vocab` entries, row after
row. -/
structure LossArgs where
  rows : ℕ
  vocab : ℕ
  logits : ℕ → ℝ
  targetP : ℕ → ℝ
  positionMask : ℕ → Bool
  normalizer : ℝ
  blockSize : ℕ
  blockSize_pos : 0 < blockSize

/-- What a program of the forward kernel leaves in `loss`, `m` and `d`. -/
structure SavedRow where
  loss : ℝ
  m : WithBot ℝ
  d : ℝ

/-- `tl.load(ptr + offset, mask=offset < n_cols, other=other)` -/
def loadMasked {α : Type} (nCols : ℕ) (row : ℕ → α) (other : α) (offset : ℕ) : α :=
  if offset < nCols then row offset else other

/-- One turn of the first loop: the running maximum and the sum of the shifted weights. -/
noncomputable def forwardTile (nCols blockSize : ℕ) (row : ℕ → ℝ) (s : WithBot ℝ × ℝ)
    (start : ℕ) : WithBot ℝ × ℝ :=
  let offsets := (List.range blockSize).map (start + ·)
  let logitsBlock := loadMasked nCols (fun v => (row v : WithBot ℝ)) ⊥
  let blockMax := maxScore (offsets.map fun v => if v < nCols then logitsBlock v else ⊥)
  let mNew := max s.1 blockMax
  -- a tile has an entry of the row, so that `mNew` is a number
  let shift := mNew.unbotD 0
  (mNew, s.2 * expShift shift s.1 +
    (offsets.map fun v => if v < nCols then expShift shift (logitsBlock v) else 0).sum)

namespace LossArgs
variable (x : LossArgs)

/-- Row `r` of the logits. -/
def logitsRow (r v : ℕ) : ℝ := x.logits (r * x.vocab + v)

/-- Row `r` of the targets. -/
def targetRow (r v : ℕ) : ℝ := x.targetP (r * x.vocab + v)

/-- `_log_softmax_forward_kernel`; a masked row keeps the zeros it was allocated with. -/
noncomputable def logSoftmaxForwardKernel (programId : ℕ) : SavedRow :=
  if x.positionMask programId = false then ⟨0, (0 : ℝ), 0⟩
  else
    let s := (tileStarts x.vocab x.blockSize).foldl
      (forwardTile x.vocab x.blockSize (x.logitsRow programId)) (⊥, 0)
    let loss := tiledSum x.vocab x.blockSize fun v =>
      let logits := loadMasked x.vocab (x.logitsRow programId) 0 v
      let target := loadMasked x.vocab (x.targetRow programId) 0 v
      let logSoftmaxLogits := logits - s.1.unbotD 0 - Real.log s.2
      if v < x.vocab then target * logSoftmaxLogits else 0
    ⟨-loss, s.1, s.2⟩

/-- `FusedLogSoftmaxLoss.forward` -/
noncomputable def forward : ℝ :=
  ((List.range x.rows).map fun r => (x.logSoftmaxForwardKernel r).loss).sum / x.normalizer

/-- The lanes of a tile that are in the row. -/
def tileLanes (start : ℕ) : List ℕ :=
  ((List.range x.blockSize).map (start + ·)).filter (· < x.vocab)

/-- `_log_softmax_backward_kernel`, on the memory of the logits. -/
noncomputable def logSoftmaxBackwardKernel (gradOutput : ℝ) (mem : ℕ → ℝ) (programId : ℕ) :
    ℕ → ℝ :=
  let base := programId * x.vocab
  if x.positionMask programId = false then
    ((tileStarts x.vocab x.blockSize).map x.tileLanes).foldl (overwrite base fun _ _ => 0) mem
  else
    let saved := x.logSoftmaxForwardKernel programId
    let gradOutput := gradOutput * (1 / x.normalizer)
    let targetGradSum := tiledSum x.vocab x.blockSize fun v =>
      if v < x.vocab then loadMasked x.vocab (x.targetRow programId) 0 v * gradOutput else 0
    ((tileStarts x.vocab x.blockSize).map x.tileLanes).foldl
      (overwrite base fun v logit =>
        let softmaxProb := Real.exp (logit - saved.m.unbotD 0) / saved.d
        let normalizedGrad := softmaxProb * targetGradSum
        let gradBlock := -(x.targetRow programId v * gradOutput - normalizedGrad)
        gradBlock) mem

/-- `FusedLogSoftmaxLoss.backward`: the memory of the logits, which is the gradient. -/
noncomputable def backward (gradOutput : ℝ) : ℕ → ℝ :=
  (List.range x.rows).foldl (x.logSoftmaxBackwardKernel gradOutput) x.logits

/-- The arguments with another value of one logit. -/
def withLogit (a : ℕ) (z : ℝ) : LossArgs := { x with logits := Function.update x.logits a z }

end LossArgs

/-! ### The forward kernel -/

theorem forwardTile_eq (nCols blockSize : ℕ) (row : ℕ → ℝ) (s : WithBot ℝ × ℝ) (start : ℕ) :
    forwardTile nCols blockSize row s start =
      absorb s (lanes blockSize (masked nCols row) start) := by
  have hblock : ((List.range blockSize).map (start + ·)).map (fun v =>
      if v < nCols then loadMasked nCols (fun v => (row v : WithBot ℝ)) ⊥ v else ⊥) =
      lanes blockSize (masked nCols row) start := by
    rw [List.map_map, lanes]
    refine List.map_congr_left fun lane _ => ?_
    rw [Function.comp_apply, loadMasked, masked]
    split <;> rfl
  have hexp : ∀ shift : ℝ, ((List.range blockSize).map (start + ·)).map (fun v =>
      if v < nCols then expShift shift (loadMasked nCols (fun v => (row v : WithBot ℝ)) ⊥ v)
      else 0) = (lanes blockSize (masked nCols row) start).map (expShift shift) := by
    intro shift
    rw [lanes, List.map_map, List.map_map]
    refine List.map_congr_left fun lane _ => ?_
    rw [Function.comp_apply, Function.comp_apply, loadMasked, masked]
    split
    · rfl
    · exact (expShift_bot shift).symm
  unfold forwardTile absorb
  dsimp only
  rw [hblock, hexp]

namespace LossArgs
variable {x : LossArgs} {r v : ℕ}

theorem tiledSum_masked (f : ℕ → ℝ) : (tiledSum x.vocab x.blockSize fun v =>
    if v < x.vocab then f v else 0) = ∑ v ∈ Finset.range x.vocab, f v := by
  rw [tiledSum_eq x.blockSize_pos fun v hv => if_neg (not_lt.mpr hv), sum_map_range]
  exact Finset.sum_congr rfl fun v hv => if_pos (Finset.mem_range.mp hv)

/-- The pair a program saves. -/
theorem saved_eq (hmask : x.positionMask r = true) (hvocab : 0 < x.vocab) : ∃ m : ℝ,
    (x.logSoftmaxForwardKernel r).m = m ∧ (x.logSoftmaxForwardKernel r).d =
      ∑ v ∈ Finset.range x.vocab, Real.exp (x.logitsRow r v - m) := by
  obtain ⟨m, hm⟩ := onlineRow_eq x.blockSize_pos hvocab (x.logitsRow r)
  have hfold : (tileStarts x.vocab x.blockSize).foldl
      (forwardTile x.vocab x.blockSize (x.logitsRow r)) (⊥, 0) =
      onlineRow x.vocab x.blockSize (x.logitsRow r) := by
    rw [onlineRow]
    exact congrArg (fun f => (tileStarts x.vocab x.blockSize).foldl f (⊥, 0))
      (funext fun s => funext fun start => forwardTile_eq _ _ _ s start)
  refine ⟨m, ?_⟩
  unfold logSoftmaxForwardKernel
  rw [if_neg (by rw [hmask]; decide)]
  dsimp only
  rw [hfold, hm]
  exact ⟨rfl, rfl⟩

/-- **The loss of a row.** -/
theorem loss_eq (x : LossArgs) (r : ℕ) : (x.logSoftmaxForwardKernel r).loss =
    if x.positionMask r = true then crossEntropy x.vocab (x.targetRow r) (x.logitsRow r)
    else 0 := by
  cases hmask : x.positionMask r with
  | false =>
    unfold logSoftmaxForwardKernel
    rw [if_pos hmask, if_neg Bool.false_ne_true]
  | true =>
    have hloss : (x.logSoftmaxForwardKernel r).loss = -∑ v ∈ Finset.range x.vocab,
        x.targetRow r v * (x.logitsRow r v - (x.logSoftmaxForwardKernel r).m.unbotD 0 -
          Real.log (x.logSoftmaxForwardKernel r).d) := by
      unfold logSoftmaxForwardKernel
      rw [if_neg (by rw [hmask]; decide)]
      dsimp only
      rw [tiledSum_masked]
      refine congrArg Neg.neg (Finset.sum_congr rfl fun v hv => ?_)
      rw [loadMasked, loadMasked, if_pos (Finset.mem_range.mp hv), if_pos (Finset.mem_range.mp hv)]
    rw [if_pos rfl, hloss, crossEntropy]
    refine congrArg Neg.neg (Finset.sum_congr rfl fun v hv => ?_)
    have hvocab : 0 < x.vocab := Nat.zero_lt_of_lt (Finset.mem_range.mp hv)
    obtain ⟨m, hm, hd⟩ := saved_eq hmask hvocab
    rw [hm, hd, WithBot.unbotD_coe, sub_sub, add_log_sum hvocab]

/-- **The value** is the masked cross entropy over the normaliser. -/
theorem forward_eq (x : LossArgs) : x.forward = (∑ r ∈ Finset.range x.rows,
    if x.positionMask r = true then crossEntropy x.vocab (x.targetRow r) (x.logitsRow r)
    else 0) / x.normalizer := by
  rw [forward, sum_map_range]
  exact congrArg (· / _) (Finset.sum_congr rfl fun r _ => loss_eq x r)

/-! ### The backward kernel -/

/-- The derivative of the loss of a row with respect to one of its logits. -/
noncomputable def rowGrad (x : LossArgs) (r v : ℕ) : ℝ :=
  if x.positionMask r = true then
    Real.exp (x.logitsRow r v) / (∑ w ∈ Finset.range x.vocab, Real.exp (x.logitsRow r w)) *
      (∑ w ∈ Finset.range x.vocab, x.targetRow r w) - x.targetRow r v
  else 0

theorem flatten_tileLanes (x : LossArgs) :
    ((tileStarts x.vocab x.blockSize).map x.tileLanes).flatten = List.range x.vocab := by
  rw [← tiles_eq_range x.blockSize_pos x.vocab, tiles, tileStarts, List.map_map]
  rfl

/-- The cells of a row, and those of another. -/
theorem cell_iff {r' : ℕ} (hv : v < x.vocab) :
    (r' * x.vocab ≤ r * x.vocab + v ∧ r * x.vocab + v - r' * x.vocab < x.vocab) ↔ r = r' := by
  constructor
  · rintro ⟨hle, hlt⟩
    have hcell : r * x.vocab + v = r' * x.vocab + (r * x.vocab + v - r' * x.vocab) := by omega
    exact (block_inj hv hlt hcell).1
  · rintro rfl
    rw [Nat.add_sub_cancel_left]
    exact ⟨Nat.le_add_right .., hv⟩

/-- **A program overwrites its own row**, each entry from what it held, and no other. -/
theorem backwardKernel_eq (x : LossArgs) (gradOutput : ℝ) (mem : ℕ → ℝ) {r' : ℕ}
    (hv : v < x.vocab) (hmem : r = r' → mem (r * x.vocab + v) = x.logitsRow r v) :
    x.logSoftmaxBackwardKernel gradOutput mem r' (r * x.vocab + v) =
      if r = r' then x.rowGrad r v / x.normalizer * gradOutput else mem (r * x.vocab + v) := by
  have hnodup : ((tileStarts x.vocab x.blockSize).map x.tileLanes).flatten.Nodup := by
    rw [flatten_tileLanes]
    exact List.nodup_range
  have hwritten : ∀ f : ℕ → ℝ → ℝ, ((tileStarts x.vocab x.blockSize).map x.tileLanes).foldl
      (overwrite (r' * x.vocab) f) mem (r * x.vocab + v) =
      if r = r' then f v (mem (r * x.vocab + v)) else mem (r * x.vocab + v) := by
    intro f
    rw [foldl_overwrite _ f hnodup, flatten_tileLanes]
    simp only [List.mem_range, cell_iff hv]
    by_cases hr : r = r'
    · subst hr
      rw [if_pos rfl, if_pos rfl, Nat.add_sub_cancel_left]
    · rw [if_neg hr, if_neg hr]
  by_cases hr : r = r'
  · subst hr
    rw [if_pos rfl]
    unfold logSoftmaxBackwardKernel rowGrad
    cases hmask : x.positionMask r with
    | false =>
      dsimp only
      rw [if_pos rfl, hwritten, if_pos rfl, if_neg Bool.false_ne_true, zero_div, zero_mul]
    | true =>
      obtain ⟨m, hm, hd⟩ := saved_eq hmask (Nat.zero_lt_of_lt hv)
      have htargets : (tiledSum x.vocab x.blockSize fun v => if v < x.vocab then
          loadMasked x.vocab (x.targetRow r) 0 v * (gradOutput * (1 / x.normalizer)) else 0) =
          (∑ w ∈ Finset.range x.vocab, x.targetRow r w) * (gradOutput * (1 / x.normalizer)) := by
        rw [tiledSum_masked, Finset.sum_mul]
        refine Finset.sum_congr rfl fun w hw => ?_
        rw [loadMasked, if_pos (Finset.mem_range.mp hw)]
      dsimp only
      rw [if_neg (by decide), hwritten, if_pos rfl, if_pos rfl, hmem rfl, htargets, hm, hd,
        WithBot.unbotD_coe, exp_div_sum]
      ring
  · rw [if_neg hr]
    unfold logSoftmaxBackwardKernel
    dsimp only
    split
    · rw [hwritten, if_neg hr]
    · rw [hwritten, if_neg hr]

/-- **What is left in the memory of the logits.** -/
theorem backward_eq (x : LossArgs) (gradOutput : ℝ) (hr : r < x.rows) (hv : v < x.vocab) :
    x.backward gradOutput (r * x.vocab + v) = x.rowGrad r v / x.normalizer * gradOutput := by
  have hrun : ∀ n, (List.range n).foldl (x.logSoftmaxBackwardKernel gradOutput) x.logits
      (r * x.vocab + v) =
        if r < n then x.rowGrad r v / x.normalizer * gradOutput else x.logitsRow r v := by
    intro n
    induction n with
    | zero => rfl
    | succ n ih =>
      rw [List.range_succ, List.foldl_append, List.foldl_cons, List.foldl_nil,
        backwardKernel_eq x gradOutput _ hv fun hrn => by rw [ih, if_neg (by omega)], ih]
      rcases Nat.lt_trichotomy r n with h | h | h
      · rw [if_neg h.ne, if_pos h, if_pos (by omega)]
      · rw [if_pos h, if_pos (by omega)]
      · rw [if_neg h.ne', if_neg (by omega), if_neg (by omega)]
  rw [backward, hrun, if_pos hr]

/-! ### The derivative -/

theorem logitsRow_withLogit (x : LossArgs) (hv : v < x.vocab) (z : ℝ) {r' w : ℕ}
    (hw : w < x.vocab) : (x.withLogit (r * x.vocab + v) z).logitsRow r' w =
      if r' = r then Function.update (x.logitsRow r) v z w else x.logitsRow r' w := by
  show Function.update x.logits (r * x.vocab + v) z (r' * x.vocab + w) = _
  by_cases hr : r' = r
  · subst hr
    rw [if_pos rfl]
    by_cases hwv : w = v
    · rw [hwv, Function.update_self, Function.update_self]
    · rw [Function.update_of_ne (by omega), Function.update_of_ne hwv]
      rfl
  · rw [if_neg hr, Function.update_of_ne fun hcell => hr (block_inj hw hv hcell).1]
    rfl

/-- **The derivative of the value** with respect to one logit. -/
theorem hasDerivAt_forward (x : LossArgs) (hr : r < x.rows) (hv : v < x.vocab) :
    HasDerivAt (fun z => (x.withLogit (r * x.vocab + v) z).forward)
      (x.rowGrad r v / x.normalizer) (x.logitsRow r v) := by
  have hvalue : (fun z => (x.withLogit (r * x.vocab + v) z).forward) = fun z =>
      (∑ r' ∈ Finset.range x.rows, if x.positionMask r' = true then
        crossEntropy x.vocab (x.targetRow r')
          (if r' = r then Function.update (x.logitsRow r) v z else x.logitsRow r')
        else 0) / x.normalizer := by
    funext z
    rw [forward_eq]
    refine congrArg (· / x.normalizer) (Finset.sum_congr rfl fun r' _ => ?_)
    refine if_congr Iff.rfl (crossEntropy_congr _ fun w hw => ?_) rfl
    rw [logitsRow_withLogit x hv z hw]
    split <;> rfl
  have hrow : ∀ r' ∈ Finset.range x.rows, HasDerivAt (fun z =>
      if x.positionMask r' = true then
        crossEntropy x.vocab (x.targetRow r')
          (if r' = r then Function.update (x.logitsRow r) v z else x.logitsRow r')
      else 0) (if r' = r then x.rowGrad r v else 0) (x.logitsRow r v) := by
    intro r' _
    by_cases hsame : r' = r
    · subst hsame
      unfold rowGrad
      cases x.positionMask r' with
      | true =>
        simp only [if_true]
        exact hasDerivAt_crossEntropy hv (x.targetRow r') (x.logitsRow r')
      | false =>
        simp only [Bool.false_eq_true, if_false, if_true]
        exact hasDerivAt_const _ _
    · simp only [if_neg hsame]
      exact hasDerivAt_const _ _
  rw [hvalue]
  refine ((HasDerivAt.fun_sum hrow).div_const x.normalizer).congr_deriv ?_
  rw [Finset.sum_ite_eq' _ r, if_pos (Finset.mem_range.mpr hr)]

/-- **The fused soft cross entropy.**  For every row that counts the saved pair makes the
logarithm of the normaliser; the value is the masked cross entropy over the normaliser; and the
backward pass leaves the derivative of the value times `grad_output` where the logits were, which
is zero on the rows that do not count. -/
theorem fusedLogSoftmaxLoss_spec (x : LossArgs) (gradOutput : ℝ) :
    (∀ r, x.positionMask r = true → 0 < x.vocab → ∃ m : ℝ,
      (x.logSoftmaxForwardKernel r).m = m ∧ m + Real.log (x.logSoftmaxForwardKernel r).d =
        Real.log (∑ v ∈ Finset.range x.vocab, Real.exp (x.logitsRow r v))) ∧
    x.forward = (∑ r ∈ Finset.range x.rows, if x.positionMask r = true then
      -∑ v ∈ Finset.range x.vocab, x.targetRow r v * (x.logitsRow r v -
        Real.log (∑ w ∈ Finset.range x.vocab, Real.exp (x.logitsRow r w)))
      else 0) / x.normalizer ∧
    ∀ r < x.rows, ∀ v < x.vocab,
      (∃ D, HasDerivAt (fun z => (x.withLogit (r * x.vocab + v) z).forward) D (x.logitsRow r v) ∧
        x.backward gradOutput (r * x.vocab + v) = D * gradOutput) ∧
      (x.positionMask r = false → x.backward gradOutput (r * x.vocab + v) = 0) := by
  refine ⟨?_, forward_eq x, ?_⟩
  · intro r hmask hvocab
    obtain ⟨m, hm, hd⟩ := saved_eq hmask hvocab
    refine ⟨m, hm, ?_⟩
    rw [hd, add_log_sum hvocab]
  · intro r hr v hv
    refine ⟨⟨_, hasDerivAt_forward x hr hv, backward_eq x gradOutput hr hv⟩, ?_⟩
    intro hmask
    have hzero : x.rowGrad r v = 0 := by
      rw [rowGrad, hmask, if_neg Bool.false_ne_true]
    rw [backward_eq x gradOutput hr hv, hzero, zero_div, zero_mul]

/-- Two rows of three equal logits, the second of which does not count, in tiles of two lanes; the
targets are all on the first token. -/
def twoRows : LossArgs :=
  ⟨2, 3, fun _ => 0, fun i => if i % 3 = 0 then 1 else 0, fun r => decide (r = 0), 1, 2,
    Nat.two_pos⟩

/-- The last logit of the first row, in a tile of its own, has its share of the softmax as
gradient. -/
theorem fusedLogSoftmaxLoss_spec_twoRows :
    (∃ m : ℝ, (twoRows.logSoftmaxForwardKernel 0).m = m ∧
      m + Real.log (twoRows.logSoftmaxForwardKernel 0).d = Real.log 3) ∧
    HasDerivAt (fun z => (twoRows.withLogit 2 z).forward) (1 / 3) 0 ∧
    twoRows.backward 1 2 = 1 / 3 ∧ twoRows.backward 1 3 = 0 := by
  obtain ⟨hpair, -, hgrad⟩ := fusedLogSoftmaxLoss_spec twoRows 1
  have hweights : ∑ _v ∈ Finset.range 3, Real.exp 0 = 3 := by
    rw [Finset.sum_const, Finset.card_range, Real.exp_zero, nsmul_eq_mul, mul_one]
    rfl
  have htargets : ∑ w ∈ Finset.range 3, twoRows.targetRow 0 w = 1 := by
    show ∑ w ∈ Finset.range 3, (if (0 * 3 + w) % 3 = 0 then (1 : ℝ) else 0) = 1
    rw [Finset.sum_range_succ, Finset.sum_range_succ, Finset.sum_range_one]
    norm_num
  have hthird : twoRows.rowGrad 0 2 = 1 / 3 := by
    show Real.exp 0 / (∑ _w ∈ Finset.range 3, Real.exp 0) *
      (∑ w ∈ Finset.range 3, twoRows.targetRow 0 w) - (if 2 = 0 then (1 : ℝ) else 0) = 1 / 3
    rw [hweights, htargets, Real.exp_zero, mul_one, if_neg two_ne_zero, sub_zero]
  have hlast : twoRows.backward 1 2 = 1 / 3 := by
    refine (backward_eq twoRows 1 (r := 0) (v := 2) Nat.two_pos (Nat.lt_succ_self 2)).trans ?_
    rw [hthird, mul_one]
    exact div_one _
  obtain ⟨D, hderiv, hD⟩ := (hgrad 0 Nat.two_pos 2 (Nat.lt_succ_self 2)).1
  obtain rfl : D = 1 / 3 := by
    rw [← mul_one D, ← hD]
    exact hlast
  refine ⟨?_, hderiv, hlast, (hgrad 1 Nat.one_lt_two 0 (Nat.succ_pos 2)).2 rfl⟩
  obtain ⟨m, hm, hlog⟩ := hpair 0 rfl (Nat.succ_pos 2)
  exact ⟨m, hm, hlog.trans (congrArg Real.log hweights)⟩

end LossArgs
end LatentSpec
