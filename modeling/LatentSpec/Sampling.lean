import LatentSpec.Categorical

/-! # Sampling primitives

`deepspec/utils/sampling.py`: turning logits into probabilities, drawing a token,
and drawing from the residual of two rows.  Arithmetic is exact, over any ordered
field.  A row of probabilities is a row of non-negative weights by its type
(`Probs`); nothing says that it sums to one.

Two library functions enter as data.  `softmax` is any map from scaled logits to
`Probs`.  `torch.multinomial` is a `Multinomial`: whatever its internal draw `ω`,
it never returns an index of weight zero when some index has weight.
-/
namespace LatentSpec

/-- A row of non-negative weights over a vocabulary of size `V`. -/
structure Probs (V : ℕ) (K : Type*) [Zero K] [LE K] where
  val : Fin V → K
  nonneg : ∀ i, 0 ≤ val i

variable {V : ℕ} {K : Type*} [Field K] [LinearOrder K]

/-- `torch.argmax`: the first index of a largest entry. -/
def argmax [NeZero V] (logits : Fin V → K) : Fin V :=
  ((List.finRange V).argmax logits).getD 0

variable [IsStrictOrderedRing K]

/-- All the weight on one token. -/
def oneHot (t : Fin V) : Probs V K where
  val i := if i = t then 1 else 0
  nonneg i := by split <;> norm_num

theorem oneHot_val (t i : Fin V) : (oneHot t : Probs V K).val i = if i = t then 1 else 0 := rfl

theorem sum_oneHot (t : Fin V) : ∑ i, (oneHot t : Probs V K).val i = 1 := by
  simp [oneHot_val]

/-- `logits_to_probs`: below temperature `1e-5` the row is the one-hot row of the
argmax, otherwise the softmax of the scaled logits. -/
def logitsToProbs [NeZero V] (softmax : (Fin V → K) → Probs V K) (logits : Fin V → K)
    (temperature : K) : Probs V K :=
  if temperature < 1 / 100000 then oneHot (argmax logits)
  else softmax (fun i => logits i / temperature)

theorem logitsToProbs_greedy [NeZero V] (softmax : (Fin V → K) → Probs V K) (logits : Fin V → K)
    {temperature : K} (h : temperature < 1 / 100000) :
    logitsToProbs softmax logits temperature = oneHot (argmax logits) := if_pos h

/-- `torch.multinomial` for one row and one sample.  `pick w ω` is the index drawn
when the generator's internal draw is `ω`; an index of weight zero is never drawn
from a row that has weight. -/
structure Multinomial (V : ℕ) (K : Type*) [Field K] [LinearOrder K] (Ω : Type*) where
  pick : Probs V K → Ω → Fin V
  pick_pos : ∀ (w : Probs V K) (ω : Ω), 0 < ∑ i, w.val i → 0 < w.val (pick w ω)

/-- The index a search found. -/
def foundIndex [NeZero V] : Option ℕ → Fin V
  | some i => Fin.ofNat V i
  | none => 0

/-- A generator that searches the running totals of the row for a uniform draw. -/
def Multinomial.inverseCdf [NeZero V] : Multinomial V K (Set.Ico (0 : K) 1) where
  pick w u := foundIndex (Categorical.searchFrom 0 (List.ofFn w.val) (u * ∑ i, w.val i))
  pick_pos w u hpos := by
    have hw : ∀ a ∈ List.ofFn w.val, 0 ≤ a := by
      intro a ha
      obtain ⟨i, rfl⟩ := List.mem_ofFn.mp ha
      exact w.nonneg i
    have hu : 0 ≤ (u : K) * ∑ i, w.val i := mul_nonneg u.2.1 hpos.le
    have hlt : (u : K) * ∑ i, w.val i < 0 + (List.ofFn w.val).sum := by
      rw [zero_add, List.sum_ofFn]
      exact mul_lt_of_lt_one_left hpos u.2.2
    obtain ⟨i, hi⟩ := Categorical.searchFrom_isSome hlt hu
    have hV := Categorical.searchFrom_lt_length hi
    have := Categorical.searchFrom_pos hw hu hi hV
    rw [List.getElem_ofFn] at this
    rw [List.length_ofFn] at hV
    rw [hi]
    simpa [foundIndex, Fin.ofNat, Nat.mod_eq_of_lt hV] using this

variable {Ω : Type*}

/-- `sample_from_probs`, one row. -/
def sampleFromProbs (M : Multinomial V K Ω) (probs : Probs V K) (ω : Ω) : Fin V := M.pick probs ω

/-- `sample_tokens`, one row: the argmax below temperature `1e-5`, otherwise a draw
from the softmax of the scaled logits. -/
def sampleTokens [NeZero V] (softmax : (Fin V → K) → Probs V K) (M : Multinomial V K Ω)
    (logits : Fin V → K) (temperature : K) (ω : Ω) : Fin V :=
  if temperature < 1 / 100000 then argmax logits
  else M.pick (softmax (fun i => logits i / temperature)) ω

/-- `1e-8`, below which a mass counts as zero and to which a divisor is raised. -/
def clampMin : K := 1 / 100000000

/-- The clamped difference `clamp(target - draft, min=0)` of two rows. -/
def residual (target draft : Probs V K) : Probs V K where
  val i := max (target.val i - draft.val i) 0
  nonneg _ := le_max_right _ _

theorem clampMin_pos : (0 : K) < clampMin := by norm_num [clampMin]

/-- The row `sample_residual` draws from: the residual, or the target row itself
when the residual has mass at most `1e-8`, divided by its mass clamped from below
at `1e-8`. -/
def residualProbs (target draft : Probs V K) : Probs V K :=
  let residual := if ∑ i, (residual target draft).val i ≤ clampMin then target
    else residual target draft
  { val := fun i => residual.val i / max (∑ j, residual.val j) clampMin
    nonneg := fun i => div_nonneg (residual.nonneg i) (le_max_of_le_right clampMin_pos.le) }

/-- `sample_residual`. -/
def sampleResidual (M : Multinomial V K Ω) (target draft : Probs V K) (ω : Ω) : Fin V :=
  sampleFromProbs M (residualProbs target draft) ω

/-- Where the residual row of a one-hot target has weight, the target has it. -/
theorem residualProbs_oneHot_eq_zero (t : Fin V) (draft : Probs V K) {i : Fin V} (hi : i ≠ t) :
    (residualProbs (oneHot t) draft).val i = 0 := by
  have htarget : (oneHot t : Probs V K).val i = 0 := if_neg hi
  have hres : (residual (oneHot t) draft).val i = 0 := by
    simp only [residual, htarget, zero_sub]
    exact max_eq_right (neg_nonpos.mpr (draft.nonneg i))
  simp only [residualProbs]
  split <;> simp [htarget, hres]

/-- The residual row of a normalised target always has weight. -/
theorem sum_residualProbs_pos (target draft : Probs V K) (hsum : ∑ i, target.val i = 1) :
    0 < ∑ i, (residualProbs target draft).val i := by
  simp only [residualProbs, ← Finset.sum_div]
  refine div_pos ?_ (lt_max_of_lt_right clampMin_pos)
  split
  · rw [hsum]; exact zero_lt_one
  · rename_i h
    exact clampMin_pos.trans (not_le.mp h)

/-- **Greedy residual sampling returns the argmax**, whatever the draft row. -/
theorem sampleResidual_oneHot (M : Multinomial V K Ω) (t : Fin V) (draft : Probs V K) (ω : Ω) :
    sampleResidual M (oneHot t) draft ω = t := by
  have hpos := M.pick_pos (residualProbs (oneHot t) draft) ω
    (sum_residualProbs_pos _ _ (sum_oneHot t))
  by_contra hne
  rw [sampleResidual, sampleFromProbs] at hne
  rw [residualProbs_oneHot_eq_zero t draft hne] at hpos
  exact lt_irrefl 0 hpos

/-- Drawing from a one-hot row returns its token. -/
theorem sampleFromProbs_oneHot (M : Multinomial V K Ω) (t : Fin V) (ω : Ω) :
    sampleFromProbs M (oneHot t) ω = t := by
  have hpos := M.pick_pos (oneHot t) ω (by rw [sum_oneHot]; exact zero_lt_one)
  by_contra hne
  rw [sampleFromProbs] at hne
  rw [oneHot_val, if_neg hne] at hpos
  exact lt_irrefl 0 hpos

end LatentSpec
