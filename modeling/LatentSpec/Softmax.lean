import LatentSpec.TiledSearch

/-! # Softmax of a row of scores

A score is a real number or `⊥`, a masked entry (`-inf`), whose weight is zero.  A program
computes the softmax of a row, or the logarithm of its normaliser, after shifting every
score by the maximum of the row, which it finds tile by tile.  Neither depends on the
shift (`expShift_div_sum`, `shift_add_log`), so nothing has to be known of the maximum.  A
weight shifted by the log-normaliser is the softmax itself (`expShift_logNorm`).
-/
namespace Softmax
open TiledSearch

/-- `exp(x - shift)`. -/
noncomputable def expShift (shift : ℝ) (x : WithBot ℝ) : ℝ :=
  x.recBotCoe 0 fun x => Real.exp (x - shift)

@[simp] theorem expShift_bot (shift : ℝ) : expShift shift ⊥ = 0 := rfl

@[simp] theorem expShift_coe (shift x : ℝ) : expShift shift x = Real.exp (x - shift) := rfl

theorem expShift_nonneg (shift : ℝ) (x : WithBot ℝ) : 0 ≤ expShift shift x := by
  induction x with
  | bot => exact le_rfl
  | coe x => exact (Real.exp_pos _).le

theorem expShift_pos (shift : ℝ) {x : WithBot ℝ} (h : x ≠ ⊥) : 0 < expShift shift x := by
  induction x with
  | bot => exact absurd rfl h
  | coe x => exact Real.exp_pos _

/-- Shifting divides every weight by the same factor. -/
theorem expShift_eq (shift : ℝ) (x : WithBot ℝ) :
    expShift shift x = expShift 0 x * Real.exp (-shift) := by
  induction x with
  | bot => simp
  | coe x => rw [expShift_coe, expShift_coe, ← Real.exp_add, sub_zero, sub_eq_add_neg]

theorem expShift_add (a b : ℝ) (x : WithBot ℝ) :
    expShift (a + b) x = expShift a x * Real.exp (-b) := by
  rw [expShift_eq (a + b), expShift_eq a, mul_assoc, ← Real.exp_add, neg_add]

/-! ### Rows -/

variable {V : ℕ} (row : Fin V → WithBot ℝ)

/-- The softmax of a row. -/
noncomputable def softmax (v : Fin V) : ℝ := expShift 0 (row v) / ∑ w, expShift 0 (row w)

/-- The logarithm of the normaliser of a row. -/
noncomputable def logNorm : ℝ := Real.log (∑ v, expShift 0 (row v))

/-- Some entry of the row is not masked. -/
def HasFinite : Prop := ∃ v, row v ≠ ⊥

variable {row}

theorem sum_expShift_pos (h : HasFinite row) (shift : ℝ) : 0 < ∑ v, expShift shift (row v) := by
  obtain ⟨v, hv⟩ := h
  exact Finset.sum_pos' (fun w _ => expShift_nonneg shift (row w))
    ⟨v, Finset.mem_univ v, expShift_pos shift hv⟩

theorem sum_expShift_eq (shift : ℝ) :
    ∑ v, expShift shift (row v) = (∑ v, expShift 0 (row v)) * Real.exp (-shift) := by
  rw [Finset.sum_mul]
  exact Finset.sum_congr rfl fun v _ => expShift_eq shift (row v)

/-- **The softmax does not depend on the shift.** -/
theorem expShift_div_sum (shift : ℝ) (v : Fin V) :
    expShift shift (row v) / ∑ w, expShift shift (row w) = softmax row v := by
  rw [sum_expShift_eq, expShift_eq]
  exact mul_div_mul_right _ _ (Real.exp_ne_zero _)

/-- **The log-normaliser does not depend on the shift.** -/
theorem shift_add_log (h : HasFinite row) (shift : ℝ) :
    shift + Real.log (∑ v, expShift shift (row v)) = logNorm row := by
  have hpos := sum_expShift_pos h 0
  rw [sum_expShift_eq, Real.log_mul hpos.ne' (Real.exp_ne_zero _), Real.log_exp, logNorm]
  ring

/-- **A weight shifted by the log-normaliser is the softmax.** -/
theorem expShift_logNorm (h : HasFinite row) (v : Fin V) :
    expShift (logNorm row) (row v) = softmax row v := by
  have hpos := sum_expShift_pos h 0
  rw [expShift_eq, logNorm, Real.exp_neg, Real.exp_log hpos]
  rfl

/-- A softmax sums to one. -/
theorem sum_softmax (h : HasFinite row) : ∑ v, softmax row v = 1 := by
  have hpos := sum_expShift_pos h 0
  unfold softmax
  rw [← Finset.sum_div]
  exact div_self hpos.ne'

theorem softmax_nonneg (v : Fin V) : 0 ≤ softmax row v :=
  div_nonneg (expShift_nonneg 0 _) (Finset.sum_nonneg fun w _ => expShift_nonneg 0 (row w))

/-! ### The maximum, tile by tile -/

/-- The maximum of a list of scores. -/
def maxScore (xs : List (WithBot ℝ)) : WithBot ℝ := xs.foldl max ⊥

/-- The maximum of a row of `n` scores, in tiles of `bv` lanes. -/
def tiledMax (n bv : ℕ) (val : ℕ → WithBot ℝ) : WithBot ℝ :=
  (tileStarts n bv).foldl (fun acc start => max acc (maxScore (lanes bv val start))) ⊥

theorem le_foldl_max {α : Type} (f : α → WithBot ℝ) (xs : List α) (acc : WithBot ℝ) :
    acc ≤ xs.foldl (fun m x => max m (f x)) acc ∧
      ∀ x ∈ xs, f x ≤ xs.foldl (fun m x => max m (f x)) acc := by
  induction xs generalizing acc with
  | nil => exact ⟨le_rfl, fun x hx => by cases hx⟩
  | cons x xs ih =>
    obtain ⟨hacc, hmem⟩ := ih (max acc (f x))
    refine ⟨(le_max_left _ _).trans hacc, fun y hy => ?_⟩
    rcases List.mem_cons.mp hy with rfl | hy
    · exact (le_max_right _ _).trans hacc
    · exact hmem y hy

end Softmax
