import Mathlib.Analysis.SpecialFunctions.Log.Deriv
import LatentSpec.Softmax
import LatentSpec.TiledStores

/-! # The normaliser of a softmax in one pass

A program that reads a row of scores block by block keeps the maximum `m` of what it has read and
the sum `d` of the weights shifted by it; a larger maximum rescales the sum.  `Represents` says
what the pair stands for, `Represents.absorb` that a block keeps it so, and `online_row` what the
pair is at the end of a row of numbers.  `hasDerivAt_crossEntropy` is the derivative of the cross
entropy that is computed from it, for weights that need not add up to one.
-/
namespace OnlineSoftmax
open Softmax TiledSearch

/-- Reading one more block. -/
noncomputable def absorb (s : WithBot ℝ × ℝ) (block : List (WithBot ℝ)) : WithBot ℝ × ℝ :=
  let m := max s.1 (maxScore block)
  (m, s.2 * expShift (m.unbotD 0) s.1 + (block.map (expShift (m.unbotD 0))).sum)

/-- The maximum of the scores read, and the sum of their shifted weights. -/
structure Represents (s : WithBot ℝ × ℝ) (xs : List (WithBot ℝ)) : Prop where
  max_eq : s.1 = maxScore xs
  sum_eq : s.2 = (xs.map (expShift (s.1.unbotD 0))).sum

theorem foldl_max_eq (xs : List (WithBot ℝ)) (acc : WithBot ℝ) :
    xs.foldl max acc = max acc (maxScore xs) := by
  induction xs generalizing acc with
  | nil => exact (max_bot_right acc).symm
  | cons x xs ih =>
    have hx : maxScore (x :: xs) = max x (maxScore xs) := by
      rw [maxScore, List.foldl_cons, ih, max_bot_left]
    rw [List.foldl_cons, ih, hx, max_assoc]

theorem maxScore_append (xs ys : List (WithBot ℝ)) :
    maxScore (xs ++ ys) = max (maxScore xs) (maxScore ys) := by
  rw [maxScore, List.foldl_append, foldl_max_eq]
  rfl

theorem le_maxScore {xs : List (WithBot ℝ)} {x : WithBot ℝ} (hx : x ∈ xs) : x ≤ maxScore xs :=
  (le_foldl_max id xs ⊥).2 x hx

/-- Rescaling a sum of weights to a new shift. -/
theorem sum_expShift_mul (xs : List (WithBot ℝ)) (a b : ℝ) :
    (xs.map (expShift a)).sum * Real.exp (a - b) = (xs.map (expShift b)).sum := by
  induction xs with
  | nil => simp
  | cons x xs ih =>
    have hx : expShift b x = expShift a x * Real.exp (a - b) := by
      have h := expShift_add a (b - a) x
      rwa [add_sub_cancel, neg_sub] at h
    rw [List.map_cons, List.map_cons, List.sum_cons, List.sum_cons, add_mul, ih, hx]

theorem Represents.nil : Represents (⊥, 0) [] := ⟨rfl, rfl⟩

/-- **A block keeps the pair**, also the first one, which finds no maximum yet. -/
theorem Represents.absorb {s : WithBot ℝ × ℝ} {xs : List (WithBot ℝ)} (h : Represents s xs)
    (block : List (WithBot ℝ)) : Represents (absorb s block) (xs ++ block) := by
  obtain ⟨m, d⟩ := s
  obtain ⟨hmax, hsum⟩ := h
  dsimp only at hmax hsum
  refine ⟨?_, ?_⟩
  · show max m (maxScore block) = _
    rw [maxScore_append, hmax]
  · show d * expShift ((max m (maxScore block)).unbotD 0) m + _ = _
    rw [List.map_append, List.sum_append]
    refine congrArg (· + _) ?_
    cases m with
    | bot =>
      -- nothing but masked entries so far
      have hbot : ∀ w ∈ xs.map (expShift ((max ⊥ (maxScore block)).unbotD 0)), w = 0 := by
        intro w hw
        obtain ⟨x, hx, rfl⟩ := List.mem_map.mp hw
        have hle := le_maxScore hx
        rw [← hmax, le_bot_iff] at hle
        rw [hle, expShift_bot]
      rw [expShift_bot, mul_zero]
      exact (List.sum_eq_zero hbot).symm
    | coe m =>
      rw [expShift_coe, hsum]
      exact sum_expShift_mul xs m _

/-- All blocks, one after another. -/
theorem Represents.foldl {ι : Type} (block : ι → List (WithBot ℝ)) (is : List ι)
    {s : WithBot ℝ × ℝ} {xs : List (WithBot ℝ)} (h : Represents s xs) :
    Represents (is.foldl (fun s i => OnlineSoftmax.absorb s (block i)) s)
      (xs ++ is.flatMap block) := by
  induction is generalizing s xs with
  | nil =>
    rw [List.flatMap_nil, List.append_nil]
    exact h
  | cons i is ih =>
    rw [List.flatMap_cons, ← List.append_assoc]
    exact ih (h.absorb (block i))

/-! ### A row of numbers -/

/-- Entry `v` of a row of `n` numbers, and a masked entry past its end. -/
def masked (n : ℕ) (row : ℕ → ℝ) (v : ℕ) : WithBot ℝ := if v < n then (row v : WithBot ℝ) else ⊥

/-- The pair at the end of a row, in tiles of `bv` lanes. -/
noncomputable def onlineRow (n bv : ℕ) (row : ℕ → ℝ) : WithBot ℝ × ℝ :=
  (tileStarts n bv).foldl (fun s start => absorb s (lanes bv (masked n row) start)) (⊥, 0)

/-- The lanes of the first tiles. -/
theorem flatMap_lanes {K : Type*} (val : ℕ → K) (bv k : ℕ) :
    ((List.range k).map (· * bv)).flatMap (lanes bv val) = (List.range (k * bv)).map val := by
  induction k with
  | zero => simp
  | succ k ih =>
    rw [List.range_succ, List.map_append, List.flatMap_append, ih, map_range_succ_mul]
    simp

/-- The tiles of a row: its numbers, and masked lanes behind them. -/
theorem tiles_masked {n bv : ℕ} (hbv : 0 < bv) (row : ℕ → ℝ) : ∃ pad,
    (tileStarts n bv).flatMap (lanes bv (masked n row)) =
      (List.range n).map (fun v => (row v : WithBot ℝ)) ++ List.replicate pad ⊥ := by
  have hcover : n ≤ (n + bv - 1) / bv * bv := by
    have := Nat.div_add_mod (n + bv - 1) bv
    have := Nat.mod_lt (n + bv - 1) hbv
    rw [Nat.mul_comm]
    omega
  obtain ⟨pad, hpad⟩ := Nat.exists_eq_add_of_le hcover
  have hrow : (List.range n).map (masked n row) =
      (List.range n).map fun v => (row v : WithBot ℝ) :=
    List.map_congr_left fun v hv => if_pos (List.mem_range.mp hv)
  refine ⟨pad, ?_⟩
  rw [tileStarts, flatMap_lanes, hpad, List.range_add, List.map_append, hrow, List.map_map]
  refine congrArg _ (List.eq_replicate_iff.mpr ⟨by simp, fun x hx => ?_⟩)
  obtain ⟨i, -, rfl⟩ := List.mem_map.mp hx
  exact if_neg (Nat.not_lt.mpr (Nat.le_add_right n i))

/-- **The pair at the end of a row**: a number, and the sum of the weights shifted by it. -/
theorem onlineRow_eq {n bv : ℕ} (hbv : 0 < bv) (hn : 0 < n) (row : ℕ → ℝ) : ∃ m : ℝ,
    onlineRow n bv row = (↑m, ∑ v ∈ Finset.range n, Real.exp (row v - m)) := by
  obtain ⟨pad, hpad⟩ := tiles_masked hbv row
  have hrep := Represents.nil.foldl (lanes bv (masked n row)) (tileStarts n bv)
  rw [List.nil_append, hpad] at hrep
  obtain ⟨hmax, hsum⟩ := hrep
  -- the first entry of the row is a number
  have hfirst : (row 0 : WithBot ℝ) ≤ (onlineRow n bv row).1 := by
    rw [onlineRow, hmax]
    apply le_maxScore
    exact List.mem_append_left _ (List.mem_map.mpr ⟨0, List.mem_range.mpr hn, rfl⟩)
  have hne : (onlineRow n bv row).1 ≠ ⊥ := fun hbot => by
    rw [hbot, le_bot_iff] at hfirst
    exact WithBot.coe_ne_bot hfirst
  obtain ⟨m, hm⟩ := WithBot.ne_bot_iff_exists.mp hne
  refine ⟨m, Prod.ext hm.symm ?_⟩
  rw [onlineRow] at hm ⊢
  rw [hsum, ← hm, WithBot.unbotD_coe, List.map_append, List.sum_append, List.map_map,
    List.map_replicate, expShift_bot, List.sum_replicate, smul_zero, add_zero]
  exact TiledStores.sum_map_range (fun v => Real.exp (row v - m)) n

/-- The maximum and the logarithm of the sum make the log-normaliser. -/
theorem add_log_sum {n : ℕ} (hn : 0 < n) (row : ℕ → ℝ) (m : ℝ) :
    m + Real.log (∑ v ∈ Finset.range n, Real.exp (row v - m)) =
      Real.log (∑ v ∈ Finset.range n, Real.exp (row v)) := by
  have hpos : 0 < ∑ v ∈ Finset.range n, Real.exp (row v - m) :=
    Finset.sum_pos (fun v _ => Real.exp_pos _) ⟨0, Finset.mem_range.mpr hn⟩
  have hscale : ∑ v ∈ Finset.range n, Real.exp (row v) =
      Real.exp m * ∑ v ∈ Finset.range n, Real.exp (row v - m) := by
    rw [Finset.mul_sum]
    refine Finset.sum_congr rfl fun v _ => ?_
    rw [← Real.exp_add, add_sub_cancel]
  rw [hscale, Real.log_mul (Real.exp_ne_zero m) hpos.ne', Real.log_exp]

/-- The softmax of the shifted row. -/
theorem exp_div_sum (n : ℕ) (row : ℕ → ℝ) (m : ℝ) (v : ℕ) :
    Real.exp (row v - m) / ∑ w ∈ Finset.range n, Real.exp (row w - m) =
      Real.exp (row v) / ∑ w ∈ Finset.range n, Real.exp (row w) := by
  simp only [sub_eq_add_neg, Real.exp_add, ← Finset.sum_mul]
  exact mul_div_mul_right _ _ (Real.exp_ne_zero _)

/-! ### Cross entropy -/

/-- The cross entropy of a row of logits with a row of weights. -/
noncomputable def crossEntropy (n : ℕ) (target row : ℕ → ℝ) : ℝ :=
  -∑ v ∈ Finset.range n,
    target v * (row v - Real.log (∑ w ∈ Finset.range n, Real.exp (row w)))

theorem crossEntropy_congr {n : ℕ} (target : ℕ → ℝ) {row row' : ℕ → ℝ}
    (h : ∀ v < n, row v = row' v) : crossEntropy n target row = crossEntropy n target row' := by
  have hsum : ∑ w ∈ Finset.range n, Real.exp (row w) = ∑ w ∈ Finset.range n, Real.exp (row' w) :=
    Finset.sum_congr rfl fun w hw => by rw [h w (Finset.mem_range.mp hw)]
  rw [crossEntropy, crossEntropy, hsum]
  refine congrArg Neg.neg (Finset.sum_congr rfl fun v hv => ?_)
  rw [h v (Finset.mem_range.mp hv)]

theorem hasDerivAt_entry (row : ℕ → ℝ) (v w : ℕ) :
    HasDerivAt (fun z => Function.update row v z w) (if w = v then 1 else 0) (row v) := by
  by_cases h : w = v
  · subst h
    simp only [Function.update_self, if_true]
    exact hasDerivAt_id _
  · simp only [Function.update_of_ne h, if_neg h]
    exact hasDerivAt_const _ _

/-- The log-normaliser grows by the softmax. -/
theorem hasDerivAt_logNorm {n v : ℕ} (hv : v < n) (row : ℕ → ℝ) :
    HasDerivAt (fun z => Real.log (∑ w ∈ Finset.range n, Real.exp (Function.update row v z w)))
      (Real.exp (row v) / ∑ w ∈ Finset.range n, Real.exp (row w)) (row v) := by
  have hpos : 0 < ∑ w ∈ Finset.range n, Real.exp (Function.update row v (row v) w) :=
    Finset.sum_pos (fun w _ => Real.exp_pos _) ⟨v, Finset.mem_range.mpr hv⟩
  have hsum := HasDerivAt.fun_sum fun w (_ : w ∈ Finset.range n) => (hasDerivAt_entry row v w).exp
  have hlog := hsum.log hpos.ne'
  refine hlog.congr_deriv ?_
  rw [Function.update_eq_self]
  refine congrArg (· / _) ?_
  rw [Finset.sum_eq_single_of_mem v (Finset.mem_range.mpr hv), if_pos rfl, mul_one]
  intro w _ hne
  rw [if_neg hne, mul_zero]

/-- **The derivative** with respect to one logit: the softmax times the sum of the weights, less
the weight of the logit. -/
theorem hasDerivAt_crossEntropy {n v : ℕ} (hv : v < n) (target row : ℕ → ℝ) :
    HasDerivAt (fun z => crossEntropy n target (Function.update row v z))
      (Real.exp (row v) / (∑ w ∈ Finset.range n, Real.exp (row w)) *
        (∑ w ∈ Finset.range n, target w) - target v) (row v) := by
  have hlog := hasDerivAt_logNorm hv row
  have hterms := HasDerivAt.fun_sum fun w (_ : w ∈ Finset.range n) =>
    ((hasDerivAt_entry row v w).sub hlog).const_mul (target w)
  refine hterms.neg.congr_deriv ?_
  have hsingle : ∑ w ∈ Finset.range n, target w * (if w = v then (1 : ℝ) else 0) = target v := by
    rw [Finset.sum_eq_single_of_mem v (Finset.mem_range.mpr hv), if_pos rfl, mul_one]
    intro w _ hne
    rw [if_neg hne, mul_zero]
  simp only [mul_sub, Finset.sum_sub_distrib, hsingle, ← Finset.sum_mul]
  ring

end OnlineSoftmax
