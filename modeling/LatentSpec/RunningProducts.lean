import Mathlib.Algebra.Order.BigOperators.GroupWithZero.Finset
import Mathlib.Data.Int.ConditionallyCompleteOrder
import Mathlib.Data.Int.Interval
import Mathlib.Tactic.Linarith

/-! # Sums of running products

`runProduct c w n` is the product of the factors after `w` up to `n` and `runTotal c w n` the sum
of the running products of that stretch.  Where the factors lie between 0 and 1, a total that was
followed up to some point brackets the whole of it: the rest adds at least nothing and at most the
last running product for every factor left (`runTotal_bracket`).
-/
namespace RunningProducts

section
variable {K : Type*} [CommSemiring K]

/-- The product of the factors after `w` up to `n`. -/
noncomputable def runProduct (c : ℤ → K) (w n : ℤ) : K := ∏ i ∈ Finset.Ioc w n, c i

/-- The sum of the running products after `w` up to `n`. -/
noncomputable def runTotal (c : ℤ → K) (w n : ℤ) : K := ∑ j ∈ Finset.Ioc w n, runProduct c w j

@[simp] theorem runProduct_self (c : ℤ → K) (w : ℤ) : runProduct c w w = 1 := by
  simp [runProduct]

@[simp] theorem runTotal_self (c : ℤ → K) (w : ℤ) : runTotal c w w = 0 := by
  simp [runTotal]

theorem Ioc_add_one {w n : ℤ} (h : w ≤ n) :
    Finset.Ioc w (n + 1) = insert (n + 1) (Finset.Ioc w n) := by
  ext i
  rw [Finset.mem_insert, Finset.mem_Ioc, Finset.mem_Ioc]
  omega

theorem runProduct_add_one (c : ℤ → K) {w n : ℤ} (h : w ≤ n) :
    runProduct c w (n + 1) = runProduct c w n * c (n + 1) := by
  have hnot : n + 1 ∉ Finset.Ioc w n := by
    rw [Finset.mem_Ioc]
    omega
  rw [runProduct, Ioc_add_one h, Finset.prod_insert hnot, mul_comm]
  rfl

theorem runTotal_add_one (c : ℤ → K) {w n : ℤ} (h : w ≤ n) :
    runTotal c w (n + 1) = runTotal c w n + runProduct c w (n + 1) := by
  have hnot : n + 1 ∉ Finset.Ioc w n := by
    rw [Finset.mem_Ioc]
    omega
  rw [runTotal, Ioc_add_one h, Finset.sum_insert hnot, add_comm]
  rfl

theorem runProduct_congr {c d : ℤ → K} {w n : ℤ} (h : ∀ i ∈ Finset.Ioc w n, c i = d i) :
    runProduct c w n = runProduct d w n := Finset.prod_congr rfl h

theorem runTotal_congr {c d : ℤ → K} {w n : ℤ} (h : ∀ i ∈ Finset.Ioc w n, c i = d i) :
    runTotal c w n = runTotal d w n := by
  refine Finset.sum_congr rfl fun j hj => runProduct_congr fun i hi => h i ?_
  rw [Finset.mem_Ioc] at hi hj ⊢
  omega

end

section
variable {K : Type*} [CommRing K] [LinearOrder K] [IsStrictOrderedRing K]
variable {c : ℤ → K} {w m n : ℤ}

theorem runProduct_nonneg (h : ∀ i, 0 ≤ c i) (w n : ℤ) : 0 ≤ runProduct c w n :=
  Finset.prod_nonneg fun i _ => h i

/-- Another factor does not make the product larger. -/
theorem runProduct_anti (h₀ : ∀ i, 0 ≤ c i) (h₁ : ∀ i, c i ≤ 1) (hwm : w ≤ m) (hmn : m ≤ n) :
    runProduct c w n ≤ runProduct c w m := by
  induction n, hmn using Int.leInduction with
  | base => exact le_rfl
  | succ n hmn ih =>
    rw [runProduct_add_one c (hwm.trans hmn)]
    exact (mul_le_of_le_one_right (runProduct_nonneg h₀ w n) (h₁ _)).trans ih

/-- **A total followed up to `m` brackets the total up to `n`.** -/
theorem runTotal_bracket (h₀ : ∀ i, 0 ≤ c i) (h₁ : ∀ i, c i ≤ 1) (hwm : w ≤ m) (hmn : m ≤ n) :
    runTotal c w m ≤ runTotal c w n ∧
      runTotal c w n ≤ runTotal c w m + runProduct c w m * ((n - m : ℤ) : K) := by
  induction n, hmn using Int.leInduction with
  | base => simp
  | succ n hmn ih =>
    obtain ⟨hlo, hhi⟩ := ih
    have hpos : 0 ≤ runProduct c w (n + 1) := runProduct_nonneg h₀ w (n + 1)
    have hle : runProduct c w (n + 1) ≤ runProduct c w m :=
      runProduct_anti h₀ h₁ hwm (by omega)
    rw [runTotal_add_one c (hwm.trans hmn)]
    constructor
    · linarith
    · -- the new term is at most the last running product that was followed
      calc runTotal c w n + runProduct c w (n + 1)
          ≤ runTotal c w m + runProduct c w m * ((n - m : ℤ) : K) + runProduct c w m := by linarith
        _ = runTotal c w m + runProduct c w m * ((n + 1 - m : ℤ) : K) := by
          push_cast
          ring

end

end RunningProducts
