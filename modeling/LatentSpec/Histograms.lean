import Mathlib.Algebra.BigOperators.Ring.Finset
import Mathlib.Tactic.Ring
import LatentSpec.TiledStores

/-! # Histograms and rank statistics

Values are added into cells one after the other.  `addAll_apply` says what a cell holds
afterwards, and `addAll_row` what a cell of a flattened table holds when the value of row `i`
goes into the column its key names.

`mannWhitney` compares every value of one sample with every value of another.
`mannWhitney_eq_hist` computes it from the two histograms, without the pairs.
-/
namespace Histograms
open TiledStores

/-! ### Adding into cells -/

section Cells
variable {K : Type*} [AddCommMonoid K]

/-- Values added into their cells, one after the other. -/
def addAll (mem : ℕ → K) (adds : List (ℕ × K)) : ℕ → K :=
  adds.foldl (fun m a => Function.update m a.1 (m a.1 + a.2)) mem

theorem addAll_apply (mem : ℕ → K) (adds : List (ℕ × K)) (c : ℕ) :
    addAll mem adds c = mem c + (adds.map fun a => if a.1 = c then a.2 else 0).sum := by
  induction adds generalizing mem with
  | nil => simp [addAll]
  | cons a adds ih =>
    have hcons : addAll mem (a :: adds) = addAll (Function.update mem a.1 (mem a.1 + a.2)) adds :=
      rfl
    rw [hcons, ih, List.map_cons, List.sum_cons, ← add_assoc]
    congr 1
    by_cases h : a.1 = c
    · rw [if_pos h, ← h, Function.update_self]
    · rw [if_neg h, Function.update_of_ne (Ne.symm h), add_zero]

/-- What a list of values puts into one bin. -/
def binned {α : Type*} (xs : List α) (key : α → ℕ) (value : α → K) (j : ℕ) : K :=
  (xs.map fun x => if key x = j then value x else 0).sum

@[simp] theorem binned_nil {α : Type*} (key : α → ℕ) (value : α → K) (j : ℕ) :
    binned [] key value j = 0 := rfl

theorem binned_eq_filter {α : Type*} (xs : List α) (key : α → ℕ) (value : α → K) (j : ℕ) :
    binned xs key value j = ((xs.filter fun x => key x = j).map value).sum := by
  induction xs with
  | nil => rfl
  | cons x xs ih =>
    rw [binned, List.map_cons, List.sum_cons, List.filter_cons]
    rw [binned] at ih
    by_cases h : key x = j
    · rw [if_pos h, if_pos (decide_eq_true h), List.map_cons, List.sum_cons, ih]
    · rw [if_neg h, if_neg (by simpa using h), ih, zero_add]

theorem binned_append {α : Type*} (xs ys : List α) (key : α → ℕ) (value : α → K) (j : ℕ) :
    binned (xs ++ ys) key value j = binned xs key value j + binned ys key value j := by
  rw [binned, List.map_append, List.sum_append]
  rfl

theorem binned_perm {α : Type*} {xs ys : List α} (h : xs.Perm ys) (key : α → ℕ) (value : α → K)
    (j : ℕ) : binned xs key value j = binned ys key value j := (h.map _).sum_eq

/-- The bins together. -/
theorem sum_binned {α : Type*} {xs : List α} {key : α → ℕ} {n : ℕ} (h : ∀ x ∈ xs, key x < n)
    (value : α → K) : ∑ j ∈ Finset.range n, binned xs key value j = (xs.map value).sum := by
  induction xs with
  | nil => simp
  | cons x xs ih =>
    have hx : key x ∈ Finset.range n := Finset.mem_range.mpr (h x List.mem_cons_self)
    have ih' := ih fun y hy => h y (List.mem_cons_of_mem _ hy)
    rw [List.map_cons, List.sum_cons, ← ih']
    simp only [binned, List.map_cons, List.sum_cons, Finset.sum_add_distrib]
    rw [Finset.sum_ite_eq, if_pos hx]

/-- One value for each row of a flattened table, in the column its key names. -/
theorem addAll_row {α : Type*} (mem : ℕ → K) {width : ℕ} {xs : List α} {key : α → ℕ}
    (hkey : ∀ x ∈ xs, key x < width) (value : α → K) {r j : ℕ} (hj : j < width) :
    addAll mem (xs.zipIdx.map fun p => (p.2 * width + key p.1, value p.1)) (r * width + j) =
      mem (r * width + j) + binned xs[r]?.toList key value j := by
  rw [addAll_apply, List.map_map]
  congr 1
  -- only row `r` of the list can meet row `r` of the table
  have hrows : ∀ k ≤ r, ((xs.zipIdx k).map ((fun a : ℕ × K =>
      if a.1 = r * width + j then a.2 else 0) ∘ fun p => (p.2 * width + key p.1, value p.1))).sum =
        binned xs[r - k]?.toList key value j := by
    induction xs with
    | nil => simp
    | cons x xs ih =>
      intro k hk
      have hx := hkey x List.mem_cons_self
      have hcell : k * width + key x = r * width + j ↔ k = r ∧ key x = j :=
        ⟨block_inj hx hj, fun h => by rw [h.1, h.2]⟩
      rw [List.zipIdx_cons, List.map_cons, List.sum_cons, Function.comp_apply]
      simp only [hcell]
      rcases Nat.eq_or_lt_of_le hk with rfl | hlt
      · have hrest : ((xs.zipIdx (k + 1)).map ((fun a : ℕ × K =>
            if a.1 = k * width + j then a.2 else 0) ∘
              fun p => (p.2 * width + key p.1, value p.1))).sum = 0 := by
          refine List.sum_eq_zero fun v hv => ?_
          obtain ⟨⟨y, i⟩, hmem, rfl⟩ := List.mem_map.mp hv
          have hy := hkey y (List.mem_cons_of_mem _ (List.fst_mem_of_mem_zipIdx hmem))
          have hi := List.le_snd_of_mem_zipIdx hmem
          refine if_neg fun heq => ?_
          have := (block_inj hy hj heq).1
          omega
        rw [hrest, add_zero]
        simp [binned]
      · have hne : ¬ (k = r ∧ key x = j) := fun h => by omega
        have hsucc : r - k = r - (k + 1) + 1 := by omega
        rw [if_neg hne, zero_add, ih (fun y hy => hkey y (List.mem_cons_of_mem _ hy)) (k + 1) hlt,
          hsucc, List.getElem?_cons_succ]
  simpa using hrows 0 (Nat.zero_le r)

end Cells

/-! ### Comparing two samples -/

section Ranks
variable {K : Type*}

/-- The number of the literal `1 / 2`. -/
scoped instance atLeastTwoTwo : Nat.AtLeastTwo 2 := ⟨by decide⟩

/-- The share of the pairs in which the first sample has the higher value, ties counted one
half. -/
def mannWhitney [Field K] (pos neg : List ℕ) : K :=
  ((pos ×ˢ neg).map fun p => if p.2 < p.1 then 1 else if p.2 = p.1 then 1 / 2 else 0).sum /
    (pos.length * neg.length)

/-- A sum over a sample from its histogram. -/
theorem sum_count_mul [Semiring K] {xs : List ℕ} {n : ℕ} (h : ∀ x ∈ xs, x < n) (f : ℕ → K) :
    ∑ j ∈ Finset.range n, (xs.count j : K) * f j = (xs.map f).sum := by
  induction xs with
  | nil => simp
  | cons x xs ih =>
    have hx : x ∈ Finset.range n := Finset.mem_range.mpr (h x List.mem_cons_self)
    have ih' := ih fun y hy => h y (List.mem_cons_of_mem _ hy)
    rw [List.map_cons, List.sum_cons, ← ih', add_comm]
    simp only [List.count_cons, Nat.cast_add, add_mul, Finset.sum_add_distrib, beq_iff_eq,
      Nat.cast_ite, Nat.cast_one, Nat.cast_zero, ite_mul, one_mul, zero_mul]
    rw [Finset.sum_ite_eq, if_pos hx]

/-- The values below `j` from the histogram. -/
theorem sum_count_before (xs : List ℕ) (j : ℕ) :
    ∑ c ∈ Finset.range j, xs.count c = xs.countP (· < j) := by
  induction xs with
  | nil => simp
  | cons x xs ih =>
    simp only [List.count_cons, Finset.sum_add_distrib, beq_iff_eq, Finset.sum_ite_eq, ih,
      Finset.mem_range, List.countP_cons, decide_eq_true_eq]

/-- What one value of the first sample contributes. -/
theorem sum_compare [Field K] (neg : List ℕ) (x : ℕ) :
    (neg.map fun y => if y < x then (1 : K) else if y = x then 1 / 2 else 0).sum =
      (neg.countP (· < x) : K) + 1 / 2 * (neg.count x : K) := by
  induction neg with
  | nil => simp
  | cons y neg ih =>
    rw [List.map_cons, List.sum_cons, ih, List.countP_cons, List.count_cons]
    rcases Nat.lt_trichotomy y x with h | h | h
    · simp [h, h.ne]
      ring
    · simp [h]
      ring
    · simp [h.not_gt, h.ne']

/-- **The rank statistic from the histograms.** -/
theorem mannWhitney_eq_hist [Field K] {pos : List ℕ} {n : ℕ} (hpos : ∀ x ∈ pos, x < n)
    (neg : List ℕ) :
    (mannWhitney pos neg : K) =
      (∑ j ∈ Finset.range n, (pos.count j : K) * ((∑ c ∈ Finset.range j, neg.count c : ℕ) : K) +
        1 / 2 * ∑ j ∈ Finset.range n, (pos.count j : K) * (neg.count j : K)) /
          (pos.length * neg.length) := by
  have hpairs : ((pos ×ˢ neg).map fun p =>
      if p.2 < p.1 then (1 : K) else if p.2 = p.1 then 1 / 2 else 0).sum =
        (pos.map fun x => (neg.countP (· < x) : K) + 1 / 2 * (neg.count x : K)).sum := by
    clear hpos
    induction pos with
    | nil => rfl
    | cons x pos ih =>
      rw [List.product_cons, List.map_append, List.sum_append, ih, List.map_map, List.map_cons,
        List.sum_cons, ← sum_compare]
      rfl
  rw [mannWhitney, hpairs, ← sum_count_mul hpos]
  congr 1
  rw [Finset.mul_sum, ← Finset.sum_add_distrib]
  refine Finset.sum_congr rfl fun j _ => ?_
  rw [sum_count_before]
  ring

end Ranks
end Histograms
