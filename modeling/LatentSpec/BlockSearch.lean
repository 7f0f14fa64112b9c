import LatentSpec.TiledSearch
import LatentSpec.TiledStores

/-! # Searching a row through its block totals

The running totals of a row of non-negative weights cross a level at the least index whose total
is above the level (`Crosses.isLeast`), and the index carries weight.  A program finds it by
counting the totals that are not above the level (`countBelow_eq`).  Over a long row it counts
twice: first the totals of whole blocks, then the totals inside the block found, from what the
blocks before leave of the level (`Crosses.block`).  Scaling the weights and the level moves
nothing (`crosses_mul_iff`), so the weights inside the block may be held in another scale.
-/
namespace BlockSearch
open Categorical TiledStores

variable {K : Type*} [Field K] [LinearOrder K]

/-- The running totals of `val` cross the level at index `i`. -/
def Crosses (val : ℕ → K) (level : K) (i : ℕ) : Prop :=
  ∑ j ∈ Finset.range i, val j ≤ level ∧ level < ∑ j ∈ Finset.range (i + 1), val j

/-- `tl.cumsum`, lane `i`. -/
def cumsum (val : ℕ → K) (i : ℕ) : K := ∑ j ∈ Finset.range (i + 1), val j

/-- `tl.sum(((tl.cumsum(val) <= level) & valid).to(tl.int32))` over `lanes` lanes. -/
def countBelow (lanes : ℕ) (valid : ℕ → Bool) (val : ℕ → K) (level : K) : ℕ :=
  ∑ i ∈ Finset.range lanes, if cumsum val i ≤ level ∧ valid i then 1 else 0

/-- The total of block `b`. -/
def blockTotal (width : ℕ) (val : ℕ → K) (b : ℕ) : K :=
  ∑ i ∈ Finset.range width, val (b * width + i)

omit [LinearOrder K] in
/-- The blocks of a row add up to it. -/
theorem sum_blockTotal (width m : ℕ) (val : ℕ → K) :
    ∑ b ∈ Finset.range m, blockTotal width val b = ∑ j ∈ Finset.range (m * width), val j := by
  induction m with
  | zero => rw [Nat.zero_mul, Finset.range_zero, Finset.sum_empty, Finset.sum_empty]
  | succ m ih =>
    rw [Finset.sum_range_succ, ih, Nat.succ_mul, Finset.sum_range_add]
    rfl

section Crossing
variable {val : ℕ → K} {level : K} {i : ℕ}

/-- **A level below the total is crossed.** -/
theorem exists_crosses {n : ℕ} (hlevel : 0 ≤ level) (htotal : level < ∑ j ∈ Finset.range n, val j) :
    ∃ i < n, Crosses val level i := by
  induction n with
  | zero =>
    rw [Finset.range_zero, Finset.sum_empty] at htotal
    exact absurd htotal (not_lt.mpr hlevel)
  | succ n ih =>
    by_cases hn : level < ∑ j ∈ Finset.range n, val j
    · obtain ⟨i, hi, hcross⟩ := ih hn
      exact ⟨i, hi.trans (Nat.lt_succ_self n), hcross⟩
    · exact ⟨n, Nat.lt_succ_self n, not_lt.mp hn, htotal⟩

variable [IsStrictOrderedRing K]

theorem Crosses.pos (h : Crosses val level i) : 0 < val i := by
  obtain ⟨hle, hlt⟩ := h
  rw [Finset.sum_range_succ] at hlt
  linarith

theorem crosses_mul_iff {s : K} (hs : 0 < s) :
    Crosses (fun j => val j * s) (level * s) i ↔ Crosses val level i := by
  unfold Crosses
  rw [← Finset.sum_mul, ← Finset.sum_mul, mul_le_mul_iff_left₀ hs, mul_lt_mul_iff_left₀ hs]

/-- **The search composes**: the block whose total crosses the level, and in it the index that
crosses what is left. -/
theorem Crosses.block {width b : ℕ}
    (hlocal : Crosses (fun j => val (b * width + j))
      (level - ∑ k ∈ Finset.range b, blockTotal width val k) i) :
    Crosses val level (b * width + i) := by
  obtain ⟨hle, hlt⟩ := hlocal
  rw [sum_blockTotal] at hle hlt
  refine ⟨?_, ?_⟩
  · rw [Finset.sum_range_add]
    linarith
  · rw [Nat.add_assoc, Finset.sum_range_add]
    linarith

/-- What the blocks before leave of the level is below the block's own total. -/
theorem Crosses.exists_local {width b : ℕ} (h : Crosses (blockTotal width val) level b) :
    ∃ i < width, Crosses (fun j => val (b * width + j))
      (level - ∑ k ∈ Finset.range b, blockTotal width val k) i := by
  obtain ⟨hle, hlt⟩ := h
  rw [Finset.sum_range_succ, blockTotal] at hlt
  exact exists_crosses (by linarith) (by linarith)

section Nonneg
variable (hval : ∀ j, 0 ≤ val j)
include hval

theorem sum_range_mono {m n : ℕ} (h : m ≤ n) :
    ∑ j ∈ Finset.range m, val j ≤ ∑ j ∈ Finset.range n, val j :=
  Finset.sum_le_sum_of_subset_of_nonneg (Finset.range_subset_range.mpr h) fun j _ _ => hval j

/-- The totals up to the level are those before the index. -/
theorem Crosses.cumsum_le_iff (h : Crosses val level i) (j : ℕ) : cumsum val j ≤ level ↔ j < i := by
  constructor
  · intro hle
    by_contra hge
    have hmono := sum_range_mono hval (Nat.succ_le_succ (not_lt.mp hge))
    have hcum : ∑ k ∈ Finset.range (j + 1), val k ≤ level := hle
    exact absurd h.2 (not_lt.mpr (hmono.trans hcum))
  · intro hlt
    exact (sum_range_mono hval hlt).trans h.1

/-- **The index is the least one whose total is above the level.** -/
theorem Crosses.isLeast (h : Crosses val level i) :
    IsLeast {j | level < ∑ k ∈ Finset.range (j + 1), val k} i := by
  refine ⟨h.2, fun j hj => ?_⟩
  by_contra hlt
  have hle := (h.cumsum_le_iff hval j).mpr (not_le.mp hlt)
  exact absurd hj (not_lt.mpr hle)

/-- **Counting finds the index.** -/
theorem countBelow_eq {lanes : ℕ} {valid : ℕ → Bool} (h : Crosses val level i) (hi : i ≤ lanes)
    (hvalid : ∀ j < i, valid j) : countBelow lanes valid val level = i := by
  have hcond : ∀ j, (cumsum val j ≤ level ∧ valid j) ↔ j < i := by
    intro j
    rw [h.cumsum_le_iff hval, and_iff_left_iff_imp]
    exact hvalid j
  have hset : (Finset.range lanes).filter (· < i) = Finset.range i := by
    ext j
    rw [Finset.mem_filter, Finset.mem_range, Finset.mem_range]
    omega
  rw [countBelow]
  simp only [hcond]
  rw [← Finset.sum_filter, hset, Finset.sum_const, Finset.card_range, smul_eq_mul, mul_one]

/-- The search of the row finds the index. -/
theorem Crosses.searchFrom {n : ℕ} (h : Crosses val level i) (hi : i < n) (hlevel : 0 ≤ level) :
    searchFrom 0 ((List.range n).map val) level = some i := by
  have hws : ∀ w ∈ (List.range n).map val, 0 ≤ w := by
    intro w hw
    obtain ⟨j, -, rfl⟩ := List.mem_map.mp hw
    exact hval j
  rw [searchFrom_eq_some_iff hws hlevel, List.length_map, List.length_range, ← List.map_take,
    ← List.map_take, List.take_range, List.take_range, Nat.min_eq_left hi.le,
    Nat.min_eq_left hi, sum_map_range, sum_map_range, zero_add, zero_add]
  exact ⟨hi, h⟩

end Nonneg

end Crossing

/-! ### Rows cut in blocks -/

section Blocks
variable {val : ℕ → K} {n width : ℕ} (hwidth : 0 < width) (hzero : ∀ v, n ≤ v → val v = 0)
include hwidth hzero

omit [LinearOrder K] in
/-- Enough blocks hold the whole row. -/
theorem sum_blockTotal_eq {m : ℕ} (hm : (n + width - 1) / width ≤ m) :
    ∑ b ∈ Finset.range m, blockTotal width val b = ∑ j ∈ Finset.range n, val j := by
  have hcover : n ≤ m * width := by
    have hdiv := Nat.div_add_mod (n + width - 1) width
    have hmod := Nat.mod_lt (n + width - 1) hwidth
    have hle := Nat.mul_le_mul_left width hm
    rw [Nat.mul_comm m]
    omega
  rw [sum_blockTotal, ← Nat.add_sub_of_le hcover, Finset.sum_range_add, add_eq_left]
  exact Finset.sum_eq_zero fun j _ => hzero _ (Nat.le_add_right n j)

variable [IsStrictOrderedRing K]

/-- **Every level below the total has its block and its index in the block.** -/
theorem exists_block {level : K} (hlevel : 0 ≤ level)
    (htotal : level < ∑ j ∈ Finset.range n, val j) :
    ∃ b i, b < (n + width - 1) / width ∧ i < width ∧ b * width + i < n ∧
      Crosses (blockTotal width val) level b ∧
      Crosses (fun j => val (b * width + j))
        (level - ∑ k ∈ Finset.range b, blockTotal width val k) i := by
  rw [← sum_blockTotal_eq hwidth hzero le_rfl] at htotal
  obtain ⟨b, hb, hblock⟩ := exists_crosses hlevel htotal
  obtain ⟨i, hi, hlocal⟩ := hblock.exists_local
  refine ⟨b, i, hb, hi, ?_, hblock, hlocal⟩
  by_contra hge
  exact absurd (hzero _ (not_lt.mp hge)) hlocal.pos.ne'

end Blocks

end BlockSearch
