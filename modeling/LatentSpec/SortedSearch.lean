import Mathlib.Data.List.TakeWhile
import Mathlib.Order.Lattice

/-! # Places in a sorted list

`bisectLeft` and `bisectRight` are the two places where a value goes into a sorted list: before the
entries that equal it, and behind them.  The entry at the first place is at least the value
(`le_of_getElem?_bisectLeft`).  `bucketize` counts the entries up to the value, which is the second
place (`bucketize_eq_bisectRight`).
-/
namespace SortedSearch

variable {α : Type*} [LinearOrder α]

/-- `bisect.bisect_left` -/
def bisectLeft (xs : List α) (x : α) : ℕ := (xs.takeWhile (· < x)).length

/-- `bisect.bisect_right` -/
def bisectRight (xs : List α) (x : α) : ℕ := (xs.takeWhile (· ≤ x)).length

/-- `torch.bucketize(x, boundaries, right=True)` -/
def bucketize (boundaries : List α) (x : α) : ℕ := boundaries.countP (· ≤ x)

theorem bisectRight_le_length (xs : List α) (x : α) : bisectRight xs x ≤ xs.length :=
  (List.takeWhile_sublist _).length_le

theorem bucketize_le_length (xs : List α) (x : α) : bucketize xs x ≤ xs.length :=
  List.countP_le_length

/-- A value that some entry reaches goes before the end. -/
theorem bisectLeft_lt_length {xs : List α} {v x : α} (hv : v ∈ xs) (hle : x ≤ v) :
    bisectLeft xs x < xs.length := by
  refine lt_of_le_of_ne (List.takeWhile_sublist _).length_le fun heq => ?_
  have hall := (List.takeWhile_sublist fun w => decide (w < x)).eq_of_length heq
  exact not_lt.mpr hle (of_decide_eq_true (List.takeWhile_eq_self_iff.mp hall v hv))

theorem le_of_getElem?_bisectLeft {xs : List α} {x y : α} (h : xs[bisectLeft xs x]? = some y) :
    x ≤ y := by
  induction xs with
  | nil => cases h
  | cons a xs ih =>
    by_cases hlt : a < x
    · rw [bisectLeft, List.takeWhile_cons_of_pos (by simpa using hlt)] at h
      exact ih h
    · rw [bisectLeft, List.takeWhile_cons_of_neg (by simpa using hlt)] at h
      cases h
      exact not_lt.mp hlt

/-! ### Counting in a sorted list -/

theorem bucketize_cons_of_le {a x : α} (xs : List α) (hle : a ≤ x) :
    bucketize (a :: xs) x = bucketize xs x + 1 :=
  List.countP_cons_of_pos (by simpa using hle)

theorem bucketize_cons_of_lt {a x : α} {xs : List α} (ha : ∀ b ∈ xs, a < b) (hlt : x < a) :
    bucketize (a :: xs) x = 0 := by
  refine List.countP_eq_zero.mpr fun b hb => ?_
  rcases List.mem_cons.mp hb with rfl | hb
  · simpa using hlt
  · simpa using hlt.trans (ha b hb)

/-- In a sorted list both searches count the elements up to `x`. -/
theorem bucketize_eq_bisectRight {xs : List α} (h : xs.Pairwise (· < ·)) (x : α) :
    bucketize xs x = bisectRight xs x := by
  induction xs with
  | nil => rfl
  | cons a xs ih =>
    obtain ⟨ha, hrest⟩ := List.pairwise_cons.mp h
    by_cases hle : a ≤ x
    · rw [bucketize_cons_of_le xs hle, ih hrest, bisectRight, bisectRight,
        List.takeWhile_cons_of_pos (by simpa using hle), List.length_cons]
    · rw [bucketize_cons_of_lt ha (not_le.mp hle), bisectRight,
        List.takeWhile_cons_of_neg (by simpa using hle), List.length_nil]

/-- The elements up to `x` are those before the place it is put at. -/
theorem lt_bucketize_iff {xs : List α} (h : xs.Pairwise (· < ·)) {x : α} {i : ℕ}
    (hi : i < xs.length) : i < bucketize xs x ↔ xs[i] ≤ x := by
  induction xs generalizing i with
  | nil => exact absurd hi (Nat.not_lt_zero i)
  | cons a xs ih =>
    obtain ⟨ha, hrest⟩ := List.pairwise_cons.mp h
    by_cases hle : a ≤ x
    · rw [bucketize_cons_of_le xs hle]
      cases i with
      | zero => simp [hle]
      | succ i => simpa using ih hrest (by simpa using hi)
    · rw [bucketize_cons_of_lt ha (not_le.mp hle)]
      refine ⟨fun hlt => absurd hlt (Nat.not_lt_zero i), fun hix => absurd ?_ hle⟩
      cases i with
      | zero => exact hix
      | succ i => exact (ha _ (List.getElem_mem _)).le.trans hix

end SortedSearch
