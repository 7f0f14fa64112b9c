import Mathlib.Data.List.Basic
import Mathlib.Tactic.Linarith

/-! # The longest common prefix of two lists

`commonLen` is its length.  `gallop` finds it by comparing slices: windows of doubling length until
one differs, then bisection of that window.  `le_commonLen_iff` is all that a proof needs of
either.
-/
namespace PrefixSearch

variable {α β : Type*} [DecidableEq α]

def commonLen : List α → List α → ℕ
  | x :: xs, y :: ys => if x = y then commonLen xs ys + 1 else 0
  | _, _ => 0

/-- **Agreeing on `n` entries.** -/
theorem le_commonLen_iff {xs ys : List α} {n : ℕ} :
    n ≤ commonLen xs ys ↔ n ≤ xs.length ∧ n ≤ ys.length ∧ xs.take n = ys.take n := by
  induction xs generalizing ys n with
  | nil =>
    simp only [commonLen, List.length_nil, Nat.le_zero_eq]
    constructor
    · rintro rfl
      simp
    · exact fun h => h.1
  | cons x xs ih =>
    cases ys with
    | nil =>
      simp only [commonLen, List.length_nil, Nat.le_zero_eq]
      constructor
      · rintro rfl
        simp
      · exact fun h => h.2.1
    | cons y ys =>
      rw [commonLen]
      cases n with
      | zero => simp
      | succ n =>
        by_cases h : x = y
        · rw [if_pos h, Nat.succ_le_succ_iff, ih]
          simp [h]
        · rw [if_neg h]
          simp [h]

theorem commonLen_le_left (xs ys : List α) : commonLen xs ys ≤ xs.length :=
  (le_commonLen_iff.mp le_rfl).1

theorem commonLen_le_right (xs ys : List α) : commonLen xs ys ≤ ys.length :=
  (le_commonLen_iff.mp le_rfl).2.1

theorem commonLen_eq_of_forall {xs ys : List α} {m : ℕ}
    (h : ∀ n, n ≤ m ↔ n ≤ xs.length ∧ n ≤ ys.length ∧ xs.take n = ys.take n) :
    commonLen xs ys = m := by
  refine Nat.le_antisymm ((h _).mpr ?_) (le_commonLen_iff.mpr ((h m).mp le_rfl))
  exact le_commonLen_iff.mp le_rfl

theorem commonLen_take (xs ys : List α) (a b : ℕ) :
    commonLen (xs.take a) (ys.take b) = min (commonLen xs ys) (min a b) := by
  refine commonLen_eq_of_forall fun n => ?_
  rw [le_min_iff, le_min_iff, le_commonLen_iff, List.length_take, List.length_take]
  constructor
  · rintro ⟨⟨hx, hy, heq⟩, ha, hb⟩
    refine ⟨by omega, by omega, ?_⟩
    rw [List.take_take, List.take_take, Nat.min_eq_left ha, Nat.min_eq_left hb, heq]
  · rintro ⟨hx, hy, heq⟩
    rw [List.take_take, List.take_take, Nat.min_eq_left (by omega), Nat.min_eq_left (by omega)]
      at heq
    exact ⟨⟨by omega, by omega, heq⟩, by omega, by omega⟩

theorem commonLen_map [DecidableEq β] {f : α → β} (hf : Function.Injective f) (xs ys : List α) :
    commonLen (xs.map f) (ys.map f) = commonLen xs ys := by
  refine commonLen_eq_of_forall fun n => ?_
  rw [le_commonLen_iff, List.length_map, List.length_map, ← List.map_take, ← List.map_take,
    (List.map_injective_iff.mpr hf).eq_iff]

/-! ### Neighbours -/

/-- The pairs of neighbours. -/
def pairs (xs : List β) : List (β × β) := xs.zip xs.tail

theorem length_pairs (xs : List β) : (pairs xs).length = xs.length - 1 := by
  rw [pairs, List.length_zip, List.length_tail]
  omega

theorem pairs_take (xs : List β) (n : ℕ) : pairs (xs.take (n + 1)) = (pairs xs).take n := by
  unfold pairs
  refine List.ext_getElem ?_ fun i hi hi' => ?_
  · simp only [List.length_zip, List.length_take, List.length_tail]
    omega
  · simp

theorem pairs_drop (xs : List β) (n : ℕ) : pairs (xs.drop n) = (pairs xs).drop n := by
  unfold pairs
  refine List.ext_getElem ?_ fun i hi hi' => ?_
  · simp only [List.length_zip, List.length_drop, List.length_tail]
    omega
  · simp only [List.getElem_zip, List.getElem_drop, List.getElem_tail, Nat.add_assoc]

theorem pairs_injective {xs ys : List β} (hx : 2 ≤ xs.length) (h : pairs xs = pairs ys) :
    xs = ys := by
  have hlen := congrArg List.length h
  rw [length_pairs, length_pairs] at hlen
  refine List.ext_getElem (by omega) fun i hi hi' => ?_
  rcases Nat.eq_zero_or_pos i with rfl | hpos
  · have hget := List.getElem_of_eq h (show 0 < (pairs xs).length by rw [length_pairs]; omega)
    simp only [pairs, List.getElem_zip] at hget
    exact (Prod.ext_iff.mp hget).1
  · have hget := List.getElem_of_eq h (show i - 1 < (pairs xs).length by rw [length_pairs]; omega)
    simp only [pairs, List.getElem_zip, List.getElem_tail] at hget
    have hsnd := (Prod.ext_iff.mp hget).2
    simpa only [Nat.sub_add_cancel hpos] using hsnd

theorem commonLen_pairs (xs ys : List α) :
    commonLen (pairs xs) (pairs ys) = commonLen xs ys - 1 := by
  refine commonLen_eq_of_forall fun n => ?_
  rw [length_pairs, length_pairs]
  rcases Nat.eq_zero_or_pos n with rfl | hpos
  · simp
  · have hsucc : n ≤ commonLen xs ys - 1 ↔ n + 1 ≤ commonLen xs ys := by omega
    rw [hsucc, le_commonLen_iff, ← pairs_take, ← pairs_take]
    constructor
    · rintro ⟨hx, hy, heq⟩
      exact ⟨by omega, by omega, by rw [heq]⟩
    · rintro ⟨hx, hy, heq⟩
      refine ⟨by omega, by omega, pairs_injective ?_ heq⟩
      rw [List.length_take]
      omega

/-! ### The search -/

/-- `xs[lo:hi]` -/
def slice (xs : List α) (lo hi : ℕ) : List α := (xs.take hi).drop lo

omit [DecidableEq α] in
theorem slice_eq_iff {xs ys : List α} {lo hi : ℕ} (hlo : lo ≤ hi)
    (htake : xs.take lo = ys.take lo) :
    slice xs lo hi = slice ys lo hi ↔ xs.take hi = ys.take hi := by
  unfold slice
  constructor
  · intro heq
    rw [← List.take_append_drop lo (xs.take hi), ← List.take_append_drop lo (ys.take hi), heq,
      List.take_take, List.take_take, Nat.min_eq_left hlo, htake]
  · intro heq
    rw [heq]

/-- The bisection of the window that differs. -/
def bisect (xs ys : List α) : ℕ → ℕ → ℕ → ℕ
  | 0, lo, _ => lo
  | fuel + 1, lo, hi =>
    if 1 < hi - lo then
      let mid := (lo + hi) / 2
      if slice xs lo mid = slice ys lo mid then bisect xs ys fuel mid hi
      else bisect xs ys fuel lo mid
    else lo

/-- The windows of doubling length. -/
def gallop (xs ys : List α) (n : ℕ) : ℕ → ℕ → ℕ → ℕ
  | 0, _, _ => n
  | fuel + 1, lo, step =>
    if lo < n then
      let hi := if lo + step < n then lo + step else n
      if slice xs lo hi ≠ slice ys lo hi then bisect xs ys (hi - lo) lo hi
      else gallop xs ys n fuel hi (step * 2)
    else n

theorem bisect_eq {xs ys : List α} {fuel lo hi : ℕ} (hx : hi ≤ xs.length) (hy : hi ≤ ys.length)
    (hlo : lo ≤ commonLen xs ys) (hhi : commonLen xs ys < hi) (hfuel : hi - lo ≤ fuel) :
    bisect xs ys fuel lo hi = commonLen xs ys := by
  induction fuel generalizing lo hi with
  | zero => omega
  | succ fuel ih =>
    rw [bisect]
    by_cases hwide : 1 < hi - lo
    · rw [if_pos hwide]
      have hmid : lo < (lo + hi) / 2 ∧ (lo + hi) / 2 < hi := by omega
      have hslice := slice_eq_iff hmid.1.le (le_commonLen_iff.mp hlo).2.2
      dsimp only
      by_cases heq : slice xs lo ((lo + hi) / 2) = slice ys lo ((lo + hi) / 2)
      · rw [if_pos heq]
        refine ih hx hy ?_ hhi (by omega)
        exact le_commonLen_iff.mpr ⟨by omega, by omega, hslice.mp heq⟩
      · rw [if_neg heq]
        refine ih (by omega) (by omega) hlo ?_ (by omega)
        by_contra hge
        exact heq (hslice.mpr (le_commonLen_iff.mp (not_lt.mp hge)).2.2)
    · rw [if_neg hwide]
      omega

/-- **The search finds the longest common prefix.** -/
theorem gallop_eq {xs ys : List α} {fuel lo step : ℕ} (hstep : 0 < step)
    (hlo : lo ≤ commonLen xs ys) (hfuel : min xs.length ys.length - lo ≤ fuel) :
    gallop xs ys (min xs.length ys.length) fuel lo step = commonLen xs ys := by
  have hle : commonLen xs ys ≤ min xs.length ys.length :=
    le_min (commonLen_le_left xs ys) (commonLen_le_right xs ys)
  induction fuel generalizing lo step with
  | zero =>
    rw [gallop]
    omega
  | succ fuel ih =>
    rw [gallop]
    by_cases hmore : lo < min xs.length ys.length
    · rw [if_pos hmore]
      dsimp only
      generalize hhi : (if lo + step < min xs.length ys.length then lo + step
        else min xs.length ys.length) = hi
      have hbounds : lo < hi ∧ hi ≤ min xs.length ys.length := by
        split at hhi <;> omega
      have hslice := slice_eq_iff hbounds.1.le (le_commonLen_iff.mp hlo).2.2
      by_cases heq : slice xs lo hi = slice ys lo hi
      · rw [if_neg (not_not.mpr heq)]
        refine ih (by omega) ?_ (by omega)
        exact le_commonLen_iff.mpr ⟨by omega, by omega, hslice.mp heq⟩
      · rw [if_pos heq]
        refine bisect_eq (by omega) (by omega) hlo ?_ le_rfl
        by_contra hge
        exact heq (hslice.mpr (le_commonLen_iff.mp (not_lt.mp hge)).2.2)
    · rw [if_neg hmore]
      omega

end PrefixSearch
