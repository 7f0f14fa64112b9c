import LatentSpec.Coins

/-! # Drawing an index by the inverse cumulative distribution

One uniform draw selects an index of a weight list: the least one whose running
total exceeds the drawn level.  `searchFrom` is that search started from a
running total; it composes over concatenation (`searchFrom_append`), so a search
that walks the list tile by tile and carries the running total along is the
search over the whole list.

With non-negative weights the search returns index `i` exactly on the half-open
interval of length `ws[i]` between two consecutive running totals
(`searchFrom_eq_some_iff`), so a uniform draw scaled to the total selects each
index with its normalised weight (`coin_real_searchFrom`).
-/
namespace Categorical

variable {K : Type*} [Field K] [LinearOrder K]

/-- The least index of `ws` whose running total, started from `c`, exceeds `u`. -/
def searchFrom (c : K) : List K → K → Option ℕ
  | [], _ => none
  | w :: ws, u => if u < c + w then some 0 else (searchFrom (c + w) ws u).map (· + 1)

@[simp] theorem searchFrom_nil (c u : K) : searchFrom c [] u = none := rfl

/-- **The search composes.**  Searching `xs ++ ys` is searching `xs` and, when
that finds nothing, searching `ys` from the running total `xs` leaves. -/
theorem searchFrom_append (xs ys : List K) (c u : K) :
    searchFrom c (xs ++ ys) u =
      (searchFrom c xs u).or ((searchFrom (c + xs.sum) ys u).map (· + xs.length)) := by
  induction xs generalizing c with
  | nil => simp
  | cons x xs ih =>
    simp only [List.cons_append, searchFrom]
    split
    · rfl
    · rw [ih, List.sum_cons, List.length_cons, ← add_assoc]
      cases searchFrom (c + x) xs u with
      | some i => rfl
      | none =>
        simp only [Option.none_or, Option.map_map, Option.map_none]
        congr 1

/-- A level that is not yet exceeded is never exceeded by zero weights. -/
theorem searchFrom_zeros (n : ℕ) {c u : K} (h : c ≤ u) :
    searchFrom c (List.replicate n 0) u = none := by
  induction n with
  | zero => rfl
  | succ n ih =>
    rw [List.replicate_succ, searchFrom, add_zero, if_neg (not_lt.mpr h), ih]
    rfl

theorem searchFrom_lt_length {ws : List K} {c u : K} {i : ℕ}
    (h : searchFrom c ws u = some i) : i < ws.length := by
  induction ws generalizing c i with
  | nil => cases h
  | cons w ws ih =>
    rw [searchFrom] at h
    split at h
    · cases h; simp
    · obtain ⟨j, hj, rfl⟩ := Option.map_eq_some_iff.mp h
      have := ih hj
      simp only [List.length_cons]
      omega

/-- A level below the total is always reached. -/
theorem searchFrom_isSome {ws : List K} {c u : K} (hu : u < c + ws.sum) (hcu : c ≤ u) :
    ∃ i, searchFrom c ws u = some i := by
  induction ws generalizing c with
  | nil => exact absurd hu (by simpa using hcu)
  | cons w ws ih =>
    rw [searchFrom]
    split
    · exact ⟨0, rfl⟩
    · rename_i hlt
      obtain ⟨i, hi⟩ := ih (by rwa [List.sum_cons, ← add_assoc] at hu) (not_lt.mp hlt)
      exact ⟨i + 1, by rw [hi]; rfl⟩

variable [IsStrictOrderedRing K]

theorem sum_take_nonneg {ws : List K} (hw : ∀ w ∈ ws, 0 ≤ w) (i : ℕ) : 0 ≤ (ws.take i).sum :=
  List.sum_nonneg fun w h => hw w (List.mem_of_mem_take h)

/-- **The interval of an index.**  Started from a total the level has reached,
the search returns `i` exactly when the level lies between the running totals
before and after weight `i`. -/
theorem searchFrom_eq_some_iff {ws : List K} (hw : ∀ w ∈ ws, 0 ≤ w) {c u : K} (hcu : c ≤ u)
    {i : ℕ} : searchFrom c ws u = some i ↔
      i < ws.length ∧ c + (ws.take i).sum ≤ u ∧ u < c + (ws.take (i + 1)).sum := by
  induction ws generalizing c i with
  | nil => simp
  | cons w ws ih =>
    have hws : ∀ v ∈ ws, 0 ≤ v := fun v hv => hw v (List.mem_cons_of_mem _ hv)
    rw [searchFrom]
    by_cases hlt : u < c + w
    · rw [if_pos hlt]
      cases i with
      | zero => simp [hlt, hcu]
      | succ i =>
        have hnn := sum_take_nonneg hws i
        simp only [Option.some.injEq, List.take_succ_cons, List.sum_cons]
        constructor
        · intro h; omega
        · rintro ⟨-, h, -⟩
          linarith
    · rw [if_neg hlt]
      cases i with
      | zero =>
        simp only [List.take_succ_cons, List.take_zero, List.sum_cons, List.sum_nil, add_zero]
        constructor
        · intro h
          obtain ⟨j, -, hj⟩ := Option.map_eq_some_iff.mp h
          omega
        · rintro ⟨-, -, h⟩
          exact absurd h hlt
      | succ i =>
        have := ih hws (not_lt.mp hlt) (i := i)
        simp only [Option.map_eq_some_iff, Nat.add_right_cancel_iff, exists_eq_right,
          List.take_succ_cons, List.sum_cons, List.length_cons, Nat.add_lt_add_iff_right,
          ← add_assoc, this]

/-- The selected index carries weight. -/
theorem searchFrom_pos {ws : List K} (hw : ∀ w ∈ ws, 0 ≤ w) {c u : K} (hcu : c ≤ u) {i : ℕ}
    (h : searchFrom c ws u = some i) (hi : i < ws.length) : 0 < ws[i] := by
  obtain ⟨-, hlo, hhi⟩ := (searchFrom_eq_some_iff hw hcu).mp h
  rw [List.sum_take_succ ws i hi] at hhi
  linarith

end Categorical

namespace Categorical
open MeasureTheory Set Coins

/-- **Inverse-CDF sampling is exact.**  A uniform draw scaled to the total of a
non-negative weight list selects index `i` with probability `ws[i] / ws.sum`. -/
theorem coin_real_searchFrom {ws : List ℝ} (hw : ∀ w ∈ ws, 0 ≤ w) (hpos : 0 < ws.sum) {i : ℕ}
    (hi : i < ws.length) :
    coin.real {u | searchFrom 0 ws (u * ws.sum) = some i} = ws[i] / ws.sum := by
  have hlo := sum_take_nonneg hw i
  have hsucc := List.sum_take_succ ws i hi
  have hwi : 0 ≤ ws[i] := hw _ (List.getElem_mem hi)
  have htop : (ws.take (i + 1)).sum ≤ ws.sum := by
    rw [← List.sum_take_add_sum_drop ws (i + 1)]
    have : 0 ≤ (ws.drop (i + 1)).sum := List.sum_nonneg fun w h => hw w (List.mem_of_mem_drop h)
    linarith
  rw [coin_real_of_inter (a := (ws.take i).sum / ws.sum) (b := (ws.take (i + 1)).sum / ws.sum)]
  · rw [hsucc]; ring
  · rw [hsucc]; gcongr; linarith
  · ext u
    simp only [mem_inter_iff, mem_ofPred_eq, mem_Ico, div_le_iff₀ hpos, lt_div_iff₀ hpos]
    constructor
    · rintro ⟨hs, hu, -⟩
      obtain ⟨-, h1, h2⟩ := (searchFrom_eq_some_iff hw (mul_nonneg hu hpos.le)).mp hs
      exact ⟨by linarith, by linarith⟩
    · rintro ⟨h1, h2⟩
      have hu : 0 ≤ u := by
        by_contra hneg
        have := mul_neg_of_neg_of_pos (not_le.mp hneg) hpos
        linarith
      refine ⟨(searchFrom_eq_some_iff hw (mul_nonneg hu hpos.le)).mpr
        ⟨hi, by linarith, by linarith⟩,
        hu, ?_⟩
      by_contra hge
      have := mul_le_mul_of_nonneg_right (not_lt.mp hge) hpos.le
      linarith

/-- A uniform draw of `[0, 1)` always finds an index of a row with weight. -/
theorem exists_searchFrom_ofFn {V : ℕ} {w : Fin V → ℝ} (hpos : 0 < ∑ i, w i) (v : Ico (0 : ℝ) 1) :
    ∃ t : Fin V, searchFrom 0 (List.ofFn w) (v * ∑ i, w i) = some t.val := by
  have hlt : (v : ℝ) * ∑ i, w i < 0 + (List.ofFn w).sum := by
    rw [zero_add, List.sum_ofFn]
    exact mul_lt_of_lt_one_left hpos v.2.2
  obtain ⟨i, hi⟩ := searchFrom_isSome hlt (mul_nonneg v.2.1 hpos.le)
  have hV : i < V := by simpa using searchFrom_lt_length hi
  exact ⟨⟨i, hV⟩, hi⟩

/-- The law of the index found for a row of weights. -/
theorem unitLaw_real_searchFrom {V : ℕ} {w : Fin V → ℝ} (hw : ∀ i, 0 ≤ w i)
    (hpos : 0 < ∑ i, w i) (t : Fin V) :
    unitLaw.real {v | searchFrom 0 (List.ofFn w) (v * ∑ i, w i) = some t.val} =
      w t / ∑ i, w i := by
  have hws : ∀ a ∈ List.ofFn w, 0 ≤ a := by
    intro a ha
    obtain ⟨i, rfl⟩ := List.mem_ofFn.mp ha
    exact hw i
  have hsum : (List.ofFn w).sum = ∑ i, w i := List.sum_ofFn
  have hsearch := coin_real_searchFrom hws (hsum ▸ hpos) (i := t.val) (by simp)
  rw [List.getElem_ofFn, hsum, ← unitLaw_real] at hsearch
  exact hsearch

/-- What the search returns is a measurable event of the draw. -/
theorem measurableSet_searchFrom (ws : List ℝ) (c s : ℝ) (o : Option ℕ) :
    MeasurableSet {u | searchFrom c ws (u * s) = o} := by
  have hlevel : ∀ b : ℝ, MeasurableSet {u | u * s < b} := fun b =>
    measurableSet_lt (measurable_id.mul_const s) measurable_const
  induction ws generalizing c o with
  | nil =>
    simp only [searchFrom_nil]
    exact MeasurableSet.const _
  | cons w ws ih =>
    have hset : {u | searchFrom c (w :: ws) (u * s) = o} =
        ({u | u * s < c + w} ∩ {_u | some 0 = o}) ∪
          ({u | u * s < c + w}ᶜ ∩ ⋃ p ∈ {p : Option ℕ | p.map (· + 1) = o},
            {u | searchFrom (c + w) ws (u * s) = p}) := by
      ext u
      by_cases h : u * s < c + w <;> simp [searchFrom, h]
    rw [hset]
    refine ((hlevel _).inter (MeasurableSet.const _)).union ((hlevel _).compl.inter ?_)
    exact MeasurableSet.biUnion (Set.to_countable _) fun p _ => ih (c + w) p

end Categorical
