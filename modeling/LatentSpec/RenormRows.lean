import Mathlib.Data.List.GetD
import LatentSpec.TiledSearch

/-! # Thresholding a row

A row of weights is cut at a pivot and divided by what is left.  The pivot is found in the sorted
row: for top-k it is the `k`-th largest weight, for top-p the weight at which the ascending totals
reach `1 - p`.  Both keep every tie at the pivot, so which entries stay can be said without an
order: at most `k - 1` entries are larger (`topKPivot_le_iff`), or the entries that are not larger
have at least `1 - p` together (`topPPivot_le_iff`).
-/
namespace RenormRows
open TiledSearch

/-! ### Sorted lists -/

/-- In a descending list the entry at `c` is at most `y` exactly if at most `c` entries exceed
`y`. -/
theorem getElem_le_iff_countP {s : List ℝ} (hs : s.Pairwise (· ≥ ·)) {c : ℕ} (hc : c < s.length)
    (y : ℝ) : s[c] ≤ y ↔ s.countP (fun x => decide (y < x)) ≤ c := by
  constructor
  · intro hle
    have hdrop : (s.drop c).countP (fun x => decide (y < x)) = 0 := by
      rw [List.countP_eq_zero]
      intro x hx
      obtain ⟨i, hi, rfl⟩ := List.getElem_of_mem hx
      rw [List.getElem_drop, decide_eq_true_eq, not_lt]
      rcases Nat.eq_zero_or_pos i with rfl | hpos
      · exact hle
      · exact (List.pairwise_iff_getElem.mp hs c (c + i) hc _ (by omega)).trans hle
    calc s.countP (fun x => decide (y < x))
        = (s.take c ++ s.drop c).countP (fun x => decide (y < x)) := by rw [List.take_append_drop]
      _ = (s.take c).countP (fun x => decide (y < x)) := by rw [List.countP_append, hdrop, add_zero]
      _ ≤ (s.take c).length := List.countP_le_length
      _ ≤ c := List.length_take_le _ _
  · intro hcount
    by_contra hlt
    have hall : (s.take (c + 1)).countP (fun x => decide (y < x)) = (s.take (c + 1)).length := by
      rw [List.countP_eq_length]
      intro x hx
      obtain ⟨i, hi, rfl⟩ := List.getElem_of_mem hx
      rw [List.length_take] at hi
      rw [List.getElem_take, decide_eq_true_eq]
      rcases Nat.lt_or_ge i c with hic | hic
      · exact (not_le.mp hlt).trans_le (List.pairwise_iff_getElem.mp hs i c _ hc hic)
      · obtain rfl : i = c := by omega
        exact not_le.mp hlt
    have hsub := (List.take_sublist (c + 1) s).countP_le (p := fun x => decide (y < x))
    rw [hall, List.length_take, Nat.min_eq_left hc] at hsub
    omega

theorem length_runningTotals (c : ℝ) (ws : List ℝ) : (runningTotals c ws).length = ws.length := by
  induction ws generalizing c with
  | nil => rfl
  | cons w ws ih => rw [runningTotals, List.length_cons, ih, List.length_cons]

theorem getElem_runningTotals {c : ℝ} {ws : List ℝ} {i : ℕ} (h : i < (runningTotals c ws).length) :
    (runningTotals c ws)[i] = c + (ws.take (i + 1)).sum := by
  induction ws generalizing c i with
  | nil => cases h
  | cons w ws ih =>
    cases i with
    | zero => simp [runningTotals]
    | succ i =>
      rw [runningTotals, List.length_cons] at h
      rw [List.take_succ_cons, List.sum_cons, ← add_assoc, ← ih (Nat.lt_of_succ_lt_succ h)]
      rfl

/-- The total of the entries that are at most `y`. -/
noncomputable def sumLe (s : List ℝ) (y : ℝ) : ℝ := (s.map fun x => if x ≤ y then x else 0).sum

theorem sumLe_append (s t : List ℝ) (y : ℝ) : sumLe (s ++ t) y = sumLe s y + sumLe t y := by
  rw [sumLe, List.map_append, List.sum_append]
  rfl

theorem sumLe_nonneg {s : List ℝ} (h : ∀ x ∈ s, 0 ≤ x) (y : ℝ) : 0 ≤ sumLe s y := by
  refine List.sum_nonneg fun z hz => ?_
  obtain ⟨x, hx, rfl⟩ := List.mem_map.mp hz
  split
  · exact h x hx
  · exact le_rfl

theorem sumLe_of_forall_le {s : List ℝ} {y : ℝ} (h : ∀ x ∈ s, x ≤ y) : sumLe s y = s.sum := by
  rw [sumLe, List.map_congr_left fun x hx => if_pos (h x hx), List.map_id']

theorem sumLe_le_sum {s : List ℝ} (h : ∀ x ∈ s, 0 ≤ x) (y : ℝ) : sumLe s y ≤ s.sum := by
  induction s with
  | nil => exact le_rfl
  | cons x s ih =>
    have hrest := ih fun z hz => h z (List.mem_cons_of_mem _ hz)
    have hx := h x List.mem_cons_self
    rw [sumLe, List.map_cons, List.sum_cons, List.sum_cons, ← sumLe]
    split
    · linarith
    · linarith

theorem sumLe_of_forall_lt {s : List ℝ} {y : ℝ} (h : ∀ x ∈ s, y < x) : sumLe s y = 0 := by
  rw [sumLe, List.map_congr_left fun x hx => if_neg (not_le.mpr (h x hx))]
  simp

/-- In an ascending list whose totals first reach `level` at `c`, the entry at `c` is at most `y`
exactly if the entries that are at most `y` reach `level`. -/
theorem getElem_le_iff_sumLe {s : List ℝ} (hs : s.Pairwise (· ≤ ·)) (hnonneg : ∀ x ∈ s, 0 ≤ x)
    {c : ℕ} (hc : c < s.length) {level : ℝ} (hreach : level ≤ (s.take (c + 1)).sum)
    (hfirst : ∀ i < c, (s.take (i + 1)).sum < level) {y : ℝ} (hy : y ∈ s) :
    s[c] ≤ y ↔ level ≤ sumLe s y := by
  have hsplit : ∀ n, sumLe s y = sumLe (s.take n) y + sumLe (s.drop n) y := by
    intro n
    rw [← sumLe_append, List.take_append_drop]
  constructor
  · intro hle
    have htake : sumLe (s.take (c + 1)) y = (s.take (c + 1)).sum := by
      refine sumLe_of_forall_le fun x hx => ?_
      obtain ⟨i, hi, rfl⟩ := List.getElem_of_mem hx
      rw [List.length_take] at hi
      rw [List.getElem_take]
      rcases Nat.lt_or_ge i c with hic | hic
      · exact (List.pairwise_iff_getElem.mp hs i c _ hc hic).trans hle
      · obtain rfl : i = c := by omega
        exact hle
    have hrest := sumLe_nonneg (fun x hx => hnonneg x (List.mem_of_mem_drop hx)) y
      (s := s.drop (c + 1))
    rw [hsplit (c + 1), htake]
    linarith
  · intro hlevel
    by_contra hlt
    rw [not_le] at hlt
    have hdrop : sumLe (s.drop c) y = 0 := by
      refine sumLe_of_forall_lt fun x hx => ?_
      obtain ⟨i, hi, rfl⟩ := List.getElem_of_mem hx
      rw [List.getElem_drop]
      rcases Nat.eq_zero_or_pos i with rfl | hpos
      · exact hlt
      · exact hlt.trans_le (List.pairwise_iff_getElem.mp hs c (c + i) hc _ (by omega))
    rcases Nat.eq_zero_or_pos c with rfl | hpos
    · -- nothing in the list is below its first entry
      obtain ⟨j, hj, rfl⟩ := List.getElem_of_mem hy
      rcases Nat.eq_zero_or_pos j with rfl | hjpos
      · exact lt_irrefl _ hlt
      · exact not_le.mpr hlt (List.pairwise_iff_getElem.mp hs 0 j hc hj hjpos)
    · have hbefore := hfirst (c - 1) (by omega)
      rw [Nat.sub_add_cancel hpos] at hbefore
      have htake := sumLe_le_sum (fun x hx => hnonneg x (List.mem_of_mem_take hx)) y
        (s := s.take c)
      rw [hsplit c, hdrop, add_zero] at hlevel
      linarith

/-! ### The pivots of a row -/

variable {n : ℕ}

noncomputable def sortedDesc (row : Fin n → ℝ) : List ℝ :=
  (List.ofFn row).mergeSort fun a b => decide (b ≤ a)

noncomputable def sortedAsc (row : Fin n → ℝ) : List ℝ :=
  (List.ofFn row).mergeSort fun a b => decide (a ≤ b)

/-- The `k`-th largest weight, or the least one if there are fewer. -/
noncomputable def topKPivot (k : ℕ) (row : Fin n → ℝ) : ℝ :=
  (sortedDesc row).getD (min (k - 1) (n - 1)) 0

/-- The weight at which the ascending totals reach `1 - p`. -/
noncomputable def topPPivot (p : ℝ) (row : Fin n → ℝ) : ℝ :=
  (sortedAsc row).getD
    (min ((runningTotals 0 (sortedAsc row)).findIdx fun c => decide (1 - p ≤ c)) (n - 1)) 0

theorem pairwise_sortedDesc (row : Fin n → ℝ) : (sortedDesc row).Pairwise (· ≥ ·) := by
  refine (List.pairwise_mergeSort ?_ ?_ _).imp fun {a b} h => of_decide_eq_true h
  · intro a b c hab hbc
    rw [decide_eq_true_eq] at hab hbc ⊢
    exact hbc.trans hab
  · intro a b
    rw [Bool.or_eq_true, decide_eq_true_eq, decide_eq_true_eq]
    exact le_total b a

theorem pairwise_sortedAsc (row : Fin n → ℝ) : (sortedAsc row).Pairwise (· ≤ ·) := by
  refine (List.pairwise_mergeSort ?_ ?_ _).imp fun {a b} h => of_decide_eq_true h
  · intro a b c hab hbc
    rw [decide_eq_true_eq] at hab hbc ⊢
    exact hab.trans hbc
  · intro a b
    rw [Bool.or_eq_true, decide_eq_true_eq, decide_eq_true_eq]
    exact le_total a b

theorem perm_sortedDesc (row : Fin n → ℝ) : (sortedDesc row).Perm (List.ofFn row) :=
  List.mergeSort_perm _ _

theorem perm_sortedAsc (row : Fin n → ℝ) : (sortedAsc row).Perm (List.ofFn row) :=
  List.mergeSort_perm _ _

theorem length_sortedDesc (row : Fin n → ℝ) : (sortedDesc row).length = n := by
  rw [(perm_sortedDesc row).length_eq, List.length_ofFn]

theorem length_sortedAsc (row : Fin n → ℝ) : (sortedAsc row).length = n := by
  rw [(perm_sortedAsc row).length_eq, List.length_ofFn]

theorem countP_sortedDesc (row : Fin n → ℝ) (y : ℝ) :
    (sortedDesc row).countP (fun x => decide (y < x)) =
      (Finset.univ.filter fun w => y < row w).card := by
  rw [(perm_sortedDesc row).countP_eq, List.ofFn_eq_map, List.countP_map,
    List.countP_eq_length_filter]
  rfl

theorem sumLe_sortedAsc (row : Fin n → ℝ) (y : ℝ) :
    sumLe (sortedAsc row) y = ∑ w, if row w ≤ y then row w else 0 := by
  rw [sumLe, ((perm_sortedAsc row).map _).sum_eq, List.map_ofFn, List.sum_ofFn]
  rfl

theorem topKPivot_le_iff (hn : 0 < n) (k : ℕ) (row : Fin n → ℝ) (y : ℝ) :
    topKPivot k row ≤ y ↔
      (Finset.univ.filter fun w => y < row w).card ≤ min (k - 1) (n - 1) := by
  have hc : min (k - 1) (n - 1) < (sortedDesc row).length := by
    rw [length_sortedDesc]
    omega
  rw [topKPivot, List.getD_eq_getElem _ _ hc,
    getElem_le_iff_countP (pairwise_sortedDesc row) hc, countP_sortedDesc]

theorem topPPivot_le_iff (hn : 0 < n) {p : ℝ} {row : Fin n → ℝ} (hnonneg : ∀ v, 0 ≤ row v)
    (hreach : 1 - p ≤ ∑ w, row w) (v : Fin n) :
    topPPivot p row ≤ row v ↔ 1 - p ≤ ∑ w, if row w ≤ row v then row w else 0 := by
  have hperm := perm_sortedAsc row
  have hlen := length_sortedAsc row
  have hmem : ∀ w, row w ∈ sortedAsc row := fun w =>
    hperm.mem_iff.mpr (List.mem_ofFn.mpr ⟨w, rfl⟩)
  have hnonneg' : ∀ x ∈ sortedAsc row, 0 ≤ x := by
    intro x hx
    obtain ⟨w, rfl⟩ := List.mem_ofFn.mp (hperm.mem_iff.mp hx)
    exact hnonneg w
  have htotals : (runningTotals 0 (sortedAsc row)).length = n := by
    rw [length_runningTotals, hlen]
  have hget : ∀ i (h : i < (runningTotals 0 (sortedAsc row)).length),
      (runningTotals 0 (sortedAsc row))[i] = ((sortedAsc row).take (i + 1)).sum := by
    intro i h
    rw [getElem_runningTotals, zero_add]
  have hsum : (sortedAsc row).sum = ∑ w, row w := by
    rw [hperm.sum_eq, List.sum_ofFn]
  have hcut : (runningTotals 0 (sortedAsc row)).findIdx (fun c => decide (1 - p ≤ c)) < n := by
    have hlast : n - 1 < (runningTotals 0 (sortedAsc row)).length := by omega
    refine (List.findIdx_lt_length_of_exists ⟨_, List.getElem_mem hlast, ?_⟩).trans_eq htotals
    rw [hget (n - 1) hlast, Nat.sub_add_cancel hn, List.take_of_length_le hlen.le, hsum]
    exact decide_eq_true hreach
  generalize hc : (runningTotals 0 (sortedAsc row)).findIdx (fun c => decide (1 - p ≤ c)) = c
    at hcut
  have hreached : 1 - p ≤ ((sortedAsc row).take (c + 1)).sum := by
    have hfound := @List.findIdx_getElem ℝ (fun c => decide (1 - p ≤ c))
      (runningTotals 0 (sortedAsc row)) (by rw [hc, htotals]; exact hcut)
    simp only [hc] at hfound
    rw [hget c (hcut.trans_eq htotals.symm)] at hfound
    exact of_decide_eq_true hfound
  have hfirst : ∀ i < c, ((sortedAsc row).take (i + 1)).sum < 1 - p := by
    intro i hi
    have hnot := List.not_of_lt_findIdx (hc.symm ▸ hi)
    rw [hget i (by omega)] at hnot
    exact not_le.mp (of_decide_eq_false hnot)
  have hc' : c < (sortedAsc row).length := by omega
  rw [topPPivot, hc, Nat.min_eq_left (by omega), List.getD_eq_getElem _ _ hc',
    getElem_le_iff_sumLe (pairwise_sortedAsc row) hnonneg' hc' hreached hfirst (hmem v),
    sumLe_sortedAsc]

/-! ### Rows after a cut -/

/-- The entries from the pivot on, divided by their sum. -/
noncomputable def renormFrom (pivot : ℝ) (row : Fin n → ℝ) (v : Fin n) : ℝ :=
  (if pivot ≤ row v then row v else 0) / ∑ w, if pivot ≤ row w then row w else 0

/-- Top-p without an order: an entry stays if those that are not larger have `1 - p` together. -/
noncomputable def topP (p : ℝ) (row : Fin n → ℝ) (v : Fin n) : ℝ :=
  let kept := fun v => if 1 - p ≤ ∑ w, (if row w ≤ row v then row w else 0) then row v else 0
  kept v / ∑ w, kept w

theorem renormFrom_topPPivot (hn : 0 < n) {p : ℝ} {row : Fin n → ℝ} (hnonneg : ∀ v, 0 ≤ row v)
    (hreach : 1 - p ≤ ∑ w, row w) : renormFrom (topPPivot p row) row = topP p row := by
  funext v
  simp only [renormFrom, topP, topPPivot_le_iff hn hnonneg hreach]

/-- With `p = 1` every entry stays. -/
theorem topP_one {row : Fin n → ℝ} (hnonneg : ∀ v, 0 ≤ row v) (hsum : ∑ v, row v = 1) :
    topP 1 row = row := by
  have hkept : ∀ v, 1 - (1 : ℝ) ≤ ∑ w, (if row w ≤ row v then row w else 0) := by
    intro v
    rw [sub_self]
    refine Finset.sum_nonneg fun w _ => ?_
    split
    · exact hnonneg w
    · exact le_rfl
  funext v
  simp only [topP, if_pos (hkept _), hsum, div_one]

section Kept
variable {p : ℝ} {row : Fin n → ℝ} (hp : 0 < p) (hnonneg : ∀ v, 0 ≤ row v) (hsum : ∑ v, row v = 1)
include hp hnonneg hsum

/-- The largest entry stays. -/
theorem topP_total_pos :
    0 < ∑ v, if 1 - p ≤ ∑ w, (if row w ≤ row v then row w else 0) then row v else 0 := by
  obtain ⟨u, -, hu⟩ : ∃ v ∈ Finset.univ, 0 < row v := by
    by_contra hnone
    push Not at hnone
    have hle := Finset.sum_nonpos fun v hv => hnone v hv
    rw [hsum] at hle
    linarith
  obtain ⟨t, -, ht⟩ := Finset.exists_max_image Finset.univ row ⟨u, Finset.mem_univ u⟩
  have hall : ∑ w, (if row w ≤ row t then row w else 0) = 1 := by
    rw [← hsum]
    exact Finset.sum_congr rfl fun w hw => if_pos (ht w hw)
  refine Finset.sum_pos' (fun v _ => ?_) ⟨t, Finset.mem_univ t, ?_⟩
  · split
    · exact hnonneg v
    · exact le_rfl
  · rw [if_pos (by linarith)]
    exact hu.trans_le (ht u (Finset.mem_univ u))

theorem sum_topP : ∑ v, topP p row v = 1 := by
  unfold topP
  rw [← Finset.sum_div]
  exact div_self (topP_total_pos hp hnonneg hsum).ne'

theorem topP_nonneg (v : Fin n) : 0 ≤ topP p row v := by
  refine div_nonneg ?_ (topP_total_pos hp hnonneg hsum).le
  dsimp only
  split
  · exact hnonneg v
  · exact le_rfl

/-- **The support of top-p.** -/
theorem topP_pos_iff (v : Fin n) :
    0 < topP p row v ↔ 0 < row v ∧ 1 - p ≤ ∑ w, if row w ≤ row v then row w else 0 := by
  rw [topP, div_pos_iff_of_pos_right (topP_total_pos hp hnonneg hsum)]
  dsimp only
  by_cases hkept : 1 - p ≤ ∑ w, if row w ≤ row v then row w else 0
  · rw [if_pos hkept]
    exact ⟨fun hpos => ⟨hpos, hkept⟩, fun h => h.1⟩
  · rw [if_neg hkept]
    exact ⟨fun hpos => absurd hpos (lt_irrefl _), fun h => absurd h.2 hkept⟩

omit hp hnonneg in
/-- The entries that are not larger have `1 - p` together when the larger ones have at most `p`. -/
theorem one_sub_le_iff (v : Fin n) :
    (1 - p ≤ ∑ w, if row w ≤ row v then row w else 0) ↔
      ∑ w with row v < row w, row w ≤ p := by
  have hsplit : ∑ w with row v < row w, row w + ∑ w, (if row w ≤ row v then row w else 0) = 1 := by
    have hfilter := Finset.sum_filter_add_sum_filter_not Finset.univ (fun w => row v < row w) row
    simp only [not_lt] at hfilter
    rw [← Finset.sum_filter, hfilter, hsum]
  constructor <;> intro h <;> linarith

end Kept

/-! ### Scattering -/

/-- `zeros.scatter_(1, idx, values)`. -/
noncomputable def scatter (idx : List (Fin n)) (values : Fin idx.length → ℝ) (v : Fin n) : ℝ :=
  if h : idx.idxOf v < idx.length then values ⟨idx.idxOf v, h⟩ else 0

variable {idx : List (Fin n)} (values : Fin idx.length → ℝ)

theorem scatter_get (hnodup : idx.Nodup) (i : Fin idx.length) :
    scatter idx values (idx.get i) = values i := by
  have hi : idx.idxOf (idx.get i) = i := hnodup.idxOf_getElem i i.isLt
  rw [scatter, dif_pos (hi.symm ▸ i.isLt)]
  exact congrArg values (Fin.ext hi)

theorem scatter_of_notMem {v : Fin n} (h : v ∉ idx) : scatter idx values v = 0 :=
  dif_neg fun hlt => h (List.idxOf_lt_length_iff.mp hlt)

/-- A sum over the scattered row is a sum over the values. -/
theorem sum_scatter (hnodup : idx.Nodup) {g : ℝ → ℝ} (hg : g 0 = 0) :
    ∑ v, g (scatter idx values v) = ∑ i, g (values i) := by
  refine (Finset.sum_of_injOn idx.get (hnodup.injective_get.injOn)
    (fun _ _ => Finset.mem_coe.mpr (Finset.mem_univ _)) ?_ fun i _ => ?_).symm
  · intro v _ hv
    refine (congrArg g (scatter_of_notMem values fun hmem => hv ?_)).trans hg
    obtain ⟨i, rfl⟩ := List.get_of_mem hmem
    exact ⟨i, Finset.mem_coe.mpr (Finset.mem_univ i), rfl⟩
  · rw [scatter_get values hnodup]

/-- Top-p of a scattered row is the scattered top-p: the zeros around it count for nothing. -/
theorem topP_scatter (hnodup : idx.Nodup) (p : ℝ) :
    topP p (scatter idx values) = scatter idx (topP p values) := by
  have hle : ∀ y : ℝ, ∑ w, (if scatter idx values w ≤ y then scatter idx values w else 0) =
      ∑ i, if values i ≤ y then values i else 0 := by
    intro y
    have hzero : (if (0 : ℝ) ≤ y then (0 : ℝ) else 0) = 0 := by split <;> rfl
    exact sum_scatter values hnodup hzero (g := fun x => if x ≤ y then x else 0)
  have htotal := sum_scatter values hnodup
    (g := fun x => if 1 - p ≤ ∑ i, (if values i ≤ x then values i else 0) then x else 0)
    (by split <;> rfl)
  funext v
  by_cases hv : v ∈ idx
  · obtain ⟨i, rfl⟩ := List.get_of_mem hv
    simp only [topP, hle, htotal, scatter_get _ hnodup]
  · rw [scatter_of_notMem _ hv]
    simp only [topP, scatter_of_notMem values hv, ite_self, zero_div]

omit values in
/-- A sum over some entries is a sum over the row, if it is zero elsewhere. -/
theorem sum_gather (hnodup : idx.Nodup) {g : Fin n → ℝ} (hg : ∀ v ∉ idx, g v = 0) :
    ∑ r, g (idx.get r) = ∑ v, g v := by
  refine Finset.sum_of_injOn idx.get (hnodup.injective_get.injOn)
    (fun _ _ => Finset.mem_coe.mpr (Finset.mem_univ _)) ?_ fun _ _ => rfl
  intro v _ hv
  refine hg v fun hmem => hv ?_
  obtain ⟨i, rfl⟩ := List.get_of_mem hmem
  exact ⟨i, Finset.mem_coe.mpr (Finset.mem_univ i), rfl⟩

omit values in
/-- Gathering some entries, dividing them by their sum and scattering them back divides the row,
if it is zero elsewhere. -/
theorem scatter_gather (hnodup : idx.Nodup) {g : Fin n → ℝ} (hg : ∀ v ∉ idx, g v = 0) :
    scatter idx (fun rank => g (idx.get rank) / ∑ r, g (idx.get r)) = fun v => g v / ∑ w, g w := by
  funext v
  by_cases hv : v ∈ idx
  · obtain ⟨i, rfl⟩ := List.get_of_mem hv
    rw [scatter_get _ hnodup, sum_gather hnodup hg]
  · rw [scatter_of_notMem _ hv, hg v hv, zero_div]

end RenormRows
