import Mathlib.Algebra.Group.Action.Defs
import Mathlib.Algebra.Order.BigOperators.Group.List
import Mathlib.Algebra.Order.Ring.Nat
import Mathlib.Data.List.Forall2
import Mathlib.Data.List.MinMax

/-! # Maxima of rows that are computed in pieces

The first maximum of a row that is cut into segments is found segment by segment: each
segment has a candidate, an empty segment has one that is below every entry, and the first best
candidate is the first maximum of the whole row (`IsFirstMax.flatten`).

The rows of a matrix are cut as well.  A loop over chunks of rows that stores the results of
each chunk at its place leaves a result for every row, whatever the size of a chunk
(`chunkLoop_spec`).
-/
namespace RowMaxima

section
variable {S : Type*} [LinearOrder S]

/-- Entry `i` of the row is `m`, and no entry is larger. -/
structure IsMaxAt (xs : List S) (m : S) (i : ℕ) : Prop where
  getElem : xs[i]? = some m
  le : ∀ x ∈ xs, x ≤ m

/-- Entry `i` is the first of the largest entries. -/
structure IsFirstMax (xs : List S) (m : S) (i : ℕ) : Prop extends IsMaxAt xs m i where
  lt : ∀ j < i, ∀ x, xs[j]? = some x → x < m

/-- The value and the index of the first maximum. -/
def firstMax (xs : List S) : Option (S × ℕ) := xs.zipIdx.argmax Prod.fst

variable {xs ys : List S} {m x : S} {i : ℕ}

theorem IsMaxAt.mem (h : IsMaxAt xs m i) : m ∈ xs := List.mem_of_getElem? h.getElem

theorem IsMaxAt.lt_length (h : IsMaxAt xs m i) : i < xs.length :=
  (List.getElem?_eq_some_iff.mp h.getElem).1

theorem IsFirstMax.cons_of_le (h : ∀ y ∈ xs, y ≤ x) : IsFirstMax (x :: xs) x 0 where
  getElem := rfl
  le := List.forall_mem_cons.mpr ⟨le_rfl, h⟩
  lt := fun _ hj => absurd hj (Nat.not_lt_zero _)

theorem IsFirstMax.append_left (h : IsFirstMax xs m i) (hle : ∀ y ∈ ys, y ≤ m) :
    IsFirstMax (xs ++ ys) m i where
  getElem := by rw [List.getElem?_append_left h.lt_length, h.getElem]
  le := List.forall_mem_append.mpr ⟨h.le, hle⟩
  lt := fun j hj y hy => by
    rw [List.getElem?_append_left (hj.trans h.lt_length)] at hy
    exact h.lt j hj y hy

theorem IsFirstMax.append_right (h : IsFirstMax ys m i) (hlt : ∀ x ∈ xs, x < m) :
    IsFirstMax (xs ++ ys) m (xs.length + i) where
  getElem := by rw [List.getElem?_append_right (Nat.le_add_right _ _), Nat.add_sub_cancel_left,
    h.getElem]
  le := List.forall_mem_append.mpr ⟨fun x hx => (hlt x hx).le, h.le⟩
  lt := fun j hj y hy => by
    rcases Nat.lt_or_ge j xs.length with hjx | hjx
    · rw [List.getElem?_append_left hjx] at hy
      exact hlt y (List.mem_of_getElem? hy)
    · rw [List.getElem?_append_right hjx] at hy
      exact h.lt _ (by omega) y hy

/-- `firstMax` over a row whose indices are counted from `n`. -/
theorem exists_argmax_zipIdx (n : ℕ) (h : xs ≠ []) :
    ∃ m k, (xs.zipIdx n).argmax Prod.fst = some (m, n + k) ∧ IsFirstMax xs m k := by
  induction xs generalizing n with
  | nil => exact absurd rfl h
  | cons x xs ih =>
    rw [List.zipIdx_cons, List.argmax_cons]
    rcases eq_or_ne xs [] with rfl | hne
    · exact ⟨x, 0, rfl, .cons_of_le fun y hy => absurd hy (List.not_mem_nil)⟩
    · obtain ⟨m, k, hk, hmax⟩ := ih (n + 1) hne
      rw [hk]
      by_cases hlt : x < m
      · have hhead : ∀ y ∈ [x], y < m := by simpa using hlt
        refine ⟨m, 1 + k, ?_, hmax.append_right hhead⟩
        simp [hlt, Nat.add_assoc]
      · -- the head is at least as large as the best of the rest, and it comes first
        refine ⟨x, 0, by simp [hlt], .cons_of_le fun y hy => ?_⟩
        exact (hmax.le y hy).trans (not_lt.mp hlt)

/-- A row that is not empty has a first maximum. -/
theorem exists_firstMax (h : xs ≠ []) : ∃ m i, firstMax xs = some (m, i) ∧ IsFirstMax xs m i := by
  obtain ⟨m, k, hk, hmax⟩ := exists_argmax_zipIdx 0 h
  exact ⟨m, k, by rw [firstMax, hk, Nat.zero_add], hmax⟩

/-- The candidates of the segments bound every entry of the row. -/
theorem le_of_candidates {segs : List (List S)} {best : List S}
    (hbest : List.Forall₂ (fun seg b => ∀ x ∈ seg, x ≤ b) segs best)
    (hm : ∀ b ∈ best, b ≤ m) : ∀ x ∈ segs.flatten, x ≤ m := by
  intro x hx
  obtain ⟨seg, hseg, hmem⟩ := List.mem_flatten.mp hx
  obtain ⟨r, hr, rfl⟩ := List.mem_iff_getElem.mp hseg
  have hr' : r < best.length := hbest.length_eq ▸ hr
  exact (hbest.get hr hr' x hmem).trans (hm _ (List.getElem_mem hr'))

/-- **First maximum of a segmented row.**  Segment `r` has the first best candidate and attains
it at its place `i`. -/
theorem IsFirstMax.flatten {segs : List (List S)} {best : List S} {seg : List S} {r : ℕ}
    (hbest : List.Forall₂ (fun seg b => ∀ x ∈ seg, x ≤ b) segs best)
    (hr : IsFirstMax best m r) (hseg : segs[r]? = some seg) (h : IsFirstMax seg m i) :
    IsFirstMax segs.flatten m (((segs.take r).map List.length).sum + i) := by
  have hsplit : segs = segs.take r ++ seg :: segs.drop (r + 1) := by
    obtain ⟨hlt, rfl⟩ := List.getElem?_eq_some_iff.mp hseg
    rw [List.getElem_cons_drop, List.take_append_drop]
  have hall := le_of_candidates hbest hr.le
  have hflat : segs.flatten = (segs.take r).flatten ++ (seg ++ (segs.drop (r + 1)).flatten) := by
    conv_lhs => rw [hsplit]
    rw [List.flatten_append, List.flatten_cons]
  rw [hflat, ← List.length_flatten]
  refine (h.append_left fun y hy => hall y ?_).append_right fun y hy => ?_
  · rw [hflat]
    exact List.mem_append_right _ (List.mem_append_right _ hy)
  · -- an earlier segment has a candidate, and that is worse
    obtain ⟨seg', hseg', hmem⟩ := List.mem_flatten.mp hy
    obtain ⟨q, hq, rfl⟩ := List.mem_take_iff_getElem.mp hseg'
    have hq' : q < best.length := hbest.length_eq ▸ (by omega)
    exact (hbest.get (by omega) hq' y hmem).trans_lt
      (hr.lt q (by omega) _ (List.getElem?_eq_getElem hq'))

end

/-! ### Columns of gathered rows -/

section
variable {A B : Type*}

/-- Column `t` of a flat buffer that is viewed as `rows` rows of `n` entries. -/
def column (flat : List A) (rows n t : ℕ) : List A :=
  (List.range rows).filterMap fun r => flat[r * n + t]?

theorem column_map (f : A → B) (flat : List A) (rows n t : ℕ) :
    column (flat.map f) rows n t = (column flat rows n t).map f := by
  simp [column, List.map_filterMap]

/-- Where an entry of a row stands in the buffer of all rows. -/
theorem getElem?_flatten_take {ls : List (List A)} {l : List A} {r i : ℕ} {x : A}
    (hr : ls[r]? = some l) (hi : l[i]? = some x) :
    ls.flatten[((ls.take r).map List.length).sum + i]? = some x := by
  obtain ⟨hlt, rfl⟩ := List.getElem?_eq_some_iff.mp hr
  have hsplit : ls.flatten = (ls.take r).flatten ++ (ls[r] ++ (ls.drop (r + 1)).flatten) := by
    rw [← List.flatten_cons, List.getElem_cons_drop, ← List.flatten_append, List.take_append_drop]
  rw [hsplit, ← List.length_flatten, List.getElem?_append_right (Nat.le_add_right _ _),
    Nat.add_sub_cancel_left, List.getElem?_append_left (List.getElem?_eq_some_iff.mp hi).1, hi]

/-- The same for rows of one length. -/
theorem getElem?_flatten {ls : List (List A)} {l : List A} {n r i : ℕ} {x : A}
    (hn : ∀ l ∈ ls, l.length = n) (hr : ls[r]? = some l) (hi : l[i]? = some x) :
    ls.flatten[r * n + i]? = some x := by
  have hlt := (List.getElem?_eq_some_iff.mp hr).1
  have hsum : ((ls.take r).map List.length).sum = r * n := by
    rw [List.map_congr_left (g := fun _ => n) fun l hl => hn l (List.mem_of_mem_take hl),
      List.map_const', List.sum_replicate, List.length_take, Nat.min_eq_left hlt.le, smul_eq_mul]
  rw [← hsum]
  exact getElem?_flatten_take hr hi

/-- A column of the gathered rows holds one entry of each row. -/
theorem column_flatten {ls : List (List A)} {n t : ℕ} (hn : ∀ l ∈ ls, l.length = n)
    (ht : t < n) :
    List.Forall₂ (fun l x => l[t]? = some x) ls (column ls.flatten ls.length n t) := by
  induction ls with
  | nil => exact .nil
  | cons l ls ih =>
    obtain ⟨hl, hls⟩ := List.forall_mem_cons.mp hn
    have hrest : (fun r => (l :: ls).flatten[(r + 1) * n + t]?) =
        fun r => ls.flatten[r * n + t]? := by
      funext r
      rw [List.flatten_cons, Nat.succ_mul, List.getElem?_append_right (by omega)]
      congr 1
      omega
    have hget : l[t]? = some (l.get ⟨t, hl ▸ ht⟩) := List.getElem?_eq_getElem _
    have hhead : (l :: ls).flatten[0 * n + t]? = some (l.get ⟨t, hl ▸ ht⟩) :=
      getElem?_flatten hn rfl hget
    rw [column, List.length_cons, List.range_succ_eq_map,
      List.filterMap_cons_some (f := fun r => (l :: ls).flatten[r * n + t]?) hhead,
      List.filterMap_map]
    refine .cons hget ?_
    have hcol := ih hls
    rw [column, ← hrest] at hcol
    exact hcol

/-- Entry by entry, two relations in a row. -/
theorem forall₂_comp {C : Type*} {R : A → B → Prop} {T : B → C → Prop} {U : A → C → Prop}
    {xs : List A} {ys : List B} {zs : List C} (hR : List.Forall₂ R xs ys)
    (hT : List.Forall₂ T ys zs) (hU : ∀ x y z, R x y → T y z → U x z) : List.Forall₂ U xs zs := by
  induction hR generalizing zs with
  | nil =>
    cases hT
    exact .nil
  | cons hxy _ ih =>
    cases hT with
    | cons hyz hrest => exact .cons (hU _ _ _ hxy hyz) (ih hrest)

/-- Relating two lists entry by entry. -/
theorem forall₂_getElem? {R : A → B → Prop} {xs : List A} {ys : List B} (h : List.Forall₂ R xs ys)
    {i : ℕ} {x : A} {y : B} (hx : xs[i]? = some x) (hy : ys[i]? = some y) : R x y := by
  obtain ⟨hi, rfl⟩ := List.getElem?_eq_some_iff.mp hx
  obtain ⟨hi', rfl⟩ := List.getElem?_eq_some_iff.mp hy
  exact h.get hi hi'

/-- A pass over the indices of a list is a pass over the list. -/
theorem forall₂_of_range {Q : A → B → Prop} {xs : List A} {ys : List B}
    (h : List.Forall₂ (fun t y => ∀ x, xs[t]? = some x → Q x y) (List.range xs.length) ys) :
    List.Forall₂ Q xs ys := by
  have hlen : xs.length = ys.length := List.length_range.symm.trans h.length_eq
  refine List.forall₂_iff_get.mpr ⟨hlen, fun i hi hi' => ?_⟩
  exact forall₂_getElem? h (List.getElem?_range hi) (List.getElem?_eq_getElem hi') _
    (List.getElem?_eq_getElem hi)

end

/-! ### Chunks of rows -/

section
variable {A B E : Type*}

/-- A pass over a list whose steps all succeed, with results for a second list. -/
theorem exists_mapM_of_forall₂ {C : Type*} {P : A → C → Prop} {f : B → Except E C} {xs : List A}
    {ys : List B} (h : List.Forall₂ (fun x y => ∃ z, f y = .ok z ∧ P x z) xs ys) :
    ∃ zs, ys.mapM f = .ok zs ∧ List.Forall₂ P xs zs := by
  induction h with
  | nil => exact ⟨[], rfl, .nil⟩
  | cons hz _ ih =>
    obtain ⟨z, hz, hP⟩ := hz
    obtain ⟨zs, hzs, hPs⟩ := ih
    exact ⟨z :: zs, by rw [List.mapM_cons, hz, hzs]; rfl, .cons hP hPs⟩

theorem exists_mapM {P : A → B → Prop} {f : A → Except E B} (xs : List A)
    (h : ∀ x ∈ xs, ∃ y, f x = .ok y ∧ P x y) : ∃ ys, xs.mapM f = .ok ys ∧ List.Forall₂ P xs ys :=
  exists_mapM_of_forall₂ (List.forall₂_same.mpr h)

/-- One turn of the loop: the results of rows `start .. start + chunk - 1` are stored. -/
def chunkStep (chunk : ℕ) (f : List A → Except E (List B)) (rows : List A) (out : List B)
    (start : ℕ) : Except E (List B) := do
  let stop := min rows.length (start + chunk)
  let ys ← f ((rows.take stop).drop start)
  return out.take start ++ ys ++ out.drop stop

/-- `for start in range(0, rows, chunk)` -/
def chunkLoop (chunk : ℕ) (f : List A → Except E (List B)) (rows : List A) (out : List B) :
    Except E (List B) :=
  ((List.range ((rows.length + chunk - 1) / chunk)).map (· * chunk)).foldlM
    (chunkStep chunk f rows) out

variable {P : A → B → Prop} {f : List A → Except E (List B)} {rows : List A} {chunk : ℕ}

/-- The first `done` rows have their results. -/
structure Filled (P : A → B → Prop) (rows : List A) (done : ℕ) (out : List B) : Prop where
  length_eq : out.length = rows.length
  results : List.Forall₂ P (rows.take done) (out.take done)

variable (chunk) in
theorem chunkStep_filled (hf : ∀ xs, (∀ x ∈ xs, x ∈ rows) →
      ∃ ys, f xs = .ok ys ∧ List.Forall₂ P xs ys) {out : List B} {start : ℕ}
    (h : Filled P rows start out) (hstart : start ≤ rows.length) :
    ∃ out', chunkStep chunk f rows out start = .ok out' ∧
      Filled P rows (min rows.length (start + chunk)) out' := by
  obtain ⟨ys, hys, hP⟩ := hf ((rows.take (min rows.length (start + chunk))).drop start)
    fun x hx => List.mem_of_mem_take (List.mem_of_mem_drop hx)
  have hlen : ys.length = min rows.length (start + chunk) - start := by
    rw [← hP.length_eq, List.length_drop, List.length_take]
    omega
  have htake : (out.take start).length = start := by
    rw [List.length_take, h.length_eq]
    omega
  refine ⟨_, by rw [chunkStep, hys]; rfl, ?_, ?_⟩
  · simp only [List.length_append, htake, hlen, List.length_drop, h.length_eq]
    omega
  · -- the new rows follow the ones that were done before
    have hrows : rows.take (min rows.length (start + chunk)) =
        rows.take start ++ (rows.take (min rows.length (start + chunk))).drop start := by
      conv_lhs => rw [← List.take_append_drop start (rows.take (min rows.length (start + chunk)))]
      rw [List.take_take, Nat.min_eq_left (by omega)]
    have hout : (out.take start ++ ys ++ out.drop (min rows.length (start + chunk))).take
        (min rows.length (start + chunk)) = out.take start ++ ys := by
      refine List.take_left' ?_
      rw [List.length_append, htake, hlen]
      omega
    rw [hout, hrows]
    exact List.rel_append h.results hP

theorem chunkLoop_filled (hchunk : 0 < chunk) (hf : ∀ xs, (∀ x ∈ xs, x ∈ rows) →
      ∃ ys, f xs = .ok ys ∧ List.Forall₂ P xs ys) {out : List B} (hout : out.length = rows.length)
    {k : ℕ} (hk : k ≤ (rows.length + chunk - 1) / chunk) :
    ∃ out', ((List.range k).map (· * chunk)).foldlM (chunkStep chunk f rows) out = .ok out' ∧
      Filled P rows (min rows.length (k * chunk)) out' := by
  induction k with
  | zero => exact ⟨out, rfl, hout, by simp⟩
  | succ k ih =>
    obtain ⟨out', hout', hfilled⟩ := ih (by omega)
    have hlt : k * chunk < rows.length := by
      have h := (Nat.le_div_iff_mul_le hchunk).mp hk
      rw [Nat.succ_mul] at h
      omega
    rw [Nat.min_eq_right hlt.le] at hfilled
    obtain ⟨out'', hout'', hdone⟩ := chunkStep_filled chunk hf hfilled hlt.le
    refine ⟨out'', ?_, by rwa [Nat.succ_mul]⟩
    rw [List.range_succ, List.map_append, List.foldlM_append, hout']
    change chunkStep chunk f rows out' (k * chunk) >>= pure = _
    rw [bind_pure, hout'']

/-- **A loop over chunks treats every row.** -/
theorem chunkLoop_spec (hchunk : 0 < chunk) (hf : ∀ xs, (∀ x ∈ xs, x ∈ rows) →
      ∃ ys, f xs = .ok ys ∧ List.Forall₂ P xs ys) {out : List B}
    (hout : out.length = rows.length) :
    ∃ out', chunkLoop chunk f rows out = .ok out' ∧ List.Forall₂ P rows out' := by
  obtain ⟨out', hout', hfilled⟩ := chunkLoop_filled hchunk hf hout le_rfl
  refine ⟨out', hout', ?_⟩
  have hall : min rows.length ((rows.length + chunk - 1) / chunk * chunk) = rows.length := by
    have hdiv := Nat.div_add_mod (rows.length + chunk - 1) chunk
    have hmod := Nat.mod_lt (rows.length + chunk - 1) hchunk
    rw [Nat.mul_comm] at hdiv
    omega
  have h := hfilled.results
  rwa [hall, List.take_length, List.take_of_length_le hfilled.length_eq.le] at h

end

end RowMaxima
