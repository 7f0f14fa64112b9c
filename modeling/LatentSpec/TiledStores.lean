import Mathlib.Algebra.Group.Action.Defs
import Mathlib.Algebra.BigOperators.Group.Finset.Piecewise
import Mathlib.Algebra.Order.Ring.Nat

/-! # Stores of a tiled kernel loop

A kernel that covers `n` elements with tiles of a fixed width masks the lanes of the
last tile that lie past `n`.  `tiles_eq_range` says that the lanes it touches are
exactly `0 .. n - 1`, each once and in order, for every tile width.

A memory is a function of the address and `writeAll` performs a list of stores in order;
`writeAll_of_mem` reads a cell back when all stores to it agree, and
`writeAll_of_notMem` is the frame rule.
-/
namespace TiledStores

/-! ### Masked tiles -/

/-- The unmasked lanes of `cdiv n block` tiles, in order. -/
def tiles (block n : ℕ) : List ℕ :=
  (List.range ((n + block - 1) / block)).flatMap fun k =>
    ((List.range block).map fun lane => k * block + lane).filter (· < n)

theorem filter_range_lt {n m : ℕ} (h : n ≤ m) : (List.range m).filter (· < n) = List.range n := by
  obtain ⟨d, rfl⟩ := Nat.exists_eq_add_of_le h
  rw [List.range_add, List.filter_append, List.filter_eq_self.mpr, List.filter_eq_nil_iff.mpr,
    List.append_nil]
  · intro i hi
    obtain ⟨j, -, rfl⟩ := List.mem_map.mp hi
    simp
  · intro i hi
    simpa using List.mem_range.mp hi

theorem flatMap_tiles (block k : ℕ) :
    ((List.range k).flatMap fun i => (List.range block).map fun lane => i * block + lane) =
      List.range (k * block) := by
  induction k with
  | zero => simp
  | succ k ih =>
    rw [List.range_succ, List.flatMap_append, ih, Nat.succ_mul, List.range_add]
    simp

/-- **Masked tiles cover the range.** -/
theorem tiles_eq_range {block : ℕ} (h : 0 < block) (n : ℕ) : tiles block n = List.range n := by
  rw [tiles, ← List.filter_flatMap, flatMap_tiles]
  refine filter_range_lt ?_
  have hdiv := Nat.div_add_mod (n + block - 1) block
  have hmod := Nat.mod_lt (n + block - 1) h
  rw [Nat.mul_comm]
  omega

/-! ### Flat indices -/

theorem block_div {n w j : ℕ} (hj : j < w) : (n * w + j) / w = n := by
  rw [Nat.mul_comm, Nat.mul_add_div (by omega), Nat.div_eq_of_lt hj, Nat.add_zero]

theorem block_mod {n w j : ℕ} (hj : j < w) : (n * w + j) % w = j := by
  rw [Nat.mul_comm, Nat.mul_add_mod, Nat.mod_eq_of_lt hj]

/-- A flat index determines its row and its column. -/
theorem block_inj {n m w i j : ℕ} (hi : i < w) (hj : j < w) (h : n * w + i = m * w + j) :
    n = m ∧ i = j := by
  have hdiv := congrArg (· / w) h
  have hmod := congrArg (· % w) h
  simp only [block_div hi, block_div hj] at hdiv
  simp only [block_mod hi, block_mod hj] at hmod
  exact ⟨hdiv, hmod⟩

theorem block_lt {n m w j : ℕ} (hn : n < m) (hj : j < w) : n * w + j < m * w := by
  have hle := Nat.mul_le_mul_right w (Nat.succ_le_of_lt hn)
  rw [Nat.succ_mul] at hle
  omega

theorem exists_block {k m w : ℕ} (hk : k < m * w) : ∃ b < m, ∃ j < w, k = b * w + j := by
  have hw : 0 < w := Nat.pos_of_mul_pos_left (Nat.zero_lt_of_lt hk)
  refine ⟨k / w, Nat.div_lt_of_lt_mul (by rwa [Nat.mul_comm]), k % w, Nat.mod_lt _ hw, ?_⟩
  rw [Nat.mul_comm, Nat.div_add_mod]

/-- A sum over the flat indices of `m` rows, row by row. -/
theorem sum_rows {M : Type*} [AddCommMonoid M] (m w : ℕ) (f : ℕ → M) :
    ∑ c ∈ Finset.range (m * w), f c =
      ∑ r ∈ Finset.range m, ∑ j ∈ Finset.range w, f (r * w + j) := by
  induction m with
  | zero => simp
  | succ m ih => rw [Finset.sum_range_succ, ← ih, Nat.succ_mul, Finset.sum_range_add]

theorem sum_map_range {M : Type*} [AddCommMonoid M] (f : ℕ → M) (n : ℕ) :
    ((List.range n).map f).sum = ∑ j ∈ Finset.range n, f j := by
  induction n with
  | zero => rfl
  | succ n ih => rw [List.range_succ, List.map_append, List.sum_append, ih, Finset.sum_range_succ,
      List.map_singleton, List.sum_singleton]

/-- The indices below a bound. -/
theorem sum_below {bound n : ℕ} (h : bound ≤ n) :
    ∑ i ∈ Finset.range n, (if i < bound then 1 else 0) = bound := by
  have hfilter : (Finset.range n).filter (· < bound) = Finset.range bound := by
    ext i
    simp only [Finset.mem_filter, Finset.mem_range]
    omega
  rw [← Finset.card_filter, hfilter, Finset.card_range]

/-- The flat indices of one row. -/
theorem countP_row {m w r : ℕ} (hr : r < m) (p : ℕ → Bool) :
    ((List.range (m * w)).countP fun c => decide (c / w = r) && p c) =
      (List.range w).countP fun j => p (r * w + j) := by
  have hblock : ∀ m : ℕ, ((List.range (m * w)).countP fun c => decide (c / w = r) && p c) =
      if r < m then (List.range w).countP fun j => p (r * w + j) else 0 := by
    intro m
    induction m with
    | zero => simp
    | succ m ih =>
      have hlast : ((List.range w).countP fun j => decide ((m * w + j) / w = r) && p (m * w + j)) =
          if r = m then (List.range w).countP fun j => p (r * w + j) else 0 := by
        by_cases hrm : r = m
        · subst hrm
          rw [if_pos rfl]
          exact List.countP_congr fun j hj => by simp [block_div (List.mem_range.mp hj)]
        · rw [if_neg hrm]
          refine List.countP_eq_zero.mpr fun j hj => ?_
          simp [block_div (List.mem_range.mp hj), Ne.symm hrm]
      rw [Nat.succ_mul, List.range_add, List.countP_append, ih, List.countP_map]
      refine (congrArg _ hlast).trans ?_
      split_ifs <;> omega
  rw [hblock, if_pos hr]

/-! ### Stores -/

variable {α : Type}

/-- A list of stores performed in order. -/
def writeAll (mem : ℕ → α) (stores : List (ℕ × α)) : ℕ → α :=
  stores.foldl (fun m w => Function.update m w.1 w.2) mem

@[simp] theorem writeAll_nil (mem : ℕ → α) : writeAll mem [] = mem := rfl

theorem writeAll_cons (mem : ℕ → α) (w : ℕ × α) (stores : List (ℕ × α)) :
    writeAll mem (w :: stores) = writeAll (Function.update mem w.1 w.2) stores := rfl

theorem writeAll_append (mem : ℕ → α) (ws ws' : List (ℕ × α)) :
    writeAll mem (ws ++ ws') = writeAll (writeAll mem ws) ws' :=
  List.foldl_append

/-- The frame rule: a cell no store addresses keeps its value. -/
theorem writeAll_of_notMem {stores : List (ℕ × α)} {a : ℕ} (mem : ℕ → α)
    (h : a ∉ stores.map Prod.fst) : writeAll mem stores a = mem a := by
  induction stores generalizing mem with
  | nil => rfl
  | cons w stores ih =>
    rw [List.map_cons, List.mem_cons, not_or] at h
    rw [writeAll_cons, ih _ h.2, Function.update_of_ne h.1]

/-- A cell some store addresses holds what a store put there. -/
theorem mem_of_writeAll {stores : List (ℕ × α)} {a : ℕ} (mem : ℕ → α)
    (h : a ∈ stores.map Prod.fst) : (a, writeAll mem stores a) ∈ stores := by
  induction stores generalizing mem with
  | nil => cases h
  | cons w stores ih =>
    rw [writeAll_cons]
    by_cases hlater : a ∈ stores.map Prod.fst
    · exact List.mem_cons_of_mem _ (ih _ hlater)
    · obtain rfl : a = w.1 := (List.mem_cons.mp h).resolve_right hlater
      rw [writeAll_of_notMem _ hlater, Function.update_self]
      exact List.mem_cons_self

/-- A cell whose stores all store the same value holds it. -/
theorem writeAll_of_mem {stores : List (ℕ × α)} {a : ℕ} {v : α} (mem : ℕ → α)
    (h : mem a = v ∨ a ∈ stores.map Prod.fst) (hval : ∀ w ∈ stores, w.1 = a → w.2 = v) :
    writeAll mem stores a = v := by
  induction stores generalizing mem with
  | nil => simpa using h
  | cons w stores ih =>
    rw [writeAll_cons]
    refine ih _ ?_ fun w' hw' => hval w' (List.mem_cons_of_mem _ hw')
    by_cases hw : w.1 = a
    · left
      rw [hw, Function.update_self]
      exact hval w List.mem_cons_self hw
    · rw [Function.update_of_ne (Ne.symm hw)]
      refine h.imp_right fun hmem => ?_
      exact (List.mem_cons.mp hmem).resolve_left (Ne.symm hw)

/-- Lanes that store to their own cell. -/
theorem writeAll_lanes (mem : ℕ → α) (lanes : List ℕ) (val : ℕ → α) {a : ℕ} (ha : a ∈ lanes) :
    writeAll mem (lanes.map fun i => (i, val i)) a = val a := by
  refine writeAll_of_mem _ (.inr ?_) fun w hw hwa => ?_
  · exact List.mem_map.mpr ⟨(a, val a), List.mem_map.mpr ⟨a, ha, rfl⟩, rfl⟩
  · obtain ⟨i, -, rfl⟩ := List.mem_map.mp hw
    exact congrArg val hwa

/-- The tiles of a buffer that store to their own cells fill it. -/
theorem writeAll_tiles (mem : ℕ → α) (val : ℕ → α) {block n i : ℕ} (hblock : 0 < block)
    (hi : i < n) : writeAll mem ((tiles block n).map fun i => (i, val i)) i = val i := by
  apply writeAll_lanes
  rwa [tiles_eq_range hblock, List.mem_range]

/-- The stores of consecutive cells from `base` on. -/
def stretch (base n : ℕ) (val : ℕ → α) : List (ℕ × α) :=
  (List.range n).map fun j => (base + j, val j)

theorem stretch_congr {base n : ℕ} {val val' : ℕ → α} (h : ∀ j < n, val j = val' j) :
    stretch base n val = stretch base n val' := by
  refine List.map_congr_left fun j hj => ?_
  rw [h j (List.mem_range.mp hj)]

/-- A stretch goes on where another ends. -/
theorem stretch_add (base n m : ℕ) (val : ℕ → α) :
    stretch base (n + m) val = stretch base n val ++ stretch (base + n) m fun j => val (n + j) := by
  rw [stretch, List.range_add, List.map_append, List.map_map]
  refine congrArg _ (List.map_congr_left fun j _ => ?_)
  simp only [Function.comp_apply, Nat.add_assoc]

theorem mem_stretch {base n a : ℕ} {val : ℕ → α} {v : α} :
    (a, v) ∈ stretch base n val ↔ ∃ j < n, a = base + j ∧ v = val j := by
  simp only [stretch, List.mem_map, List.mem_range, Prod.mk.injEq]
  constructor
  · rintro ⟨j, hj, rfl, rfl⟩
    exact ⟨j, hj, rfl, rfl⟩
  · rintro ⟨j, hj, rfl, rfl⟩
    exact ⟨j, hj, rfl, rfl⟩

theorem mem_map_fst_stretch {base n a : ℕ} {val : ℕ → α} :
    a ∈ (stretch base n val).map Prod.fst ↔ base ≤ a ∧ a < base + n := by
  simp only [stretch, List.map_map, List.mem_map, List.mem_range, Function.comp_apply]
  constructor
  · rintro ⟨j, hj, rfl⟩
    omega
  · rintro ⟨hle, hlt⟩
    exact ⟨a - base, by omega, by omega⟩

/-- A stretch reads back inside and frames outside. -/
theorem writeAll_stretch (mem : ℕ → α) (base n : ℕ) (val : ℕ → α) (a : ℕ) :
    writeAll mem (stretch base n val) a =
      if base ≤ a ∧ a < base + n then val (a - base) else mem a := by
  split
  · rename_i h
    refine writeAll_of_mem _ (.inr (mem_map_fst_stretch.mpr h)) fun w hw hwa => ?_
    obtain ⟨j, -, hj, hval⟩ := mem_stretch.mp (show (w.1, w.2) ∈ stretch base n val from hw)
    rw [hval, ← hwa, hj, Nat.add_sub_cancel_left]
  · rename_i h
    exact writeAll_of_notMem _ fun hmem => h (mem_map_fst_stretch.mp hmem)

/-! ### Several stretches -/

section Stretches
variable (mem : ℕ → α) (base len : ℕ → ℕ) (val : ℕ → ℕ → α)

/-- One stretch for each of `n` programs. -/
def stretches (n : ℕ) : List (ℕ × α) :=
  (List.range n).flatMap fun b => stretch (base b) (len b) (val b)

theorem stretches_succ (n : ℕ) :
    stretches base len val (n + 1) =
      stretches base len val n ++ stretch (base n) (len n) (val n) := by
  rw [stretches, List.range_succ, List.flatMap_append, List.flatMap_singleton, stretches]

/-- A cell in no stretch keeps its value. -/
theorem writeAll_stretches_of_notMem {n a : ℕ}
    (h : ∀ b < n, ¬ (base b ≤ a ∧ a < base b + len b)) :
    writeAll mem (stretches base len val n) a = mem a := by
  induction n with
  | zero => rfl
  | succ n ih =>
    rw [stretches_succ, writeAll_append, writeAll_stretch, if_neg (h n (Nat.lt_succ_self n))]
    exact ih fun b hb => h b (Nat.lt_succ_of_lt hb)

/-- A cell in one stretch alone holds what that stretch stored. -/
theorem writeAll_stretches_of_mem {n b j : ℕ} (hb : b < n) (hj : j < len b)
    (h : ∀ b' < n, b' ≠ b → ¬ (base b' ≤ base b + j ∧ base b + j < base b' + len b')) :
    writeAll mem (stretches base len val n) (base b + j) = val b j := by
  induction n with
  | zero => omega
  | succ n ih =>
    rw [stretches_succ, writeAll_append, writeAll_stretch]
    by_cases hbn : b = n
    · subst hbn
      rw [if_pos (by omega), Nat.add_sub_cancel_left]
    · rw [if_neg (h n (Nat.lt_succ_self n) (Ne.symm hbn))]
      exact ih (by omega) fun b' hb' => h b' (Nat.lt_succ_of_lt hb')

end Stretches

/-! ### Ragged rows -/

section Ragged
variable (lens : ℕ → ℕ)

/-- Where row `b` of a ragged array starts: the sum of the lengths before it. -/
def offset (b : ℕ) : ℕ := ((List.range b).map lens).sum

@[simp] theorem offset_zero : offset lens 0 = 0 := rfl

theorem offset_succ (b : ℕ) : offset lens (b + 1) = offset lens b + lens b := by
  rw [offset, List.range_succ, List.map_append, List.sum_append]
  simp [offset]

theorem offset_const (w b : ℕ) : offset (fun _ => w) b = b * w := by
  rw [offset, List.map_const', List.length_range, List.sum_replicate, smul_eq_mul]

theorem offset_mono {a b : ℕ} (h : a ≤ b) : offset lens a ≤ offset lens b := by
  induction h with
  | refl => exact Nat.le_refl _
  | step _ ih =>
    rw [offset_succ]
    omega

variable {lens} in
theorem offset_add_lt {b n j : ℕ} (hb : b < n) (hj : j < lens b) :
    offset lens b + j < offset lens n := by
  have hmono : offset lens (b + 1) ≤ offset lens n := offset_mono lens hb
  rw [offset_succ] at hmono
  omega

variable {lens} in
/-- Every packed cell belongs to a row. -/
theorem exists_row {n k : ℕ} (hk : k < offset lens n) :
    ∃ b < n, ∃ j < lens b, k = offset lens b + j := by
  induction n with
  | zero => simp at hk
  | succ n ih =>
    by_cases hlt : k < offset lens n
    · obtain ⟨b, hb, j, hj, rfl⟩ := ih hlt
      exact ⟨b, Nat.lt_succ_of_lt hb, j, hj, rfl⟩
    · rw [offset_succ] at hk
      exact ⟨n, Nat.lt_succ_self n, k - offset lens n, by omega, by omega⟩

/-- Rows of at most `w` entries. -/
theorem offset_le_mul {n w : ℕ} (h : ∀ b < n, lens b ≤ w) : offset lens n ≤ n * w := by
  induction n with
  | zero => simp
  | succ n ih =>
    have hn := ih fun b hb => h b (Nat.lt_succ_of_lt hb)
    have hlast := h n (Nat.lt_succ_self n)
    rw [offset_succ, Nat.succ_mul]
    omega

/-- A ragged list read at an entry of a row. -/
theorem ragged_getElem? {β : Type*} (f : ℕ → ℕ → β) {n b j : ℕ} (hb : b < n) (hj : j < lens b) :
    ((List.range n).flatMap fun b => (List.range (lens b)).map (f b))[offset lens b + j]? =
      some (f b j) := by
  induction n with
  | zero => omega
  | succ n ih =>
    have hlen : ((List.range n).flatMap fun b => (List.range (lens b)).map (f b)).length =
        offset lens n := by
      simp only [List.length_flatMap, List.length_map, List.length_range, offset]
    rw [List.range_succ, List.flatMap_append, List.flatMap_singleton]
    rcases Nat.lt_succ_iff_lt_or_eq.mp hb with hlt | rfl
    · rw [List.getElem?_append_left (hlen ▸ offset_add_lt hlt hj)]
      exact ih hlt
    · rw [List.getElem?_append_right (by omega), hlen, Nat.add_sub_cancel_left, List.getElem?_map,
        List.getElem?_range hj]
      rfl

/-- Rows of a ragged array do not overlap. -/
theorem not_mem_row {b b' j : ℕ} (hj : j < lens b) (h : b' ≠ b) :
    ¬ (offset lens b' ≤ offset lens b + j ∧ offset lens b + j < offset lens b' + lens b') := by
  rintro ⟨hle, hlt⟩
  rw [← offset_succ] at hlt
  rcases Nat.lt_or_gt_of_ne h with hb | hb
  · have : offset lens (b' + 1) ≤ offset lens b := offset_mono lens hb
    omega
  · have : offset lens (b + 1) ≤ offset lens b' := offset_mono lens hb
    rw [offset_succ] at this
    omega

/-- A ragged array written row by row reads back. -/
theorem writeAll_ragged (mem : ℕ → α) (val : ℕ → ℕ → α) {n b j : ℕ} (hb : b < n)
    (hj : j < lens b) :
    writeAll mem (stretches (offset lens) lens val n) (offset lens b + j) = val b j :=
  writeAll_stretches_of_mem mem _ _ _ hb hj fun _ _ hne => not_mem_row lens hj hne

end Ragged

/-! ### Rows of one width, laid end to end -/

section Rows
variable {β : Type*}

/-- An entry of a row, read in the flat list. -/
theorem flatten_getElem? {rows : List (List β)} {w : ℕ} (hw : ∀ row ∈ rows, row.length = w)
    {b j : ℕ} {row : List β} (hb : rows[b]? = some row) (hj : j < w) :
    rows.flatten[b * w + j]? = row[j]? := by
  induction rows generalizing b with
  | nil => cases hb
  | cons first rows ih =>
    have hlen : first.length = w := hw first List.mem_cons_self
    rw [List.flatten_cons]
    cases b with
    | zero =>
      obtain rfl := Option.some.inj hb
      rw [Nat.zero_mul, Nat.zero_add, List.getElem?_append_left (by omega)]
    | succ b =>
      rw [List.getElem?_append_right (by rw [Nat.succ_mul]; omega), hlen,
        show (b + 1) * w + j - w = b * w + j by rw [Nat.succ_mul]; omega]
      exact ih (fun row hrow => hw row (List.mem_cons_of_mem _ hrow)) hb

theorem length_flatten_rows {rows : List (List β)} {w : ℕ} (hw : ∀ row ∈ rows, row.length = w) :
    rows.flatten.length = rows.length * w := by
  rw [List.length_flatten, List.map_congr_left hw, List.map_const', List.sum_replicate, smul_eq_mul]

/-- The first slices of one width put together again. -/
theorem flatMap_slices (xs : List β) (w k : ℕ) :
    (List.range k).flatMap (fun i => (xs.drop (i * w)).take w) = xs.take (k * w) := by
  induction k with
  | zero => simp
  | succ k ih =>
    rw [List.range_succ, List.flatMap_append, ih, Nat.succ_mul, List.take_add,
      List.flatMap_singleton]

end Rows

/-! ### Scattered rows -/

/-- Stores of ragged rows to arbitrary addresses: entry `j` of row `b` goes to `loc b j`. -/
def scatter (n : ℕ) (lens : ℕ → ℕ) (loc : ℕ → ℕ → ℕ) (val : ℕ → ℕ → α) : List (ℕ × α) :=
  (List.range n).flatMap fun b => (List.range (lens b)).map fun j => (loc b j, val b j)

theorem mem_scatter {n : ℕ} {lens : ℕ → ℕ} {loc : ℕ → ℕ → ℕ} {val : ℕ → ℕ → α} {w : ℕ × α} :
    w ∈ scatter n lens loc val ↔ ∃ b < n, ∃ j < lens b, w = (loc b j, val b j) := by
  simp only [scatter, List.mem_flatMap, List.mem_map, List.mem_range, eq_comm]

theorem writeAll_scatter_of_ne {n a : ℕ} {lens : ℕ → ℕ} {loc : ℕ → ℕ → ℕ} (val : ℕ → ℕ → α)
    (mem : ℕ → α) (h : ∀ b < n, ∀ j < lens b, loc b j ≠ a) :
    writeAll mem (scatter n lens loc val) a = mem a := by
  refine writeAll_of_notMem _ fun hmem => ?_
  obtain ⟨w, hw, rfl⟩ := List.mem_map.mp hmem
  obtain ⟨b, hb, j, hj, rfl⟩ := mem_scatter.mp hw
  exact h b hb j hj rfl

theorem writeAll_scatter_of_mem {n b j : ℕ} {lens : ℕ → ℕ} {loc : ℕ → ℕ → ℕ} (val : ℕ → ℕ → α)
    (mem : ℕ → α) (hb : b < n) (hj : j < lens b)
    (hinj : ∀ b' < n, ∀ j' < lens b', loc b j = loc b' j' → b' = b ∧ j' = j) :
    writeAll mem (scatter n lens loc val) (loc b j) = val b j := by
  refine writeAll_of_mem _ (.inr ?_) fun w hw hloc => ?_
  · exact List.mem_map.mpr ⟨(loc b j, val b j), mem_scatter.mpr ⟨b, hb, j, hj, rfl⟩, rfl⟩
  · obtain ⟨b', hb', j', hj', rfl⟩ := mem_scatter.mp hw
    obtain ⟨rfl, rfl⟩ := hinj b' hb' j' hj' hloc.symm
    rfl

/-- A matrix stored row after row reads back. -/
theorem writeAll_matrix (val : ℕ → ℕ → α) (mem : ℕ → α) {n w b j : ℕ} (hb : b < n) (hj : j < w) :
    writeAll mem (scatter n (fun _ => w) (fun b j => b * w + j) val) (b * w + j) = val b j := by
  refine writeAll_scatter_of_mem val mem hb hj fun b' _ j' hj' hcell => ?_
  obtain ⟨rfl, rfl⟩ := block_inj hj hj' hcell
  exact ⟨rfl, rfl⟩

/-! ### In place -/

/-- A tile read and overwritten: the cell of lane `v` becomes `f v` of what it held. -/
def overwrite (base : ℕ) (f : ℕ → α → α) (mem : ℕ → α) (lanes : List ℕ) : ℕ → α :=
  writeAll mem (lanes.map fun v => (base + v, f v (mem (base + v))))

theorem overwrite_apply (base : ℕ) (f : ℕ → α → α) (mem : ℕ → α) (lanes : List ℕ) (a : ℕ) :
    overwrite base f mem lanes a =
      if base ≤ a ∧ a - base ∈ lanes then f (a - base) (mem a) else mem a := by
  have haddr : a ∈ (lanes.map fun v => (base + v, f v (mem (base + v)))).map Prod.fst ↔
      base ≤ a ∧ a - base ∈ lanes := by
    rw [List.map_map, List.mem_map]
    constructor
    · rintro ⟨v, hv, rfl⟩
      rw [Function.comp_apply, Nat.add_sub_cancel_left]
      exact ⟨Nat.le_add_right .., hv⟩
    · rintro ⟨hle, hv⟩
      exact ⟨a - base, hv, Nat.add_sub_cancel' hle⟩
  by_cases h : base ≤ a ∧ a - base ∈ lanes
  · rw [if_pos h]
    refine writeAll_of_mem mem (.inr (haddr.mpr h)) fun w hw hwa => ?_
    obtain ⟨v, -, rfl⟩ := List.mem_map.mp hw
    obtain rfl : base + v = a := hwa
    rw [Nat.add_sub_cancel_left]
  · rw [if_neg h]
    exact writeAll_of_notMem mem fun hmem => h (haddr.mp hmem)

/-- **Tiles that do not overlap** overwrite each cell once, from what it held at first. -/
theorem foldl_overwrite (base : ℕ) (f : ℕ → α → α) {ts : List (List ℕ)} (h : ts.flatten.Nodup)
    (mem : ℕ → α) (a : ℕ) : ts.foldl (overwrite base f) mem a =
      if base ≤ a ∧ a - base ∈ ts.flatten then f (a - base) (mem a) else mem a := by
  induction ts generalizing mem with
  | nil => simp
  | cons t ts ih =>
    rw [List.flatten_cons, List.nodup_append] at h
    rw [List.foldl_cons, ih h.2.1, overwrite_apply, List.flatten_cons]
    by_cases ht : base ≤ a ∧ a - base ∈ t
    · have hlater : a - base ∉ ts.flatten := fun hmem => h.2.2 _ ht.2 _ hmem rfl
      rw [if_neg fun hmem => hlater hmem.2, if_pos ht,
        if_pos ⟨ht.1, List.mem_append_left _ ht.2⟩]
    · rw [if_neg ht]
      refine if_congr ?_ rfl rfl
      rw [List.mem_append]
      constructor
      · rintro ⟨hle, hmem⟩
        exact ⟨hle, .inr hmem⟩
      · rintro ⟨hle, hmem⟩
        exact ⟨hle, hmem.resolve_left fun hin => ht ⟨hle, hin⟩⟩

/-! ### Atomic additions -/

/-- A list of atomic additions performed in order. -/
def addAll (mem : ℕ → ℕ) (adds : List (ℕ × ℕ)) : ℕ → ℕ :=
  adds.foldl (fun m a => Function.update m a.1 (m a.1 + a.2)) mem

/-- A cell gains what is added to it, in whatever order. -/
theorem addAll_apply (mem : ℕ → ℕ) (adds : List (ℕ × ℕ)) (a : ℕ) :
    addAll mem adds a = mem a + ((adds.filter (·.1 = a)).map Prod.snd).sum := by
  induction adds generalizing mem with
  | nil => rfl
  | cons x adds ih =>
    refine (ih _).trans ?_
    by_cases hx : x.1 = a
    · subst hx
      simp [Function.update_self, Nat.add_assoc]
    · simp [hx, Function.update_of_ne (Ne.symm hx)]

/-- Lanes that each add one or nothing count themselves. -/
theorem addAll_lanes (mem : ℕ → ℕ) (lanes : List ℕ) (label : ℕ → ℕ) (p : ℕ → Bool) (a : ℕ) :
    addAll mem (lanes.map fun c => (label c, (p c).toNat)) a =
      mem a + lanes.countP fun c => decide (label c = a) && p c := by
  rw [addAll_apply]
  congr 1
  induction lanes with
  | nil => rfl
  | cons c lanes ih =>
    rw [List.map_cons, List.countP_cons, ← ih]
    by_cases hc : label c = a
    · cases p c <;> simp [hc, Nat.add_comm]
    · simp [hc]

end TiledStores
