import Mathlib.Data.List.Lattice
import Mathlib.Data.List.Nodup
import Mathlib.Data.List.Perm.Basic
import Mathlib.Data.List.Range

/-! # Segments of a stream, and the pieces a list is cut into

A stream is a function on the positions.  A segment of it is what stands between two positions;
consecutive segments append, and cutting a segment into chunks of one length gives a segment of
the stream of chunks.  A list is also cut across: the slices with one stride and every start
below it are together the whole list.
-/
namespace StreamSegments

variable {α β : Type*}

/-! ### Slices with a stride -/

/-- The positions `start`, `start + step`, … below `stop`. -/
def stridedIndices (start stop step : ℕ) : List ℕ :=
  List.range' start ((stop - start + step - 1) / step) step

/-- The slice `xs[start:stop:step]`, for a positive step. -/
def stridedSlice (xs : List α) (start stop step : ℕ) : List α :=
  (stridedIndices start (min stop xs.length) step).filterMap (xs[·]?)

theorem mem_stridedIndices {start stop step : ℕ} (hstep : 0 < step) {i : ℕ} :
    i ∈ stridedIndices start stop step ↔ start ≤ i ∧ i < stop ∧ step ∣ i - start := by
  rw [stridedIndices, List.mem_range']
  constructor
  · rintro ⟨k, hk, rfl⟩
    have hk' := Nat.lt_of_lt_of_le (Nat.mul_lt_mul_of_pos_left hk hstep) (Nat.mul_div_le ..)
    have hlast : step * k + step ≤ step * ((stop - start + step - 1) / step) := by
      rw [← Nat.mul_succ]
      exact Nat.mul_le_mul_left _ hk
    have hceil := Nat.mul_div_le (stop - start + step - 1) step
    exact ⟨Nat.le_add_right .., by omega, ⟨k, by omega⟩⟩
  · rintro ⟨hstart, hstop, k, hk⟩
    refine ⟨k, ?_, by omega⟩
    rw [Nat.lt_div_iff_mul_lt hstep, Nat.mul_comm]
    omega

theorem nodup_stridedIndices {step : ℕ} (hstep : 0 < step) (start stop : ℕ) :
    (stridedIndices start stop step).Nodup :=
  List.nodup_range' step hstep

/-- Positions with one stride and different starts below it lie in different classes. -/
theorem flatMap_stridedIndices_perm {step : ℕ} (hstep : 0 < step) (stop : ℕ) :
    ((List.range step).flatMap fun r => stridedIndices r stop step).Perm (List.range stop) := by
  have hclass : ∀ {r i : ℕ}, r < step → i ∈ stridedIndices r stop step → i % step = r := by
    intro r i hr hi
    obtain ⟨hle, -, k, hk⟩ := (mem_stridedIndices hstep).mp hi
    rw [show i = r + step * k by omega, Nat.add_mul_mod_self_left, Nat.mod_eq_of_lt hr]
  refine (List.perm_ext_iff_of_nodup ?_ List.nodup_range).mpr fun i => ?_
  · refine List.nodup_flatMap.mpr ⟨fun r _ => nodup_stridedIndices hstep r stop, ?_⟩
    refine List.Pairwise.imp_of_mem ?_ List.nodup_range
    intro r r' hr hr' hne i hi hi'
    exact hne (by rw [← hclass (List.mem_range.mp hr) hi, hclass (List.mem_range.mp hr') hi'])
  · rw [List.mem_flatMap, List.mem_range]
    constructor
    · rintro ⟨r, -, hi⟩
      exact ((mem_stridedIndices hstep).mp hi).2.1
    · intro hi
      refine ⟨i % step, List.mem_range.mpr (Nat.mod_lt i hstep), ?_⟩
      exact (mem_stridedIndices hstep).mpr ⟨Nat.mod_le .., hi, Nat.dvd_sub_mod i⟩

theorem filterMap_getElem?_range (xs : List α) :
    (List.range xs.length).filterMap (xs[·]?) = xs := by
  induction xs using List.reverseRecOn with
  | nil => rfl
  | append_singleton xs x ih =>
    rw [List.length_append, List.length_singleton, List.range_succ, List.filterMap_append]
    have hinit : (List.range xs.length).filterMap ((xs ++ [x])[·]?) = xs := by
      conv_rhs => rw [← ih]
      refine List.filterMap_congr fun i hi => ?_
      exact List.getElem?_append_left (List.mem_range.mp hi)
    rw [hinit]
    simp

/-- The slices of every start below the stride are together the list. -/
theorem flatMap_stridedSlice_perm {step : ℕ} (hstep : 0 < step) (xs : List α) :
    ((List.range step).flatMap fun r => stridedSlice xs r xs.length step).Perm xs := by
  have hslices : ((List.range step).flatMap fun r => stridedSlice xs r xs.length step) =
      ((List.range step).flatMap fun r => stridedIndices r xs.length step).filterMap
        (xs[·]?) := by
    simp only [stridedSlice, Nat.min_self, List.filterMap_flatMap]
  rw [hslices]
  conv_rhs => rw [← filterMap_getElem?_range xs]
  exact (flatMap_stridedIndices_perm hstep xs.length).filterMap _

/-- Slices of a list without repetition share nothing. -/
theorem disjoint_stridedSlice {step : ℕ} (hstep : 0 < step) {xs : List α} (hxs : xs.Nodup)
    {r r' : ℕ} (hr : r < step) (hr' : r' < step) (hne : r ≠ r') :
    List.Disjoint (stridedSlice xs r xs.length step) (stridedSlice xs r' xs.length step) := by
  have hnodup := (flatMap_stridedSlice_perm hstep xs).nodup_iff.mpr hxs
  have hpairs := (List.nodup_flatMap.mp hnodup).2
  have hsymm : Std.Symm (Function.onFun List.Disjoint fun i => stridedSlice xs i xs.length step) :=
    ⟨fun _ _ h => List.Disjoint.symm h⟩
  exact hpairs.forall (List.mem_range.mpr hr) (List.mem_range.mpr hr') hne

/-- With the stride dividing the length, every slice has the same length. -/
theorem length_stridedSlice {step : ℕ} {xs : List α} (hdvd : step ∣ xs.length) {r : ℕ}
    (hr : r < step) : (stridedSlice xs r xs.length step).length = xs.length / step := by
  have hstep : 0 < step := Nat.zero_lt_of_lt hr
  have hsome : ∀ i ∈ stridedIndices r xs.length step, (xs[i]?).isSome := by
    intro i hi
    rw [List.getElem?_eq_getElem ((mem_stridedIndices hstep).mp hi).2.1]
    rfl
  rw [stridedSlice, Nat.min_self, List.length_filterMap_eq_countP,
    List.countP_eq_length.mpr hsome, stridedIndices, List.length_range']
  obtain ⟨k, hk⟩ := hdvd
  rw [hk, Nat.mul_div_cancel_left _ hstep]
  rcases Nat.eq_zero_or_pos k with rfl | hpos
  · exact Nat.div_eq_of_lt (by omega)
  · have hle : step ≤ step * k := Nat.le_mul_of_pos_right _ hpos
    rw [show step * k - r + step - 1 = step - 1 - r + step * k by omega,
      Nat.add_mul_div_left _ _ hstep, Nat.div_eq_of_lt (by omega), Nat.zero_add]

/-! ### Segments -/

/-- The entries of a stream at `count` positions from `start` on. -/
def segment (f : ℕ → α) (start count : ℕ) : List α :=
  (List.range' start count).map f

@[simp] theorem segment_zero (f : ℕ → α) (start : ℕ) : segment f start 0 = [] := rfl

@[simp] theorem length_segment (f : ℕ → α) (start count : ℕ) :
    (segment f start count).length = count := by
  simp [segment]

@[simp] theorem getElem_segment (f : ℕ → α) (start count : ℕ) {i : ℕ}
    (h : i < (segment f start count).length) : (segment f start count)[i] = f (start + i) := by
  simp [segment]

theorem segment_succ (f : ℕ → α) (start count : ℕ) :
    segment f start (count + 1) = f start :: segment f (start + 1) count := by
  simp [segment, List.range'_succ]

theorem segment_concat (f : ℕ → α) (start count : ℕ) :
    segment f start (count + 1) = segment f start count ++ [f (start + count)] := by
  simp [segment, List.range'_concat]

theorem segment_add (f : ℕ → α) (start m n : ℕ) :
    segment f start (m + n) = segment f start m ++ segment f (start + m) n := by
  rw [segment, segment, segment, ← List.map_append, List.range'_append_1]

theorem take_segment (f : ℕ → α) (start : ℕ) {m n : ℕ} (h : m ≤ n) :
    (segment f start n).take m = segment f start m := by
  obtain ⟨k, rfl⟩ := Nat.exists_eq_add_of_le h
  rw [segment_add]
  exact List.take_left' (length_segment ..)

/-! ### Chunks -/

/-- The chunks of one length, without an incomplete last one. -/
def chunks (size : ℕ) (xs : List α) : List (List α) :=
  if _h : 0 < size ∧ size ≤ xs.length then xs.take size :: chunks size (xs.drop size) else []
termination_by xs.length
decreasing_by
  rw [List.length_drop]
  omega

/-- The `j`-th chunk of a stream. -/
def chunkAt (f : ℕ → α) (size j : ℕ) : List α :=
  segment f (j * size) size

/-- A segment from one chunk boundary to another is cut into the chunks between. -/
theorem chunks_segment (f : ℕ → α) {size : ℕ} (hsize : 0 < size) (m count : ℕ) :
    chunks size (segment f (m * size) (count * size)) =
      segment (chunkAt f size) m count := by
  induction count generalizing m with
  | zero =>
    rw [Nat.zero_mul, chunks, dif_neg (by simp; omega), segment_zero]
  | succ count ih =>
    have hsplit : segment f (m * size) ((count + 1) * size) =
        chunkAt f size m ++ segment f ((m + 1) * size) (count * size) := by
      rw [Nat.succ_mul, Nat.add_comm, segment_add, chunkAt, Nat.succ_mul]
    have hlen : (chunkAt f size m).length = size := length_segment ..
    rw [hsplit, chunks, dif_pos ⟨hsize, by simp [hlen]⟩, List.take_left' hlen,
      List.drop_left' hlen, ih, segment_succ]

end StreamSegments
