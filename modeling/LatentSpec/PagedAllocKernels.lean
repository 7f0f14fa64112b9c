import Mathlib.Data.Int.ModEq
import LatentSpec.AllocSizing
import LatentSpec.CacheLocs

/-! # The kernels that hand out pages

A batch grows from `prefix_lens` to `seq_lens`.  Each request first fills the page its last slot
is in, then takes whole pages from the free list, then a part of one more; where its slots go and
which pages are its own are prefix sums over the requests before it.  `slotAt` is the slot of a
position, and `allocExtendKernel_eq`, `allocExtendNaive_eq` and `allocDecodeKernel_eq` say that
all three ways of computing the batch store the slots of its positions, row after row.
-/
namespace LatentSpec
open TiledStores

/-- `(n + page_size - 1) // page_size` -/
def numPages (pageSize n : ℕ) : ℕ := (n + pageSize - 1) / pageSize

theorem ceilPage_eq (pageSize n : ℕ) : ceilPage pageSize n = numPages pageSize n * pageSize := rfl

/-- Lane `b` of `prefix_lens`, `seq_lens` and `last_loc`. -/
structure ExtendBatch where
  bs : ℕ
  prefixLens : ℕ → ℕ
  seqLens : ℕ → ℕ
  lastLoc : ℕ → ℤ

namespace ExtendBatch

/-- `extend_lens` -/
def extendLens (B : ExtendBatch) (b : ℕ) : ℕ := B.seqLens b - B.prefixLens b

/-- `num_new_pages` -/
def numNewPages (B : ExtendBatch) (pageSize b : ℕ) : ℕ :=
  numPages pageSize (B.seqLens b) - numPages pageSize (B.prefixLens b)

/-- One more token for each request. -/
def decode (bs : ℕ) (seqLens : ℕ → ℕ) (lastLoc : ℕ → ℤ) : ExtendBatch :=
  ⟨bs, fun b => seqLens b - 1, seqLens, lastLoc⟩

end ExtendBatch

/-! ### The kernels -/

/-- `tl.load(ptr + load_offset, mask=load_offset <= pid)`: a lane that is masked off reads zero. -/
def loadUpTo (pid : ℕ) (lens : ℕ → ℕ) (lane : ℕ) : ℕ := if lane ≤ pid then lens lane else 0

/-- Program `pid` of `alloc_extend_kernel`. -/
def allocExtendKernel (B : ExtendBatch) (freePage : ℕ → ℕ) (bsUpper pageSize pid : ℕ) :
    List (ℕ × ℤ) :=
  let seqLens := loadUpTo pid B.seqLens
  let preLens := loadUpTo pid B.prefixLens
  let seqLen := B.seqLens pid
  let preLen := B.prefixLens pid
  let extendLen := seqLen - preLen
  let sumExtendLens := ((List.range bsUpper).map fun lane => seqLens lane - preLens lane).sum
  let outputStartLoc := sumExtendLens - extendLen
  let numPageStartLocSelf := numPages pageSize seqLen - numPages pageSize preLen
  let sumNumNewPages := ((List.range bsUpper).map fun lane =>
    numPages pageSize (seqLens lane) - numPages pageSize (preLens lane)).sum
  let newPageStartLoc := sumNumNewPages - numPageStartLocSelf
  -- fill the old partial page
  let numPart1 := min seqLen (ceilPage pageSize preLen) - preLen
  let part1 := ((List.range pageSize).filter (· < numPart1)).map fun o =>
    (outputStartLoc + o, B.lastLoc pid + 1 + o)
  if preLen + numPart1 = seqLen then part1
  else
    -- fill the new full pages
    let numPart2 := seqLen / pageSize * pageSize - ceilPage pageSize preLen
    let part2 := (tiles 4096 numPart2).map fun o =>
      (outputStartLoc + numPart1 + o,
        ((freePage (newPageStartLoc + o / pageSize) * pageSize + o % pageSize : ℕ) : ℤ))
    if preLen + numPart1 + numPart2 = seqLen then part1 ++ part2
    else
      -- fill the new partial page
      let numPart3 := seqLen - seqLen / pageSize * pageSize
      let startLoc := freePage (newPageStartLoc + numPageStartLocSelf - 1)
      let part3 := ((List.range pageSize).filter (· < numPart3)).map fun o =>
        (outputStartLoc + numPart1 + numPart2 + o, ((startLoc * pageSize + o : ℕ) : ℤ))
      part1 ++ part2 ++ part3

/-- Program `pid` of `alloc_decode_kernel`. -/
def allocDecodeKernel (seqLens : ℕ → ℕ) (lastLoc : ℕ → ℤ) (freePage : ℕ → ℕ)
    (bsUpper pageSize pid : ℕ) : List (ℕ × ℤ) :=
  let seqLanes := loadUpTo pid seqLens
  let preLanes := fun lane => if lane ≤ pid then seqLanes lane - 1 else seqLanes lane
  let seqLen := seqLens pid
  let preLen := seqLen - 1
  let numPageStartLocSelf := numPages pageSize seqLen - numPages pageSize preLen
  let sumNumNewPages := ((List.range bsUpper).map fun lane =>
    numPages pageSize (seqLanes lane) - numPages pageSize (preLanes lane)).sum
  let newPageStartLoc := sumNumNewPages - numPageStartLocSelf
  if numPageStartLocSelf = 0 then [(pid, lastLoc pid + 1)]
  else [(pid, ((freePage newPageStartLoc * pageSize : ℕ) : ℤ))]

/-- `out_indices[start:stop] = values` -/
def sliceAssign (start stop : ℕ) (values : List ℤ) : List (ℕ × ℤ) :=
  (List.range' start (stop - start)).zip values

/-- Turn `i` of the loop of `alloc_extend_naive`. -/
def allocExtendNaive (B : ExtendBatch) (freePages : List ℕ) (pageSize i : ℕ) : List (ℕ × ℤ) :=
  let prefixLen := B.prefixLens i
  let seqLen := B.seqLens i
  -- `torch.cumsum`
  let endPos := offset B.extendLens (i + 1)
  let startPos := endPos - B.extendLens i
  let numNewPages := B.numNewPages pageSize i
  let numFullNewPages : ℤ := seqLen / pageSize - numPages pageSize prefixLen
  let needPage := numNewPages - numFullNewPages
  let endNewPages := offset (B.numNewPages pageSize) (i + 1)
  let startNewPages := endNewPages - numNewPages
  let posInPage := List.range pageSize
  let num1 := min seqLen (ceilPage pageSize prefixLen) - prefixLen
  let part1 :=
    if num1 ≠ 0 then
      sliceAssign startPos (startPos + num1) ((posInPage.take num1).map fun o : ℕ =>
        B.lastLoc i + 1 + (o : ℤ))
    else []
  if prefixLen + num1 = seqLen then part1
  else
    let num2 := (seqLen / pageSize - numPages pageSize prefixLen) * pageSize
    let pages := ((freePages.take (endNewPages - needPage).toNat).drop startNewPages).map
      (· * pageSize)
    let part2 :=
      if num2 ≠ 0 then
        sliceAssign (startPos + num1) (startPos + num1 + num2)
          (pages.flatMap fun page => posInPage.map fun o => ((page + o : ℕ) : ℤ))
      else []
    if prefixLen + num1 + num2 = seqLen then part1 ++ part2
    else
      let num3 := seqLen - seqLen / pageSize * pageSize
      let part3 :=
        if num3 ≠ 0 then
          sliceAssign (endPos - num3) endPos ((posInPage.take num3).map fun o =>
            ((freePages.getD (endNewPages - 1) 0 * pageSize + o : ℕ) : ℤ))
        else []
      part1 ++ part2 ++ part3

/-! ### The slots of a batch -/

namespace ExtendBatch
variable (B : ExtendBatch) (freePage : ℕ → ℕ) (pageSize : ℕ)

/-- The slot of position `p` of request `b`: behind its last slot up to the end of the page, then
in the pages of its own. -/
def slotAt (b p : ℕ) : ℤ :=
  if p < ceilPage pageSize (B.prefixLens b) then
    B.lastLoc b + 1 + ((p - B.prefixLens b : ℕ) : ℤ)
  else
    ((freePage (offset (B.numNewPages pageSize) b +
      (p / pageSize - numPages pageSize (B.prefixLens b))) * pageSize + p % pageSize : ℕ) : ℤ)

/-- The stores of the new slots of request `b`. -/
def slotStores (b : ℕ) : List (ℕ × ℤ) :=
  stretch (offset B.extendLens b) (B.extendLens b) fun j =>
    B.slotAt freePage pageSize b (B.prefixLens b + j)

end ExtendBatch

/-! ### Prefix sums -/

theorem sum_loadUpTo {bsUpper pid : ℕ} (h : pid < bsUpper) (f : ℕ → ℕ) :
    ((List.range bsUpper).map fun lane => if lane ≤ pid then f lane else 0).sum =
      offset f (pid + 1) := by
  obtain ⟨d, rfl⟩ := Nat.exists_eq_add_of_le (Nat.succ_le_of_lt h)
  have hbefore : (List.range (pid + 1)).map (fun lane => if lane ≤ pid then f lane else 0) =
      (List.range (pid + 1)).map f := by
    refine List.map_congr_left fun lane hlane => ?_
    rw [if_pos (Nat.lt_succ_iff.mp (List.mem_range.mp hlane))]
  have hafter : ((List.range d).map fun lane => pid + 1 + lane).map
      (fun lane => if lane ≤ pid then f lane else 0) = (List.range d).map fun _ => 0 := by
    rw [List.map_map]
    refine List.map_congr_left fun lane _ => ?_
    rw [Function.comp_apply, if_neg (by omega)]
  rw [List.range_add, List.map_append, List.sum_append, hbefore, hafter, offset]
  simp

/-- `ceil` after a whole number of pages. -/
theorem numPages_mul_add {pageSize : ℕ} (hpage : 0 < pageSize) (q : ℕ) {r : ℕ} (hr : r < pageSize) :
    numPages pageSize (q * pageSize + r) = q + if r = 0 then 0 else 1 := by
  unfold numPages
  by_cases h : r = 0
  · rw [if_pos h, h, Nat.add_zero, Nat.add_zero, Nat.add_sub_assoc hpage, block_div (by omega)]
  · have hsplit : q * pageSize + r + pageSize - 1 = (q + 1) * pageSize + (r - 1) := by
      rw [Nat.succ_mul]
      omega
    rw [if_neg h, hsplit, block_div (by omega)]

/-- The last position is on the last page. -/
theorem lt_numPages_iff {pageSize : ℕ} (hpage : 0 < pageSize) {k n : ℕ} :
    k < numPages pageSize n ↔ k * pageSize < n := by
  unfold numPages
  rw [Nat.lt_iff_add_one_le, Nat.le_div_iff_mul_le hpage, Nat.succ_mul]
  omega

section Sums
variable {B : ExtendBatch} {pageSize bsUpper pid : ℕ}

theorem loadUpTo_sub (pid : ℕ) (f g : ℕ → ℕ) (lane : ℕ) :
    loadUpTo pid f lane - loadUpTo pid g lane = if lane ≤ pid then f lane - g lane else 0 := by
  unfold loadUpTo
  by_cases h : lane ≤ pid
  · rw [if_pos h, if_pos h, if_pos h]
  · rw [if_neg h, if_neg h, if_neg h]

theorem numPages_loadUpTo (pageSize pid : ℕ) (f g : ℕ → ℕ) (lane : ℕ) :
    numPages pageSize (loadUpTo pid f lane) - numPages pageSize (loadUpTo pid g lane) =
      if lane ≤ pid then numPages pageSize (f lane) - numPages pageSize (g lane) else 0 := by
  unfold loadUpTo
  by_cases h : lane ≤ pid
  · rw [if_pos h, if_pos h, if_pos h]
  · rw [if_neg h, if_neg h, if_neg h, Nat.sub_self]

/-- **The masked sum** less the request's own length is where its slots start. -/
theorem outputStartLoc_eq (h : pid < bsUpper) :
    ((List.range bsUpper).map fun lane =>
      loadUpTo pid B.seqLens lane - loadUpTo pid B.prefixLens lane).sum -
        (B.seqLens pid - B.prefixLens pid) = offset B.extendLens pid := by
  have hsum := sum_loadUpTo h B.extendLens
  simp only [loadUpTo_sub]
  rw [show (fun lane => if lane ≤ pid then B.seqLens lane - B.prefixLens lane else 0) =
    fun lane => if lane ≤ pid then B.extendLens lane else 0 from rfl, hsum, offset_succ]
  exact Nat.add_sub_cancel ..

/-- The same for its pages. -/
theorem newPageStartLoc_eq (h : pid < bsUpper) :
    ((List.range bsUpper).map fun lane => numPages pageSize (loadUpTo pid B.seqLens lane) -
      numPages pageSize (loadUpTo pid B.prefixLens lane)).sum -
        (numPages pageSize (B.seqLens pid) - numPages pageSize (B.prefixLens pid)) =
      offset (B.numNewPages pageSize) pid := by
  have hsum := sum_loadUpTo h (B.numNewPages pageSize)
  simp only [numPages_loadUpTo]
  rw [show (fun lane => if lane ≤ pid then numPages pageSize (B.seqLens lane) -
      numPages pageSize (B.prefixLens lane) else 0) =
    fun lane => if lane ≤ pid then B.numNewPages pageSize lane else 0 from rfl, hsum, offset_succ]
  exact Nat.add_sub_cancel ..

end Sums

/-! ### The three parts -/

section Parts
variable (B : ExtendBatch) (freePage : ℕ → ℕ) {pageSize b : ℕ} (hpage : 0 < pageSize)
  (hle : B.prefixLens b ≤ B.seqLens b)

/-- A request that ends on the page of its last slot. -/
theorem slotStores_of_le (hpart : B.seqLens b ≤ ceilPage pageSize (B.prefixLens b)) :
    B.slotStores freePage pageSize b = stretch (offset B.extendLens b)
      (B.seqLens b - B.prefixLens b) fun o => B.lastLoc b + 1 + (o : ℤ) := by
  refine stretch_congr fun j hj => ?_
  have hlt : B.prefixLens b + j < ceilPage pageSize (B.prefixLens b) := by
    have : j < B.seqLens b - B.prefixLens b := hj
    omega
  rw [ExtendBatch.slotAt, if_pos hlt, Nat.add_sub_cancel_left]

include hpage hle in
/-- A request that goes beyond it: the rest of the old page, whole pages, and a rest. -/
theorem slotStores_of_lt (hpart : ceilPage pageSize (B.prefixLens b) < B.seqLens b) :
    B.slotStores freePage pageSize b =
      stretch (offset B.extendLens b) (ceilPage pageSize (B.prefixLens b) - B.prefixLens b)
        (fun o => B.lastLoc b + 1 + (o : ℤ)) ++
      stretch (offset B.extendLens b + (ceilPage pageSize (B.prefixLens b) - B.prefixLens b))
        ((B.seqLens b / pageSize - numPages pageSize (B.prefixLens b)) * pageSize)
        (fun o => ((freePage (offset (B.numNewPages pageSize) b + o / pageSize) * pageSize +
          o % pageSize : ℕ) : ℤ)) ++
      stretch (offset B.extendLens b + (ceilPage pageSize (B.prefixLens b) - B.prefixLens b) +
          (B.seqLens b / pageSize - numPages pageSize (B.prefixLens b)) * pageSize)
        (B.seqLens b % pageSize)
        (fun o => ((freePage (offset (B.numNewPages pageSize) b +
          (B.seqLens b / pageSize - numPages pageSize (B.prefixLens b))) * pageSize +
            o : ℕ) : ℤ)) := by
  have hpre := le_ceilPage hpage (B.prefixLens b)
  have hdiv := Nat.div_add_mod (B.seqLens b) pageSize
  have hmod := Nat.mod_lt (B.seqLens b) hpage
  rw [ceilPage_eq] at hpart hpre ⊢
  have hpages : numPages pageSize (B.prefixLens b) ≤ B.seqLens b / pageSize :=
    (Nat.le_div_iff_mul_le hpage).mpr hpart.le
  obtain ⟨k, hk⟩ := Nat.exists_eq_add_of_le hpages
  generalize hP : numPages pageSize (B.prefixLens b) = P at *
  have hlen : B.extendLens b = (P * pageSize - B.prefixLens b) + k * pageSize +
      B.seqLens b % pageSize := by
    rw [hk, Nat.mul_comm, Nat.add_mul] at hdiv
    unfold ExtendBatch.extendLens
    omega
  rw [ExtendBatch.slotStores, hlen, stretch_add, stretch_add, hk, Nat.add_sub_cancel_left]
  -- the position an entry of each part stands for
  have hpos : ∀ j, B.prefixLens b + (P * pageSize - B.prefixLens b + j) = P * pageSize + j := by
    omega
  refine congrArg₂ _ (congrArg₂ _ ?_ ?_) ?_
  · refine stretch_congr fun j hj => ?_
    rw [ExtendBatch.slotAt, if_pos (by rw [ceilPage_eq, hP]; omega), Nat.add_sub_cancel_left]
  · refine stretch_congr fun j hj => ?_
    have hsplit : P * pageSize + j = (P + j / pageSize) * pageSize + j % pageSize := by
      rw [Nat.add_mul, Nat.add_assoc, Nat.mul_comm (j / pageSize), Nat.div_add_mod]
    rw [hpos, ExtendBatch.slotAt, if_neg (by rw [ceilPage_eq, hP]; omega), hP, hsplit,
      block_div (Nat.mod_lt _ hpage), block_mod (Nat.mod_lt _ hpage), Nat.add_sub_cancel_left]
  · rw [← Nat.add_assoc]
    refine stretch_congr fun j hj => ?_
    have hsplit : P * pageSize + (k * pageSize + j) = (P + k) * pageSize + j := by
      rw [Nat.add_mul, Nat.add_assoc]
    have hj' : j < pageSize := hj.trans hmod
    rw [Nat.add_assoc (P * pageSize - B.prefixLens b), hpos, ExtendBatch.slotAt,
      if_neg (by rw [ceilPage_eq, hP]; omega), hP, hsplit, block_div hj', block_mod hj',
      Nat.add_sub_cancel_left]

include hpage in
theorem ceilPage_sub_lt (n : ℕ) : ceilPage pageSize n - n < pageSize := by
  have hle := ceilPage_le pageSize n
  omega

include hpage in
/-- What is behind the old page. -/
theorem seqLen_split (hpart : ceilPage pageSize (B.prefixLens b) < B.seqLens b) :
    B.seqLens b = ceilPage pageSize (B.prefixLens b) +
      (B.seqLens b / pageSize - numPages pageSize (B.prefixLens b)) * pageSize +
        B.seqLens b % pageSize := by
  have hpages : numPages pageSize (B.prefixLens b) ≤ B.seqLens b / pageSize :=
    (Nat.le_div_iff_mul_le hpage).mpr hpart.le
  rw [ceilPage_eq, ← Nat.add_mul, Nat.add_sub_cancel' hpages, Nat.mul_comm, Nat.div_add_mod]

include hpage in
theorem numPages_seqLen (hpart : ceilPage pageSize (B.prefixLens b) < B.seqLens b) :
    numPages pageSize (B.seqLens b) - numPages pageSize (B.prefixLens b) =
      (B.seqLens b / pageSize - numPages pageSize (B.prefixLens b)) +
        if B.seqLens b % pageSize = 0 then 0 else 1 := by
  have hpages : numPages pageSize (B.prefixLens b) ≤ B.seqLens b / pageSize :=
    (Nat.le_div_iff_mul_le hpage).mpr hpart.le
  have hceil := numPages_mul_add hpage (B.seqLens b / pageSize) (Nat.mod_lt (B.seqLens b) hpage)
  rw [Nat.mul_comm, Nat.div_add_mod] at hceil
  rw [hceil]
  omega

theorem seqLen_sub_div (n pageSize : ℕ) : n - n / pageSize * pageSize = n % pageSize := by
  rw [Nat.mod_eq_sub_div_mul]

include hpage hle in
/-- **`alloc_extend_kernel`**: a program stores the new slots of its request. -/
theorem allocExtendKernel_eq {bsUpper : ℕ} (h : b < bsUpper) :
    allocExtendKernel B freePage bsUpper pageSize b = B.slotStores freePage pageSize b := by
  have hpre := le_ceilPage hpage (B.prefixLens b)
  have hmod := Nat.mod_lt (B.seqLens b) hpage
  unfold allocExtendKernel
  dsimp only
  rw [outputStartLoc_eq h, newPageStartLoc_eq h]
  rcases Nat.lt_or_ge (ceilPage pageSize (B.prefixLens b)) (B.seqLens b) with hpart | hpart
  · have hsplit := seqLen_split B hpage hpart
    have hpages := numPages_seqLen B hpage hpart
    rw [slotStores_of_lt B freePage hpage hle hpart, Nat.min_eq_right hpart.le, if_neg (by omega),
      filter_range_lt (ceilPage_sub_lt hpage _).le, ceilPage_eq, ← Nat.sub_mul,
      tiles_eq_range (by decide), seqLen_sub_div]
    by_cases hrest : B.seqLens b % pageSize = 0
    · rw [if_pos (by rw [ceilPage_eq] at hpre hsplit; omega), hrest]
      exact (List.append_nil _).symm
    · rw [if_neg (by rw [ceilPage_eq] at hpre hsplit; omega), filter_range_lt hmod.le, hpages,
        if_neg hrest]
      rfl
  · rw [slotStores_of_le B freePage hpart, Nat.min_eq_left hpart, if_pos (by omega),
      filter_range_lt, stretch]
    have := ceilPage_sub_lt hpage (B.prefixLens b)
    omega

end Parts

/-! ### The loop over slices -/

theorem sliceAssign_map (start n : ℕ) (val : ℕ → ℤ) :
    sliceAssign start (start + n) ((List.range n).map val) = stretch start n val := by
  rw [sliceAssign, Nat.add_sub_cancel_left, List.range'_eq_map_range, List.zip_map', stretch]

theorem take_drop_map {freePages : List ℕ} {freePage : ℕ → ℕ}
    (hfree : ∀ i < freePages.length, freePages[i]? = some (freePage i)) {start n : ℕ}
    (h : start + n ≤ freePages.length) :
    (freePages.take (start + n)).drop start = (List.range n).map fun i => freePage (start + i) := by
  have hlen : ((freePages.take (start + n)).drop start).length = n := by
    rw [List.length_drop, List.length_take, Nat.min_eq_left h, Nat.add_sub_cancel_left]
  refine List.ext_getElem? fun i => ?_
  rcases Nat.lt_or_ge i n with hi | hi
  · rw [List.getElem?_drop, List.getElem?_take_of_lt (by omega), hfree _ (by omega),
      List.getElem?_map, List.getElem?_range hi]
    rfl
  · rw [List.getElem?_eq_none (by omega), List.getElem?_eq_none]
    rwa [List.length_map, List.length_range]

/-- The slots of whole pages, page after page. -/
theorem flatMap_pages (page : ℕ → ℕ) {pageSize : ℕ} (k : ℕ) :
    (((List.range k).map page).map (· * pageSize)).flatMap (fun page =>
      (List.range pageSize).map fun o => ((page + o : ℕ) : ℤ)) =
      (List.range (k * pageSize)).map fun o =>
        ((page (o / pageSize) * pageSize + o % pageSize : ℕ) : ℤ) := by
  rw [← flatMap_tiles, List.map_flatMap, List.map_map, List.flatMap_map]
  refine List.flatMap_congr fun i _ => ?_
  rw [List.map_map]
  refine List.map_congr_left fun o ho => ?_
  rw [Function.comp_apply, Function.comp_apply, block_div (List.mem_range.mp ho),
    block_mod (List.mem_range.mp ho)]

section Naive
variable (B : ExtendBatch) {freePages : List ℕ} {freePage : ℕ → ℕ} {pageSize b : ℕ}
  (hfree : ∀ i < freePages.length, freePages[i]? = some (freePage i)) (hpage : 0 < pageSize)
  (hle : B.prefixLens b ≤ B.seqLens b)
  (henough : offset (B.numNewPages pageSize) (b + 1) ≤ freePages.length)

theorem take_range_map {n m : ℕ} (h : n ≤ m) (val : ℕ → ℤ) :
    ((List.range m).take n).map val = (List.range n).map val := by
  rw [List.take_range, Nat.min_eq_left h]

theorem assign_or_nil (start n : ℕ) (val : ℕ → ℤ) :
    (if n ≠ 0 then sliceAssign start (start + n) ((List.range n).map val) else []) =
      stretch start n val := by
  by_cases h : n = 0
  · rw [if_neg (not_not.mpr h), h]
    rfl
  · rw [if_pos h, sliceAssign_map]

include hfree hpage hle henough in
/-- **`alloc_extend_naive`**: a turn stores the new slots of its request. -/
theorem allocExtendNaive_eq :
    allocExtendNaive B freePages pageSize b = B.slotStores freePage pageSize b := by
  have hpre := le_ceilPage hpage (B.prefixLens b)
  have hmod := Nat.mod_lt (B.seqLens b) hpage
  have hstart : offset B.extendLens (b + 1) - B.extendLens b = offset B.extendLens b := by
    rw [offset_succ, Nat.add_sub_cancel]
  have hpages : offset (B.numNewPages pageSize) (b + 1) - B.numNewPages pageSize b =
      offset (B.numNewPages pageSize) b := by
    rw [offset_succ, Nat.add_sub_cancel]
  unfold allocExtendNaive
  dsimp only
  rw [hstart, hpages]
  rcases Nat.lt_or_ge (ceilPage pageSize (B.prefixLens b)) (B.seqLens b) with hpart | hpart
  · have hsplit := seqLen_split B hpage hpart
    have hnew : B.numNewPages pageSize b = _ := numPages_seqLen B hpage hpart
    have hfull : numPages pageSize (B.prefixLens b) ≤ B.seqLens b / pageSize :=
      (Nat.le_div_iff_mul_le hpage).mpr hpart.le
    rw [offset_succ, hnew] at henough
    -- the last page is taken only for a rest
    have hend : ((offset (B.numNewPages pageSize) (b + 1) : ℤ) - (B.numNewPages pageSize b -
        ((B.seqLens b : ℤ) / pageSize - numPages pageSize (B.prefixLens b)))).toNat =
        offset (B.numNewPages pageSize) b +
          (B.seqLens b / pageSize - numPages pageSize (B.prefixLens b)) := by
      rw [offset_succ, ← Int.natCast_ediv]
      omega
    rw [slotStores_of_lt B freePage hpage hle hpart, Nat.min_eq_right hpart.le, if_neg (by omega),
      hend, take_drop_map hfree (by omega), flatMap_pages,
      take_range_map (ceilPage_sub_lt hpage _).le,
      assign_or_nil, assign_or_nil, seqLen_sub_div]
    by_cases hrest : B.seqLens b % pageSize = 0
    · rw [if_pos (by omega), hrest]
      exact (List.append_nil _).symm
    · have hlast : offset (B.numNewPages pageSize) (b + 1) - 1 = offset (B.numNewPages pageSize) b +
          (B.seqLens b / pageSize - numPages pageSize (B.prefixLens b)) := by
        rw [offset_succ, hnew, if_neg hrest]
        omega
      have hstop : offset B.extendLens (b + 1) = offset B.extendLens b +
          (ceilPage pageSize (B.prefixLens b) - B.prefixLens b) +
          (B.seqLens b / pageSize - numPages pageSize (B.prefixLens b)) * pageSize +
            B.seqLens b % pageSize := by
        rw [offset_succ, ExtendBatch.extendLens]
        omega
      rw [if_neg hrest] at henough
      rw [if_neg (by omega), hlast, hstop, Nat.add_sub_cancel, List.getD_eq_getElem?_getD,
        hfree _ (by omega), take_range_map hmod.le, assign_or_nil]
      rfl
  · have hshort : B.seqLens b - B.prefixLens b ≤ pageSize := by
      have := ceilPage_sub_lt hpage (B.prefixLens b)
      omega
    rw [slotStores_of_le B freePage hpart, Nat.min_eq_left hpart, if_pos (by omega),
      take_range_map hshort, assign_or_nil]

end Naive

/-! ### One token each -/

section Decode
variable (seqLens : ℕ → ℕ) (lastLoc : ℕ → ℤ) (freePage : ℕ → ℕ) {bs pageSize : ℕ}
  (hpos : ∀ b < bs, 1 ≤ seqLens b)

include hpos in
theorem extendLens_decode {b : ℕ} (hb : b < bs) :
    (ExtendBatch.decode bs seqLens lastLoc).extendLens b = 1 := by
  have := hpos b hb
  unfold ExtendBatch.extendLens ExtendBatch.decode
  dsimp only
  omega

include hpos in
/-- Output `b` belongs to request `b`. -/
theorem offset_extendLens_decode {b : ℕ} (hb : b ≤ bs) :
    offset (ExtendBatch.decode bs seqLens lastLoc).extendLens b = b := by
  induction b with
  | zero => rfl
  | succ b ih =>
    rw [offset_succ, ih (Nat.le_of_succ_le hb), extendLens_decode seqLens lastLoc hpos hb]

include hpos in
/-- **`alloc_decode_kernel`** stores what `alloc_extend_kernel` stores for one more token. -/
theorem allocDecodeKernel_eq (hpage : 0 < pageSize) {b bsUpper : ℕ} (hb : b < bs)
    (h : b < bsUpper) :
    allocDecodeKernel seqLens lastLoc freePage bsUpper pageSize b =
      (ExtendBatch.decode bs seqLens lastLoc).slotStores freePage pageSize b := by
  have hseq := hpos b hb
  have hlanes : ∀ lane, (if lane ≤ b then loadUpTo b seqLens lane - 1
      else loadUpTo b seqLens lane) = loadUpTo b (fun b => seqLens b - 1) lane := by
    intro lane
    unfold loadUpTo
    by_cases hlane : lane ≤ b
    · rw [if_pos hlane, if_pos hlane, if_pos hlane]
    · rw [if_neg hlane, if_neg hlane, if_neg hlane]
  have hstart : ((List.range bsUpper).map fun lane => numPages pageSize (loadUpTo b seqLens lane) -
      numPages pageSize (loadUpTo b (fun b => seqLens b - 1) lane)).sum -
        (numPages pageSize (seqLens b) - numPages pageSize (seqLens b - 1)) =
      offset ((ExtendBatch.decode bs seqLens lastLoc).numNewPages pageSize) b :=
    newPageStartLoc_eq (B := ExtendBatch.decode bs seqLens lastLoc) h
  have hpre := le_ceilPage hpage (seqLens b - 1)
  -- a page is new exactly if the token before was the last of its own
  have hnew : numPages pageSize (seqLens b - 1) < numPages pageSize (seqLens b) ↔
      ceilPage pageSize (seqLens b - 1) ≤ seqLens b - 1 := by
    rw [lt_numPages_iff hpage, ceilPage_eq]
    omega
  have hone : (ExtendBatch.decode bs seqLens lastLoc).slotStores freePage pageSize b =
      [(b, (ExtendBatch.decode bs seqLens lastLoc).slotAt freePage pageSize b
        (seqLens b - 1))] := by
    rw [ExtendBatch.slotStores, offset_extendLens_decode seqLens lastLoc hpos hb.le,
      extendLens_decode seqLens lastLoc hpos hb]
    rfl
  unfold allocDecodeKernel
  simp only [hlanes]
  rw [hstart, hone]
  unfold ExtendBatch.slotAt
  show _ = [(b, if seqLens b - 1 < ceilPage pageSize (seqLens b - 1) then
    lastLoc b + 1 + ((seqLens b - 1 - (seqLens b - 1) : ℕ) : ℤ) else _)]
  rcases Nat.lt_or_ge (seqLens b - 1) (ceilPage pageSize (seqLens b - 1)) with hpart | hpart
  · rw [if_pos hpart, if_pos (by omega), Nat.sub_self, Int.natCast_zero, add_zero]
  · have hlast : seqLens b - 1 = numPages pageSize (seqLens b - 1) * pageSize :=
      le_antisymm hpre hpart
    have hdiv : (seqLens b - 1) / pageSize = numPages pageSize (seqLens b - 1) := by
      rw [hlast, Nat.mul_div_cancel _ hpage, ← hlast]
    have hmod : (seqLens b - 1) % pageSize = 0 := by
      rw [hlast, Nat.mul_mod_left]
    rw [if_neg (not_lt.mpr hpart), if_neg (by have := hnew.mpr hpart; omega)]
    show _ = [(b, ((freePage (_ + ((seqLens b - 1) / pageSize -
      numPages pageSize (seqLens b - 1))) * pageSize + (seqLens b - 1) % pageSize : ℕ) : ℤ))]
    rw [hdiv, hmod, Nat.sub_self, Nat.add_zero, Nat.add_zero]

end Decode

/-! ### A batch filled -/

namespace ExtendBatch

/-- Prefixes of the sequences, and last slots where the prefixes end in their pages. -/
structure Valid (B : ExtendBatch) (pageSize : ℕ) : Prop where
  prefix_le : ∀ b < B.bs, B.prefixLens b ≤ B.seqLens b
  last_loc : ∀ b < B.bs, (B.lastLoc b + 1) % pageSize = B.prefixLens b % pageSize

/-- `out_indices` at position `p` of request `b`. -/
def slot (B : ExtendBatch) (out : ℕ → ℤ) (b p : ℕ) : ℤ :=
  out (offset B.extendLens b + (p - B.prefixLens b))

/-- The number of tokens and of pages a batch needs. -/
def extendNumTokens (B : ExtendBatch) : ℕ := offset B.extendLens B.bs

def newPages (B : ExtendBatch) (pageSize : ℕ) : ℕ := offset (B.numNewPages pageSize) B.bs

/-- The new slots of a batch: they lie in their pages where their positions do, they go on behind
the last slot up to the end of its page, and what lies behind that page is in `pages`, all of
which are used, each by one request for one page of its positions. -/
structure Filled (B : ExtendBatch) (pageSize : ℕ) (pages : List ℕ) (out : ℕ → ℤ) : Prop where
  aligned : ∀ b < B.bs, ∀ p, B.prefixLens b ≤ p → p < B.seqLens b →
    B.slot out b p % pageSize = p % pageSize
  continues : ∀ b < B.bs, ∀ p, B.prefixLens b ≤ p → p < B.seqLens b →
    p < ceilPage pageSize (B.prefixLens b) →
      B.slot out b p = B.lastLoc b + 1 + ((p - B.prefixLens b : ℕ) : ℤ) ∧
        B.slot out b p / pageSize = B.lastLoc b / pageSize
  mem_pages : ∀ page : ℕ, page ∈ pages ↔ ∃ b < B.bs, ∃ p,
    ceilPage pageSize (B.prefixLens b) ≤ p ∧ p < B.seqLens b ∧ B.slot out b p / pageSize = page
  oneRequest : ∀ b < B.bs, ∀ b' < B.bs, ∀ p p',
    ceilPage pageSize (B.prefixLens b) ≤ p → p < B.seqLens b →
    ceilPage pageSize (B.prefixLens b') ≤ p' → p' < B.seqLens b' →
      B.slot out b p / pageSize = B.slot out b' p' / pageSize →
        b = b' ∧ p / pageSize = p' / pageSize

variable {B : ExtendBatch} {pageSize : ℕ} {freePage : ℕ → ℕ}

theorem slot_lt (B : ExtendBatch) {b p : ℕ} (hb : b < B.bs) (hp : B.prefixLens b ≤ p)
    (hlt : p < B.seqLens b) :
    offset B.extendLens b + (p - B.prefixLens b) < B.extendNumTokens := by
  apply offset_add_lt hb
  unfold extendLens
  omega

/-- Only the output's own entries matter. -/
theorem Filled.congr {pages : List ℕ} {out out' : ℕ → ℤ} (h : B.Filled pageSize pages out)
    (hpage : 0 < pageSize) (heq : ∀ i < B.extendNumTokens, out' i = out i) :
    B.Filled pageSize pages out' := by
  have hslot : ∀ b < B.bs, ∀ p, B.prefixLens b ≤ p → p < B.seqLens b →
      B.slot out' b p = B.slot out b p := fun b hb p hp hlt => heq _ (B.slot_lt hb hp hlt)
  have hceil : ∀ {b p : ℕ}, ceilPage pageSize (B.prefixLens b) ≤ p → B.prefixLens b ≤ p :=
    fun hp => (le_ceilPage hpage _).trans hp
  refine ⟨?_, ?_, ?_, ?_⟩
  · intro b hb p hp hlt
    rw [hslot b hb p hp hlt]
    exact h.aligned b hb p hp hlt
  · intro b hb p hp hlt hpart
    rw [hslot b hb p hp hlt]
    exact h.continues b hb p hp hlt hpart
  · intro page
    rw [h.mem_pages page]
    constructor
    · rintro ⟨b, hb, p, hp, hlt, hpage⟩
      exact ⟨b, hb, p, hp, hlt, by rw [hslot b hb p (hceil hp) hlt, hpage]⟩
    · rintro ⟨b, hb, p, hp, hlt, hpage⟩
      exact ⟨b, hb, p, hp, hlt, by rw [← hslot b hb p (hceil hp) hlt, hpage]⟩
  · intro b hb b' hb' p p' hp hlt hp' hlt' hsame
    rw [hslot b hb p (hceil hp) hlt, hslot b' hb' p' (hceil hp') hlt'] at hsame
    exact h.oneRequest b hb b' hb' p p' hp hlt hp' hlt' hsame

/-- The stores of the programs, read back. -/
theorem slot_writeAll (empty : ℕ → ℤ) {b p : ℕ} (hb : b < B.bs)
    (hp : B.prefixLens b ≤ p) (hlt : p < B.seqLens b) :
    B.slot (writeAll empty ((List.range B.bs).flatMap (B.slotStores freePage pageSize))) b p =
      B.slotAt freePage pageSize b p := by
  have hj : p - B.prefixLens b < B.extendLens b := by
    unfold extendLens
    omega
  have hread := writeAll_ragged B.extendLens empty
    (fun b j => B.slotAt freePage pageSize b (B.prefixLens b + j)) hb hj
  rw [Nat.add_sub_cancel' hp] at hread
  exact hread

/-- The page of a position behind the old page. -/
theorem slotAt_ediv (hpage : 0 < pageSize) {b p : ℕ}
    (hp : ceilPage pageSize (B.prefixLens b) ≤ p) :
    B.slotAt freePage pageSize b p / pageSize =
      (freePage (offset (B.numNewPages pageSize) b +
        (p / pageSize - numPages pageSize (B.prefixLens b))) : ℕ) := by
  rw [slotAt, if_neg (not_lt.mpr hp), ← Int.natCast_ediv, block_div (Nat.mod_lt _ hpage)]

/-- A page of a request's own. -/
theorem page_lt (hpage : 0 < pageSize) {b p : ℕ} (hp : ceilPage pageSize (B.prefixLens b) ≤ p)
    (hlt : p < B.seqLens b) :
    p / pageSize - numPages pageSize (B.prefixLens b) < B.numNewPages pageSize b := by
  have hfirst : numPages pageSize (B.prefixLens b) ≤ p / pageSize :=
    (Nat.le_div_iff_mul_le hpage).mpr hp
  have hlast : p / pageSize < numPages pageSize (B.seqLens b) := by
    rw [lt_numPages_iff hpage]
    exact (Nat.div_mul_le_self p pageSize).trans_lt hlt
  unfold numNewPages
  omega

theorem exists_page (hpage : 0 < pageSize) {b k : ℕ} (hk : k < B.numNewPages pageSize b) :
    ∃ p, ceilPage pageSize (B.prefixLens b) ≤ p ∧ p < B.seqLens b ∧
      p / pageSize - numPages pageSize (B.prefixLens b) = k := by
  refine ⟨(numPages pageSize (B.prefixLens b) + k) * pageSize, ?_, ?_, ?_⟩
  · exact Nat.mul_le_mul_right _ (Nat.le_add_right ..)
  · rw [← lt_numPages_iff hpage]
    unfold numNewPages at hk
    omega
  · rw [Nat.mul_div_cancel _ hpage, Nat.add_sub_cancel_left]

/-- The old page has room up to its end. -/
theorem room_of_lt (hpage : 0 < pageSize) {n p : ℕ} (hp : n ≤ p) (hpart : p < ceilPage pageSize n) :
    0 < n % pageSize ∧ n % pageSize + (p - n) < pageSize := by
  have hmod := Nat.mod_lt n hpage
  have hdiv := Nat.div_add_mod n pageSize
  have hceil := numPages_mul_add hpage (n / pageSize) hmod
  rw [Nat.mul_comm, hdiv] at hceil
  rw [ceilPage_eq, hceil] at hpart
  split at hpart
  · rw [Nat.add_zero, Nat.mul_comm] at hpart
    omega
  · rw [Nat.succ_mul, Nat.mul_comm] at hpart
    omega

theorem mul_add_ediv {q s m : ℤ} (hs : 0 ≤ s) (hsm : s < m) : (m * q + s) / m = q := by
  rw [Int.add_comm, Int.add_mul_ediv_left _ _ (hs.trans_lt hsm).ne', Int.ediv_eq_zero_of_lt hs hsm,
    zero_add]

/-- The slots up to the end of the old page are on it. -/
theorem old_page (hpage : 0 < pageSize) {n p : ℕ} {lastLoc : ℤ}
    (hlast : (lastLoc + 1) % pageSize = n % pageSize) (hp : n ≤ p)
    (hpart : p < ceilPage pageSize n) :
    (lastLoc + 1 + ((p - n : ℕ) : ℤ)) / pageSize = lastLoc / pageSize := by
  obtain ⟨hrest, hroom⟩ := room_of_lt hpage hp hpart
  have hsplit := Int.mul_ediv_add_emod (lastLoc + 1) pageSize
  rw [hlast, ← Int.natCast_emod] at hsplit
  have hnew : lastLoc + 1 + ((p - n : ℕ) : ℤ) = pageSize * ((lastLoc + 1) / pageSize) +
      ((n % pageSize : ℕ) + ((p - n : ℕ) : ℤ)) := by
    omega
  have hold : lastLoc = pageSize * ((lastLoc + 1) / pageSize) + (((n % pageSize : ℕ) : ℤ) - 1) := by
    omega
  rw [hnew, mul_add_ediv (by omega) (by omega)]
  generalize (lastLoc + 1) / (pageSize : ℤ) = q at hold
  rw [hold, mul_add_ediv (by omega) (by omega)]

/-- Two entries of a ragged array at one place are one. -/
theorem row_unique {lens : ℕ → ℕ} {b b' j j' : ℕ} (hj : j < lens b) (hj' : j' < lens b')
    (h : offset lens b + j = offset lens b' + j') : b = b' ∧ j = j' := by
  have hrow : b' = b := by
    by_contra hne
    apply not_mem_row lens hj hne
    omega
  subst hrow
  exact ⟨rfl, Nat.add_left_cancel h⟩

/-- **The slots of the positions fill the batch**, with the first pages of a list of distinct
ones. -/
theorem filled_slotStores (hB : B.Valid pageSize) (hpage : 0 < pageSize) {freePages : List ℕ}
    (hfree : ∀ i < freePages.length, freePages[i]? = some (freePage i)) (hnodup : freePages.Nodup)
    (henough : B.newPages pageSize ≤ freePages.length) (empty : ℕ → ℤ) :
    B.Filled pageSize (freePages.take (B.newPages pageSize))
      (writeAll empty ((List.range B.bs).flatMap (B.slotStores freePage pageSize))) := by
  have hceil : ∀ {b p : ℕ}, ceilPage pageSize (B.prefixLens b) ≤ p → B.prefixLens b ≤ p :=
    fun hp => (le_ceilPage hpage _).trans hp
  have hindex : ∀ {b k : ℕ}, b < B.bs → k < B.numNewPages pageSize b →
      offset (B.numNewPages pageSize) b + k < B.newPages pageSize :=
    fun hb hk => offset_add_lt hb hk
  refine ⟨?_, ?_, ?_, ?_⟩
  · intro b hb p hp hlt
    rw [slot_writeAll empty hb hp hlt, slotAt]
    split
    · have hmod : (B.lastLoc b + 1 + ((p - B.prefixLens b : ℕ) : ℤ)) % pageSize =
          ((B.prefixLens b : ℤ) + ((p - B.prefixLens b : ℕ) : ℤ)) % pageSize :=
        Int.ModEq.add_right _ (hB.last_loc b hb)
      rw [hmod, ← Int.natCast_add, Nat.add_sub_cancel' hp]
    · rw [← Int.natCast_emod, block_mod (Nat.mod_lt _ hpage), Int.natCast_emod]
  · intro b hb p hp hlt hpart
    rw [slot_writeAll empty hb hp hlt, slotAt, if_pos hpart]
    exact ⟨rfl, old_page hpage (hB.last_loc b hb) hp hpart⟩
  · intro page
    rw [List.mem_iff_getElem?]
    constructor
    · rintro ⟨i, hi⟩
      rw [List.getElem?_take] at hi
      split at hi
      · rename_i hlt
        obtain ⟨b, hb, k, hk, rfl⟩ := exists_row hlt
        obtain ⟨p, hp, hseq, hpk⟩ := exists_page hpage hk
        refine ⟨b, hb, p, hp, hseq, ?_⟩
        rw [hfree _ (hlt.trans_le henough), Option.some_inj] at hi
        rw [slot_writeAll empty hb (hceil hp) hseq, slotAt_ediv hpage hp, hpk, hi]
      · cases hi
    · rintro ⟨b, hb, p, hp, hlt, hpage'⟩
      rw [slot_writeAll empty hb (hceil hp) hlt, slotAt_ediv hpage hp, Int.natCast_inj] at hpage'
      have hi := hindex hb (page_lt hpage hp hlt)
      refine ⟨offset (B.numNewPages pageSize) b +
        (p / pageSize - numPages pageSize (B.prefixLens b)), ?_⟩
      rw [List.getElem?_take_of_lt hi, hfree _ (hi.trans_le henough), hpage']
  · intro b hb b' hb' p p' hp hlt hp' hlt' hsame
    rw [slot_writeAll empty hb (hceil hp) hlt, slot_writeAll empty hb' (hceil hp') hlt',
      slotAt_ediv hpage hp, slotAt_ediv hpage hp', Int.natCast_inj] at hsame
    have hk := page_lt hpage hp hlt
    have hk' := page_lt hpage hp' hlt'
    have hi := (hindex hb hk).trans_le henough
    have hi' := (hindex hb' hk').trans_le henough
    have hplace :=
      (List.getElem?_inj hi hnodup).mp ((hfree _ hi).trans (hsame ▸ (hfree _ hi').symm))
    obtain ⟨rfl, hpages⟩ := row_unique hk hk' hplace
    have hfirst : numPages pageSize (B.prefixLens b) ≤ p / pageSize :=
      (Nat.le_div_iff_mul_le hpage).mpr hp
    have hfirst' : numPages pageSize (B.prefixLens b) ≤ p' / pageSize :=
      (Nat.le_div_iff_mul_le hpage).mpr hp'
    exact ⟨rfl, by omega⟩

end ExtendBatch

/-! ### Whole batches -/

section Batch
variable {B : ExtendBatch} {pageSize : ℕ} {freePage : ℕ → ℕ} (hpage : 0 < pageSize)

include hpage in
theorem flatMap_allocExtendKernel (hle : ∀ b < B.bs, B.prefixLens b ≤ B.seqLens b) {bsUpper : ℕ}
    (hbs : B.bs ≤ bsUpper) :
    (List.range B.bs).flatMap (allocExtendKernel B freePage bsUpper pageSize) =
      (List.range B.bs).flatMap (B.slotStores freePage pageSize) := by
  refine List.flatMap_congr fun b hb => ?_
  have hlt := List.mem_range.mp hb
  exact allocExtendKernel_eq B freePage hpage (hle b hlt) (hlt.trans_le hbs)

include hpage in
theorem flatMap_allocExtendNaive (hle : ∀ b < B.bs, B.prefixLens b ≤ B.seqLens b)
    {freePages : List ℕ} (hfree : ∀ i < freePages.length, freePages[i]? = some (freePage i))
    (henough : B.newPages pageSize ≤ freePages.length) :
    (List.range B.bs).flatMap (allocExtendNaive B freePages pageSize) =
      (List.range B.bs).flatMap (B.slotStores freePage pageSize) := by
  refine List.flatMap_congr fun b hb => ?_
  have hlt := List.mem_range.mp hb
  have hrow : offset (B.numNewPages pageSize) (b + 1) ≤ B.newPages pageSize := offset_mono _ hlt
  exact allocExtendNaive_eq B hfree hpage (hle b hlt) (hrow.trans henough)

include hpage in
theorem flatMap_allocDecodeKernel {bs : ℕ} {seqLens : ℕ → ℕ} (lastLoc : ℕ → ℤ)
    (hpos : ∀ b < bs, 1 ≤ seqLens b) {bsUpper : ℕ} (hbs : bs ≤ bsUpper) :
    (List.range bs).flatMap (allocDecodeKernel seqLens lastLoc freePage bsUpper pageSize) =
      (List.range bs).flatMap
        ((ExtendBatch.decode bs seqLens lastLoc).slotStores freePage pageSize) := by
  refine List.flatMap_congr fun b hb => ?_
  have hlt := List.mem_range.mp hb
  exact allocDecodeKernel_eq seqLens lastLoc freePage hpos hpage hlt (hlt.trans_le hbs)

end Batch
end LatentSpec
