import Mathlib.Data.List.Sort
import Mathlib.Tactic.IntervalCases
import LatentSpec.PagedAllocKernels
import LatentSpec.WhileLoop

/-! # The paged allocator

The allocator keeps a list of free pages and, if it sorts, a second list of pages that were
released since the last sort.  `alloc_extend` and `alloc_decode` run their kernel on the free list
and only then see whether it was long enough; what they consume is what the kernel used
(`allocExtend_some`, `allocDecode_some`), and a call that returns `None` leaves the pages as they
were (`allocExtend_none`, `allocDecode_none`).
-/
namespace LatentSpec
open TiledStores WhileLoop

/-- The assertions of the allocator. -/
inductive AllocError
  | lastLoc
  | duplicateIndices
  | duplicatePages
  | pageRepresentatives
  | prefixLensMissing
  deriving DecidableEq, Repr

/-- `PagedTokenToKVPoolAllocator` -/
structure PagedAllocator where
  pageSize : ℕ
  needSort : Bool
  debugMode : Bool
  freePages : List ℕ
  releasePages : List ℕ
  /-- `None`, or the frees held back until the end of the group. -/
  freeGroup : Option (List (List ℕ))
  freePageRepsGroup : List (List ℕ)
  pageSize_pos : 0 < pageSize

/-- `get_num_new_pages` -/
def getNumNewPages (bs : ℕ) (seqLens : ℕ → ℕ) (pageSize : ℕ) (prefixLens : Option (ℕ → ℕ))
    (decode : Bool) : Except AllocError ℕ :=
  match prefixLens, decode with
  | _, true =>
    .ok ((List.range bs).map fun b => if seqLens b % pageSize = 1 then 1 else 0).sum
  | none, false => .error .prefixLensMissing
  | some prefixLens, false =>
    .ok ((List.range bs).map fun b =>
      numPages pageSize (seqLens b) - numPages pageSize (prefixLens b)).sum

namespace PagedAllocator
variable (st : PagedAllocator)

/-- The free pages, released ones included. -/
def pages : List ℕ := st.freePages ++ st.releasePages

/-- `merge_and_sort_free` -/
def mergeAndSortFree : PagedAllocator :=
  if 0 < st.releasePages.length then
    { st with
      freePages := (st.freePages ++ st.releasePages).insertionSort (· ≤ ·)
      releasePages := [] }
  else st

/-- A load behind `free_page_ptr`; `behind` is the memory that follows the list. -/
def loadPage (behind : ℕ → ℕ) (i : ℕ) : ℕ := st.freePages[i]?.getD (behind i)

/-- `if self.debug_mode: assert cond` -/
def debugAssert (cond : Bool) (e : AllocError) : Except AllocError Unit :=
  if st.debugMode && !cond then .error e else .ok ()

/-- The sort before a call that may need more pages than the list has. -/
def sortFor (needed : ℕ) : PagedAllocator :=
  if st.needSort && decide (st.freePages.length < needed) then st.mergeAndSortFree else st

/-- `None`, or the output and the rest of the pages. -/
def takePages (outIndices : List ℤ) (numNewPages : ℕ) : Option (List ℤ) × PagedAllocator :=
  if st.freePages.length < numNewPages then (none, st)
  else (some outIndices, { st with freePages := st.freePages.drop numNewPages })

/-- The output of `alloc_extend_kernel`; `empty` is what the allocated tensor holds. -/
def extendIndices (behind : ℕ → ℕ) (empty : ℕ → ℤ) (B : ExtendBatch) (extendNumTokens : ℕ) :
    List ℤ :=
  (List.range extendNumTokens).map <| writeAll empty <| (List.range B.bs).flatMap <|
    allocExtendKernel B (st.loadPage behind) (nextPowerOf2 B.bs) st.pageSize

/-- The output of `alloc_decode_kernel`. -/
def decodeIndices (behind : ℕ → ℕ) (empty : ℕ → ℤ) (bs : ℕ) (seqLens : ℕ → ℕ)
    (lastLoc : ℕ → ℤ) : List ℤ :=
  (List.range bs).map <| writeAll empty <| (List.range bs).flatMap <|
    allocDecodeKernel seqLens lastLoc (st.loadPage behind) (nextPowerOf2 bs) st.pageSize

/-- `alloc_extend` -/
def allocExtend (behind : ℕ → ℕ) (empty : ℕ → ℤ) (B : ExtendBatch) (extendNumTokens : ℕ)
    (numNewPages : Option ℕ) : Except AllocError (Option (List ℤ) × PagedAllocator) := do
  st.debugAssert ((List.range B.bs).all fun b =>
    decide ((B.lastLoc b + 1) % st.pageSize = B.prefixLens b % st.pageSize)) .lastLoc
  let st := st.sortFor (extendNumTokens / st.pageSize + B.bs + 1)
  let outIndices := st.extendIndices behind empty B extendNumTokens
  st.debugAssert (decide outIndices.Nodup) .duplicateIndices
  let numNewPages ←
    numNewPages.elim (getNumNewPages B.bs B.seqLens st.pageSize (some B.prefixLens) false) .ok
  return st.takePages outIndices numNewPages

/-- `alloc_decode` -/
def allocDecode (behind : ℕ → ℕ) (empty : ℕ → ℤ) (bs : ℕ) (seqLens : ℕ → ℕ) (lastLoc : ℕ → ℤ) :
    Except AllocError (Option (List ℤ) × PagedAllocator) := do
  st.debugAssert ((List.range bs).all fun b =>
    decide ((lastLoc b + 2) % st.pageSize = seqLens b % st.pageSize)) .lastLoc
  let st := st.sortFor bs
  let outIndices := st.decodeIndices behind empty bs seqLens lastLoc
  st.debugAssert (decide outIndices.Nodup) .duplicateIndices
  let numNewPages ← getNumNewPages bs seqLens st.pageSize none true
  return st.takePages outIndices numNewPages

variable {st}

/-! ### Sorting -/

/-- **Merging keeps the pages.** -/
theorem pages_mergeAndSortFree : st.mergeAndSortFree.pages.Perm st.pages := by
  unfold mergeAndSortFree
  split
  · rw [pages, List.append_nil]
    exact List.perm_insertionSort ..
  · exact List.Perm.refl _

@[simp] theorem pageSize_mergeAndSortFree : st.mergeAndSortFree.pageSize = st.pageSize := by
  unfold mergeAndSortFree
  split <;> rfl

@[simp] theorem pageSize_sortFor (needed : ℕ) : (st.sortFor needed).pageSize = st.pageSize := by
  unfold sortFor
  split
  · exact pageSize_mergeAndSortFree
  · rfl

theorem pages_sortFor (needed : ℕ) : (st.sortFor needed).pages.Perm st.pages := by
  unfold sortFor
  split
  · exact pages_mergeAndSortFree
  · exact List.Perm.refl _

theorem loadPage_of_lt (behind : ℕ → ℕ) :
    ∀ i < st.freePages.length, st.freePages[i]? = some (st.loadPage behind i) := by
  intro i hi
  rw [loadPage, List.getElem?_eq_getElem hi]
  rfl

/-! ### Counting pages -/

theorem getNumNewPages_extend (B : ExtendBatch) (pageSize : ℕ) :
    getNumNewPages B.bs B.seqLens pageSize (some B.prefixLens) false =
      .ok (B.newPages pageSize) := rfl

/-- A page of several slots is new for a token exactly if the token is the first on it. -/
theorem numPages_succ_sub {pageSize : ℕ} (hpage : 1 < pageSize) {n : ℕ} (hn : 1 ≤ n) :
    numPages pageSize n - numPages pageSize (n - 1) = if n % pageSize = 1 then 1 else 0 := by
  have hpos : 0 < pageSize := Nat.zero_lt_of_lt hpage
  have hmod := Nat.mod_lt (n - 1) hpos
  have hdiv := Nat.div_add_mod (n - 1) pageSize
  rw [Nat.mul_comm] at hdiv
  have hceil := numPages_mul_add hpos ((n - 1) / pageSize) hmod
  rw [hdiv] at hceil
  generalize (n - 1) / pageSize = q at hdiv hceil
  generalize (n - 1) % pageSize = r at hdiv hceil hmod
  rw [hceil]
  by_cases hfull : r + 1 = pageSize
  · have hn' : n = (q + 1) * pageSize + 0 := by
      rw [Nat.succ_mul]
      omega
    have hnew := numPages_mul_add hpos (q + 1) hpos
    rw [if_pos rfl] at hnew
    rw [hn', hnew, block_mod hpos, if_neg (by omega), if_neg (by omega), Nat.sub_self]
  · have hr : r + 1 < pageSize := by omega
    have hn' : n = q * pageSize + (r + 1) := by omega
    have hnew := numPages_mul_add hpos q hr
    rw [if_neg (by omega)] at hnew
    rw [hn', hnew, block_mod hr]
    by_cases hzero : r = 0
    · rw [if_pos hzero, if_pos (by omega)]
      omega
    · rw [if_neg hzero, if_neg (by omega), Nat.sub_self]

theorem getNumNewPages_decode {bs : ℕ} {seqLens : ℕ → ℕ} (lastLoc : ℕ → ℤ) {pageSize : ℕ}
    (hpage : 1 < pageSize) (hpos : ∀ b < bs, 1 ≤ seqLens b) (prefixLens : Option (ℕ → ℕ)) :
    getNumNewPages bs seqLens pageSize prefixLens true =
      .ok ((ExtendBatch.decode bs seqLens lastLoc).newPages pageSize) := by
  have hsum : (List.range bs).map (fun b => if seqLens b % pageSize = 1 then 1 else 0) =
      (List.range bs).map ((ExtendBatch.decode bs seqLens lastLoc).numNewPages pageSize) := by
    refine List.map_congr_left fun b hb => ?_
    exact (numPages_succ_sub hpage (hpos b (List.mem_range.mp hb))).symm
  unfold getNumNewPages
  cases prefixLens <;> exact congrArg Except.ok (congrArg List.sum hsum)

/-! ### Calls -/

/-- `None` changes nothing. -/
theorem takePages_none {outIndices : List ℤ} {n : ℕ} {st' : PagedAllocator}
    (h : st.takePages outIndices n = (none, st')) : st' = st := by
  unfold takePages at h
  split at h
  · exact (Prod.mk.inj h).2.symm
  · cases h

/-- Otherwise the first pages are gone. -/
theorem takePages_some {outIndices out : List ℤ} {n : ℕ} {st' : PagedAllocator}
    (h : st.takePages outIndices n = (some out, st')) :
    out = outIndices ∧ n ≤ st.freePages.length ∧ (st.freePages.take n ++ st'.pages) = st.pages := by
  unfold takePages at h
  split at h
  · cases h
  · rename_i hlen
    obtain ⟨hout, rfl⟩ := Prod.mk.inj h
    refine ⟨(Option.some.inj hout).symm, not_lt.mp hlen, ?_⟩
    rw [pages, pages, ← List.append_assoc, List.take_append_drop]

section Extend
variable {behind : ℕ → ℕ} {empty : ℕ → ℤ} {B : ExtendBatch} {extendNumTokens : ℕ}
  {numNewPages : Option ℕ} {res : Option (List ℤ)} {st' : PagedAllocator}

/-- What `alloc_extend` returns, if no assertion failed. -/
theorem allocExtend_ok
    (h : st.allocExtend behind empty B extendNumTokens numNewPages = .ok (res, st')) :
    ∃ needed, (st.sortFor needed).takePages
      ((st.sortFor needed).extendIndices behind empty B extendNumTokens)
        (numNewPages.getD (B.newPages st.pageSize)) = (res, st') := by
  unfold allocExtend at h
  obtain ⟨-, -, h⟩ := bind_ok h
  refine ⟨extendNumTokens / st.pageSize + B.bs + 1, ?_⟩
  obtain ⟨-, -, h⟩ := bind_ok h
  obtain ⟨n, hn, h⟩ := bind_ok h
  have hcount : n = numNewPages.getD (B.newPages st.pageSize) := by
    cases numNewPages with
    | some m => exact (Except.ok.inj hn).symm
    | none =>
      rw [getNumNewPages_extend, pageSize_sortFor] at hn
      exact (Except.ok.inj hn).symm
  rw [← hcount]
  exact Except.ok.inj h

/-- **`alloc_extend` that returns `None`** keeps the free and released pages. -/
theorem allocExtend_none
    (h : st.allocExtend behind empty B extendNumTokens numNewPages = .ok (none, st')) :
    st'.pages.Perm st.pages := by
  obtain ⟨needed, htake⟩ := allocExtend_ok h
  rw [takePages_none htake]
  exact pages_sortFor needed

variable (st behind empty) in
/-- The kernel's output holds the slots of the positions. -/
theorem filled_extendIndices (hB : B.Valid st.pageSize) (hnodup : st.freePages.Nodup)
    (henough : B.newPages st.pageSize ≤ st.freePages.length) (default : ℤ) :
    B.Filled st.pageSize (st.freePages.take (B.newPages st.pageSize)) fun i =>
      (st.extendIndices behind empty B B.extendNumTokens).getD i default := by
  have hfilled := ExtendBatch.filled_slotStores hB st.pageSize_pos (loadPage_of_lt behind) hnodup
    henough empty
  apply hfilled.congr st.pageSize_pos
  intro i hi
  rw [extendIndices, flatMap_allocExtendKernel st.pageSize_pos hB.prefix_le (le_nextPowerOf2 _),
    List.getD_eq_getElem?_getD, List.getElem?_map, List.getElem?_range hi]
  rfl

/-- **`alloc_extend` that returns slots** fills the batch with pages it takes off the list. -/
theorem allocExtend_some (hB : B.Valid st.pageSize) (hnodup : st.pages.Nodup) {out : List ℤ}
    (h : st.allocExtend behind empty B B.extendNumTokens none = .ok (some out, st')) :
    ∃ taken : List ℕ, taken.length = B.newPages st.pageSize ∧
      (taken ++ st'.pages).Perm st.pages ∧ B.Filled st.pageSize taken fun i => out.getD i 0 := by
  obtain ⟨needed, htake⟩ := allocExtend_ok h
  have hsorted : (st.sortFor needed).pages.Perm st.pages := pages_sortFor needed
  obtain ⟨rfl, henough, hpages⟩ := takePages_some htake
  have hfree : (st.sortFor needed).freePages.Nodup :=
    (List.nodup_append.mp (hsorted.nodup_iff.mpr hnodup)).1
  have hfilled := filled_extendIndices (B := B) (st.sortFor needed) behind empty
    (by rwa [pageSize_sortFor]) hfree (by rwa [pageSize_sortFor]) 0
  rw [pageSize_sortFor] at hfilled
  refine ⟨_, List.length_take_of_le henough, ?_, hfilled⟩
  exact hpages ▸ hsorted

end Extend

section Decode
variable {behind : ℕ → ℕ} {empty : ℕ → ℤ} {bs : ℕ} {seqLens : ℕ → ℕ} {lastLoc : ℕ → ℤ}
  {res : Option (List ℤ)} {st' : PagedAllocator}

theorem allocDecode_ok (h : st.allocDecode behind empty bs seqLens lastLoc = .ok (res, st')) :
    ∃ needed n, getNumNewPages bs seqLens st.pageSize none true = .ok n ∧
      (st.sortFor needed).takePages
        ((st.sortFor needed).decodeIndices behind empty bs seqLens lastLoc) n = (res, st') := by
  unfold allocDecode at h
  obtain ⟨-, -, h⟩ := bind_ok h
  obtain ⟨-, -, h⟩ := bind_ok h
  obtain ⟨n, hn, h⟩ := bind_ok h
  rw [pageSize_sortFor] at hn
  exact ⟨bs, n, hn, Except.ok.inj h⟩

/-- **`alloc_decode` that returns `None`** keeps the free and released pages. -/
theorem allocDecode_none (h : st.allocDecode behind empty bs seqLens lastLoc = .ok (none, st')) :
    st'.pages.Perm st.pages := by
  obtain ⟨needed, n, -, htake⟩ := allocDecode_ok h
  rw [takePages_none htake]
  exact pages_sortFor needed

theorem decodeIndices_eq (hpos : ∀ b < bs, 1 ≤ seqLens b) :
    st.decodeIndices behind empty bs seqLens lastLoc =
      st.extendIndices behind empty (.decode bs seqLens lastLoc) bs := by
  have hle : ∀ b < bs, seqLens b - 1 ≤ seqLens b := fun b _ => Nat.sub_le ..
  rw [decodeIndices, extendIndices,
    flatMap_allocDecodeKernel st.pageSize_pos lastLoc hpos (le_nextPowerOf2 bs)]
  exact congrArg (fun stores => (List.range bs).map (writeAll empty stores))
    (flatMap_allocExtendKernel (B := .decode bs seqLens lastLoc) st.pageSize_pos hle
      (le_nextPowerOf2 bs)).symm

/-- **`alloc_decode` that returns slots** fills the batch, if a page has several of them. -/
theorem allocDecode_some (hpage : 1 < st.pageSize)
    (hB : (ExtendBatch.decode bs seqLens lastLoc).Valid st.pageSize)
    (hpos : ∀ b < bs, 1 ≤ seqLens b) (hnodup : st.pages.Nodup) {out : List ℤ}
    (h : st.allocDecode behind empty bs seqLens lastLoc = .ok (some out, st')) :
    ∃ taken : List ℕ,
      taken.length = (ExtendBatch.decode bs seqLens lastLoc).newPages st.pageSize ∧
      (taken ++ st'.pages).Perm st.pages ∧
      (ExtendBatch.decode bs seqLens lastLoc).Filled st.pageSize taken fun i => out.getD i 0 := by
  obtain ⟨needed, n, hn, htake⟩ := allocDecode_ok h
  have hsorted : (st.sortFor needed).pages.Perm st.pages := pages_sortFor needed
  obtain ⟨rfl, henough, hpages⟩ := takePages_some htake
  rw [getNumNewPages_decode lastLoc hpage hpos, Except.ok.injEq] at hn
  subst hn
  have hfree : (st.sortFor needed).freePages.Nodup :=
    (List.nodup_append.mp (hsorted.nodup_iff.mpr hnodup)).1
  have htokens : (ExtendBatch.decode bs seqLens lastLoc).extendNumTokens = bs :=
    offset_extendLens_decode seqLens lastLoc hpos le_rfl
  have hfilled := filled_extendIndices (B := .decode bs seqLens lastLoc) (st.sortFor needed) behind
    empty (by rwa [pageSize_sortFor]) hfree (by rwa [pageSize_sortFor]) 0
  rw [pageSize_sortFor, htokens, ← decodeIndices_eq hpos] at hfilled
  refine ⟨_, List.length_take_of_le henough, ?_, hfilled⟩
  exact hpages ▸ hsorted

end Decode

/-- **Paged allocation.**  The kernel and the loop over slices store the same, the slots of the
positions, with the first pages of the list, as many as are counted; one more token each is the
extension from one token less, and its pages are counted if a page has several slots.  A call
that returns slots takes the pages it used off the list, and one that returns `None` none. -/
theorem pagedAlloc_spec (st : PagedAllocator) (behind : ℕ → ℕ) (empty : ℕ → ℤ) :
    (∀ B : ExtendBatch, B.Valid st.pageSize → st.freePages.Nodup →
      B.newPages st.pageSize ≤ st.freePages.length →
      writeAll empty ((List.range B.bs).flatMap
          (allocExtendKernel B (st.loadPage behind) (nextPowerOf2 B.bs) st.pageSize)) =
        writeAll empty ((List.range B.bs).flatMap
          (allocExtendNaive B st.freePages st.pageSize)) ∧
      B.Filled st.pageSize (st.freePages.take (B.newPages st.pageSize))
        (writeAll empty ((List.range B.bs).flatMap
          (allocExtendKernel B (st.loadPage behind) (nextPowerOf2 B.bs) st.pageSize)))) ∧
    (∀ B : ExtendBatch, getNumNewPages B.bs B.seqLens st.pageSize (some B.prefixLens) false =
      .ok (B.newPages st.pageSize)) ∧
    (∀ (bs : ℕ) (seqLens : ℕ → ℕ) (lastLoc : ℕ → ℤ), (∀ b < bs, 1 ≤ seqLens b) →
      writeAll empty ((List.range bs).flatMap
          (allocDecodeKernel seqLens lastLoc (st.loadPage behind) (nextPowerOf2 bs) st.pageSize)) =
        writeAll empty ((List.range bs).flatMap
          (allocExtendKernel (.decode bs seqLens lastLoc) (st.loadPage behind) (nextPowerOf2 bs)
            st.pageSize)) ∧
      (1 < st.pageSize → getNumNewPages bs seqLens st.pageSize none true =
        .ok ((ExtendBatch.decode bs seqLens lastLoc).newPages st.pageSize))) ∧
    (∀ (B : ExtendBatch) (out : List ℤ) (st' : PagedAllocator), B.Valid st.pageSize →
      st.pages.Nodup → st.allocExtend behind empty B B.extendNumTokens none = .ok (some out, st') →
      ∃ taken : List ℕ, taken.length = B.newPages st.pageSize ∧
        (taken ++ st'.pages).Perm st.pages ∧ B.Filled st.pageSize taken fun i => out.getD i 0) ∧
    (∀ (B : ExtendBatch) (extendNumTokens : ℕ) (numNewPages : Option ℕ) (st' : PagedAllocator),
      st.allocExtend behind empty B extendNumTokens numNewPages = .ok (none, st') →
      st'.pages.Perm st.pages) ∧
    (∀ (bs : ℕ) (seqLens : ℕ → ℕ) (lastLoc : ℕ → ℤ) (st' : PagedAllocator),
      st.allocDecode behind empty bs seqLens lastLoc = .ok (none, st') →
      st'.pages.Perm st.pages) := by
  refine ⟨?_, ?_, ?_, ?_, ?_, ?_⟩
  · intro B hB hnodup henough
    have hfree : ∀ i < st.freePages.length, st.freePages[i]? = some (st.loadPage behind i) :=
      loadPage_of_lt behind
    rw [flatMap_allocExtendKernel st.pageSize_pos hB.prefix_le (le_nextPowerOf2 B.bs),
      flatMap_allocExtendNaive st.pageSize_pos hB.prefix_le hfree henough]
    exact ⟨rfl, ExtendBatch.filled_slotStores hB st.pageSize_pos hfree hnodup henough empty⟩
  · intro B
    exact getNumNewPages_extend B st.pageSize
  · intro bs seqLens lastLoc hpos
    have hle : ∀ b < bs, seqLens b - 1 ≤ seqLens b := fun b _ => Nat.sub_le ..
    refine ⟨congrArg (writeAll empty) ?_, fun hpage => ?_⟩
    · rw [flatMap_allocDecodeKernel st.pageSize_pos lastLoc hpos (le_nextPowerOf2 bs)]
      exact (flatMap_allocExtendKernel (B := .decode bs seqLens lastLoc) st.pageSize_pos hle
        (le_nextPowerOf2 bs)).symm
    · exact getNumNewPages_decode lastLoc hpage hpos none
  · intro B out st' hB hnodup h
    exact allocExtend_some hB hnodup h
  · intro B extendNumTokens numNewPages st' h
    exact allocExtend_none h
  · intro bs seqLens lastLoc st' h
    exact allocDecode_none h

/-- Free pages 7, 3 and 9, of two slots each. -/
def threePages : PagedAllocator :=
  ⟨2, false, false, [7, 3, 9], [], none, [], Nat.two_pos⟩

/-- A request that grows from one token, in slot 10, to four, and one that grows from two, the
second in slot 13, to three. -/
def acrossPage : ExtendBatch := ⟨2, fun b => 1 + b, fun b => 4 - b, fun b => 10 + 3 * b⟩

theorem valid_acrossPage : acrossPage.Valid 2 := by
  constructor
  · intro b hb
    have hlt : b < 2 := hb
    interval_cases b <;> decide
  · intro b hb
    have hlt : b < 2 := hb
    interval_cases b <;> decide

theorem extendIndices_acrossPage :
    threePages.extendIndices (fun _ => 0) (fun _ => 0) acrossPage 4 = [11, 14, 15, 6] := by
  rw [extendIndices, flatMap_allocExtendKernel threePages.pageSize_pos valid_acrossPage.prefix_le
    (le_nextPowerOf2 acrossPage.bs)]
  decide

/-- The first new slot is on the old page and the next two are on page 7; the second request takes
page 3, behind the one that the first has taken; a token behind a full page needs a page; and four
such tokens find too few. -/
theorem pagedAlloc_spec_acrossPage :
    (∃ out : ℕ → ℤ, acrossPage.Filled 2 [7, 3] out ∧
      [out 0, out 1, out 2, out 3] = [11, 14, 15, 6]) ∧
    getNumNewPages 1 (fun _ => 5) 2 none true = .ok 1 ∧
    (∃ taken : List ℕ, taken.length = 2 ∧ (taken ++ [9]).Perm [7, 3, 9] ∧
      acrossPage.Filled 2 taken fun i => [11, 14, 15, 6].getD i 0) ∧
    threePages.pages.Perm [7, 3, 9] := by
  have h := pagedAlloc_spec threePages (fun _ => 0) (fun _ => 0)
  refine ⟨?_, ?_, ?_, ?_⟩
  · have hfilled := h.1 acrossPage valid_acrossPage (by decide) (by decide)
    refine ⟨_, hfilled.2, ?_⟩
    rw [hfilled.1]
    decide
  · exact (h.2.2.1 1 (fun _ => 5) (fun _ => 3) fun _ _ => (by decide : 1 ≤ 5)).2 (by decide)
  · refine h.2.2.2.1 acrossPage [11, 14, 15, 6]
      ⟨2, false, false, [9], [], none, [], Nat.two_pos⟩ valid_acrossPage (by decide) ?_
    show Except.ok (threePages.takePages (threePages.extendIndices _ _ acrossPage 4) 2) = _
    rw [extendIndices_acrossPage]
    rfl
  · exact h.2.2.2.2.2 4 (fun _ => 5) (fun _ => 3) threePages rfl

/-- One free page of one slot. -/
def unpaged : PagedAllocator := ⟨1, false, false, [7], [], none, [], Nat.one_pos⟩

/-- **Pages of one slot**: the token takes slot 7, no page is counted, and page 7 stays free. -/
theorem allocDecode_unpaged :
    (ExtendBatch.decode 1 (fun _ => 5) fun _ => 3).Valid 1 ∧
    (ExtendBatch.decode 1 (fun _ => 5) fun _ => 3).newPages 1 = 1 ∧
    getNumNewPages 1 (fun _ => 5) 1 none true = .ok 0 ∧
    unpaged.allocDecode (fun _ => 0) (fun _ => 0) 1 (fun _ => 5) (fun _ => 3) =
      .ok (some [7], unpaged) := by
  have hpos : ∀ b < 1, 1 ≤ (fun _ => 5) b := fun _ _ => (by decide : 1 ≤ 5)
  have hout :
      unpaged.decodeIndices (fun _ => 0) (fun _ => 0) 1 (fun _ => 5) (fun _ => 3) = [7] := by
    rw [decodeIndices, flatMap_allocDecodeKernel unpaged.pageSize_pos _ hpos (le_nextPowerOf2 1)]
    decide
  refine ⟨⟨fun _ _ => (by decide : 4 ≤ 5), fun _ _ => ?_⟩, by decide, rfl, ?_⟩
  · exact (by decide : ((3 : ℤ) + 1) % (1 : ℕ) = (4 : ℕ) % (1 : ℕ))
  · show Except.ok (unpaged.takePages (unpaged.decodeIndices _ _ 1 _ _) 0) = _
    rw [hout]
    rfl

end PagedAllocator
end LatentSpec
