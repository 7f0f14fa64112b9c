import Mathlib.Data.List.GetD
import LatentSpec.PagedAllocator
import LatentSpec.StreamSegments

/-! # Freeing segments of a request

A request's row holds its slots by position, and the slots of a page stand side by side in it, so
`free_segment` finds the pages of a segment by stride slices where `free` sorts out duplicates;
`free_segments` cuts off the head of a segment that starts on the page the last one ended on.
`segmentPages` is which pages of the row these representatives stand for.  It is the pages the
segments touch, each once (`mem_segmentPages`, `pairwise_segmentPages`), and it is what the calls
release, at once or at the end of their group.
-/
namespace LatentSpec
open TiledStores WhileLoop StreamSegments

/-- `torch.unique` -/
def torchUnique (xs : List ℕ) : List ℕ := xs.dedup.insertionSort (· ≤ ·)

namespace PagedAllocator
variable (st : PagedAllocator)

/-- `_release_page_ids` -/
def releasePageIds (pageIds : List ℕ) : PagedAllocator :=
  if st.needSort then { st with releasePages := pageIds ++ st.releasePages }
  else { st with freePages := pageIds ++ st.freePages }

/-- `_debug_check_no_duplicate_pages`, in debug mode. -/
def debugCheckNoDuplicatePages : Except AllocError Unit :=
  st.debugAssert (decide ((torchUnique st.pages).length = st.pages.length)) .duplicatePages

/-- `x // self.page_size`, entry by entry. -/
def pageIds (slots : List ℕ) : List ℕ := slots.map (· / st.pageSize)

/-- `free` -/
def free (freeIndex : List ℕ) : Except AllocError PagedAllocator :=
  if freeIndex.length = 0 then .ok st
  else do
    let st := match st.freeGroup with
      | none => st.releasePageIds (torchUnique (st.pageIds freeIndex))
      | some group => { st with freeGroup := some (group ++ [freeIndex]) }
    st.debugCheckNoDuplicatePages
    return st

/-- The `pieces` of `free_segment`. -/
def pageReps (freeIndex : List ℕ) (startPos : ℕ) : List (List ℕ) :=
  let offset := startPos % st.pageSize
  if offset = 0 then [stridedSlice freeIndex 0 freeIndex.length st.pageSize]
  else [freeIndex.take 1,
    stridedSlice freeIndex (st.pageSize - offset) freeIndex.length st.pageSize]

/-- `self.free_page_reps_group.extend(pieces)` -/
def holdReps (pieces : List (List ℕ)) : PagedAllocator :=
  { st with freePageRepsGroup := st.freePageRepsGroup ++ pieces }

/-- `free_segment` -/
def freeSegment (freeIndex : List ℕ) (startPos : ℕ) : Except AllocError PagedAllocator :=
  if freeIndex.length = 0 then .ok st
  else do
    let pieces := st.pageReps freeIndex startPos
    st.debugAssert (decide ((st.pageIds pieces.flatten).insertionSort (· ≤ ·) =
      torchUnique (st.pageIds freeIndex))) .pageRepresentatives
    match st.freeGroup with
    | none => do
      let st := st.releasePageIds (st.pageIds pieces.flatten)
      st.debugCheckNoDuplicatePages
      return st
    | some _ => return st.holdReps pieces

/-- The loop of `free_segments`, with its variable `prev_end`. -/
def freeSegments (st : PagedAllocator) (prevEnd : Option ℕ) :
    List (List ℕ × ℕ) → Except AllocError PagedAllocator
  | [] => .ok st
  | (freeIndex, startPos) :: segments =>
    let n := freeIndex.length
    if n = 0 then st.freeSegments prevEnd segments
    else do
      let segEnd := startPos + n
      let boundary := (startPos / st.pageSize + 1) * st.pageSize
      let st' ←
        if prevEnd.any fun prevEnd =>
            decide (startPos / st.pageSize = (prevEnd - 1) / st.pageSize) then
          st.freeSegment (freeIndex.drop (boundary - startPos)) boundary
        else st.freeSegment freeIndex startPos
      st'.freeSegments (some segEnd) segments

/-- `free_group_begin` -/
def freeGroupBegin : PagedAllocator := { st with freeGroup := some [], freePageRepsGroup := [] }

/-- `free_group_end` of the base class. -/
def baseFreeGroupEnd : Except AllocError PagedAllocator :=
  let pending := st.freeGroup.getD []
  let st := { st with freeGroup := none }
  if pending = [] then .ok st else st.free pending.flatten

/-- The release of the representatives. -/
def releaseReps : PagedAllocator :=
  if st.freePageRepsGroup = [] then st
  else { st.releasePageIds (st.pageIds st.freePageRepsGroup.flatten) with freePageRepsGroup := [] }

/-- `free_group_end` -/
def freeGroupEnd : Except AllocError PagedAllocator := do
  let st ← st.baseFreeGroupEnd
  st.releaseReps.debugCheckNoDuplicatePages
  return st.releaseReps

end PagedAllocator

/-! ### The pages of a row -/

/-- The slots of a request by position: each lies in its page where its position does, and the
positions of one page, and no others, share a page. -/
structure KvRow (pageSize : ℕ) where
  slots : List ℕ
  aligned : ∀ (p : ℕ) (h : p < slots.length), slots[p] % pageSize = p % pageSize
  samePage : ∀ (p q : ℕ) (hp : p < slots.length) (hq : q < slots.length),
    slots[p] / pageSize = slots[q] / pageSize ↔ p / pageSize = q / pageSize

/-- The numbers of the pages that the positions from `start` to `stop` lie on, from `first` on. -/
def pageRange (pageSize first stop : ℕ) : List ℕ :=
  List.range' first (numPages pageSize stop - first)

/-- The numbers of the pages that `free_segments` finds a representative for. -/
def segmentPages (pageSize : ℕ) (prevEnd : Option ℕ) : List (ℕ × ℕ) → List ℕ
  | [] => []
  | (start, stop) :: segments =>
    if stop = start then segmentPages pageSize prevEnd segments
    else
      let first :=
        if prevEnd.any fun prevEnd => decide (start / pageSize = (prevEnd - 1) / pageSize) then
          start / pageSize + 1
        else start / pageSize
      pageRange pageSize first stop ++ segmentPages pageSize (some stop) segments

/-- Ascending disjoint segments of the first `len` positions. -/
structure Ascending (len : ℕ) (segments : List (ℕ × ℕ)) : Prop where
  bounds : ∀ seg ∈ segments, seg.1 ≤ seg.2 ∧ seg.2 ≤ len
  pairwise : segments.Pairwise fun seg seg' => seg.2 ≤ seg'.1

/-- A position of a segment lies on page `k`. -/
def Touches (pageSize : ℕ) (segments : List (ℕ × ℕ)) (k : ℕ) : Prop :=
  ∃ seg ∈ segments, ∃ p, seg.1 ≤ p ∧ p < seg.2 ∧ p / pageSize = k

section Pages
variable {pageSize : ℕ} (hpage : 0 < pageSize)

include hpage in
theorem numPages_eq {n : ℕ} (hn : 0 < n) : numPages pageSize n = (n - 1) / pageSize + 1 := by
  have hsplit : n + pageSize - 1 = n - 1 + pageSize := by omega
  rw [numPages, hsplit, Nat.add_div_right _ hpage]

theorem mem_pageRange {first stop k : ℕ} :
    k ∈ pageRange pageSize first stop ↔ first ≤ k ∧ k < numPages pageSize stop := by
  rw [pageRange, List.mem_range'_1]
  omega

include hpage in
/-- The pages of one segment. -/
theorem exists_pos_iff {start stop k : ℕ} (hlt : start < stop) :
    (∃ p, start ≤ p ∧ p < stop ∧ p / pageSize = k) ↔
      start / pageSize ≤ k ∧ k < numPages pageSize stop := by
  rw [lt_numPages_iff hpage]
  constructor
  · rintro ⟨p, hstart, hstop, rfl⟩
    exact ⟨Nat.div_le_div_right hstart, (Nat.div_mul_le_self p pageSize).trans_lt hstop⟩
  · rintro ⟨hfirst, hlast⟩
    rcases Nat.lt_or_ge start (k * pageSize) with h | h
    · exact ⟨k * pageSize, h.le, hlast, Nat.mul_div_cancel _ hpage⟩
    · refine ⟨start, le_rfl, hlt, le_antisymm hfirst ?_⟩
      exact (Nat.le_div_iff_mul_le hpage).mpr h

/-- The first page that still needs a representative. -/
def firstPage (pageSize : ℕ) (prevEnd : Option ℕ) (start : ℕ) : ℕ :=
  if prevEnd.any fun prevEnd => decide (start / pageSize = (prevEnd - 1) / pageSize) then
    start / pageSize + 1
  else start / pageSize

theorem firstPage_le_iff {prevEnd : Option ℕ} {start k : ℕ} (hprev : ∀ e ∈ prevEnd, e ≤ start) :
    firstPage pageSize prevEnd start ≤ k ↔
      (∀ e ∈ prevEnd, (e - 1) / pageSize < k) ∧ start / pageSize ≤ k := by
  unfold firstPage
  cases prevEnd with
  | none =>
    rw [Option.any_none, if_neg Bool.false_ne_true]
    constructor
    · intro h
      exact ⟨fun e he => absurd he (Option.not_mem_none e), h⟩
    · rintro ⟨-, h⟩
      exact h
  | some e =>
    have hle : (e - 1) / pageSize ≤ start / pageSize :=
      Nat.div_le_div_right ((Nat.sub_le e 1).trans (hprev e rfl))
    have hmem : (∀ e' ∈ some e, (e' - 1) / pageSize < k) ↔ (e - 1) / pageSize < k := by
      constructor
      · intro h
        exact h e rfl
      · rintro h e' ⟨⟩
        exact h
    rw [Option.any_some, hmem]
    by_cases hshared : start / pageSize = (e - 1) / pageSize
    · rw [if_pos (decide_eq_true hshared)]
      omega
    · rw [if_neg (by rwa [decide_eq_true_eq])]
      omega

theorem touches_cons {start stop k : ℕ} {segments : List (ℕ × ℕ)} :
    Touches pageSize ((start, stop) :: segments) k ↔
      (∃ p, start ≤ p ∧ p < stop ∧ p / pageSize = k) ∨ Touches pageSize segments k := by
  unfold Touches
  rw [List.exists_mem_cons_iff]

theorem Ascending.tail {len : ℕ} {seg : ℕ × ℕ} {segments : List (ℕ × ℕ)}
    (h : Ascending len (seg :: segments)) : Ascending len segments :=
  ⟨fun s hs => h.bounds s (List.mem_cons_of_mem _ hs), h.pairwise.of_cons⟩

theorem segmentPages_cons_of_lt {start stop : ℕ} (hlt : start < stop) (prevEnd : Option ℕ)
    (segments : List (ℕ × ℕ)) :
    segmentPages pageSize prevEnd ((start, stop) :: segments) =
      pageRange pageSize (firstPage pageSize prevEnd start) stop ++
        segmentPages pageSize (some stop) segments := by
  rw [segmentPages, if_neg hlt.ne']
  rfl

include hpage in
/-- **The pages found are those touched**, less the page the segments before ended on. -/
theorem mem_segmentPages {segments : List (ℕ × ℕ)} {len k : ℕ} (h : Ascending len segments)
    {prevEnd : Option ℕ} (hprev : ∀ e ∈ prevEnd, ∀ seg ∈ segments, e ≤ seg.1) :
    k ∈ segmentPages pageSize prevEnd segments ↔
      (∀ e ∈ prevEnd, (e - 1) / pageSize < k) ∧ Touches pageSize segments k := by
  induction segments generalizing prevEnd with
  | nil => simp [segmentPages, Touches]
  | cons seg segments ih =>
    obtain ⟨start, stop⟩ := seg
    have hle : start ≤ stop := (h.bounds _ List.mem_cons_self).1
    have hahead : ∀ seg ∈ segments, stop ≤ seg.1 :=
      fun seg hseg => List.rel_of_pairwise_cons h.pairwise hseg
    rcases hle.eq_or_lt with heq | hlt
    · -- an empty segment touches nothing
      rw [segmentPages, if_pos heq.symm, touches_cons,
        ih h.tail fun e he seg hseg => hprev e he seg (List.mem_cons_of_mem _ hseg)]
      have hnone : ¬ ∃ p, start ≤ p ∧ p < stop ∧ p / pageSize = k := by
        rintro ⟨p, hp, hp', -⟩
        omega
      rw [or_iff_right hnone]
    · have hhead : ∀ e ∈ prevEnd, e ≤ start := fun e he => hprev e he _ List.mem_cons_self
      have hstop : ∀ e ∈ some stop, ∀ seg ∈ segments, e ≤ seg.1 := by
        rintro e ⟨⟩
        exact hahead
      have hlast : (∀ e ∈ some stop, (e - 1) / pageSize < k) ↔ (stop - 1) / pageSize < k := by
        simp
      rw [segmentPages_cons_of_lt hlt, List.mem_append, mem_pageRange, firstPage_le_iff hhead,
        ih h.tail hstop, hlast, touches_cons, exists_pos_iff hpage hlt,
        numPages_eq hpage (Nat.zero_lt_of_lt hlt)]
      constructor
      · rintro (⟨⟨hfresh, hfirst⟩, hend⟩ | ⟨hend, htouch⟩)
        · exact ⟨hfresh, .inl ⟨hfirst, hend⟩⟩
        · refine ⟨fun e he => ?_, .inr htouch⟩
          have hmono : (e - 1) / pageSize ≤ (stop - 1) / pageSize :=
            Nat.div_le_div_right (Nat.sub_le_sub_right ((hhead e he).trans hle) 1)
          exact hmono.trans_lt hend
      · rintro ⟨hfresh, ⟨hfirst, hend⟩ | htouch⟩
        · exact .inl ⟨⟨hfresh, hfirst⟩, hend⟩
        · obtain ⟨seg, hseg, p, hp, hp', hpk⟩ := htouch
          have hge : (stop - 1) / pageSize ≤ k := by
            rw [← hpk]
            exact Nat.div_le_div_right ((Nat.sub_le stop 1).trans ((hahead seg hseg).trans hp))
          rcases hge.eq_or_lt with hsame | hbehind
          · -- the page the segment ends on
            have hfirst : start / pageSize ≤ k := by
              rw [← hsame]
              exact Nat.div_le_div_right (Nat.le_sub_one_of_lt hlt)
            exact .inl ⟨⟨hfresh, hfirst⟩, by omega⟩
          · exact .inr ⟨hbehind, seg, hseg, p, hp, hp', hpk⟩

include hpage in
/-- **Each once**: the pages are found in ascending order. -/
theorem pairwise_segmentPages {segments : List (ℕ × ℕ)} {len : ℕ} (h : Ascending len segments)
    (prevEnd : Option ℕ) : (segmentPages pageSize prevEnd segments).Pairwise (· < ·) := by
  induction segments generalizing prevEnd with
  | nil => exact List.Pairwise.nil
  | cons seg segments ih =>
    obtain ⟨start, stop⟩ := seg
    have hle : start ≤ stop := (h.bounds _ List.mem_cons_self).1
    rcases hle.eq_or_lt with heq | hlt
    · rw [segmentPages, if_pos heq.symm]
      exact ih h.tail prevEnd
    · rw [segmentPages_cons_of_lt hlt]
      apply List.pairwise_append.mpr
      refine ⟨List.pairwise_lt_range', ih h.tail _, ?_⟩
      intro k hk k' hk'
      have hstop : ∀ e ∈ some stop, ∀ seg ∈ segments, e ≤ seg.1 := by
        rintro e ⟨⟩ seg hseg
        exact List.rel_of_pairwise_cons h.pairwise hseg
      have hlast := ((mem_segmentPages hpage h.tail hstop).mp hk').1 stop rfl
      have hend := (mem_pageRange.mp hk).2
      rw [numPages_eq hpage (Nat.zero_lt_of_lt hlt)] at hend
      omega

end Pages

/-! ### Representatives -/

namespace KvRow
variable {pageSize : ℕ} (row : KvRow pageSize)

/-- The slot of position `p`. -/
def slot (p : ℕ) : ℕ := row.slots.getD p 0

/-- The page that the positions of page number `k` lie on. -/
def pageAt (k : ℕ) : ℕ := row.slot (k * pageSize) / pageSize

/-- `kv_row[start:stop]` -/
def segment (start stop : ℕ) : List ℕ := (row.slots.take stop).drop start

/-- Segments with their start positions. -/
def segments (segs : List (ℕ × ℕ)) : List (List ℕ × ℕ) :=
  segs.map fun seg => (row.segment seg.1 seg.2, seg.1)

variable {row} (hpage : 0 < pageSize)

theorem slot_eq {p : ℕ} (hp : p < row.slots.length) : row.slot p = row.slots[p] := by
  rw [slot, List.getD_eq_getElem _ _ hp]

theorem slot_div {p : ℕ} (hp : p < row.slots.length) :
    row.slot p / pageSize = row.pageAt (p / pageSize) := by
  have hfirst : p / pageSize * pageSize < row.slots.length :=
    (Nat.div_mul_le_self p pageSize).trans_lt hp
  rw [pageAt, slot_eq hp, slot_eq hfirst, row.samePage]
  rcases Nat.eq_zero_or_pos pageSize with rfl | hpos
  · rw [Nat.div_zero, Nat.div_zero]
  · rw [Nat.mul_div_cancel _ hpos]

include hpage in
theorem pageAt_inj {k k' : ℕ} (hk : k * pageSize < row.slots.length)
    (hk' : k' * pageSize < row.slots.length) (h : row.pageAt k = row.pageAt k') : k = k' := by
  rw [pageAt, pageAt, slot_eq hk, slot_eq hk', row.samePage, Nat.mul_div_cancel _ hpage,
    Nat.mul_div_cancel _ hpage] at h
  exact h

theorem length_segment {start stop : ℕ} (hstop : stop ≤ row.slots.length) :
    (row.segment start stop).length = stop - start := by
  rw [segment, List.length_drop, List.length_take, Nat.min_eq_left hstop]

theorem segment_getElem? {start stop i : ℕ} (hstop : stop ≤ row.slots.length)
    (hi : start + i < stop) : (row.segment start stop)[i]? = some (row.slot (start + i)) := by
  rw [segment, List.getElem?_drop, List.getElem?_take_of_lt hi,
    List.getElem?_eq_getElem (hi.trans_le hstop), slot_eq]

theorem drop_segment {start stop start' : ℕ} (h : start ≤ start') :
    (row.segment start stop).drop (start' - start) = row.segment start' stop := by
  rw [segment, List.drop_drop, Nat.add_sub_cancel' h, segment]

theorem mem_segment {start stop x : ℕ} (hstop : stop ≤ row.slots.length) :
    x ∈ row.segment start stop ↔ ∃ p, start ≤ p ∧ p < stop ∧ row.slot p = x := by
  rw [List.mem_iff_getElem?]
  constructor
  · rintro ⟨i, hi⟩
    have hlt : i < (row.segment start stop).length := (List.getElem?_eq_some_iff.mp hi).1
    rw [length_segment hstop] at hlt
    rw [segment_getElem? hstop (by omega), Option.some_inj] at hi
    exact ⟨start + i, Nat.le_add_right .., by omega, hi⟩
  · rintro ⟨p, hstart, hlt, rfl⟩
    refine ⟨p - start, ?_⟩
    rw [segment_getElem? hstop (by omega), Nat.add_sub_cancel' hstart]

theorem numPages_sub (n k : ℕ) (hpage : 0 < pageSize) :
    numPages pageSize (n - k * pageSize) = numPages pageSize n - k := by
  rcases Nat.lt_or_ge n (k * pageSize) with h | h
  · have hle : numPages pageSize n ≤ k := by
      by_contra hgt
      have := (lt_numPages_iff hpage).mp (not_le.mp hgt)
      omega
    have hzero : numPages pageSize (n - k * pageSize) = 0 := by
      rw [Nat.sub_eq_zero_of_le h.le]
      exact Nat.div_eq_of_lt (by omega)
    rw [hzero, Nat.sub_eq_zero_of_le hle]
  · have hsplit : n - k * pageSize + pageSize - 1 = n + pageSize - 1 - pageSize * k := by
      rw [Nat.mul_comm pageSize]
      omega
    rw [numPages, hsplit, Nat.sub_mul_div, numPages]

include hpage in
/-- A stride slice that starts where a page does finds every page from there on. -/
theorem stride_pages {start stop d k : ℕ} (hstop : stop ≤ row.slots.length)
    (hd : start + d = k * pageSize) :
    (stridedSlice (row.segment start stop) d (row.segment start stop).length pageSize).map
      (· / pageSize) = (pageRange pageSize k stop).map row.pageAt := by
  have hlen : (row.segment start stop).length = stop - start := length_segment hstop
  have hread : stridedSlice (row.segment start stop) d (row.segment start stop).length pageSize =
      (stridedIndices d (stop - start) pageSize).map fun i => row.slot (start + i) := by
    rw [stridedSlice, Nat.min_self, hlen, ← List.filterMap_eq_map']
    refine List.filterMap_congr fun i hi => ?_
    have hi' := (mem_stridedIndices hpage).mp hi
    exact segment_getElem? hstop (by omega)
  have hcount : (stop - start - d + pageSize - 1) / pageSize = numPages pageSize stop - k := by
    rw [← numPages_sub stop k hpage, ← hd, Nat.sub_sub]
    rfl
  rw [hread, List.map_map, stridedIndices, hcount, pageRange]
  refine List.ext_getElem (by simp) fun j hj _ => ?_
  rw [List.length_map, List.length_range'] at hj
  have hpos : start + (d + pageSize * j) = (k + j) * pageSize := by
    rw [Nat.add_mul, ← hd, Nat.mul_comm pageSize, Nat.add_assoc]
  rw [List.getElem_map, List.getElem_map, List.getElem_range', List.getElem_range',
    Function.comp_apply, hpos, Nat.one_mul, pageAt]

include hpage in
theorem mem_pageIds {start stop : ℕ} (hlt : start < stop) (hstop : stop ≤ row.slots.length)
    (x : ℕ) : x ∈ (row.segment start stop).map (· / pageSize) ↔
      x ∈ (pageRange pageSize (start / pageSize) stop).map row.pageAt := by
  simp only [List.mem_map, mem_segment hstop, mem_pageRange, ← exists_pos_iff hpage hlt]
  constructor
  · rintro ⟨s, ⟨p, hp, hp', rfl⟩, rfl⟩
    exact ⟨p / pageSize, ⟨p, hp, hp', rfl⟩, (slot_div (hp'.trans_le hstop)).symm⟩
  · rintro ⟨k, ⟨p, hp, hp', rfl⟩, rfl⟩
    exact ⟨row.slot p, ⟨p, hp, hp', rfl⟩, slot_div (hp'.trans_le hstop)⟩

include hpage in
/-- Different pages of the row have different numbers. -/
theorem nodup_pageAt {ks : List ℕ} (hks : ks.Nodup)
    (hlt : ∀ k ∈ ks, k * pageSize < row.slots.length) : (ks.map row.pageAt).Nodup := by
  apply List.Nodup.map_on _ hks
  intro k hk k' hk' h
  exact pageAt_inj hpage (hlt k hk) (hlt k' hk') h

end KvRow

namespace PagedAllocator
variable {st : PagedAllocator}

/-! ### Releasing -/

theorem pages_releasePageIds (ids : List ℕ) :
    (st.releasePageIds ids).pages.Perm (ids ++ st.pages) := by
  unfold releasePageIds pages
  split
  · rw [← List.append_assoc, ← List.append_assoc]
    exact List.Perm.append_right _ List.perm_append_comm
  · rw [List.append_assoc]

theorem releasePageIds_nil : st.releasePageIds [] = st := by
  unfold releasePageIds
  split <;> rfl

@[simp] theorem pageSize_releasePageIds (ids : List ℕ) :
    (st.releasePageIds ids).pageSize = st.pageSize := by
  unfold releasePageIds
  split <;> rfl

@[simp] theorem debugMode_releasePageIds (ids : List ℕ) :
    (st.releasePageIds ids).debugMode = st.debugMode := by
  unfold releasePageIds
  split <;> rfl

@[simp] theorem freeGroup_releasePageIds (ids : List ℕ) :
    (st.releasePageIds ids).freeGroup = st.freeGroup := by
  unfold releasePageIds
  split <;> rfl

@[simp] theorem freePageRepsGroup_releasePageIds (ids : List ℕ) :
    (st.releasePageIds ids).freePageRepsGroup = st.freePageRepsGroup := by
  unfold releasePageIds
  split <;> rfl

theorem mem_torchUnique {xs : List ℕ} {x : ℕ} : x ∈ torchUnique xs ↔ x ∈ xs := by
  rw [torchUnique, List.mem_insertionSort, List.mem_dedup]

theorem nodup_torchUnique (xs : List ℕ) : (torchUnique xs).Nodup :=
  (List.perm_insertionSort _ _).nodup_iff.mpr (List.nodup_dedup xs)

/-- In debug mode the pages must be free of duplicates. -/
theorem debugCheck_ok (h : st.debugMode = true → st.pages.Nodup) :
    st.debugCheckNoDuplicatePages = .ok () := by
  unfold debugCheckNoDuplicatePages debugAssert
  cases hdebug : st.debugMode with
  | true =>
    have hlen : (torchUnique st.pages).length = st.pages.length := by
      rw [torchUnique, List.length_insertionSort, List.Nodup.dedup (h hdebug)]
    rw [decide_eq_true hlen]
    rfl
  | false => rfl

/-- The pages are new to the lists; the allocator checks it in debug mode. -/
def Fresh (st : PagedAllocator) (ids : List ℕ) : Prop :=
  st.debugMode = true → (ids ++ st.pages).Nodup

theorem Fresh.of_append {ids ids' : List ℕ} (h : st.Fresh (ids ++ ids')) : st.Fresh ids := by
  intro hdebug
  have hnodup := h hdebug
  rw [List.append_assoc] at hnodup
  refine hnodup.sublist ?_
  exact (List.sublist_append_right ids' st.pages).append_left ids

theorem Fresh.release {ids ids' : List ℕ} (h : st.Fresh (ids ++ ids')) :
    (st.releasePageIds ids).Fresh ids' := by
  intro hdebug
  rw [debugMode_releasePageIds] at hdebug
  have hperm : (ids' ++ (st.releasePageIds ids).pages).Perm (ids ++ ids' ++ st.pages) := by
    refine ((pages_releasePageIds ids).append_left ids').trans ?_
    rw [← List.append_assoc]
    exact List.perm_append_comm.append_right _
  exact hperm.nodup_iff.mpr (h hdebug)

theorem release_ok {ids : List ℕ} (h : st.Fresh ids) :
    (st.releasePageIds ids).debugCheckNoDuplicatePages = .ok () := by
  apply debugCheck_ok
  intro hdebug
  rw [debugMode_releasePageIds] at hdebug
  exact (pages_releasePageIds ids).nodup_iff.mpr (h hdebug)

theorem holdReps_nil : st.holdReps [] = st := by
  rw [holdReps, List.append_nil]

theorem holdReps_holdReps (pieces pieces' : List (List ℕ)) :
    (st.holdReps pieces).holdReps pieces' = st.holdReps (pieces ++ pieces') := by
  unfold holdReps
  rw [List.append_assoc]

/-! ### One segment -/

section Segment
variable {row : KvRow st.pageSize} {start stop : ℕ}

/-- **The representatives of a segment** stand for its pages. -/
theorem pageIds_pageReps (hlt : start < stop) (hstop : stop ≤ row.slots.length) :
    st.pageIds (st.pageReps (row.segment start stop) start).flatten =
      (pageRange st.pageSize (start / st.pageSize) stop).map row.pageAt := by
  have hdiv := Nat.div_add_mod start st.pageSize
  rw [Nat.mul_comm] at hdiv
  have hmod := Nat.mod_lt start st.pageSize_pos
  unfold pageReps pageIds
  dsimp only
  by_cases hoffset : start % st.pageSize = 0
  · have hstart : start + 0 = start / st.pageSize * st.pageSize := by omega
    rw [if_pos hoffset, List.flatten_singleton]
    exact KvRow.stride_pages st.pageSize_pos hstop hstart
  · have hnext : start + (st.pageSize - start % st.pageSize) =
        (start / st.pageSize + 1) * st.pageSize := by
      rw [Nat.succ_mul]
      omega
    have hhead : (row.segment start stop).take 1 = [row.slot start] := by
      have hfirst : (row.segment start stop)[0]? = some (row.slot (start + 0)) :=
        KvRow.segment_getElem? hstop hlt
      have hlen : 0 < (row.segment start stop).length := by
        rw [KvRow.length_segment hstop]
        omega
      rw [List.getElem?_eq_getElem hlen, Option.some_inj] at hfirst
      rw [List.take_one, List.head?_eq_getElem?, List.getElem?_eq_getElem hlen, hfirst]
      rfl
    have hrange : pageRange st.pageSize (start / st.pageSize) stop =
        start / st.pageSize :: pageRange st.pageSize (start / st.pageSize + 1) stop := by
      have hpos : start / st.pageSize < numPages st.pageSize stop := by
        rw [lt_numPages_iff st.pageSize_pos]
        omega
      obtain ⟨n, hn⟩ := Nat.exists_eq_add_of_lt hpos
      have hcount : numPages st.pageSize stop - start / st.pageSize = n + 1 := by omega
      have hrest : numPages st.pageSize stop - (start / st.pageSize + 1) = n := by omega
      rw [pageRange, pageRange, hcount, hrest, List.range'_succ]
    rw [if_neg hoffset, hhead, hrange, List.map_cons, ← KvRow.slot_div (hlt.trans_le hstop)]
    simp only [List.flatten_cons, List.flatten_nil, List.append_nil, List.map_cons,
      List.singleton_append]
    rw [KvRow.stride_pages st.pageSize_pos hstop hnext]

theorem nodup_segment_pages (hstop : stop ≤ row.slots.length) (first : ℕ) :
    ((pageRange st.pageSize first stop).map row.pageAt).Nodup := by
  apply KvRow.nodup_pageAt st.pageSize_pos List.nodup_range'
  intro k hk
  have hlast := (lt_numPages_iff st.pageSize_pos).mp (mem_pageRange.mp hk).2
  exact hlast.trans_le hstop

/-- `torch.unique` finds the same pages. -/
theorem perm_torchUnique (hlt : start < stop) (hstop : stop ≤ row.slots.length) :
    (torchUnique (st.pageIds (row.segment start stop))).Perm
      ((pageRange st.pageSize (start / st.pageSize) stop).map row.pageAt) := by
  apply (List.perm_ext_iff_of_nodup (nodup_torchUnique _) (nodup_segment_pages hstop _)).mpr
  intro x
  rw [mem_torchUnique]
  exact KvRow.mem_pageIds st.pageSize_pos hlt hstop x

/-- The assertion of `free_segment` holds. -/
theorem debugAssert_pageReps (hlt : start < stop) (hstop : stop ≤ row.slots.length) :
    st.debugAssert (decide
      ((st.pageIds (st.pageReps (row.segment start stop) start).flatten).insertionSort (· ≤ ·) =
        torchUnique (st.pageIds (row.segment start stop)))) .pageRepresentatives = .ok () := by
  have hperm : (torchUnique (st.pageIds (row.segment start stop))).Perm _ :=
    perm_torchUnique hlt hstop
  have heq : (st.pageIds (st.pageReps (row.segment start stop) start).flatten).insertionSort
      (· ≤ ·) = torchUnique (st.pageIds (row.segment start stop)) := by
    rw [pageIds_pageReps hlt hstop]
    apply List.Perm.eq_of_pairwise' (r := (· ≤ ·)) (List.pairwise_insertionSort ..)
      (List.pairwise_insertionSort ..)
    exact (List.perm_insertionSort _ _).trans hperm.symm
  rw [decide_eq_true heq]
  unfold debugAssert
  rw [Bool.not_true, Bool.and_false, if_neg Bool.false_ne_true]

theorem freeSegment_of_none (hgroup : st.freeGroup = none) (hlt : start < stop)
    (hstop : stop ≤ row.slots.length)
    (hfresh : st.Fresh ((pageRange st.pageSize (start / st.pageSize) stop).map row.pageAt)) :
    st.freeSegment (row.segment start stop) start =
      .ok (st.releasePageIds
        ((pageRange st.pageSize (start / st.pageSize) stop).map row.pageAt)) := by
  have hlen : (row.segment start stop).length ≠ 0 := by
    rw [KvRow.length_segment hstop]
    omega
  unfold freeSegment
  rw [if_neg hlen]
  dsimp only
  rw [debugAssert_pageReps hlt hstop, hgroup, pageIds_pageReps hlt hstop]
  show ((st.releasePageIds _).debugCheckNoDuplicatePages >>= fun _ => Except.ok _) = _
  rw [release_ok hfresh]
  rfl

theorem freeSegment_of_some {group : List (List ℕ)} (hgroup : st.freeGroup = some group)
    (hlt : start < stop) (hstop : stop ≤ row.slots.length) :
    st.freeSegment (row.segment start stop) start =
      .ok (st.holdReps (st.pageReps (row.segment start stop) start)) := by
  have hlen : (row.segment start stop).length ≠ 0 := by
    rw [KvRow.length_segment hstop]
    omega
  unfold freeSegment
  rw [if_neg hlen]
  dsimp only
  rw [debugAssert_pageReps hlt hstop, hgroup]
  rfl

theorem freeSegment_nil (hge : stop ≤ start) :
    st.freeSegment (row.segment start stop) start = .ok st := by
  have hlen : (row.segment start stop).length = 0 := by
    rw [KvRow.segment, List.length_drop, List.length_take]
    omega
  unfold freeSegment
  rw [if_pos hlen]

end Segment

/-! ### One turn of `free_segments` -/

section Turn
variable {row : KvRow st.pageSize} {start stop : ℕ} {prevEnd : Option ℕ}

/-- The slots of one turn, without the head whose page is taken. -/
def turn (st : PagedAllocator) (prevEnd : Option ℕ) (freeIndex : List ℕ) (startPos : ℕ) :
    Except AllocError PagedAllocator :=
  if prevEnd.any fun prevEnd => decide (startPos / st.pageSize = (prevEnd - 1) / st.pageSize) then
    st.freeSegment (freeIndex.drop ((startPos / st.pageSize + 1) * st.pageSize - startPos))
      ((startPos / st.pageSize + 1) * st.pageSize)
  else st.freeSegment freeIndex startPos

theorem freeSegments_cons {freeIndex : List ℕ} (hlen : freeIndex.length ≠ 0) (startPos : ℕ)
    (segments : List (List ℕ × ℕ)) :
    st.freeSegments prevEnd ((freeIndex, startPos) :: segments) =
      st.turn prevEnd freeIndex startPos >>= fun st' =>
        st'.freeSegments (some (startPos + freeIndex.length)) segments := by
  rw [freeSegments]
  dsimp only
  rw [if_neg hlen]
  unfold turn
  split <;> rfl

variable (row start stop prevEnd) in
/-- What a turn hands to `free_segment`: a segment that starts on the first page that still needs
a representative. -/
theorem turn_eq : ∃ start', start ≤ start' ∧
    start' / st.pageSize = firstPage st.pageSize prevEnd start ∧
    (stop ≤ start' → start < stop →
      pageRange st.pageSize (firstPage st.pageSize prevEnd start) stop = []) ∧
    st.turn prevEnd (row.segment start stop) start =
      st.freeSegment (row.segment start' stop) start' := by
  unfold turn firstPage
  have hdiv := Nat.div_add_mod start st.pageSize
  rw [Nat.mul_comm] at hdiv
  have hmod := Nat.mod_lt start st.pageSize_pos
  cases hshared : prevEnd.any fun prevEnd =>
      decide (start / st.pageSize = (prevEnd - 1) / st.pageSize) with
  | true =>
    have hle : start ≤ (start / st.pageSize + 1) * st.pageSize := by
      rw [Nat.succ_mul]
      omega
    refine ⟨(start / st.pageSize + 1) * st.pageSize, hle, ?_, ?_, ?_⟩
    · exact Nat.mul_div_cancel _ st.pageSize_pos
    · intro hstop _
      have hlast : numPages st.pageSize stop ≤ start / st.pageSize + 1 := by
        by_contra hgt
        have := (lt_numPages_iff st.pageSize_pos).mp (not_le.mp hgt)
        omega
      rw [if_pos rfl, pageRange, Nat.sub_eq_zero_of_le hlast]
      rfl
    · rw [if_pos rfl, KvRow.drop_segment hle]
  | false =>
    refine ⟨start, le_rfl, rfl, ?_, rfl⟩
    intro hge hlt
    omega

variable (prevEnd) in
theorem turn_of_none (hgroup : st.freeGroup = none) (hlt : start < stop)
    (hstop : stop ≤ row.slots.length)
    (hfresh : st.Fresh ((pageRange st.pageSize (firstPage st.pageSize prevEnd start) stop).map
      row.pageAt)) :
    st.turn prevEnd (row.segment start stop) start =
      .ok (st.releasePageIds ((pageRange st.pageSize (firstPage st.pageSize prevEnd start) stop).map
        row.pageAt)) := by
  obtain ⟨start', -, hfirst, hempty, heq⟩ := turn_eq row start stop prevEnd
  rw [heq]
  rcases Nat.lt_or_ge start' stop with h | h
  · rw [← hfirst] at hfresh ⊢
    exact freeSegment_of_none hgroup h hstop hfresh
  · rw [freeSegment_nil h, hempty h hlt, List.map_nil, releasePageIds_nil]

variable (prevEnd) in
theorem turn_of_some {group : List (List ℕ)} (hgroup : st.freeGroup = some group)
    (hlt : start < stop)
    (hstop : stop ≤ row.slots.length) : ∃ pieces : List (List ℕ),
    st.turn prevEnd (row.segment start stop) start =
      .ok (st.holdReps pieces) ∧
    st.pageIds pieces.flatten =
      (pageRange st.pageSize (firstPage st.pageSize prevEnd start) stop).map row.pageAt := by
  obtain ⟨start', -, hfirst, hempty, heq⟩ := turn_eq row start stop prevEnd
  rw [heq]
  rcases Nat.lt_or_ge start' stop with h | h
  · refine ⟨_, freeSegment_of_some hgroup h hstop, ?_⟩
    rw [pageIds_pageReps h hstop, hfirst]
  · refine ⟨[], ?_, ?_⟩
    · rw [freeSegment_nil h, holdReps_nil]
    · rw [hempty h hlt]
      rfl

end Turn

/-! ### All segments -/

/-- What a group holds back: the representatives' pages, and those of the plain frees. -/
def heldPages (st : PagedAllocator) : List ℕ :=
  st.pageIds st.freePageRepsGroup.flatten ++
    torchUnique (st.pageIds (st.freeGroup.getD []).flatten)

theorem segments_cons {pageSize : ℕ} {row : KvRow pageSize} {start stop : ℕ}
    {segs : List (ℕ × ℕ)} :
    row.segments ((start, stop) :: segs) =
      (row.segment start stop, start) :: row.segments segs := rfl

theorem freeSegments_of_none {pageSize : ℕ} {row : KvRow pageSize} {segs : List (ℕ × ℕ)}
    (hpage : st.pageSize = pageSize) (h : Ascending row.slots.length segs) (prevEnd : Option ℕ)
    (hgroup : st.freeGroup = none)
    (hfresh : st.Fresh ((segmentPages pageSize prevEnd segs).map row.pageAt)) :
    ∃ st', st.freeSegments prevEnd (row.segments segs) = .ok st' ∧
      st'.pages.Perm ((segmentPages pageSize prevEnd segs).map row.pageAt ++ st.pages) := by
  induction segs generalizing st prevEnd with
  | nil => exact ⟨st, rfl, List.Perm.refl _⟩
  | cons seg segs ih =>
    obtain ⟨start, stop⟩ := seg
    obtain ⟨hle, hstop⟩ : start ≤ stop ∧ stop ≤ row.slots.length := h.bounds _ List.mem_cons_self
    subst hpage
    have hlen : (row.segment start stop).length = stop - start := KvRow.length_segment hstop
    rcases hle.eq_or_lt with heq | hlt
    · rw [segmentPages, if_pos heq.symm] at hfresh ⊢
      rw [segments_cons, freeSegments, if_pos (by omega)]
      exact ih rfl h.tail prevEnd hgroup hfresh
    · rw [segmentPages_cons_of_lt hlt, List.map_append] at hfresh ⊢
      have hturn := turn_of_none prevEnd hgroup hlt hstop hfresh.of_append
      have hgroup' : (st.releasePageIds ((pageRange st.pageSize
          (firstPage st.pageSize prevEnd start) stop).map row.pageAt)).freeGroup = none := by
        rw [freeGroup_releasePageIds, hgroup]
      obtain ⟨st', hrest, hpages⟩ := ih (pageSize_releasePageIds _) h.tail (some stop) hgroup'
        hfresh.release
      refine ⟨st', ?_, ?_⟩
      · rw [segments_cons, freeSegments_cons (by omega), hturn, hlen, Nat.add_sub_cancel' hlt.le]
        exact hrest
      · refine hpages.trans (((pages_releasePageIds _).append_left _).trans ?_)
        rw [← List.append_assoc]
        exact List.perm_append_comm.append_right _

theorem freeSegments_of_some {pageSize : ℕ} {row : KvRow pageSize} {segs : List (ℕ × ℕ)}
    (hpage : st.pageSize = pageSize) (h : Ascending row.slots.length segs) (prevEnd : Option ℕ)
    {group : List (List ℕ)} (hgroup : st.freeGroup = some group) : ∃ pieces : List (List ℕ),
    st.freeSegments prevEnd (row.segments segs) = .ok (st.holdReps pieces) ∧
    st.pageIds pieces.flatten = (segmentPages pageSize prevEnd segs).map row.pageAt := by
  induction segs generalizing st prevEnd with
  | nil =>
    refine ⟨[], ?_, rfl⟩
    rw [holdReps_nil]
    rfl
  | cons seg segs ih =>
    obtain ⟨start, stop⟩ := seg
    obtain ⟨hle, hstop⟩ : start ≤ stop ∧ stop ≤ row.slots.length := h.bounds _ List.mem_cons_self
    subst hpage
    have hlen : (row.segment start stop).length = stop - start := KvRow.length_segment hstop
    rcases hle.eq_or_lt with heq | hlt
    · rw [segmentPages, if_pos heq.symm, segments_cons, freeSegments, if_pos (by omega)]
      exact ih rfl h.tail prevEnd hgroup
    · obtain ⟨pieces, hturn, hids⟩ := turn_of_some prevEnd hgroup hlt hstop
      have hpage' : (st.holdReps pieces).pageSize = st.pageSize := rfl
      obtain ⟨pieces', hrest, hids'⟩ := ih hpage' h.tail (some stop) hgroup
      refine ⟨pieces ++ pieces', ?_, ?_⟩
      · rw [segments_cons, freeSegments_cons (by omega), hturn, hlen, Nat.add_sub_cancel' hlt.le,
          ← holdReps_holdReps]
        exact hrest
      · rw [segmentPages_cons_of_lt hlt, List.map_append, ← hids, ← hids', List.flatten_append]
        exact List.map_append

/-! ### Plain frees, and the end of a group -/

theorem free_of_none {freeIndex : List ℕ} (hgroup : st.freeGroup = none)
    (hfresh : st.Fresh (torchUnique (st.pageIds freeIndex))) :
    st.free freeIndex = .ok (st.releasePageIds (torchUnique (st.pageIds freeIndex))) := by
  unfold free
  split
  · rename_i hlen
    rw [List.length_eq_zero_iff.mp hlen]
    exact congrArg Except.ok releasePageIds_nil.symm
  · rw [hgroup]
    show ((st.releasePageIds _).debugCheckNoDuplicatePages >>= fun _ => Except.ok _) = _
    rw [release_ok hfresh]
    rfl

theorem free_of_some (freeIndex : List ℕ) {group : List (List ℕ)}
    (hgroup : st.freeGroup = some group) (hnodup : st.debugMode = true → st.pages.Nodup) :
    ∃ group', st.free freeIndex = .ok { st with freeGroup := some group' } ∧
      group'.flatten = group.flatten ++ freeIndex := by
  unfold free
  split
  · rename_i hlen
    refine ⟨group, ?_, ?_⟩
    · rw [← hgroup]
    · rw [List.length_eq_zero_iff.mp hlen, List.append_nil]
  · refine ⟨group ++ [freeIndex], ?_, ?_⟩
    · rw [hgroup]
      have hcheck : ({ st with freeGroup := some (group ++ [freeIndex]) } :
          PagedAllocator).debugCheckNoDuplicatePages = .ok () := debugCheck_ok hnodup
      show (({ st with freeGroup := some (group ++ [freeIndex]) } :
          PagedAllocator).debugCheckNoDuplicatePages >>= fun _ => Except.ok _) = _
      rw [hcheck]
      rfl
    · rw [List.flatten_append, List.flatten_singleton]

theorem pages_releaseReps : st.releaseReps.pages.Perm
    (st.pageIds st.freePageRepsGroup.flatten ++ st.pages) := by
  unfold releaseReps
  split
  · rename_i hnil
    rw [hnil]
    exact List.Perm.refl _
  · exact pages_releasePageIds _

theorem debugMode_releaseReps : st.releaseReps.debugMode = st.debugMode := by
  unfold releaseReps
  split
  · rfl
  · exact debugMode_releasePageIds _

/-- **The end of a group** releases what it held back. -/
theorem freeGroupEnd_spec (hfresh : st.Fresh st.heldPages) : ∃ st', st.freeGroupEnd = .ok st' ∧
    st'.pages.Perm (st.heldPages ++ st.pages) := by
  generalize hids : torchUnique (st.pageIds (st.freeGroup.getD []).flatten) = ids
  generalize hopen : ({ st with freeGroup := none } : PagedAllocator) = opened
  have hpages : opened.pages = st.pages := by rw [← hopen]; rfl
  have hmode : opened.debugMode = st.debugMode := by rw [← hopen]
  have hsplit : (ids ++ (st.pageIds st.freePageRepsGroup.flatten ++ st.pages)).Perm
      (st.heldPages ++ st.pages) := by
    rw [heldPages, hids, ← List.append_assoc]
    exact List.perm_append_comm.append_right _
  have hfresh' : opened.Fresh ids := by
    intro hdebug
    have hnodup := hsplit.nodup_iff.mpr (hfresh (hmode ▸ hdebug))
    rw [hpages]
    exact hnodup.sublist ((List.sublist_append_right _ _).append_left ids)
  -- first the plain frees
  have hplain : st.baseFreeGroupEnd = .ok (opened.releasePageIds ids) := by
    unfold baseFreeGroupEnd
    dsimp only
    rw [hopen]
    split
    · rename_i hnil
      rw [← hids, hnil]
      exact congrArg Except.ok releasePageIds_nil.symm
    · have hpageIds : opened.pageIds = st.pageIds := by rw [← hopen]; rfl
      rw [← hids, ← hpageIds] at hfresh' ⊢
      exact free_of_none (by rw [← hopen]) hfresh'
  have hreps : (opened.releasePageIds ids).pageIds
      (opened.releasePageIds ids).freePageRepsGroup.flatten =
        st.pageIds st.freePageRepsGroup.flatten := by
    unfold pageIds
    rw [pageSize_releasePageIds, freePageRepsGroup_releasePageIds, ← hopen]
  have hperm : (opened.releasePageIds ids).releaseReps.pages.Perm (st.heldPages ++ st.pages) := by
    refine pages_releaseReps.trans ?_
    rw [hreps]
    refine ((pages_releasePageIds ids).append_left _).trans (List.Perm.trans ?_ hsplit)
    rw [hpages, ← List.append_assoc, ← List.append_assoc]
    exact List.perm_append_comm.append_right _
  refine ⟨(opened.releasePageIds ids).releaseReps, ?_, hperm⟩
  have hcheck : (opened.releasePageIds ids).releaseReps.debugCheckNoDuplicatePages = .ok () := by
    apply debugCheck_ok
    intro hdebug
    rw [debugMode_releaseReps, debugMode_releasePageIds, hmode] at hdebug
    exact hperm.nodup_iff.mpr (hfresh hdebug)
  unfold freeGroupEnd
  rw [hplain]
  show ((opened.releasePageIds ids).releaseReps.debugCheckNoDuplicatePages >>= fun _ =>
    Except.ok _) = _
  rw [hcheck]
  rfl

/-! ### What is released -/

/-- The pages of the row that segments touch. -/
def touchedPages {pageSize : ℕ} (row : KvRow pageSize) (segs : List (ℕ × ℕ)) : List ℕ :=
  (segmentPages pageSize none segs).map row.pageAt

theorem touchedPages_spec {pageSize : ℕ} (hpage : 0 < pageSize) (row : KvRow pageSize)
    {segs : List (ℕ × ℕ)} (h : Ascending row.slots.length segs) :
    (touchedPages row segs).Nodup ∧ ∀ page, page ∈ touchedPages row segs ↔
      ∃ seg ∈ segs, ∃ p, seg.1 ≤ p ∧ p < seg.2 ∧ row.slot p / pageSize = page := by
  have hmem : ∀ k, k ∈ segmentPages pageSize none segs ↔ Touches pageSize segs k := by
    intro k
    have hnone : ∀ e ∈ (none : Option ℕ), ∀ seg ∈ segs, e ≤ seg.1 :=
      fun e he => absurd he (Option.not_mem_none e)
    rw [mem_segmentPages hpage h hnone]
    exact and_iff_right fun e he => absurd he (Option.not_mem_none e)
  constructor
  · apply KvRow.nodup_pageAt hpage ((pairwise_segmentPages hpage h none).imp Nat.ne_of_lt)
    intro k hk
    obtain ⟨seg, hseg, p, -, hp, rfl⟩ := (hmem k).mp hk
    exact (Nat.div_mul_le_self p pageSize).trans_lt (hp.trans_le (h.bounds seg hseg).2)
  · intro page
    rw [touchedPages, List.mem_map]
    constructor
    · rintro ⟨k, hk, rfl⟩
      obtain ⟨seg, hseg, p, hp, hp', rfl⟩ := (hmem k).mp hk
      exact ⟨seg, hseg, p, hp, hp', KvRow.slot_div (hp'.trans_le (h.bounds seg hseg).2)⟩
    · rintro ⟨seg, hseg, p, hp, hp', rfl⟩
      refine ⟨p / pageSize, (hmem _).mpr ⟨seg, hseg, p, hp, hp', rfl⟩, ?_⟩
      exact (KvRow.slot_div (hp'.trans_le (h.bounds seg hseg).2)).symm

theorem touchedPages_segment {pageSize : ℕ} {row : KvRow pageSize} {start stop : ℕ}
    (hlt : start < stop) : touchedPages row [(start, stop)] =
      (pageRange pageSize (start / pageSize) stop).map row.pageAt := by
  rw [touchedPages, segmentPages_cons_of_lt hlt, segmentPages, List.append_nil]
  rfl

section Single
variable {row : KvRow st.pageSize} {start stop : ℕ} (hle : start ≤ stop)
  (hstop : stop ≤ row.slots.length)

theorem segment_self : row.segment start start = [] := by
  rw [KvRow.segment, List.drop_eq_nil_of_le (List.length_take_le ..)]

include hle hstop in
/-- At once, `free_segment` and `free` release the same pages. -/
theorem freeSegment_perm_free (hgroup : st.freeGroup = none)
    (hfresh : st.Fresh (touchedPages row [(start, stop)])) : ∃ st₁ st₂,
      st.freeSegment (row.segment start stop) start = .ok st₁ ∧
      st.free (row.segment start stop) = .ok st₂ ∧ st₁.pages.Perm st₂.pages := by
  rcases hle.eq_or_lt with rfl | hlt
  · refine ⟨st, st, freeSegment_nil le_rfl, ?_, List.Perm.refl _⟩
    rw [segment_self]
    rfl
  · rw [touchedPages_segment hlt] at hfresh
    have hperm : (torchUnique (st.pageIds (row.segment start stop))).Perm _ :=
      perm_torchUnique hlt hstop
    have hfresh' : st.Fresh (torchUnique (st.pageIds (row.segment start stop))) :=
      fun hdebug => (hperm.append_right _).nodup_iff.mpr (hfresh hdebug)
    refine ⟨_, _, freeSegment_of_none hgroup hlt hstop hfresh, free_of_none hgroup hfresh', ?_⟩
    refine (pages_releasePageIds _).trans (List.Perm.trans ?_ (pages_releasePageIds _).symm)
    exact hperm.symm.append_right _

theorem mem_heldPages {page : ℕ} : page ∈ st.heldPages ↔
    page ∈ st.pageIds st.freePageRepsGroup.flatten ∨
      page ∈ st.pageIds (st.freeGroup.getD []).flatten := by
  rw [heldPages, List.mem_append, mem_torchUnique]

include hle hstop in
/-- In a group they hold back the same pages. -/
theorem freeSegment_heldPages (hgroup : st.freeGroup.isSome)
    (hnodup : st.debugMode = true → st.pages.Nodup) : ∃ st₁ st₂,
      st.freeSegment (row.segment start stop) start = .ok st₁ ∧
      st.free (row.segment start stop) = .ok st₂ ∧
      ∀ page, page ∈ st₁.heldPages ↔ page ∈ st₂.heldPages := by
  rcases hle.eq_or_lt with rfl | hlt
  · refine ⟨st, st, freeSegment_nil le_rfl, ?_, fun _ => Iff.rfl⟩
    rw [segment_self]
    rfl
  · obtain ⟨group, hgroup⟩ := Option.isSome_iff_exists.mp hgroup
    obtain ⟨group', hfree, hflat⟩ := free_of_some (row.segment start stop) hgroup hnodup
    refine ⟨_, _, freeSegment_of_some hgroup hlt hstop, hfree, fun page => ?_⟩
    rw [mem_heldPages, mem_heldPages]
    have hreps : page ∈ st.pageIds (st.pageReps (row.segment start stop) start).flatten ↔
        page ∈ st.pageIds (row.segment start stop) := by
      rw [pageIds_pageReps hlt hstop]
      exact (KvRow.mem_pageIds st.pageSize_pos hlt hstop page).symm
    unfold pageIds at hreps ⊢
    simp only [holdReps, hgroup, Option.getD_some, hflat, List.flatten_append, List.map_append,
      List.mem_append, hreps]
    tauto

end Single

/-- Holding back representatives adds their pages. -/
theorem heldPages_holdReps (pieces : List (List ℕ)) :
    (st.holdReps pieces).heldPages.Perm (st.pageIds pieces.flatten ++ st.heldPages) := by
  have hreps : (st.holdReps pieces).heldPages = st.pageIds st.freePageRepsGroup.flatten ++
      st.pageIds pieces.flatten ++ torchUnique (st.pageIds (st.freeGroup.getD []).flatten) := by
    unfold heldPages holdReps pageIds
    dsimp only
    rw [List.flatten_append, List.map_append]
  rw [hreps, heldPages, ← List.append_assoc]
  exact List.perm_append_comm.append_right _

/-- **Freeing segments.**  For every row and every list of ascending disjoint segments of it the
pages they touch are released, each once: by `free_segments` outside a group, and inside a group
by the end of the group.  Of one segment `free_segment` releases what `free` does.  The pages must
not be free already, which the allocator asserts in debug mode. -/
theorem freeSegments_spec (st : PagedAllocator) (row : KvRow st.pageSize) (segs : List (ℕ × ℕ))
    (h : Ascending row.slots.length segs) :
    (touchedPages row segs).Nodup ∧
    (∀ page, page ∈ touchedPages row segs ↔
      ∃ seg ∈ segs, ∃ p, seg.1 ≤ p ∧ p < seg.2 ∧ row.slot p / st.pageSize = page) ∧
    (st.freeGroup = none → st.Fresh (touchedPages row segs) →
      ∃ st', st.freeSegments none (row.segments segs) = .ok st' ∧
        st'.pages.Perm (touchedPages row segs ++ st.pages)) ∧
    (st.freeGroup.isSome → st.Fresh (touchedPages row segs ++ st.heldPages) →
      ∃ st', st.freeSegments none (row.segments segs) = .ok st' ∧ st'.pages = st.pages ∧
        st'.heldPages.Perm (touchedPages row segs ++ st.heldPages) ∧
        ∃ st'', st'.freeGroupEnd = .ok st'' ∧
          st''.pages.Perm (touchedPages row segs ++ st.heldPages ++ st.pages)) ∧
    (∀ start stop, start ≤ stop → stop ≤ row.slots.length → st.freeGroup = none →
      st.Fresh (touchedPages row [(start, stop)]) → ∃ st₁ st₂,
        st.freeSegment (row.segment start stop) start = .ok st₁ ∧
        st.free (row.segment start stop) = .ok st₂ ∧ st₁.pages.Perm st₂.pages) ∧
    (∀ start stop, start ≤ stop → stop ≤ row.slots.length → st.freeGroup.isSome →
      (st.debugMode = true → st.pages.Nodup) → ∃ st₁ st₂,
        st.freeSegment (row.segment start stop) start = .ok st₁ ∧
        st.free (row.segment start stop) = .ok st₂ ∧
        ∀ page, page ∈ st₁.heldPages ↔ page ∈ st₂.heldPages) := by
  refine ⟨(touchedPages_spec st.pageSize_pos row h).1, (touchedPages_spec st.pageSize_pos row h).2,
    ?_, ?_, ?_, ?_⟩
  · intro hgroup hfresh
    exact freeSegments_of_none rfl h none hgroup hfresh
  · intro hgroup hfresh
    obtain ⟨group, hgroup⟩ := Option.isSome_iff_exists.mp hgroup
    obtain ⟨pieces, hok, hids⟩ := freeSegments_of_some rfl h none hgroup
    have hheld : (st.holdReps pieces).heldPages.Perm (touchedPages row segs ++ st.heldPages) := by
      rw [touchedPages, ← hids]
      exact heldPages_holdReps pieces
    refine ⟨st.holdReps pieces, hok, rfl, hheld, ?_⟩
    have hfresh' : (st.holdReps pieces).Fresh (st.holdReps pieces).heldPages :=
      fun hdebug => (hheld.append_right _).nodup_iff.mpr (hfresh hdebug)
    obtain ⟨st'', hend, hpages⟩ := freeGroupEnd_spec hfresh'
    exact ⟨st'', hend, hpages.trans (hheld.append_right _)⟩
  · intro start stop hle hstop hgroup hfresh
    exact freeSegment_perm_free hle hstop hgroup hfresh
  · intro start stop hle hstop hgroup hnodup
    exact freeSegment_heldPages hle hstop hgroup hnodup

theorem fiveSlots_samePage : ∀ (p : ℕ) (hp : p < [10, 11, 2, 3, 8].length) (q : ℕ)
    (hq : q < [10, 11, 2, 3, 8].length), [10, 11, 2, 3, 8][p] / 2 = [10, 11, 2, 3, 8][q] / 2 ↔
      p / 2 = q / 2 := by decide

/-- Five slots on the pages 5, 1 and 4. -/
def fiveSlots : KvRow 2 :=
  ⟨[10, 11, 2, 3, 8], by decide, fun p q hp hq => fiveSlots_samePage p hp q hq⟩

/-- Pages of two slots, one of them free, in a group that holds nothing yet. -/
def onePageGroup : PagedAllocator :=
  freeGroupBegin ⟨2, true, true, [9], [], none, [], Nat.two_pos⟩

/-- Two segments meet on page 5; it is released once, at once or at the end of the group. -/
theorem freeSegments_spec_meeting :
    (∃ st', threePages.freeSegments none (fiveSlots.segments [(0, 1), (1, 2), (4, 5)]) = .ok st' ∧
      st'.pages.Perm ([5, 4] ++ [7, 3, 9])) ∧
    (∃ st' st'', onePageGroup.freeSegments none (fiveSlots.segments [(0, 1), (1, 4), (4, 5)]) =
      .ok st' ∧ st'.freeGroupEnd = .ok st'' ∧ st''.pages.Perm ([5, 1, 4] ++ [9])) ∧
    ∃ st₁ st₂, onePageGroup.freeSegment (fiveSlots.segment 1 4) 1 = .ok st₁ ∧
      onePageGroup.free (fiveSlots.segment 1 4) = .ok st₂ ∧
      ∀ page, page ∈ st₁.heldPages ↔ page ∈ st₂.heldPages := by
  have hfirst : Ascending 5 [(0, 1), (1, 2), (4, 5)] := ⟨by decide, by decide⟩
  have hsecond : Ascending 5 [(0, 1), (1, 4), (4, 5)] := ⟨by decide, by decide⟩
  refine ⟨(freeSegments_spec threePages fiveSlots _ hfirst).2.2.1 rfl nofun, ?_, ?_⟩
  · obtain ⟨st', hok, -, -, st'', hend, hpages⟩ :=
      (freeSegments_spec onePageGroup fiveSlots _ hsecond).2.2.2.1 rfl fun _ => by decide
    exact ⟨st', st'', hok, hend, hpages⟩
  · exact (freeSegments_spec onePageGroup fiveSlots _ hsecond).2.2.2.2.2 1 4 (by decide) (by decide)
      rfl fun _ => by decide

end PagedAllocator
end LatentSpec
