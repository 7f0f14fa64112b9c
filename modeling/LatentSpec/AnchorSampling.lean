import Mathlib.Data.List.GetD
import LatentSpec.ExchangeableDraws
import LatentSpec.RankSelection

/-! # Anchor sampling

`sample_anchor_positions` draws the blocks that a sequence is trained on
(`deepspec/modeling/myspec/common.py`).  Positions that are no candidates are pushed behind all
others, by a sentinel among the random values and by another one among the indices, and the padding
uses the second sentinel, too.
-/
namespace LatentSpec
open ExchangeableDraws RankSelection

variable {K : Type} [Field K] [LinearOrder K]

/-- The indices of `torch.sort`, which may put equal values in any order. -/
structure TorchSort (K : Type) [LE K] where
  indices : List K → List ℕ
  perm : ∀ xs, (indices xs).Perm (List.range xs.length)
  sorted : ∀ xs, (indices xs).Pairwise fun i j => ∀ x ∈ xs[i]?, ∀ y ∈ xs[j]?, x ≤ y

/-- The stable sort. -/
def TorchSort.stable : TorchSort K where
  indices xs := (List.range xs.length).mergeSort fun i j => decide (xs.getD i 0 ≤ xs.getD j 0)
  perm xs := List.mergeSort_perm _ _
  sorted xs := by
    have hsorted : ((List.range xs.length).mergeSort fun i j =>
        decide (xs.getD i 0 ≤ xs.getD j 0)).Pairwise
          fun i j => decide (xs.getD i 0 ≤ xs.getD j 0) = true := by
      refine List.pairwise_mergeSort (fun i j k hij hjk => ?_) (fun i j => ?_) _
      · rw [decide_eq_true_eq] at hij hjk ⊢
        exact hij.trans hjk
      · simpa using le_total (xs[i]?.getD 0) (xs[j]?.getD 0)
    refine hsorted.imp fun {i j} hle x hx y hy => ?_
    simpa [List.getD_eq_getElem?_getD, Option.mem_def.1 hx, Option.mem_def.1 hy] using hle

/-- `loss_mask > 0.5` -/
def isSupervised (x : K) : Bool := decide (1 / 2 < x)

/-- One row of `build_anchor_candidate_mask`. -/
def buildAnchorCandidateMask (seqLen : ℕ) (lossMask : List K) : List Bool :=
  let numCandidates := seqLen - 1
  if numCandidates = 0 then []
  else
    let anchorValid := (lossMask.take numCandidates).map isSupervised
    let firstTargetValid := ((lossMask.drop 1).take numCandidates).map isSupervised
    List.zipWith (· && ·) anchorValid firstTargetValid

/-- One row of `sample_anchor_positions`, with the row of `torch.rand` that it draws. -/
def sampleAnchorRow (sort : TorchSort K) (seqLen : ℕ) (lossMask : List K) (numAnchors : ℕ)
    (randomVals : List K) : List ℕ × List Bool :=
  let valid := buildAnchorCandidateMask seqLen lossMask
  let validCount := valid.count true
  let numCandidates := valid.length
  if numCandidates = 0 then (List.replicate numAnchors 0, List.replicate numAnchors false)
  else
    let maskedIndices :=
      List.zipWith (fun v i => if v then i else seqLen + 1) valid (List.range numCandidates)
    let randomVals := List.zipWith (fun v r => if v then r else 2) valid randomVals
    let sortedIdx := sort.indices randomVals
    let gathered := sortedIdx.map fun i => maskedIndices.getD i 0
    let gathered := gathered ++ List.replicate (numAnchors - numCandidates) (seqLen + 1)
    let anchors := (gathered.take numAnchors).mergeSort
    let keepMask := (List.range numAnchors).map fun i => decide (i < min validCount numAnchors)
    (List.zipWith (fun keep a => if keep then a else 0) keepMask anchors, keepMask)

/-- `sample_anchor_positions`: the anchors and the keep mask of every row. -/
def sampleAnchorPositions (sort : TorchSort K) (seqLen : ℕ) (lossMask : List (List K))
    (numAnchors : ℕ) (randomVals : List (List K)) : List (List ℕ) × List (List Bool) :=
  let rows := List.zipWith (fun mask vals => sampleAnchorRow sort seqLen mask numAnchors vals)
    lossMask randomVals
  (rows.map Prod.fst, rows.map Prod.snd)

/-- `loss_mask` is set at a position. -/
def lossAt (lossMask : List K) (i : ℕ) : Bool := (lossMask[i]?).any isSupervised

/-- A position whose successor is a target, both with the loss mask set. -/
def isCandidate (lossMask : List K) (a : ℕ) : Bool := lossAt lossMask a && lossAt lossMask (a + 1)

/-- The positions that an anchor may have. -/
def anchorCandidates (seqLen : ℕ) (lossMask : List K) : Finset ℕ :=
  (Finset.range (seqLen - 1)).filter fun a => isCandidate lossMask a

/-- The anchors that are kept. -/
def keptAnchors (out : List ℕ × List Bool) : List ℕ :=
  ((out.1.zip out.2).filter Prod.snd).map Prod.fst

/-! ## Sorting with sentinels -/

/-- A list in which nothing precedes the elements of a kind but elements of that kind. -/
theorem eq_filter_append_filter_not {α : Type} {p : α → Bool} {xs : List α}
    (h : xs.Pairwise fun a b => p b = true → p a = true) :
    xs = xs.filter p ++ xs.filter fun a => !p a := by
  induction xs with
  | nil => rfl
  | cons a xs ih =>
    obtain ⟨hhead, htail⟩ := List.pairwise_cons.1 h
    by_cases ha : p a = true
    · rw [List.filter_cons_of_pos ha, List.filter_cons_of_neg (by simp [ha]), List.cons_append,
        ← ih htail]
    · have hnone : ∀ b ∈ xs, p b = false := fun b hb => by
        by_contra hpb
        exact ha (hhead b hb (by simpa using hpb))
      rw [List.filter_cons_of_neg ha, List.filter_cons_of_pos (by simpa using ha),
        List.filter_eq_nil_iff.2 (fun b hb => by simp [hnone b hb]),
        List.filter_eq_self.2 (fun b hb => by simp [hnone b hb]), List.nil_append]

/-- Sentinels that are as large as any entry stay at the end of a sort. -/
theorem mergeSort_append_replicate {xs : List ℕ} {k c : ℕ} (h : ∀ x ∈ xs, x ≤ c) :
    (xs ++ List.replicate k c).mergeSort = xs.mergeSort ++ List.replicate k c := by
  have hsorted : ∀ ys : List ℕ, ys.mergeSort.Pairwise (· ≤ ·) :=
    List.pairwise_mergeSort' (· ≤ ·)
  refine List.Perm.eq_of_pairwise (fun a b _ _ hab hba => Nat.le_antisymm hab hba)
    (hsorted _) ?_ ?_
  · rw [List.pairwise_append]
    refine ⟨hsorted xs, List.pairwise_replicate.2 (.inr le_rfl), fun x hx y hy => ?_⟩
    rw [(List.mem_replicate.1 hy).2]
    exact h x (List.mem_mergeSort.1 hx)
  · exact (List.mergeSort_perm _ _).trans ((List.mergeSort_perm xs _).symm.append_right _)

/-- The keep mask of the first `m` of `n` places. -/
theorem map_range_decide_lt {m n : ℕ} (h : m ≤ n) :
    (List.range n).map (fun i => decide (i < m)) =
      List.replicate m true ++ List.replicate (n - m) false := by
  refine List.ext_getElem (by simp; omega) fun i hi hi' => ?_
  rw [List.getElem_map, List.getElem_range, List.getElem_append]
  split
  · rename_i hlt
    rw [List.length_replicate] at hlt
    rw [List.getElem_replicate, decide_eq_true hlt]
  · rename_i hge
    rw [List.length_replicate] at hge
    rw [List.getElem_replicate, decide_eq_false hge]

theorem zipWith_keep (xs : List ℕ) (k c : ℕ) :
    List.zipWith (fun keep a => if keep then a else 0)
        (List.replicate xs.length true ++ List.replicate k false) (xs ++ List.replicate k c) =
      xs ++ List.replicate k 0 := by
  have hkept : List.zipWith (fun keep a => if keep then a else 0) (List.replicate xs.length true)
      xs = xs := by
    induction xs with
    | nil => rfl
    | cons x xs ih => rw [List.length_cons, List.replicate_succ, List.zipWith_cons_cons, ih]; rfl
  rw [List.zipWith_append (by simp), hkept, List.zipWith_replicate]
  simp

/-! ## One row -/

section Row
variable {seqLen : ℕ} {lossMask : List K}

theorem buildAnchorCandidateMask_eq (hmask : lossMask.length = seqLen) :
    buildAnchorCandidateMask seqLen lossMask =
      (List.range (seqLen - 1)).map (isCandidate lossMask) := by
  simp only [buildAnchorCandidateMask]
  split
  · rename_i hzero
    rw [hzero]
    rfl
  · refine List.ext_getElem (by simp; omega) fun i hi hi' => ?_
    rw [List.length_map, List.length_range] at hi'
    simp only [List.getElem_zipWith, List.getElem_map, List.getElem_take, List.getElem_drop,
      List.getElem_range, isCandidate, lossAt]
    rw [List.getElem?_eq_getElem (by omega), List.getElem?_eq_getElem (by omega), Option.any_some,
      Option.any_some]
    simp only [Nat.add_comm 1 i]

/-- The candidates in order. -/
def candidateList (seqLen : ℕ) (lossMask : List K) : List ℕ :=
  (List.range (seqLen - 1)).filter (isCandidate lossMask)

theorem nodup_candidateList : (candidateList seqLen lossMask).Nodup :=
  List.nodup_range.filter _

theorem toFinset_candidateList :
    (candidateList seqLen lossMask).toFinset = anchorCandidates seqLen lossMask := by
  ext a
  simp [candidateList, anchorCandidates]

theorem length_candidateList :
    (candidateList seqLen lossMask).length = (anchorCandidates seqLen lossMask).card := by
  rw [← toFinset_candidateList, List.toFinset_card_of_nodup nodup_candidateList]

/-- The random value of a position. -/
def valueAt (randomVals : List K) (i : ℕ) : K := randomVals.getD i 0

/-- Position `a` comes before `b`. -/
def drawnBefore (randomVals : List K) (a b : ℕ) : Bool :=
  decide (valueAt randomVals a < valueAt randomVals b)

theorem rank_candidateList (randomVals : List K) (a : ℕ) :
    rank (drawnBefore randomVals) (candidateList seqLen lossMask) a =
      place (anchorCandidates seqLen lossMask) (valueAt randomVals) a := by
  rw [rank, place, List.countP_eq_length_filter,
    ← List.toFinset_card_of_nodup (nodup_candidateList.filter _), List.toFinset_filter,
    toFinset_candidateList]
  simp only [drawnBefore, decide_eq_true_eq]

/-- The random values of a row: one in `[0, 1)` for each possible anchor. -/
structure UnitDraw (seqLen : ℕ) (randomVals : List K) : Prop where
  length : randomVals.length = seqLen - 1
  nonneg : ∀ r ∈ randomVals, 0 ≤ r
  lt_one : ∀ r ∈ randomVals, r < 1

/-- The random values of a row, all distinct. -/
structure RowDraw (seqLen : ℕ) (randomVals : List K) : Prop extends UnitDraw seqLen randomVals where
  nodup : randomVals.Nodup

theorem UnitDraw.valueAt_mem {randomVals : List K} (h : UnitDraw seqLen randomVals) {i : ℕ}
    (hi : i < seqLen - 1) : valueAt randomVals i ∈ randomVals := by
  have hlen : i < randomVals.length := h.length ▸ hi
  rw [valueAt, List.getD_eq_getElem _ _ hlen]
  exact List.getElem_mem hlen

namespace RowDraw
variable {randomVals : List K}

theorem valueAt_inj (h : RowDraw seqLen randomVals) {i j : ℕ} (hi : i < seqLen - 1)
    (hj : j < seqLen - 1) (heq : valueAt randomVals i = valueAt randomVals j) : i = j := by
  have hi' : i < randomVals.length := h.length ▸ hi
  have hj' : j < randomVals.length := h.length ▸ hj
  rw [valueAt, valueAt, List.getD_eq_getElem _ _ hi', List.getD_eq_getElem _ _ hj'] at heq
  exact (h.nodup.getElem_inj_iff).1 heq

theorem strictOrder (h : RowDraw seqLen randomVals) :
    StrictOrder (drawnBefore randomVals) (candidateList seqLen lossMask) where
  nodup := nodup_candidateList
  irrefl a := by simp [drawnBefore]
  trans a b c hab hbc := by
    simp only [drawnBefore, decide_eq_true_eq] at hab hbc ⊢
    exact hab.trans hbc
  total a ha b hb hne := by
    simp only [candidateList, List.mem_filter, List.mem_range] at ha hb
    simp only [drawnBefore, decide_eq_true_eq]
    exact lt_or_gt_of_ne fun heq => hne (h.valueAt_inj ha.1 hb.1 heq)

/-- Among distinct values no candidates are tied. -/
theorem pairwise_drawnBefore (h : RowDraw seqLen randomVals) {drawn : List ℕ}
    (hperm : drawn.Perm (candidateList seqLen lossMask))
    (hle : drawn.Pairwise fun a b => valueAt randomVals a ≤ valueAt randomVals b) :
    drawn.Pairwise fun a b => drawnBefore randomVals a b := by
  have hnodup : drawn.Nodup := hperm.nodup_iff.2 nodup_candidateList
  have hlt : ∀ i ∈ drawn, i < seqLen - 1 := fun i hi =>
    List.mem_range.1 (List.mem_of_mem_filter (hperm.mem_iff.1 hi))
  refine (hle.and hnodup).imp_of_mem fun {i j} hi hj hle => ?_
  rw [drawnBefore, decide_eq_true_eq]
  exact lt_of_le_of_ne hle.1 fun heq => hle.2 (h.valueAt_inj (hlt i hi) (hlt j hj) heq)

end RowDraw

/-- The random values with their sentinel. -/
def sortKey (lossMask randomVals : List K) (i : ℕ) : K :=
  if isCandidate lossMask i then valueAt randomVals i else 2

theorem sortKeys_eq (hmask : lossMask.length = seqLen) {randomVals : List K}
    (hvals : randomVals.length = seqLen - 1) :
    List.zipWith (fun v r => if v then r else 2) (buildAnchorCandidateMask seqLen lossMask)
        randomVals =
      (List.range (seqLen - 1)).map (sortKey lossMask randomVals) := by
  rw [buildAnchorCandidateMask_eq hmask]
  refine List.ext_getElem (by simp [hvals]) fun i hi hi' => ?_
  rw [List.length_map, List.length_range] at hi'
  have hlen : i < randomVals.length := hvals ▸ hi'
  simp only [List.getElem_zipWith, List.getElem_map, List.getElem_range, sortKey, valueAt,
    List.getD_eq_getElem _ _ hlen]

variable [IsStrictOrderedRing K]

variable (lossMask) in
/-- The candidates come first in the sorted indices, by their random values. -/
theorem sortedIdx_split (sort : TorchSort K) {randomVals : List K}
    (hdraw : UnitDraw seqLen randomVals) :
    ∃ drawn rest : List ℕ,
      sort.indices ((List.range (seqLen - 1)).map (sortKey lossMask randomVals)) = drawn ++ rest ∧
      drawn.Perm (candidateList seqLen lossMask) ∧
      drawn.Pairwise (fun a b => valueAt randomVals a ≤ valueAt randomVals b) ∧
      ∀ i ∈ rest, i < seqLen - 1 ∧ isCandidate lossMask i = false := by
  set keys := (List.range (seqLen - 1)).map (sortKey lossMask randomVals) with hkeys
  have hperm : (sort.indices keys).Perm (List.range (seqLen - 1)) := by
    simpa [hkeys] using sort.perm keys
  have hlt : ∀ i ∈ sort.indices keys, i < seqLen - 1 := fun i hi =>
    List.mem_range.1 (hperm.mem_iff.1 hi)
  have hkey : ∀ i < seqLen - 1, keys[i]? = some (sortKey lossMask randomVals i) := by
    intro i hi
    rw [hkeys, List.getElem?_map, List.getElem?_range hi]
    rfl
  have hsorted : (sort.indices keys).Pairwise fun i j =>
      sortKey lossMask randomVals i ≤ sortKey lossMask randomVals j :=
    (sort.sorted keys).imp_of_mem fun {i j} hi hj hle =>
      hle _ (hkey i (hlt i hi)) _ (hkey j (hlt j hj))
  have hfirst : (sort.indices keys).Pairwise fun i j =>
      isCandidate lossMask j = true → isCandidate lossMask i = true := by
    refine hsorted.imp_of_mem fun {i j} hi hj hle hcand => ?_
    by_contra hi'
    rw [sortKey, if_neg hi', sortKey, if_pos hcand] at hle
    have := hdraw.lt_one _ (hdraw.valueAt_mem (hlt j hj))
    linarith
  refine ⟨_, _, eq_filter_append_filter_not hfirst, hperm.filter _, ?_, fun i hi => ?_⟩
  · rw [List.pairwise_filter]
    refine hsorted.imp fun {i j} hle hci hcj => ?_
    rwa [sortKey, if_pos hci, sortKey, if_pos hcj] at hle
  · obtain ⟨hi, hnot⟩ := List.mem_filter.1 hi
    exact ⟨hlt i hi, by simpa using hnot⟩

omit [IsStrictOrderedRing K] in
theorem maskedIndices_getD (hmask : lossMask.length = seqLen) {i : ℕ} (hi : i < seqLen - 1) :
    (List.zipWith (fun v i => if v then i else seqLen + 1)
        (buildAnchorCandidateMask seqLen lossMask) (List.range (seqLen - 1))).getD i 0 =
      if isCandidate lossMask i then i else seqLen + 1 := by
  rw [buildAnchorCandidateMask_eq hmask, List.getD_eq_getElem _ _ (by simpa using hi)]
  simp

omit [IsStrictOrderedRing K] in
/-- A position that is no candidate is gathered as the sentinel. -/
theorem map_maskedIndices (hmask : lossMask.length = seqLen) {drawn rest : List ℕ}
    (hcand : ∀ i ∈ drawn, i < seqLen - 1 ∧ isCandidate lossMask i = true)
    (hrest : ∀ i ∈ rest, i < seqLen - 1 ∧ isCandidate lossMask i = false) :
    (drawn ++ rest).map (fun i => (List.zipWith (fun v i => if v then i else seqLen + 1)
        (buildAnchorCandidateMask seqLen lossMask) (List.range (seqLen - 1))).getD i 0) =
      drawn ++ List.replicate rest.length (seqLen + 1) := by
  rw [List.map_append]
  congr 1
  · refine (List.map_congr_left fun i hi => ?_).trans (List.map_id drawn)
    rw [maskedIndices_getD hmask (hcand i hi).1, if_pos (hcand i hi).2, id]
  · refine (List.map_congr_left fun i hi => ?_).trans List.map_const'
    rw [maskedIndices_getD hmask (hrest i hi).1, if_neg (by simp [(hrest i hi).2])]

omit [IsStrictOrderedRing K] in
theorem count_buildAnchorCandidateMask (hmask : lossMask.length = seqLen) :
    (buildAnchorCandidateMask seqLen lossMask).count true =
      (anchorCandidates seqLen lossMask).card := by
  rw [buildAnchorCandidateMask_eq hmask, ← length_candidateList, candidateList, List.count,
    List.countP_map, List.countP_eq_length_filter]
  congr 2
  funext i
  simp

/-- One row: of the candidates in the order of their values the first are kept, in order and in
front, and the other places hold zeros. -/
theorem sampleAnchorRow_drawn (sort : TorchSort K) (hmask : lossMask.length = seqLen)
    (numAnchors : ℕ) {randomVals : List K} (hdraw : UnitDraw seqLen randomVals) :
    ∃ drawn kept : List ℕ,
      drawn.Perm (candidateList seqLen lossMask) ∧
      drawn.Pairwise (fun a b => valueAt randomVals a ≤ valueAt randomVals b) ∧
      kept = (drawn.take numAnchors).mergeSort ∧
      sampleAnchorRow sort seqLen lossMask numAnchors randomVals =
        (kept ++ List.replicate (numAnchors - kept.length) 0,
          List.replicate kept.length true ++
            List.replicate (numAnchors - kept.length) false) ∧
      kept.length = min numAnchors (anchorCandidates seqLen lossMask).card ∧
      kept.Pairwise (· < ·) := by
  have hvalid := buildAnchorCandidateMask_eq hmask
  have hcount := count_buildAnchorCandidateMask hmask
  by_cases hzero : seqLen - 1 = 0
  · -- a sequence without room for an anchor
    have hnone : anchorCandidates seqLen lossMask = ∅ := by
      rw [anchorCandidates, hzero]
      rfl
    refine ⟨[], [], by simp [candidateList, hzero], .nil, by simp, ?_, by simp [hnone], .nil⟩
    simp [sampleAnchorRow, hvalid, hzero]
  obtain ⟨drawn, rest, hsplit, hperm, hdrawn, hrest⟩ := sortedIdx_split lossMask sort hdraw
  have hlen : drawn.length = (anchorCandidates seqLen lossMask).card := by
    rw [hperm.length_eq, length_candidateList]
  have htotal : drawn.length + rest.length = seqLen - 1 := by
    have := (sort.perm ((List.range (seqLen - 1)).map (sortKey lossMask randomVals))).length_eq
    rw [hsplit] at this
    simpa using this
  have hcand : ∀ i ∈ drawn, i < seqLen - 1 ∧ isCandidate lossMask i = true := fun i hi => by
    simpa [candidateList] using hperm.mem_iff.1 hi
  let kept := (drawn.take numAnchors).mergeSort
  have hkept : kept.length = min numAnchors drawn.length := by
    rw [List.length_mergeSort, List.length_take]
  have hgather := map_maskedIndices hmask hcand hrest
  have htake : ((drawn ++ List.replicate rest.length (seqLen + 1)) ++
      List.replicate (numAnchors - (seqLen - 1)) (seqLen + 1)).take numAnchors =
        drawn.take numAnchors ++ List.replicate (numAnchors - kept.length) (seqLen + 1) := by
    rw [List.append_assoc, List.replicate_append_replicate, List.take_append, List.take_replicate]
    congr 2
    omega
  have hsort : (drawn.take numAnchors ++
      List.replicate (numAnchors - kept.length) (seqLen + 1)).mergeSort =
        kept ++ List.replicate (numAnchors - kept.length) (seqLen + 1) :=
    mergeSort_append_replicate fun x hx => by
      have := (hcand x (List.mem_of_mem_take hx)).1
      omega
  have hkeep : (List.range numAnchors).map (fun i => decide
      (i < min (anchorCandidates seqLen lossMask).card numAnchors)) =
        List.replicate kept.length true ++ List.replicate (numAnchors - kept.length) false := by
    rw [hkept, hlen, Nat.min_comm]
    exact map_range_decide_lt (Nat.min_le_left _ _)
  refine ⟨drawn, kept, hperm, hdrawn, rfl, ?_, by rw [hkept, hlen], ?_⟩
  · have hlength : (buildAnchorCandidateMask seqLen lossMask).length = seqLen - 1 := by
      rw [hvalid, List.length_map, List.length_range]
    simp only [sampleAnchorRow, hlength, hzero, if_false, hcount,
      sortKeys_eq hmask hdraw.length, hsplit]
    rw [hgather, htake, hsort, hkeep, zipWith_keep]
  · have hnodup : kept.Nodup := (List.mergeSort_perm _ _).nodup_iff.2
      ((hperm.nodup_iff.2 nodup_candidateList).sublist (List.take_sublist _ _))
    have hle : kept.Pairwise (· ≤ ·) := List.pairwise_mergeSort' (· ≤ ·) _
    exact (hle.and hnodup).imp fun h => lt_of_le_of_ne h.1 h.2

/-- **One row**: the kept anchors are the candidates with the lowest random values, in order and in
front, and the other places hold zeros. -/
theorem sampleAnchorRow_spec (sort : TorchSort K) (hmask : lossMask.length = seqLen)
    (numAnchors : ℕ) {randomVals : List K} (hdraw : RowDraw seqLen randomVals) :
    ∃ kept : List ℕ,
      sampleAnchorRow sort seqLen lossMask numAnchors randomVals =
        (kept ++ List.replicate (numAnchors - kept.length) 0,
          List.replicate kept.length true ++
            List.replicate (numAnchors - kept.length) false) ∧
      kept.length = min numAnchors (anchorCandidates seqLen lossMask).card ∧
      kept.Pairwise (· < ·) ∧
      kept.toFinset =
        lowest (anchorCandidates seqLen lossMask) numAnchors (valueAt randomVals) := by
  obtain ⟨drawn, kept, hperm, hdrawn, rfl, hout, hlength, hlt⟩ :=
    sampleAnchorRow_drawn sort hmask numAnchors hdraw.toUnitDraw
  refine ⟨_, hout, hlength, hlt, ?_⟩
  ext a
  rw [List.mem_toFinset, List.mem_mergeSort,
    hdraw.strictOrder.mem_take hperm (hdraw.pairwise_drawnBefore hperm hdrawn),
    rank_candidateList, lowest, Finset.mem_filter, ← toFinset_candidateList, List.mem_toFinset]

omit [Field K] [LinearOrder K] [IsStrictOrderedRing K] in
theorem keptAnchors_eq (kept : List ℕ) (k : ℕ) :
    keptAnchors (kept ++ List.replicate k 0,
      List.replicate kept.length true ++ List.replicate k false) = kept := by
  have hzip : kept.zip (List.replicate kept.length true) = kept.map fun a => (a, true) := by
    refine List.ext_getElem (by simp) fun i hi hi' => by simp
  rw [keptAnchors, List.zip_append (by simp), hzip, List.filter_append, List.map_append,
    List.filter_eq_self.2 (by simp), List.filter_eq_nil_iff.2, List.map_map]
  · simp [Function.comp_def]
  · intro p hp
    rw [(List.mem_replicate.1 (List.of_mem_zip hp).2).2]
    simp

/-! ## Exchangeable draws -/

/-- The candidates, among the indices that values are drawn for. -/
def drawnCandidates (seqLen : ℕ) (lossMask : List K) : Finset (Fin (seqLen - 1)) :=
  Finset.univ.filter fun i => isCandidate lossMask i

omit [IsStrictOrderedRing K] in
theorem map_drawnCandidates :
    (drawnCandidates seqLen lossMask).map Fin.valEmbedding =
      anchorCandidates seqLen lossMask := by
  ext a
  simp only [drawnCandidates, anchorCandidates, Finset.mem_map, Finset.mem_filter,
    Finset.mem_univ, true_and, Finset.mem_range, Fin.valEmbedding_apply]
  constructor
  · rintro ⟨i, hi, rfl⟩
    exact ⟨i.isLt, hi⟩
  · rintro ⟨ha, hcand⟩
    exact ⟨⟨a, ha⟩, hcand, rfl⟩

/-- The anchors that are kept for a family of random values. -/
def keptSet (sort : TorchSort K) (seqLen : ℕ) (lossMask : List K) (numAnchors : ℕ)
    (r : Fin (seqLen - 1) → K) : Finset ℕ :=
  (keptAnchors (sampleAnchorRow sort seqLen lossMask numAnchors (List.ofFn r))).toFinset

theorem keptSet_eq (sort : TorchSort K) (hmask : lossMask.length = seqLen) (numAnchors : ℕ)
    {r : Fin (seqLen - 1) → K} (hdraw : RowDraw seqLen (List.ofFn r)) :
    keptSet sort seqLen lossMask numAnchors r =
      (lowest (drawnCandidates seqLen lossMask) numAnchors r).map Fin.valEmbedding := by
  obtain ⟨kept, hout, -, -, hkept⟩ := sampleAnchorRow_spec sort hmask numAnchors hdraw
  have hvalue : ∀ i : Fin (seqLen - 1), valueAt (List.ofFn r) (Fin.valEmbedding i) = r i := by
    intro i
    rw [valueAt, List.getD_eq_getElem _ _ (by simp)]
    simp
  rw [keptSet, hout, keptAnchors_eq, hkept, ← map_drawnCandidates,
    lowest_map Fin.valEmbedding _ _ hvalue]

omit [IsStrictOrderedRing K] in
theorem exists_map_eq {S : Finset ℕ} (hS : S ⊆ anchorCandidates seqLen lossMask) :
    ∃ S' ⊆ drawnCandidates seqLen lossMask, S'.map Fin.valEmbedding = S := by
  rw [← map_drawnCandidates] at hS
  obtain ⟨S', hS', rfl⟩ := Finset.subset_map_iff.1 hS
  exact ⟨S', hS', rfl⟩

open MeasureTheory in
theorem keptSet_equally_likely [MeasurableSpace K] (sort : TorchSort K)
    (hmask : lossMask.length = seqLen) (numAnchors : ℕ) {μ : Measure (Fin (seqLen - 1) → K)}
    (hex : Exchangeable μ) (hdraw : ∀ᵐ r ∂μ, RowDraw seqLen (List.ofFn r)) {S T : Finset ℕ}
    (hS : S ⊆ anchorCandidates seqLen lossMask) (hT : T ⊆ anchorCandidates seqLen lossMask)
    (hcard : S.card = T.card) :
    μ {r | keptSet sort seqLen lossMask numAnchors r = S} =
      μ {r | keptSet sort seqLen lossMask numAnchors r = T} := by
  obtain ⟨S', hS', rfl⟩ := exists_map_eq hS
  obtain ⟨T', hT', rfl⟩ := exists_map_eq hT
  rw [Finset.card_map, Finset.card_map] at hcard
  have hevent : ∀ A : Finset (Fin (seqLen - 1)),
      μ {r | keptSet sort seqLen lossMask numAnchors r = A.map Fin.valEmbedding} =
        μ {r | lowest (drawnCandidates seqLen lossMask) numAnchors r = A} := by
    intro A
    refine measure_congr ?_
    filter_upwards [hdraw] with r hr
    refine propext ?_
    show keptSet sort seqLen lossMask numAnchors r = _ ↔ _ = A
    rw [keptSet_eq sort hmask numAnchors hr, Finset.map_inj]
  rw [hevent, hevent, hex.lowest_equally_likely hS' hT' hcard]

end Row

open MeasureTheory in
/-- In each row of a batch the kept anchors are the candidates with the lowest random values, as
many as there are up to `num_anchors`, in increasing order at the front of the row; the other places
hold a zero that is not kept.  Under exchangeable values candidates are kept in sets of one size
with one probability. -/
theorem sample_anchor_positions_exact [IsStrictOrderedRing K] [MeasurableSpace K]
    (sort : TorchSort K) {seqLen : ℕ} {lossMask : List (List K)}
    (hmask : ∀ row ∈ lossMask, row.length = seqLen) (numAnchors : ℕ) :
    (∀ randomVals : List (List K), randomVals.length = lossMask.length →
      (∀ vals ∈ randomVals, RowDraw seqLen vals) →
      ∀ (b : ℕ) (row vals : List K), lossMask[b]? = some row → randomVals[b]? = some vals →
        ∃ kept : List ℕ,
          (sampleAnchorPositions sort seqLen lossMask numAnchors randomVals).1[b]? =
            some (kept ++ List.replicate (numAnchors - kept.length) 0) ∧
          (sampleAnchorPositions sort seqLen lossMask numAnchors randomVals).2[b]? =
            some (List.replicate kept.length true ++
              List.replicate (numAnchors - kept.length) false) ∧
          kept.length = min numAnchors (anchorCandidates seqLen row).card ∧
          kept.Pairwise (· < ·) ∧
          kept.toFinset = lowest (anchorCandidates seqLen row) numAnchors (valueAt vals)) ∧
    (∀ row ∈ lossMask, ∀ μ : Measure (Fin (seqLen - 1) → K), Exchangeable μ →
      (∀ᵐ r ∂μ, RowDraw seqLen (List.ofFn r)) →
      ∀ S ⊆ anchorCandidates seqLen row, ∀ T ⊆ anchorCandidates seqLen row, S.card = T.card →
        μ {r | keptSet sort seqLen row numAnchors r = S} =
          μ {r | keptSet sort seqLen row numAnchors r = T}) := by
  constructor
  · intro randomVals hlen hdraw b row vals hrow hvals
    obtain ⟨kept, hout, hlength, hlt, hset⟩ := sampleAnchorRow_spec sort
      (hmask row (List.mem_of_getElem? hrow)) numAnchors (hdraw vals (List.mem_of_getElem? hvals))
    refine ⟨kept, ?_, ?_, hlength, hlt, hset⟩
    · simp only [sampleAnchorPositions, List.getElem?_map, List.getElem?_zipWith, hrow, hvals, hout,
        Option.map_some]
    · simp only [sampleAnchorPositions, List.getElem?_map, List.getElem?_zipWith, hrow, hvals, hout,
        Option.map_some]
  · intro row hrow μ hex hdraw S hS T hT hcard
    exact keptSet_equally_likely sort (hmask row hrow) numAnchors hex hdraw hS hT hcard

theorem rowDraw_shuffled (σ : Equiv.Perm (Fin (6 - 1))) :
    RowDraw 6 (List.ofFn (![1 / 2, 0, 1 / 8, 1 / 4, (3 / 4 : ℚ)] ∘ σ)) := by
  have hunit : ∀ i : Fin 5, 0 ≤ ![1 / 2, 0, 1 / 8, 1 / 4, (3 / 4 : ℚ)] i ∧
      ![1 / 2, 0, 1 / 8, 1 / 4, (3 / 4 : ℚ)] i < 1 := by decide +kernel
  have hinj : Function.Injective ![1 / 2, 0, 1 / 8, 1 / 4, (3 / 4 : ℚ)] := by decide +kernel
  refine ⟨⟨List.length_ofFn, fun r hr => ?_, fun r hr => ?_⟩,
    List.nodup_ofFn.mpr (hinj.comp σ.injective)⟩
  · obtain ⟨i, rfl⟩ := List.mem_ofFn.mp hr
    exact (hunit (σ i)).1
  · obtain ⟨i, rfl⟩ := List.mem_ofFn.mp hr
    exact (hunit (σ i)).2

/-- Of the candidates 0, 3 and 4 the two with the lowest values are kept; and when the values come
in every order, one pair is kept as often as another. -/
theorem sample_anchor_positions_exact_six :
    (∃ kept : List ℕ,
      (sampleAnchorPositions TorchSort.stable 6 [[1, 1, 0, 1, 1, (1 : ℚ)]] 2
          [[1 / 2, 0, 1 / 8, 1 / 4, 3 / 4]]).1[0]? = some kept ∧
        kept.length = 2 ∧ kept.Pairwise (· < ·) ∧ kept.toFinset = {0, 3}) ∧
    shuffled ![1 / 2, 0, 1 / 8, 1 / 4, (3 / 4 : ℚ)]
        {r | keptSet TorchSort.stable 6 [1, 1, 0, 1, 1, (1 : ℚ)] 2 r = {0, 3}} =
      shuffled ![1 / 2, 0, 1 / 8, 1 / 4, 3 / 4]
        {r | keptSet TorchSort.stable 6 [1, 1, 0, 1, 1, (1 : ℚ)] 2 r = {3, 4}} := by
  have hmask : ∀ row ∈ [[1, 1, 0, 1, 1, (1 : ℚ)]], row.length = 6 := by decide
  obtain ⟨hexact, hlaw⟩ := sample_anchor_positions_exact TorchSort.stable hmask 2
  constructor
  · obtain ⟨kept, hout, -, hlength, hlt, hset⟩ := hexact [[1 / 2, 0, 1 / 8, 1 / 4, 3 / 4]] rfl
      (by simpa using rowDraw_shuffled (Equiv.refl _)) 0 _ _ rfl rfl
    have hcard : kept.length = 2 := hlength.trans (by decide +kernel)
    refine ⟨kept, ?_, hcard, hlt, hset.trans (by decide +kernel)⟩
    rw [hout, hcard]
    simp
  · exact hlaw _ (List.mem_singleton_self _) _ (exchangeable_shuffled _)
      (ae_shuffled_iff.mpr rowDraw_shuffled) _ (by decide +kernel) _ (by decide +kernel) rfl

end LatentSpec
