import Mathlib.Data.List.GetD
import LatentSpec.StreamSegments

/-! # The resumable distributed sampler

`StatelessResumableDistributedSampler` deals the first `total_size` entries of each epoch's
permutation to the ranks, and starts anywhere in the endless sequence of epochs.  Its generator
is modelled by the state it is suspended in, and `iter_eq_segment` says that what it yields is
the rank's segment of one stream (`sampleAt`) that does not depend on where the sampler started.
`epochSlices_perm` and `epochSlices_disjoint` are the coverage of an epoch.
-/
namespace LatentSpec
open StreamSegments

/-- `torch.randperm` of a length, under a generator seeded with the second argument. -/
structure Randperm where
  randperm : ℕ → ℤ → List ℕ
  perm_range : ∀ n seed, (randperm n seed).Perm (List.range n)

/-- What the samplers of all ranks share. -/
structure DistributedData where
  generator : Randperm
  datasetSize : ℕ
  numReplicas : ℕ
  totalSize : ℕ
  seed : ℤ
  totalSize_pos : 0 < totalSize
  totalSize_le : totalSize ≤ datasetSize
  numReplicas_dvd : numReplicas ∣ totalSize

namespace DistributedData
variable (D : DistributedData)

/-- `per_rank_len_per_epoch` -/
def perRankLenPerEpoch : ℕ := D.totalSize / D.numReplicas

/-- `_epoch_perm` -/
def epochPerm (epochIdx : ℕ) : List ℕ :=
  (D.generator.randperm D.datasetSize (D.seed + epochIdx)).take D.totalSize

/-- `_epoch_slice_for_rank` -/
def epochSliceForRank (rank : ℕ) (perm : List ℕ) : List ℕ :=
  stridedSlice perm rank D.totalSize D.numReplicas

/-- The sequence of a rank in an epoch. -/
def epochSeq (rank epochIdx : ℕ) : List ℕ :=
  D.epochSliceForRank rank (D.epochPerm epochIdx)

theorem numReplicas_pos : 0 < D.numReplicas :=
  Nat.pos_of_dvd_of_pos D.numReplicas_dvd D.totalSize_pos

theorem perRankLenPerEpoch_pos : 0 < D.perRankLenPerEpoch :=
  Nat.div_pos (Nat.le_of_dvd D.totalSize_pos D.numReplicas_dvd) D.numReplicas_pos

@[simp] theorem length_epochPerm (epochIdx : ℕ) :
    (D.epochPerm epochIdx).length = D.totalSize := by
  have hlen := (D.generator.perm_range D.datasetSize (D.seed + epochIdx)).length_eq
  rw [List.length_range] at hlen
  rw [epochPerm, List.length_take, hlen, Nat.min_eq_left D.totalSize_le]

theorem nodup_epochPerm (epochIdx : ℕ) : (D.epochPerm epochIdx).Nodup := by
  have hperm := D.generator.perm_range D.datasetSize (D.seed + epochIdx)
  exact (hperm.nodup_iff.mpr List.nodup_range).take

theorem epochSeq_eq (rank epochIdx : ℕ) :
    D.epochSeq rank epochIdx =
      stridedSlice (D.epochPerm epochIdx) rank (D.epochPerm epochIdx).length D.numReplicas := by
  rw [length_epochPerm]
  rfl

/-- Every rank has the same number of samples in every epoch. -/
theorem length_epochSeq {rank : ℕ} (hrank : rank < D.numReplicas) (epochIdx : ℕ) :
    (D.epochSeq rank epochIdx).length = D.perRankLenPerEpoch := by
  have hdvd : D.numReplicas ∣ (D.epochPerm epochIdx).length :=
    (D.length_epochPerm epochIdx).symm ▸ D.numReplicas_dvd
  rw [epochSeq_eq, length_stridedSlice hdvd hrank, length_epochPerm, perRankLenPerEpoch]

/-- The slices of an epoch are together the first `totalSize` entries of its permutation. -/
theorem epochSlices_perm (epochIdx : ℕ) :
    ((List.range D.numReplicas).flatMap fun rank => D.epochSeq rank epochIdx).Perm
      ((D.generator.randperm D.datasetSize (D.seed + epochIdx)).take D.totalSize) := by
  simp only [epochSeq_eq]
  exact flatMap_stridedSlice_perm D.numReplicas_pos (D.epochPerm epochIdx)

theorem epochSlices_disjoint {rank rank' : ℕ} (hrank : rank < D.numReplicas)
    (hrank' : rank' < D.numReplicas) (hne : rank ≠ rank') (epochIdx : ℕ) :
    List.Disjoint (D.epochSeq rank epochIdx) (D.epochSeq rank' epochIdx) := by
  rw [epochSeq_eq, epochSeq_eq]
  exact disjoint_stridedSlice D.numReplicas_pos (D.nodup_epochPerm epochIdx) hrank hrank' hne

/-- The samples of a rank over all epochs. -/
def sampleAt (rank m : ℕ) : ℕ :=
  (D.epochSeq rank (m / D.perRankLenPerEpoch)).getD (m % D.perRankLenPerEpoch) 0

theorem sampleAt_eq {rank : ℕ} (hrank : rank < D.numReplicas) (epochIdx : ℕ) {i : ℕ}
    (hi : i < D.perRankLenPerEpoch) :
    D.sampleAt rank (epochIdx * D.perRankLenPerEpoch + i) =
      (D.epochSeq rank epochIdx).get ⟨i, by rwa [D.length_epochSeq hrank]⟩ := by
  have hdiv : (epochIdx * D.perRankLenPerEpoch + i) / D.perRankLenPerEpoch = epochIdx := by
    rw [Nat.mul_comm, Nat.mul_add_div D.perRankLenPerEpoch_pos, Nat.div_eq_of_lt hi, Nat.add_zero]
  have hmod : (epochIdx * D.perRankLenPerEpoch + i) % D.perRankLenPerEpoch = i := by
    rw [Nat.mul_comm, Nat.mul_add_mod, Nat.mod_eq_of_lt hi]
  rw [sampleAt, hdiv, hmod]
  exact List.getD_eq_getElem _ _ (by rwa [D.length_epochSeq hrank])

/-- The stream of a rank is its slices of the epochs, in order. -/
theorem segment_sampleAt {rank : ℕ} (hrank : rank < D.numReplicas) (epochs : ℕ) :
    segment (D.sampleAt rank) 0 (epochs * D.perRankLenPerEpoch) =
      (List.range epochs).flatMap (D.epochSeq rank) := by
  induction epochs with
  | zero => rw [Nat.zero_mul, segment_zero, List.range_zero, List.flatMap_nil]
  | succ epochs ih =>
    have hlast : segment (D.sampleAt rank) (epochs * D.perRankLenPerEpoch) D.perRankLenPerEpoch =
        D.epochSeq rank epochs := by
      refine List.ext_getElem ?_ fun i hi _ => ?_
      · rw [length_segment, D.length_epochSeq hrank]
      · rw [length_segment] at hi
        rw [getElem_segment, D.sampleAt_eq hrank _ hi, List.get_eq_getElem]
    rw [Nat.succ_mul, segment_add, ih, Nat.zero_add, hlast, List.range_succ, List.flatMap_append,
      List.flatMap_singleton]

end DistributedData

/-- `StatelessResumableDistributedSampler` of one rank. -/
structure StatelessResumableDistributedSampler extends DistributedData where
  rank : ℕ
  startGlobalOffsetSamples : ℕ
  numSamples : Option ℕ
  rank_lt : rank < numReplicas

/-- Where the generator of `_iter_stream` stands: the epoch, and what is left of its sequence. -/
structure StreamCursor where
  epochIdx : ℕ
  rest : List ℕ

namespace StatelessResumableDistributedSampler
variable (S : StatelessResumableDistributedSampler)

/-- `__len__` -/
def len : ℕ :=
  match S.numSamples with
  | some numSamples => numSamples
  | none =>
    let mod := S.startGlobalOffsetSamples % S.perRankLenPerEpoch
    if mod ≠ 0 then S.perRankLenPerEpoch - mod else S.perRankLenPerEpoch

/-- `_iter_stream`, up to its first `yield`. -/
def iterStream : StreamCursor where
  epochIdx := S.startGlobalOffsetSamples / S.perRankLenPerEpoch
  rest := (S.epochSeq S.rank (S.startGlobalOffsetSamples / S.perRankLenPerEpoch)).drop
    (S.startGlobalOffsetSamples % S.perRankLenPerEpoch)

/-- `next` of the generator.  It would search forever in empty epochs (`none`). -/
def next (cursor : StreamCursor) : Option (ℕ × StreamCursor) :=
  match cursor.rest with
  | idx :: rest => some (idx, { cursor with rest })
  | [] =>
    match S.epochSeq S.rank (cursor.epochIdx + 1) with
    | idx :: rest => some (idx, ⟨cursor.epochIdx + 1, rest⟩)
    | [] => none

/-- The first values of the generator. -/
def nextN : ℕ → StreamCursor → List ℕ
  | 0, _ => []
  | n + 1, cursor =>
    match S.next cursor with
    | some (idx, cursor) => idx :: nextN n cursor
    | none => []

/-- `__iter__` -/
def iter : List ℕ := S.nextN S.len S.iterStream

/-- The cursor has the rank's sample number `m` before it. -/
def At (cursor : StreamCursor) (m : ℕ) : Prop :=
  ∃ i ≤ S.perRankLenPerEpoch, m = cursor.epochIdx * S.perRankLenPerEpoch + i ∧
    cursor.rest = (S.epochSeq S.rank cursor.epochIdx).drop i

theorem iterStream_at : S.At S.iterStream S.startGlobalOffsetSamples := by
  refine ⟨S.startGlobalOffsetSamples % S.perRankLenPerEpoch, ?_, ?_, rfl⟩
  · exact (Nat.mod_lt _ S.perRankLenPerEpoch_pos).le
  · exact (Nat.div_add_mod' ..).symm

theorem drop_epochSeq (epochIdx : ℕ) {i : ℕ} (hi : i < S.perRankLenPerEpoch) :
    (S.epochSeq S.rank epochIdx).drop i =
      S.sampleAt S.rank (epochIdx * S.perRankLenPerEpoch + i) ::
        (S.epochSeq S.rank epochIdx).drop (i + 1) := by
  rw [List.drop_eq_getElem_cons (by rwa [S.length_epochSeq S.rank_lt]),
    S.sampleAt_eq S.rank_lt epochIdx hi, List.get_eq_getElem]

/-- One `next` yields the sample the cursor stands at, within an epoch and over its end. -/
theorem next_at {cursor : StreamCursor} {m : ℕ} (h : S.At cursor m) :
    ∃ cursor', S.next cursor = some (S.sampleAt S.rank m, cursor') ∧ S.At cursor' (m + 1) := by
  obtain ⟨i, hi, hm, hrest⟩ := h
  rcases Nat.lt_or_eq_of_le hi with hlt | heq
  · rw [S.drop_epochSeq _ hlt, ← hm] at hrest
    refine ⟨⟨cursor.epochIdx, (S.epochSeq S.rank cursor.epochIdx).drop (i + 1)⟩, ?_, i + 1, hlt,
      congrArg (· + 1) hm, rfl⟩
    simp only [next, hrest]
  · have hnil : cursor.rest = [] := by
      rw [hrest, List.drop_eq_nil_iff, S.length_epochSeq S.rank_lt, heq]
    -- the next epoch starts here, and its sequence is not empty
    have hm' : (cursor.epochIdx + 1) * S.perRankLenPerEpoch = m := by
      rw [hm, heq, Nat.succ_mul]
    have hnext := S.drop_epochSeq (cursor.epochIdx + 1) S.perRankLenPerEpoch_pos
    rw [Nat.add_zero, hm', Nat.zero_add] at hnext
    refine ⟨⟨cursor.epochIdx + 1, (S.epochSeq S.rank (cursor.epochIdx + 1)).drop 1⟩, ?_, 1,
      S.perRankLenPerEpoch_pos, congrArg (· + 1) hm'.symm, rfl⟩
    rw [List.drop_zero] at hnext
    generalize (S.epochSeq S.rank (cursor.epochIdx + 1)).drop 1 = rest at hnext ⊢
    simp only [next, hnil, hnext, Nat.add_zero]

theorem nextN_at {cursor : StreamCursor} {m : ℕ} (h : S.At cursor m) (n : ℕ) :
    S.nextN n cursor = segment (S.sampleAt S.rank) m n := by
  induction n generalizing cursor m with
  | zero => rfl
  | succ n ih =>
    obtain ⟨cursor', hnext, hat⟩ := S.next_at h
    rw [nextN, hnext, segment_succ, ← ih hat]

/-- The sampler yields the segment of its rank's stream from its offset on. -/
theorem iter_eq_segment :
    S.iter = segment (S.sampleAt S.rank) S.startGlobalOffsetSamples S.len :=
  S.nextN_at S.iterStream_at S.len

end StatelessResumableDistributedSampler
end LatentSpec
