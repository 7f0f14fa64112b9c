import Mathlib.Algebra.Ring.Int.Defs
import Mathlib.Algebra.Order.Sub.Basic
import Mathlib.Data.Nat.ModEq
import LatentSpec.RowMaxima

/-! # The head of a vocabulary-parallel model

Every rank of a tensor-parallel group owns a block of the rows of `lm_head`: rows of the base
vocabulary, padding, rows of the added vocabulary, padding.  `VocabParallelHead` is a group whose
ranks own contiguous ascending ranges of token ids, some of them perhaps empty;
`VocabParallelEmbedding.head` is the one that `_get_indices` lays out.

A rank offers one of its tokens of maximal logit as its candidate, and an empty rank offers the
smallest number there is.  The first best candidate of the group is a token of maximal logit, and
the smallest one where no vocabulary was added (`isBestToken_of_candidates`).
-/
namespace LatentSpec
open RowMaxima

/-! ### Shard indices -/

/-- `VocabParallelEmbeddingShardIndices` with the sanity checks of `__post_init__`. -/
structure VocabParallelEmbeddingShardIndices where
  paddedOrgVocabStartIndex : ℕ
  paddedOrgVocabEndIndex : ℕ
  paddedAddedVocabStartIndex : ℕ
  paddedAddedVocabEndIndex : ℕ
  orgVocabStartIndex : ℕ
  orgVocabEndIndex : ℕ
  addedVocabStartIndex : ℕ
  addedVocabEndIndex : ℕ
  paddedOrg_le : paddedOrgVocabStartIndex ≤ paddedOrgVocabEndIndex
  paddedAdded_le : paddedAddedVocabStartIndex ≤ paddedAddedVocabEndIndex
  org_le : orgVocabStartIndex ≤ orgVocabEndIndex
  added_le : addedVocabStartIndex ≤ addedVocabEndIndex
  orgStart_le : orgVocabStartIndex ≤ paddedOrgVocabStartIndex
  addedStart_le : addedVocabStartIndex ≤ paddedAddedVocabStartIndex
  orgEnd_le : orgVocabEndIndex ≤ paddedOrgVocabEndIndex
  addedEnd_le : addedVocabEndIndex ≤ paddedAddedVocabEndIndex
  numOrg_le : orgVocabEndIndex - orgVocabStartIndex ≤
    paddedOrgVocabEndIndex - paddedOrgVocabStartIndex
  numAdded_le : addedVocabEndIndex - addedVocabStartIndex ≤
    paddedAddedVocabEndIndex - paddedAddedVocabStartIndex

namespace VocabParallelEmbeddingShardIndices
variable (shard : VocabParallelEmbeddingShardIndices)

def numOrgElements : ℕ := shard.orgVocabEndIndex - shard.orgVocabStartIndex

def numAddedElements : ℕ := shard.addedVocabEndIndex - shard.addedVocabStartIndex

def numOrgElementsPadded : ℕ := shard.paddedOrgVocabEndIndex - shard.paddedOrgVocabStartIndex

def numAddedElementsPadded : ℕ :=
  shard.paddedAddedVocabEndIndex - shard.paddedAddedVocabStartIndex

def numElementsPadded : ℕ := shard.numOrgElementsPadded + shard.numAddedElementsPadded

end VocabParallelEmbeddingShardIndices

/-- `pad_vocab_size` -/
def padVocabSize (vocabSize padTo : ℕ) : ℕ := (vocabSize + padTo - 1) / padTo * padTo

theorem le_padVocabSize {padTo : ℕ} (h : 0 < padTo) (vocabSize : ℕ) :
    vocabSize ≤ padVocabSize vocabSize padTo := by
  have hdiv := Nat.div_add_mod (vocabSize + padTo - 1) padTo
  have hmod := Nat.mod_lt (vocabSize + padTo - 1) h
  rw [Nat.mul_comm] at hdiv
  unfold padVocabSize
  omega

/-- `vocab_range_from_global_vocab_size` -/
def vocabRangeFromGlobalVocabSize (globalVocabSize rank worldSize offset : ℕ) : ℕ × ℕ :=
  let perPartitionVocabSize := globalVocabSize / worldSize
  let indexF := rank * perPartitionVocabSize
  (indexF + offset, indexF + perPartitionVocabSize + offset)

theorem vocabRange_le (globalVocabSize rank worldSize offset : ℕ) :
    (vocabRangeFromGlobalVocabSize globalVocabSize rank worldSize offset).1 ≤
      (vocabRangeFromGlobalVocabSize globalVocabSize rank worldSize offset).2 :=
  Nat.add_le_add_right (Nat.le_add_right _ _) _

theorem clipped_le {a b : ℕ} (bound : ℕ) (h : a ≤ b) : min b bound - min a bound ≤ b - a := by
  omega

/-- `_get_indices` -/
def getIndices (vocabSizePadded orgVocabSizePadded vocabSize orgVocabSize tpRank tpSize : ℕ) :
    VocabParallelEmbeddingShardIndices :=
  let numAddedEmbeddingsPadded := vocabSizePadded - orgVocabSizePadded
  let paddedOrg := vocabRangeFromGlobalVocabSize orgVocabSizePadded tpRank tpSize 0
  let paddedAdded :=
    vocabRangeFromGlobalVocabSize numAddedEmbeddingsPadded tpRank tpSize orgVocabSize
  { paddedOrgVocabStartIndex := paddedOrg.1
    paddedOrgVocabEndIndex := paddedOrg.2
    paddedAddedVocabStartIndex := paddedAdded.1
    paddedAddedVocabEndIndex := paddedAdded.2
    orgVocabStartIndex := min paddedOrg.1 orgVocabSize
    orgVocabEndIndex := min paddedOrg.2 orgVocabSize
    addedVocabStartIndex := min paddedAdded.1 vocabSize
    addedVocabEndIndex := min paddedAdded.2 vocabSize
    paddedOrg_le := vocabRange_le ..
    paddedAdded_le := vocabRange_le ..
    org_le := min_le_min_right _ (vocabRange_le ..)
    added_le := min_le_min_right _ (vocabRange_le ..)
    orgStart_le := Nat.min_le_left _ _
    addedStart_le := Nat.min_le_left _ _
    orgEnd_le := Nat.min_le_left _ _
    addedEnd_le := Nat.min_le_left _ _
    numOrg_le := clipped_le _ (vocabRange_le ..)
    numAdded_le := clipped_le _ (vocabRange_le ..) }

/-! ### The rows of a rank -/

/-- The head of one rank: `weight` has a row for every index, padding included. -/
structure VocabShard (W : Type*) where
  indices : VocabParallelEmbeddingShardIndices
  weight : List W
  length_weight : weight.length = indices.numElementsPadded

namespace VocabShard
variable {H W S : Type*} (shard : VocabShard W)

def numOrg : ℕ := shard.indices.numOrgElements

def numOrgPadded : ℕ := shard.indices.numOrgElementsPadded

def numAdded : ℕ := shard.indices.numAddedElements

/-- `weight[:num_org]` -/
def baseRows : List W := shard.weight.take shard.numOrg

/-- `weight[num_org_padded:num_org_padded + num_added]` -/
def addedRows : List W :=
  (shard.weight.take (shard.numOrgPadded + shard.numAdded)).drop shard.numOrgPadded

theorem numOrg_le_padded : shard.numOrg ≤ shard.numOrgPadded := shard.indices.numOrg_le

@[simp] theorem length_baseRows : shard.baseRows.length = shard.numOrg := by
  rw [baseRows, List.length_take, shard.length_weight, Nat.min_eq_left]
  exact shard.numOrg_le_padded.trans (Nat.le_add_right _ _)

@[simp] theorem length_addedRows : shard.addedRows.length = shard.numAdded := by
  have h : shard.numOrgPadded + shard.numAdded ≤ shard.weight.length := by
    rw [shard.length_weight]
    exact Nat.add_le_add_left shard.indices.numAdded_le _
  rw [addedRows, List.length_drop, List.length_take, Nat.min_eq_left h, Nat.add_sub_cancel_left]

variable (dot : H → W → S) (h : H)

/-- `torch.matmul(hs, rows.T)` for one hidden state. -/
def baseLogits : List S := shard.baseRows.map (dot h)

def addedLogits : List S := shard.addedRows.map (dot h)

@[simp] theorem length_baseLogits : (shard.baseLogits dot h).length = shard.numOrg := by
  rw [baseLogits, List.length_map, length_baseRows]

@[simp] theorem length_addedLogits : (shard.addedLogits dot h).length = shard.numAdded := by
  rw [addedLogits, List.length_map, length_addedRows]

end VocabShard

/-! ### The group -/

/-- A tensor-parallel group: the shards own contiguous ascending ranges of the base vocabulary,
and the added vocabulary follows it in the same order. -/
structure VocabParallelHead (W : Type*) where
  shards : List (VocabShard W)
  org_start : ∀ r shard, shards[r]? = some shard →
    shard.indices.orgVocabStartIndex = ((shards.take r).map VocabShard.numOrg).sum
  added_start : ∀ r shard, shards[r]? = some shard →
    shard.indices.addedVocabStartIndex = (shards.map VocabShard.numOrg).sum +
      ((shards.take r).map VocabShard.numAdded).sum

namespace VocabParallelHead
variable {H W S : Type*} (head : VocabParallelHead W)

def tpSize : ℕ := head.shards.length

/-- The size of the vocabulary without padding. -/
def vocabSize : ℕ :=
  (head.shards.map VocabShard.numOrg).sum + (head.shards.map VocabShard.numAdded).sum

/-- No rank owns a row of an added vocabulary. -/
def NoAdded : Prop := ∀ shard ∈ head.shards, shard.numAdded = 0

variable (dot : H → W → S) (h : H)

/-- The concatenated logits: entry `k` belongs to token `k`. -/
def logits : List S :=
  (head.shards.map (VocabShard.baseLogits · dot h)).flatten ++
    (head.shards.map (VocabShard.addedLogits · dot h)).flatten

@[simp] theorem length_logits : (head.logits dot h).length = head.vocabSize := by
  simp [logits, vocabSize, List.length_flatten, Function.comp_def]

theorem added_mem_logits {shard : VocabShard W} (hs : shard ∈ head.shards) {x : S}
    (hx : x ∈ shard.addedLogits dot h) : x ∈ head.logits dot h :=
  List.mem_append_right _ (List.mem_flatten.mpr ⟨_, List.mem_map_of_mem hs, hx⟩)

/-- Without added rows the logits are those of the base vocabulary. -/
theorem NoAdded.logits_eq (hna : head.NoAdded) :
    head.logits dot h = (head.shards.map (VocabShard.baseLogits · dot h)).flatten := by
  have hnil : (head.shards.map (VocabShard.addedLogits · dot h)).flatten = [] := by
    rw [List.flatten_eq_nil_iff]
    intro l hl
    obtain ⟨shard, hs, rfl⟩ := List.mem_map.mp hl
    rw [← List.length_eq_zero_iff, VocabShard.length_addedLogits, hna shard hs]
  rw [logits, hnil, List.append_nil]

variable {dot h} {r i : ℕ} {shard : VocabShard W} {m : S}

/-- Row `i` of the base rows of a rank is token `org_vocab_start + i`. -/
theorem logits_base (hr : head.shards[r]? = some shard)
    (hi : (shard.baseLogits dot h)[i]? = some m) :
    (head.logits dot h)[shard.indices.orgVocabStartIndex + i]? = some m := by
  have hrow : (head.shards.map (VocabShard.baseLogits · dot h))[r]? =
      some (shard.baseLogits dot h) := by rw [List.getElem?_map, hr, Option.map_some]
  have hflat := getElem?_flatten_take hrow hi
  have hlt := (List.getElem?_eq_some_iff.mp hflat).1
  rw [head.org_start r shard hr, logits]
  rw [← List.map_take, List.map_map] at hflat hlt
  simp only [Function.comp_def, VocabShard.length_baseLogits] at hflat hlt
  rw [List.getElem?_append_left hlt, hflat]

/-- Row `i` of the added rows of a rank is token `added_vocab_start + i`. -/
theorem logits_added (hr : head.shards[r]? = some shard)
    (hi : (shard.addedLogits dot h)[i]? = some m) :
    (head.logits dot h)[shard.indices.addedVocabStartIndex + i]? = some m := by
  have hrow : (head.shards.map (VocabShard.addedLogits · dot h))[r]? =
      some (shard.addedLogits dot h) := by rw [List.getElem?_map, hr, Option.map_some]
  have hflat := getElem?_flatten_take hrow hi
  have hlen : (head.shards.map (VocabShard.baseLogits · dot h)).flatten.length =
      (head.shards.map VocabShard.numOrg).sum := by
    simp [List.length_flatten, Function.comp_def]
  rw [head.added_start r shard hr, logits, List.getElem?_append_right (by omega), hlen,
    Nat.add_assoc, Nat.add_sub_cancel_left]
  rw [← List.map_take, List.map_map] at hflat
  simpa only [Function.comp_def, VocabShard.length_addedLogits] using hflat

end VocabParallelHead

/-! ### Candidates -/

section
variable {H W S : Type*} [LinearOrder S]

/-- The pair `(local_max, global_id)` of a rank: the first of its base tokens of maximal logit,
or an added token whose logit is maximal. -/
structure IsCandidate (dot : H → W → S) (finfoMin : S) (h : H) (shard : VocabShard W)
    (c : S × ℤ) : Prop where
  base_le : ∀ x ∈ shard.baseLogits dot h, x ≤ c.1
  added_le : ∀ x ∈ shard.addedLogits dot h, x ≤ c.1
  source : (shard.numOrg = 0 ∧ shard.numAdded = 0 ∧ c.1 = finfoMin) ∨
    (∃ i : ℕ, IsFirstMax (shard.baseLogits dot h) c.1 i ∧
      c.2 = (shard.indices.orgVocabStartIndex : ℤ) + i) ∨
    ∃ j : ℕ, (shard.addedLogits dot h)[j]? = some c.1 ∧
      c.2 = (shard.indices.addedVocabStartIndex : ℤ) + j

/-- `id` is a token of the vocabulary that attains the maximum of the concatenated logits, and
the smallest such token where no rank owns an added row. -/
def IsBestToken (head : VocabParallelHead W) (dot : H → W → S) (h : H) (id : ℤ) : Prop :=
  ∃ k : ℕ, id = k ∧ k < head.vocabSize ∧ (∃ m, IsMaxAt (head.logits dot h) m k) ∧
    (head.NoAdded → ∃ m, IsFirstMax (head.logits dot h) m k)

variable {head : VocabParallelHead W} {dot : H → W → S} {finfoMin : S} {h : H}

/-- Every logit of a token is above the minimum of the dtype. -/
def AboveMin (head : VocabParallelHead W) (dot : H → W → S) (finfoMin : S) (h : H) : Prop :=
  ∀ x ∈ head.logits dot h, finfoMin < x

/-- What the candidates bound segment by segment. -/
theorem forall₂_le {cs : List (S × ℤ)} {f : VocabShard W → List S}
    (hf : ∀ shard c, IsCandidate dot finfoMin h shard c → ∀ x ∈ f shard, x ≤ c.1)
    (hcs : List.Forall₂ (IsCandidate dot finfoMin h) head.shards cs) :
    List.Forall₂ (fun seg b => ∀ x ∈ seg, x ≤ b) (head.shards.map f) (cs.map Prod.fst) := by
  rw [List.forall₂_map_left_iff, List.forall₂_map_right_iff]
  exact hcs.imp fun shard c hc => hf shard c hc

/-- The best candidate bounds every logit. -/
theorem logits_le {cs : List (S × ℤ)} {m : S}
    (hcs : List.Forall₂ (IsCandidate dot finfoMin h) head.shards cs)
    (hm : ∀ b ∈ cs.map Prod.fst, b ≤ m) : ∀ x ∈ head.logits dot h, x ≤ m :=
  List.forall_mem_append.mpr
    ⟨le_of_candidates (forall₂_le (fun _ _ hc => hc.base_le) hcs) hm,
      le_of_candidates (forall₂_le (fun _ _ hc => hc.added_le) hcs) hm⟩

/-- **The first best candidate of a group.** -/
theorem isBestToken_of_candidates (hvocab : 0 < head.vocabSize)
    (habove : AboveMin head dot finfoMin h) {cs : List (S × ℤ)}
    (hcs : List.Forall₂ (IsCandidate dot finfoMin h) head.shards cs) {m : S} {r : ℕ}
    (hr : IsFirstMax (cs.map Prod.fst) m r) {c : S × ℤ} (hc : cs[r]? = some c) :
    IsBestToken head dot h c.2 := by
  have hle := logits_le hcs hr.le
  have hm : c.1 = m := by
    have hget := hr.getElem
    rw [List.getElem?_map, hc] at hget
    exact Option.some.inj hget
  obtain ⟨hrc, rfl⟩ := List.getElem?_eq_some_iff.mp hc
  have hrs : r < head.shards.length := hcs.length_eq ▸ hrc
  have hshard : head.shards[r]? = some head.shards[r] := List.getElem?_eq_getElem hrs
  obtain ⟨-, -, hsource⟩ : IsCandidate dot finfoMin h head.shards[r] cs[r] := hcs.get hrs hrc
  rcases hsource with ⟨-, -, hmin⟩ | ⟨i, hi, hid⟩ | ⟨j, hj, hid⟩
  · -- an empty rank is beaten by any rank that has a token
    rw [← head.length_logits dot h] at hvocab
    obtain ⟨x, hx⟩ := List.exists_mem_of_length_pos hvocab
    have hlt := (habove x hx).trans_le (hle x hx)
    rw [← hm, hmin] at hlt
    exact absurd hlt (lt_irrefl _)
  · have hget := head.logits_base hshard hi.getElem
    have hlt := (List.getElem?_eq_some_iff.mp hget).1
    rw [head.length_logits] at hlt
    refine ⟨_, by rw [hid, Nat.cast_add], hlt, ⟨_, hget, hm ▸ hle⟩, fun hna => ⟨m, ?_⟩⟩
    -- the base segments are the whole row
    have hflat := IsFirstMax.flatten (forall₂_le (fun _ _ hc => hc.base_le) hcs) hr
      (by rw [List.getElem?_map, hshard]; rfl) (hm ▸ hi)
    rw [hna.logits_eq, head.org_start r _ hshard]
    rw [← List.map_take, List.map_map] at hflat
    simpa only [Function.comp_def, VocabShard.length_baseLogits] using hflat
  · have hget := head.logits_added hshard hj
    have hlt := (List.getElem?_eq_some_iff.mp hget).1
    rw [head.length_logits] at hlt
    refine ⟨_, by rw [hid, Nat.cast_add], hlt, ⟨_, hget, hm ▸ hle⟩, fun hna => ?_⟩
    have hlen := (List.getElem?_eq_some_iff.mp hj).1
    rw [VocabShard.length_addedLogits, hna _ (List.getElem_mem hrs)] at hlen
    exact absurd hlen (Nat.not_lt_zero _)

/-- The candidate of a rank that is alone. -/
theorem isBestToken_of_single (hvocab : 0 < head.vocabSize)
    (habove : AboveMin head dot finfoMin h) {shard : VocabShard W} (hone : head.shards = [shard])
    {c : S × ℤ} (hc : IsCandidate dot finfoMin h shard c) : IsBestToken head dot h c.2 := by
  have hcs : List.Forall₂ (IsCandidate dot finfoMin h) head.shards [c] := by
    rw [hone]
    exact .cons hc .nil
  exact isBestToken_of_candidates hvocab habove hcs (.cons_of_le (by simp)) rfl

end

/-! ### The layout of an embedding -/

/-- `VocabParallelEmbedding` with the checks of its constructor. -/
structure VocabParallelEmbedding where
  numEmbeddings : ℕ
  orgVocabSize : ℕ
  paddingSize : ℕ
  tpSize : ℕ
  org_le : orgVocabSize ≤ numEmbeddings
  padding_pos : 0 < paddingSize
  tp_pos : 0 < tpSize
  divide_org : tpSize ∣ padVocabSize orgVocabSize paddingSize
  divide_added : tpSize ∣ padVocabSize (padVocabSize orgVocabSize paddingSize +
    (numEmbeddings - orgVocabSize)) paddingSize - padVocabSize orgVocabSize paddingSize

namespace VocabParallelEmbedding
variable (e : VocabParallelEmbedding)

def orgVocabSizePadded : ℕ := padVocabSize e.orgVocabSize e.paddingSize

def numEmbeddingsPadded : ℕ :=
  padVocabSize (e.orgVocabSizePadded + (e.numEmbeddings - e.orgVocabSize)) e.paddingSize

/-- The shard indices of a rank. -/
def shardIndices (tpRank : ℕ) : VocabParallelEmbeddingShardIndices :=
  getIndices e.numEmbeddingsPadded e.orgVocabSizePadded e.numEmbeddings e.orgVocabSize tpRank
    e.tpSize

/-- Every rank has the same number of rows, as the constructor asserts. -/
theorem numElementsPadded_shardIndices (tpRank : ℕ) :
    (e.shardIndices tpRank).numElementsPadded = e.numEmbeddingsPadded / e.tpSize := by
  have hle : e.orgVocabSizePadded ≤ e.numEmbeddingsPadded :=
    (Nat.le_add_right _ _).trans (le_padVocabSize e.padding_pos _)
  have hdiv := Nat.add_div_of_dvd_right (b := e.numEmbeddingsPadded - e.orgVocabSizePadded)
    e.divide_org
  change (e.orgVocabSizePadded + (e.numEmbeddingsPadded - e.orgVocabSizePadded)) / e.tpSize =
    e.orgVocabSizePadded / e.tpSize + _ at hdiv
  rw [Nat.add_sub_cancel' hle] at hdiv
  have hspan : ∀ a p off : ℕ, a + p + off - (a + off) = p := by omega
  rw [hdiv]
  exact congrArg₂ (· + ·) (hspan ..) (hspan ..)

/-- Cutting `[off, off + n)` at the multiples of `p` leaves pieces that add up. -/
theorem sum_clipped (p off n r : ℕ) :
    ((List.range r).map fun q =>
      min (q * p + p + off) (off + n) - min (q * p + off) (off + n)).sum =
      min (r * p + off) (off + n) - off := by
  induction r with
  | zero => simp
  | succ r ih =>
    rw [List.range_succ, List.map_append, List.sum_append, ih, Nat.succ_mul]
    simp only [List.map_cons, List.map_nil, List.sum_cons, List.sum_nil]
    omega

theorem sum_numOrg (r : ℕ) :
    ((List.range r).map fun q => (e.shardIndices q).numOrgElements).sum =
      (e.shardIndices r).orgVocabStartIndex := by
  have h := sum_clipped (e.orgVocabSizePadded / e.tpSize) 0 e.orgVocabSize r
  rw [Nat.zero_add, Nat.sub_zero] at h
  exact h

theorem sum_numAdded (r : ℕ) :
    e.orgVocabSize + ((List.range r).map fun q => (e.shardIndices q).numAddedElements).sum =
      (e.shardIndices r).addedVocabStartIndex := by
  have h := sum_clipped ((e.numEmbeddingsPadded - e.orgVocabSizePadded) / e.tpSize)
    e.orgVocabSize (e.numEmbeddings - e.orgVocabSize) r
  rw [Nat.add_sub_cancel' e.org_le] at h
  have hsum : ((List.range r).map fun q => (e.shardIndices q).numAddedElements).sum =
      (e.shardIndices r).addedVocabStartIndex - e.orgVocabSize := h
  rw [hsum]
  exact Nat.add_sub_cancel' (Nat.le_min.mpr ⟨Nat.le_add_left _ _, e.org_le⟩)

/-- The shards own the whole base vocabulary. -/
theorem sum_numOrg_tpSize :
    ((List.range e.tpSize).map fun q => (e.shardIndices q).numOrgElements).sum =
      e.orgVocabSize := by
  have hle : e.orgVocabSize ≤ e.orgVocabSizePadded := le_padVocabSize e.padding_pos _
  have hdiv : e.tpSize * (e.orgVocabSizePadded / e.tpSize) = e.orgVocabSizePadded :=
    Nat.mul_div_cancel' e.divide_org
  rw [e.sum_numOrg]
  change min (e.tpSize * (e.orgVocabSizePadded / e.tpSize) + 0) e.orgVocabSize = _
  omega

/-- The group of heads whose rows are `weights`. -/
def head {W : Type*} (weights : ℕ → List W)
    (hweights : ∀ r, (weights r).length = (e.shardIndices r).numElementsPadded) :
    VocabParallelHead W where
  shards := (List.range e.tpSize).map fun r => ⟨e.shardIndices r, weights r, hweights r⟩
  org_start := by
    rintro r shard hr
    obtain ⟨q, hq, rfl⟩ := List.getElem?_map .. ▸ hr |> Option.map_eq_some_iff.mp
    obtain ⟨hlt, rfl⟩ := List.getElem?_eq_some_iff.mp hq
    rw [List.getElem_range, ← List.map_take, List.map_map, List.take_range]
    rw [List.length_range] at hlt
    rw [Nat.min_eq_left hlt.le, ← e.sum_numOrg]
    rfl
  added_start := by
    rintro r shard hr
    obtain ⟨q, hq, rfl⟩ := List.getElem?_map .. ▸ hr |> Option.map_eq_some_iff.mp
    obtain ⟨hlt, rfl⟩ := List.getElem?_eq_some_iff.mp hq
    rw [List.length_range] at hlt
    rw [List.getElem_range, ← List.map_take, List.map_map, List.map_map, List.take_range,
      Nat.min_eq_left hlt.le]
    change _ = ((List.range e.tpSize).map fun q => (e.shardIndices q).numOrgElements).sum + _
    rw [e.sum_numOrg_tpSize, ← e.sum_numAdded]
    rfl

end VocabParallelEmbedding

end LatentSpec
