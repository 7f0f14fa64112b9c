import LatentSpec.VocabParallelHead

/-! # Greedy draft sampling over a vocabulary-parallel head

`_greedy_sample_from_vocab_parallel_head` takes the hidden states chunk by chunk.  For each of
them a rank reduces its base rows and its added rows, the padding between them left out, and
turns the place of the maximum into a token id; the maxima and the ids of all ranks are gathered
and the first best rank wins.  `_DflashDraftSampler` is the part of it that is captured in the
draft graph: no added rows, no chunks, and the anchor position of each block skipped.

Both return a token of maximal logit, the smallest one where no vocabulary was added, for every
number of ranks and every size of a chunk (`greedy_sampling_full_argmax`).
-/
namespace LatentSpec
open RowMaxima

section
variable {H W : Type*} {S : Type} [LinearOrder S]

/-- `torch.max(logits, dim=-1)` on one row -/
def torchMax (logits : List S) : Except String (S × ℕ) :=
  match firstMax logits with
  | some best => .ok best
  | none => .error "max(): Expected reduction dim 1 to have non-zero size."

theorem exists_torchMax (logits : List S) (h : 0 < logits.length) :
    ∃ m i, torchMax logits = .ok (m, i) ∧ IsFirstMax logits m i := by
  obtain ⟨m, i, hmi, hmax⟩ := exists_firstMax (List.ne_nil_of_length_pos h)
  exact ⟨m, i, by rw [torchMax, hmi], hmax⟩

/-! ### A rank -/

namespace VocabShard
variable (shard : VocabShard W) (dot : H → W → S) (finfoMin : S) (h : H)

/-- The maximum over the base rows; a rank without any starts from `torch.finfo(dtype).min`. -/
def baseReduce : Except String (S × ℕ) :=
  if 0 < shard.numOrg then torchMax (shard.baseLogits dot h) else .ok (finfoMin, 0)

/-- `local_max` and `local_arg`, an index into the rows of the rank, padding included. -/
def localReduce : Except String (S × ℕ) := do
  let (localMax, localArg) ← shard.baseReduce dot finfoMin h
  if 0 < shard.numAdded then
    let (addedMax, addedArg) ← torchMax (shard.addedLogits dot h)
    if localMax < addedMax then
      return (addedMax, addedArg + shard.numOrgPadded)
  return (localMax, localArg)

/-- The token id of a local index. -/
def globalId (localArg : ℕ) : ℤ :=
  if shard.numAdded = 0 then
    shard.indices.orgVocabStartIndex + localArg
  else if localArg < shard.numOrg then
    shard.indices.orgVocabStartIndex + localArg
  else
    shard.indices.addedVocabStartIndex + ((localArg : ℤ) - shard.numOrgPadded)

/-- What the rank hands to the gather. -/
def localBest : Except String (S × ℤ) := do
  let (localMax, localArg) ← shard.localReduce dot finfoMin h
  return (localMax, shard.globalId localArg)

variable {shard dot finfoMin h}

theorem globalId_base {i : ℕ} (hi : i < shard.numOrg) :
    shard.globalId i = (shard.indices.orgVocabStartIndex : ℤ) + i := by
  unfold globalId
  split_ifs <;> rfl

/-- Padding separates the added rows from the base rows. -/
theorem globalId_added {j : ℕ} (hpos : shard.numAdded ≠ 0) :
    shard.globalId (j + shard.numOrgPadded) = (shard.indices.addedVocabStartIndex : ℤ) + j := by
  have hle := shard.numOrg_le_padded
  rw [globalId, if_neg hpos, if_neg (by omega)]
  push_cast
  omega

variable (shard dot finfoMin h) in
theorem exists_baseReduce : ∃ m i, shard.baseReduce dot finfoMin h = .ok (m, i) ∧
    ((shard.numOrg = 0 ∧ m = finfoMin ∧ i = 0) ∨ IsFirstMax (shard.baseLogits dot h) m i) := by
  rcases Nat.eq_zero_or_pos shard.numOrg with hzero | hpos
  · exact ⟨finfoMin, 0, by rw [baseReduce, if_neg (by omega)], .inl ⟨hzero, rfl, rfl⟩⟩
  · obtain ⟨m, i, hmi, hmax⟩ := exists_torchMax (shard.baseLogits dot h) (by simpa)
    exact ⟨m, i, by rw [baseReduce, if_pos hpos, hmi], .inr hmax⟩

/-- A candidate from the base rows: no added row is better. -/
theorem isCandidate_base {m : S} {i : ℕ}
    (hbase : (shard.numOrg = 0 ∧ m = finfoMin ∧ i = 0) ∨ IsFirstMax (shard.baseLogits dot h) m i)
    (hadded : ∀ x ∈ shard.addedLogits dot h, x ≤ m)
    (habove : ∀ x ∈ shard.addedLogits dot h, finfoMin < x) :
    IsCandidate dot finfoMin h shard (m, shard.globalId i) := by
  rcases hbase with ⟨hzero, rfl, rfl⟩ | hmax
  · have hnil : shard.baseLogits dot h = [] := by
      rw [← List.length_eq_zero_iff, length_baseLogits, hzero]
    have hna : shard.addedLogits dot h = [] := by
      rw [List.eq_nil_iff_forall_not_mem]
      exact fun x hx => absurd (habove x hx) (not_lt.mpr (hadded x hx))
    refine ⟨by simp [hnil], hadded, .inl ⟨hzero, ?_, rfl⟩⟩
    rw [← length_addedLogits shard dot h, hna, List.length_nil]
  · have hlt := hmax.lt_length
    rw [length_baseLogits] at hlt
    exact ⟨hmax.le, hadded, .inr (.inl ⟨i, hmax, globalId_base hlt⟩)⟩

/-- A rank hands a candidate to the gather. -/
theorem localBest_spec (habove : ∀ x ∈ shard.addedLogits dot h, finfoMin < x) :
    ∃ c, shard.localBest dot finfoMin h = .ok c ∧ IsCandidate dot finfoMin h shard c := by
  obtain ⟨m, i, hmi, hbase⟩ := exists_baseReduce shard dot finfoMin h
  unfold localBest localReduce
  rw [hmi]
  rcases Nat.eq_zero_or_pos shard.numAdded with hzero | hpos
  · have hna : shard.addedLogits dot h = [] := by
      rw [← List.length_eq_zero_iff, length_addedLogits, hzero]
    refine ⟨(m, shard.globalId i), ?_, isCandidate_base hbase (by simp [hna]) habove⟩
    simp [hzero, bind, Except.bind, pure, Except.pure]
  · obtain ⟨m', j, hmj, hmax⟩ := exists_torchMax (shard.addedLogits dot h) (by simpa)
    by_cases hlt : m < m'
    · -- the added rows win; the base rows are bounded by their own maximum
      refine ⟨(m', shard.globalId (j + shard.numOrgPadded)), ?_, ?_, hmax.le,
        .inr (.inr ⟨j, hmax.getElem, globalId_added hpos.ne'⟩)⟩
      · simp [hpos, hmj, hlt, bind, Except.bind, pure, Except.pure]
      · rintro x hx
        rcases hbase with ⟨hzero, -, -⟩ | hbase
        · have hlen := List.length_pos_of_mem hx
          rw [length_baseLogits, hzero] at hlen
          exact absurd hlen (Nat.lt_irrefl 0)
        · exact (hbase.le x hx).trans hlt.le
    · refine ⟨(m, shard.globalId i), ?_,
        isCandidate_base hbase (fun x hx => (hmax.le x hx).trans (not_lt.mp hlt)) habove⟩
      simp [hpos, hmj, hlt, bind, Except.bind, pure, Except.pure]

end VocabShard

/-! ### The gather -/

/-- `best_rank` and `selected_ids` of one token: the `argmax` of the viewed maxima over the
ranks, and the id that this rank gathered. -/
def selectedId (gatheredMax : List S) (gatheredIds : List ℤ) (tpSize n t : ℕ) :
    Except String ℤ := do
  let (_, bestRank) ← torchMax (column gatheredMax tpSize n t)
  match gatheredIds[bestRank * n + t]? with
  | some id => return id
  | none => throw "gather(): index out of bounds"

/-- The gather of `n` candidates from each rank. -/
def selectAcrossRanks (n : ℕ) (best : List (List (S × ℤ))) : Except String (List ℤ) :=
  let gatheredMax := (best.map (List.map Prod.fst)).flatten
  let gatheredIds := (best.map (List.map Prod.snd)).flatten
  (List.range n).mapM (selectedId gatheredMax gatheredIds best.length n)

section
variable {R : Type*} {C : H → R → S × ℤ → Prop} {Q : H → ℤ → Prop} {chunk : List H}
  {ranks : List R} {best : List (List (S × ℤ))}

/-- The first best of the candidates that the ranks have for a hidden state. -/
theorem selectedId_spec (hne : ranks ≠ [])
    (hbest : List.Forall₂ (fun rank b => List.Forall₂ (C · rank) chunk b) ranks best)
    {t : ℕ} (ht : t < chunk.length) :
    ∃ cs m r c, List.Forall₂ (C (chunk.get ⟨t, ht⟩)) ranks cs ∧
      IsFirstMax (cs.map Prod.fst) m r ∧ cs[r]? = some c ∧
      selectedId (best.map (List.map Prod.fst)).flatten (best.map (List.map Prod.snd)).flatten
        best.length chunk.length t = .ok c.2 := by
  have hlen : ∀ b ∈ best, b.length = chunk.length := by
    rintro b hb
    obtain ⟨r, hr, rfl⟩ := List.mem_iff_getElem.mp hb
    exact (hbest.get (hbest.length_eq ▸ hr) hr).length_eq.symm
  have hcol := column_flatten hlen ht
  have hcs : List.Forall₂ (C (chunk.get ⟨t, ht⟩)) ranks
      (column best.flatten best.length chunk.length t) :=
    forall₂_comp hbest hcol fun rank b c hb hc =>
      forall₂_getElem? hb (List.getElem?_eq_getElem ht) hc
  have hpos : 0 < (column (best.flatten.map Prod.fst) best.length chunk.length t).length := by
    rw [column_map, List.length_map, ← hcs.length_eq]
    exact List.length_pos_of_ne_nil hne
  obtain ⟨m, r, hmr, hmax⟩ := exists_torchMax _ hpos
  rw [column_map] at hmax
  -- the selected rank and its candidate
  have hr := hmax.lt_length
  rw [List.length_map] at hr
  have hr' : r < best.length := hcol.length_eq ▸ hr
  have hget := getElem?_flatten hlen (List.getElem?_eq_getElem hr') (hcol.get hr' hr)
  refine ⟨_, m, r, _, hcs, hmax, List.getElem?_eq_getElem hr, ?_⟩
  rw [selectedId, ← List.map_flatten, hmr, ← List.map_flatten]
  simp only [bind, Except.bind, List.getElem?_map, hget, Option.map_some]
  rfl

theorem selectAcrossRanks_spec (hne : ranks ≠ [])
    (hbest : List.Forall₂ (fun rank b => List.Forall₂ (C · rank) chunk b) ranks best)
    (hQ : ∀ h ∈ chunk, ∀ cs, List.Forall₂ (C h) ranks cs → ∀ m r c,
      IsFirstMax (cs.map Prod.fst) m r → cs[r]? = some c → Q h c.2) :
    ∃ out, selectAcrossRanks chunk.length best = .ok out ∧ List.Forall₂ Q chunk out := by
  obtain ⟨out, hout, hQs⟩ := exists_mapM (List.range chunk.length)
    (P := fun t id => ∀ h, chunk[t]? = some h → Q h id)
    (f := selectedId (best.map (List.map Prod.fst)).flatten
      (best.map (List.map Prod.snd)).flatten best.length chunk.length) fun t ht => by
    rw [List.mem_range] at ht
    obtain ⟨cs, m, r, c, hcs, hmax, hc, hok⟩ := selectedId_spec hne hbest ht
    refine ⟨c.2, hok, fun h hh => ?_⟩
    obtain rfl : chunk.get ⟨t, ht⟩ = h :=
      Option.some.inj ((List.getElem?_eq_getElem ht).symm.trans hh)
    exact hQ _ (List.get_mem _ _) cs hcs m r c hmax hc
  exact ⟨out, hout, forall₂_of_range hQs⟩

end

/-! ### The eager path -/

/-- `lm_head` as the worker sees it: packed, with a kernel of its own; dense without shard
indices; or dense and sharded. -/
inductive LmHead (H W S : Type*)
  | quantized (tpSize orgVocabSize : ℕ) (apply : H → List S)
  | dense (weight : List W)
  | sharded (head : VocabParallelHead W) (shard : VocabShard W)

/-- `out_tokens`, filled by `for start in range(0, num_tokens, chunk_size)`. -/
def fillOutTokens (chunkSize : ℕ) (sample : List H → Except String (List ℤ))
    (hiddenStates : List H) : Except String (List ℤ) :=
  if chunkSize = 0 then
    .error "range() arg 3 must not be zero"
  else
    chunkLoop chunkSize sample hiddenStates (List.replicate hiddenStates.length 0)

/-- `torch.argmax(logits, dim=-1)` on one row -/
def argmaxToken (logits : List S) : Except String ℤ := do
  let (_, arg) ← torchMax logits
  return (arg : ℤ)

/-- The logits of a packed head without its padding; `org_vocab_size` is `0` where the head does
not have it. -/
def realLogits (orgVocabSize : ℕ) (logits : List S) : List S :=
  if orgVocabSize ≠ 0 ∧ orgVocabSize < logits.length then logits.take orgVocabSize else logits

/-- `_greedy_sample_from_quantized_head` -/
def greedySampleFromQuantizedHead (tpSize orgVocabSize : ℕ) (apply : H → List S)
    (hiddenStates : List H) (chunkSize : ℕ) : Except String (List ℤ) :=
  if tpSize ≠ 1 then
    .error ("DFLASH with a quantized target lm_head is only supported at tp=1, " ++
      s!"got tp_size={tpSize}.")
  else
    fillOutTokens chunkSize (fun chunk => chunk.mapM fun h =>
      argmaxToken (realLogits orgVocabSize (apply h))) hiddenStates

/-- One rank and no added vocabulary: the maximum needs no exchange. -/
def VocabShard.sampleFast (shard : VocabShard W) (dot : H → W → S) (chunk : List H) :
    Except String (List ℤ) :=
  if 0 < shard.numOrg then
    chunk.mapM fun h => do
      let (_, localArg) ← torchMax (shard.baseLogits dot h)
      return (localArg : ℤ) + shard.indices.orgVocabStartIndex
  else
    .ok (List.replicate chunk.length 0)

/-- The general case of one chunk. -/
def VocabParallelHead.sampleChunk (head : VocabParallelHead W) (dot : H → W → S) (finfoMin : S)
    (shard : VocabShard W) (chunk : List H) : Except String (List ℤ) :=
  if head.tpSize = 1 then do
    let best ← chunk.mapM (shard.localBest dot finfoMin)
    return best.map Prod.snd
  else do
    let best ← head.shards.mapM fun s => chunk.mapM (s.localBest dot finfoMin)
    selectAcrossRanks chunk.length best

/-- `_greedy_sample_from_vocab_parallel_head` on the rank that owns `shard`. -/
def greedySampleFromVocabParallelHead (dot : H → W → S) (finfoMin : S) (lmHead : LmHead H W S)
    (hiddenStates : List H) (chunkSize : ℕ) : Except String (List ℤ) :=
  if hiddenStates = [] then
    .ok []
  else match lmHead with
  | .quantized tpSize orgVocabSize apply =>
    greedySampleFromQuantizedHead tpSize orgVocabSize apply hiddenStates chunkSize
  | .dense weight =>
    fillOutTokens chunkSize (fun chunk => chunk.mapM fun h => argmaxToken (weight.map (dot h)))
      hiddenStates
  | .sharded head shard =>
    if head.tpSize = 1 ∧ shard.numAdded = 0 then
      fillOutTokens (max chunkSize 1024) (shard.sampleFast dot) hiddenStates
    else
      fillOutTokens chunkSize (head.sampleChunk dot finfoMin shard) hiddenStates

theorem fillOutTokens_spec {chunkSize : ℕ} (hchunk : 0 < chunkSize)
    {sample : List H → Except String (List ℤ)} {hiddenStates : List H} {Q : H → ℤ → Prop}
    (hsample : ∀ chunk, (∀ h ∈ chunk, h ∈ hiddenStates) →
      ∃ ys, sample chunk = .ok ys ∧ List.Forall₂ Q chunk ys) :
    ∃ out, fillOutTokens chunkSize sample hiddenStates = .ok out ∧
      List.Forall₂ Q hiddenStates out := by
  rw [fillOutTokens, if_neg (by omega)]
  exact chunkLoop_spec hchunk hsample (List.length_replicate ..)

section
variable {head : VocabParallelHead W} {dot : H → W → S} {finfoMin : S} {shard : VocabShard W}
  {chunk : List H}

theorem sampleFast_spec (hvocab : 0 < head.vocabSize) (hone : head.shards = [shard])
    (hna : shard.numAdded = 0) (habove : ∀ h ∈ chunk, AboveMin head dot finfoMin h) :
    ∃ out, shard.sampleFast dot chunk = .ok out ∧
      List.Forall₂ (IsBestToken head dot) chunk out := by
  have hpos : 0 < shard.numOrg := by simpa [VocabParallelHead.vocabSize, hone, hna] using hvocab
  rw [VocabShard.sampleFast, if_pos hpos]
  refine exists_mapM _ fun h hh => ?_
  obtain ⟨m, i, hmi, hmax⟩ := exists_torchMax (shard.baseLogits dot h) (by simpa)
  refine ⟨_, by rw [hmi]; rfl, ?_⟩
  have hnil : shard.addedLogits dot h = [] := by
    rw [← List.length_eq_zero_iff, VocabShard.length_addedLogits, hna]
  have hc : IsCandidate dot finfoMin h shard (m, (i : ℤ) + shard.indices.orgVocabStartIndex) :=
    ⟨hmax.le, by simp [hnil], .inr (.inl ⟨i, hmax, Int.add_comm _ _⟩)⟩
  exact isBestToken_of_single hvocab (habove h hh) hone hc

theorem sampleChunk_spec (hvocab : 0 < head.vocabSize) (hs : shard ∈ head.shards)
    (habove : ∀ h ∈ chunk, AboveMin head dot finfoMin h) :
    ∃ out, head.sampleChunk dot finfoMin shard chunk = .ok out ∧
      List.Forall₂ (IsBestToken head dot) chunk out := by
  have hlocal : ∀ s ∈ head.shards, ∀ h ∈ chunk,
      ∃ c, s.localBest dot finfoMin h = .ok c ∧ IsCandidate dot finfoMin h s c :=
    fun s hs h hh => VocabShard.localBest_spec fun x hx =>
      habove h hh x (head.added_mem_logits dot h hs hx)
  unfold VocabParallelHead.sampleChunk
  split_ifs with htp
  · -- a rank alone returns its own candidates
    obtain ⟨s, hone⟩ := List.length_eq_one_iff.mp htp
    obtain rfl : shard = s := by simpa [hone] using hs
    obtain ⟨best, hbest, hcs⟩ := exists_mapM chunk (P := fun h c => h ∈ chunk ∧
      IsCandidate dot finfoMin h shard c) fun h hh => by
        obtain ⟨c, hok, hc⟩ := hlocal shard hs h hh
        exact ⟨c, hok, hh, hc⟩
    refine ⟨best.map Prod.snd, by rw [hbest]; rfl, List.forall₂_map_right_iff.mpr ?_⟩
    exact hcs.imp fun h c hc => isBestToken_of_single hvocab (habove h hc.1) hone hc.2
  · obtain ⟨best, hbest, hcs⟩ := exists_mapM head.shards
      (P := fun s b => List.Forall₂ (fun h c => IsCandidate dot finfoMin h s c) chunk b)
      fun s hs => exists_mapM _ fun h hh => hlocal s hs h hh
    rw [hbest]
    refine selectAcrossRanks_spec (List.ne_nil_of_mem hs) hcs ?_
    intro h hh cs hcs m r c hmax hc
    exact isBestToken_of_candidates hvocab (habove h hh) hcs hmax hc

/-- **The eager path returns the best token.** -/
theorem greedySample_spec (hvocab : 0 < head.vocabSize) (hs : shard ∈ head.shards)
    {hiddenStates : List H} (habove : ∀ h ∈ hiddenStates, AboveMin head dot finfoMin h)
    {chunkSize : ℕ} (hchunk : 0 < chunkSize) :
    ∃ out, greedySampleFromVocabParallelHead dot finfoMin (.sharded head shard) hiddenStates
        chunkSize = .ok out ∧ List.Forall₂ (IsBestToken head dot) hiddenStates out := by
  unfold greedySampleFromVocabParallelHead
  split_ifs with hnil
  · subst hnil
    exact ⟨[], rfl, .nil⟩
  · dsimp only
    split_ifs with hfast
    · obtain ⟨s, hone⟩ := List.length_eq_one_iff.mp hfast.1
      obtain rfl : shard = s := by simpa [hone] using hs
      exact fillOutTokens_spec (by omega) fun chunk hsub =>
        sampleFast_spec hvocab hone hfast.2 fun h hh => habove h (hsub h hh)
    · exact fillOutTokens_spec hchunk fun chunk hsub =>
        sampleChunk_spec hvocab hs fun h hh => habove h (hsub h hh)

end

/-! ### The captured path -/

/-- `_DflashDraftSampler` on one rank, with the checks of its constructor. -/
structure DflashDraftSampler (W : Type*) where
  weight : List W
  blockSize : ℕ
  predictionHiddenStart : ℕ
  numOrg : ℕ
  orgVocabStart : ℕ
  maxBs : ℕ
  start_le_one : predictionHiddenStart ≤ 1
  start_le_block : predictionHiddenStart ≤ blockSize

namespace DflashDraftSampler

/-- `__init__` -/
def init (weight : List W) (blockSize numOrg orgVocabStart maxBs predictionHiddenStart : ℕ) :
    Except String (DflashDraftSampler W) :=
  if hstart : predictionHiddenStart ≤ 1 then
    if hblock : predictionHiddenStart ≤ blockSize then
      .ok { weight, blockSize, predictionHiddenStart, numOrg, orgVocabStart, maxBs,
            start_le_one := hstart, start_le_block := hblock }
    else
      .error ("DFLASH sampler prediction_hidden_start must not exceed block_size, got " ++
        s!"{predictionHiddenStart} and {blockSize}.")
  else
    .error "DFLASH sampler prediction_hidden_start must be 0 or 1."

/-- The greedy branch of `_maybe_build_draft_sampler` for a sharded head; `none` keeps the head
eager. -/
def maybeBuild (shard : VocabShard W) (draftInputSize predictionHiddenStart maxBs : ℕ) :
    Except String (Option (DflashDraftSampler W)) :=
  if draftInputSize - predictionHiddenStart < 1 then
    .ok none
  else if shard.numAdded ≠ 0 then
    .ok none
  else
    some <$> init shard.weight draftInputSize shard.numOrg shard.indices.orgVocabStartIndex maxBs
      predictionHiddenStart

variable (s : DflashDraftSampler W)

def numPredictions : ℕ := s.blockSize - s.predictionHiddenStart

/-- The size of the static buffers. -/
def maxTokens : ℕ := s.maxBs * s.numPredictions

/-- `hidden_states.view(bs, block_size, -1)[b, start:end, :]` -/
def blockHidden (hiddenStates : List H) (b : ℕ) : List H :=
  (((hiddenStates.drop (b * s.blockSize)).take s.blockSize).take
    (s.predictionHiddenStart + s.numPredictions)).drop s.predictionHiddenStart

/-- `hs`, the hidden states that are predicted from. -/
def predictionHidden (hiddenStates : List H) : List H :=
  ((List.range (hiddenStates.length / s.blockSize)).map (s.blockHidden hiddenStates)).flatten

/-- The maximum over `weight[:num_org]` and its token id. -/
def localBest (dot : H → W → S) (h : H) : Except String (S × ℤ) := do
  let (localMax, localArg) ← torchMax ((s.weight.take s.numOrg).map (dot h))
  return (localMax, (localArg : ℤ) + s.orgVocabStart)

/-- `__call__` on one rank of the group; `out` is the static result buffer. -/
def call (dot : H → W → S) (group : List (DflashDraftSampler W)) (hiddenStates : List H)
    (out : List ℤ) : Except String (List ℤ) :=
  if s.blockSize = 0 then
    .error "integer division or modulo by zero"
  else if hiddenStates.length / s.blockSize * s.blockSize ≠ hiddenStates.length then
    .error "view(): shape is invalid"
  else
    let hs := s.predictionHidden hiddenStates
    if out.length < hs.length then
      .error "copy_(): the sizes must match"
    else if group.length = 1 then do
      let best ← hs.mapM (s.localBest dot)
      return best.map Prod.snd ++ out.drop hs.length
    else do
      let best ← group.mapM fun rank => hs.mapM (rank.localBest dot)
      let tokens ← selectAcrossRanks hs.length best
      return tokens ++ out.drop hs.length

variable {s}

theorem init_ok {weight : List W}
    {blockSize numOrg orgVocabStart maxBs predictionHiddenStart : ℕ}
    (h : init weight blockSize numOrg orgVocabStart maxBs predictionHiddenStart = .ok s) :
    s.weight = weight ∧ s.blockSize = blockSize ∧
      s.predictionHiddenStart = predictionHiddenStart ∧ s.numOrg = numOrg ∧
      s.orgVocabStart = orgVocabStart ∧ s.maxBs = maxBs := by
  unfold init at h
  split_ifs at h
  cases h
  exact ⟨rfl, rfl, rfl, rfl, rfl, rfl⟩

/-- What a sampler has from its shard. -/
structure BuiltFrom (shard : VocabShard W) (draftInputSize predictionHiddenStart maxBs : ℕ)
    (s : DflashDraftSampler W) : Prop where
  weight : s.weight = shard.weight
  blockSize : s.blockSize = draftInputSize
  start : s.predictionHiddenStart = predictionHiddenStart
  numOrg : s.numOrg = shard.numOrg
  orgVocabStart : s.orgVocabStart = shard.indices.orgVocabStartIndex
  maxBs : s.maxBs = maxBs
  numAdded : shard.numAdded = 0
  predictions_pos : predictionHiddenStart < draftInputSize

theorem maybeBuild_ok {shard : VocabShard W} {draftInputSize predictionHiddenStart maxBs : ℕ}
    (h : maybeBuild shard draftInputSize predictionHiddenStart maxBs = .ok (some s)) :
    BuiltFrom shard draftInputSize predictionHiddenStart maxBs s := by
  unfold maybeBuild at h
  split_ifs at h with hpos hadded
  · cases h
  · cases h
  · rcases hinit : init shard.weight draftInputSize shard.numOrg
      shard.indices.orgVocabStartIndex maxBs predictionHiddenStart with e | s'
    · rw [hinit] at h
      cases h
    · rw [hinit] at h
      cases h
      obtain ⟨hw, hb, hst, hn, ho, hm⟩ := init_ok hinit
      exact ⟨hw, hb, hst, hn, ho, hm, not_not.mp hadded, by omega⟩

theorem start_add_numPredictions : s.predictionHiddenStart + s.numPredictions = s.blockSize :=
  Nat.add_sub_cancel' s.start_le_block

section
variable {hiddenStates : List H} {bs : ℕ}

theorem length_blockHidden (hlen : hiddenStates.length = bs * s.blockSize) {b : ℕ}
    (hb : b < bs) : (s.blockHidden hiddenStates b).length = s.numPredictions := by
  have hle : (b + 1) * s.blockSize ≤ bs * s.blockSize := Nat.mul_le_mul_right _ hb
  have hsum := s.start_add_numPredictions
  rw [Nat.succ_mul] at hle
  simp only [blockHidden, List.length_drop, List.length_take, hlen]
  omega

theorem length_predictionHidden (hblock : 0 < s.blockSize)
    (hlen : hiddenStates.length = bs * s.blockSize) :
    (s.predictionHidden hiddenStates).length = bs * s.numPredictions := by
  rw [predictionHidden, hlen, Nat.mul_div_cancel _ hblock, List.length_flatten, List.map_map,
    List.map_congr_left (f := List.length ∘ s.blockHidden hiddenStates)
      (g := fun _ => s.numPredictions) fun b hb =>
      length_blockHidden hlen (List.mem_range.mp hb)]
  simp

/-- Prediction `p` of block `b` stands at `b * num_predictions + p`. -/
theorem predictionHidden_getElem? (hblock : 0 < s.blockSize)
    (hlen : hiddenStates.length = bs * s.blockSize) {b p : ℕ} (hb : b < bs)
    (hp : p < s.numPredictions) {h : H}
    (hh : hiddenStates[b * s.blockSize + (s.predictionHiddenStart + p)]? = some h) :
    (s.predictionHidden hiddenStates)[b * s.numPredictions + p]? = some h := by
  rw [predictionHidden, hlen, Nat.mul_div_cancel _ hblock]
  have hsum := s.start_add_numPredictions
  refine getElem?_flatten ?_ (by rw [List.getElem?_map, List.getElem?_range hb]; rfl) ?_
  · rintro l hl
    obtain ⟨b', hb', rfl⟩ := List.mem_map.mp hl
    exact length_blockHidden hlen (List.mem_range.mp hb')
  · rw [blockHidden, List.getElem?_drop, List.getElem?_take, if_pos (by omega), List.getElem?_take,
      if_pos (by omega), List.getElem?_drop, hh]

end

/-! ### The group of samplers -/

section
variable {head : VocabParallelHead W} {dot : H → W → S} {finfoMin : S}
  {group : List (DflashDraftSampler W)} {draftInputSize predictionHiddenStart maxBs : ℕ}

/-- A sampler whose shard has a row offers a candidate. -/
theorem localBest_spec {shard : VocabShard W}
    (hs : BuiltFrom shard draftInputSize predictionHiddenStart maxBs s) (hpos : 0 < shard.numOrg)
    (h : H) : ∃ c, s.localBest dot h = .ok c ∧ IsCandidate dot finfoMin h shard c := by
  have hlogits : (s.weight.take s.numOrg).map (dot h) = shard.baseLogits dot h := by
    rw [hs.weight, hs.numOrg]
    rfl
  obtain ⟨m, i, hmi, hmax⟩ := exists_torchMax (shard.baseLogits dot h) (by simpa)
  have hnil : shard.addedLogits dot h = [] := by
    rw [← List.length_eq_zero_iff, VocabShard.length_addedLogits, hs.numAdded]
  refine ⟨(m, (i : ℤ) + s.orgVocabStart), by rw [localBest, hlogits, hmi]; rfl, hmax.le,
    by simp [hnil], .inr (.inl ⟨i, hmax, ?_⟩)⟩
  rw [hs.orgVocabStart, Int.add_comm]

/-- The tokens of a step: the best one for every predicted position, and the rest of the buffer
as it was. -/
theorem call_spec (hvocab : 0 < head.vocabSize)
    (hgroup : List.Forall₂ (fun shard s => 0 < shard.numOrg ∧
      BuiltFrom shard draftInputSize predictionHiddenStart maxBs s) head.shards group)
    (hs : s ∈ group) {hiddenStates : List H} {bs : ℕ}
    (habove : ∀ h ∈ hiddenStates, AboveMin head dot finfoMin h)
    (hlen : hiddenStates.length = bs * s.blockSize) (hblock : 0 < s.blockSize) {out : List ℤ}
    (hout : bs * s.numPredictions ≤ out.length) :
    ∃ tokens, s.call dot group hiddenStates out =
        .ok (tokens ++ out.drop (bs * s.numPredictions)) ∧
      List.Forall₂ (IsBestToken head dot) (s.predictionHidden hiddenStates) tokens := by
  have hn := length_predictionHidden hblock hlen
  have hmem : ∀ h ∈ s.predictionHidden hiddenStates, h ∈ hiddenStates := by
    intro h hh
    obtain ⟨l, hl, hmem⟩ := List.mem_flatten.mp hh
    obtain ⟨b, -, rfl⟩ := List.mem_map.mp hl
    exact List.mem_of_mem_drop (List.mem_of_mem_take (List.mem_of_mem_take
      (List.mem_of_mem_drop hmem)))
  have hlocal : ∀ shard rank, (0 < shard.numOrg ∧
      BuiltFrom shard draftInputSize predictionHiddenStart maxBs rank) →
      ∃ best, (s.predictionHidden hiddenStates).mapM (rank.localBest dot) = .ok best ∧
        List.Forall₂ (fun h c => IsCandidate dot finfoMin h shard c)
          (s.predictionHidden hiddenStates) best :=
    fun shard rank hrank => exists_mapM _ fun h _ => localBest_spec hrank.2 hrank.1 h
  unfold call
  rw [if_neg (by omega), if_neg (by rw [hlen, Nat.mul_div_cancel _ hblock]; simp)]
  dsimp only
  rw [if_neg (by omega)]
  split_ifs with htp
  · -- a group of one: the shard of the sampler is the whole head
    obtain ⟨s', rfl⟩ := List.length_eq_one_iff.mp htp
    obtain rfl : s = s' := by simpa using hs
    obtain ⟨shard, hone⟩ := List.length_eq_one_iff.mp (hgroup.length_eq.trans htp)
    rw [hone] at hgroup
    obtain ⟨best, hbest, hcs⟩ := hlocal shard s (List.forall₂_cons.mp hgroup).1
    refine ⟨best.map Prod.snd, by rw [hbest, hn]; rfl, List.forall₂_map_right_iff.mpr ?_⟩
    refine ((List.forall₂_and_left _ _).mpr ⟨hmem, hcs⟩).imp ?_
    exact fun h c hc => isBestToken_of_single hvocab (habove h hc.1) hone hc.2
  · obtain ⟨best, hbest, hcs⟩ := exists_mapM_of_forall₂ (hgroup.imp hlocal)
    obtain ⟨tokens, htokens, hbt⟩ := selectAcrossRanks_spec (Q := IsBestToken head dot)
      (List.ne_nil_of_length_pos (hgroup.length_eq ▸ List.length_pos_of_mem hs)) hcs
      fun h hh cs hcs m r c hmax hc =>
        isBestToken_of_candidates hvocab (habove h (hmem h hh)) hcs hmax hc
    refine ⟨tokens, ?_, hbt⟩
    rw [hbest]
    change (selectAcrossRanks _ best >>= _) = _
    rw [htokens, hn]
    rfl

end

end DflashDraftSampler

/-! ### Both paths -/

/-- The token of a row of the full logits that `torch.argmax` would return. -/
theorem IsBestToken.isFirstMax {head : VocabParallelHead W} {dot : H → W → S} {h : H} {id : ℤ}
    (hbest : IsBestToken head dot h id) (hna : head.NoAdded) :
    ∃ k : ℕ, id = k ∧ ∃ m, IsFirstMax (head.logits dot h) m k := by
  obtain ⟨k, hk, -, -, hfirst⟩ := hbest
  exact ⟨k, hk, hfirst hna⟩

/-- **Vocabulary-parallel greedy sampling is a full `argmax`.**  The eager path returns a best
token for every hidden state, whatever the chunks; the captured path returns the first maximum at
every predicted position and leaves the rest of its buffer alone. -/
theorem greedy_sampling_full_argmax (head : VocabParallelHead W) (dot : H → W → S) (finfoMin : S)
    (hvocab : 0 < head.vocabSize) (hiddenStates : List H)
    (habove : ∀ h ∈ hiddenStates, AboveMin head dot finfoMin h) :
    (∀ shard ∈ head.shards, ∀ chunkSize, 0 < chunkSize →
      ∃ out, greedySampleFromVocabParallelHead dot finfoMin (.sharded head shard) hiddenStates
          chunkSize = .ok out ∧ List.Forall₂ (IsBestToken head dot) hiddenStates out) ∧
    ∀ (group : List (DflashDraftSampler W)) (draftInputSize predictionHiddenStart maxBs bs : ℕ),
      List.Forall₂ (fun shard s => 0 < shard.numOrg ∧
        DflashDraftSampler.maybeBuild shard draftInputSize predictionHiddenStart maxBs =
          .ok (some s)) head.shards group →
      hiddenStates.length = bs * draftInputSize → bs ≤ maxBs →
      ∀ s ∈ group, ∀ out, out.length = s.maxTokens →
        ∃ tokens, s.call dot group hiddenStates out =
            .ok (tokens ++ out.drop (bs * s.numPredictions)) ∧
          tokens.length = bs * s.numPredictions ∧
          ∀ b < bs, ∀ p < s.numPredictions, ∀ h,
            hiddenStates[b * draftInputSize + (predictionHiddenStart + p)]? = some h →
            ∃ k : ℕ, tokens[b * s.numPredictions + p]? = some (k : ℤ) ∧
              ∃ m, IsFirstMax (head.logits dot h) m k := by
  refine ⟨fun shard hs chunkSize hchunk => greedySample_spec hvocab hs habove hchunk, ?_⟩
  intro group draftInputSize predictionHiddenStart maxBs bs hgroup hlen hbs s hs out hout
  have hbuilt := hgroup.imp fun _ _ h => And.intro h.1 (DflashDraftSampler.maybeBuild_ok h.2)
  obtain ⟨q, hq, rfl⟩ := List.mem_iff_getElem.mp hs
  obtain ⟨-, hfrom⟩ := hbuilt.get (hbuilt.length_eq ▸ hq) hq
  have hblock := hfrom.blockSize
  have hstart := hfrom.start
  have hmaxBs := hfrom.maxBs
  have hpredict := hfrom.predictions_pos
  simp only [List.get_eq_getElem] at hblock hstart hmaxBs
  rw [← hblock] at hlen
  have hfits : bs * group[q].numPredictions ≤ out.length := by
    rw [hout, DflashDraftSampler.maxTokens, hmaxBs]
    exact Nat.mul_le_mul_right _ hbs
  obtain ⟨tokens, hcall, hbest⟩ := DflashDraftSampler.call_spec hvocab hbuilt hs habove hlen
    (by omega) hfits
  have htokens : tokens.length = bs * group[q].numPredictions := by
    rw [← hbest.length_eq, DflashDraftSampler.length_predictionHidden (by omega) hlen]
  refine ⟨tokens, hcall, htokens, ?_⟩
  rintro b hb p hp h hh
  rw [← hblock, ← hstart] at hh
  have hrow := DflashDraftSampler.predictionHidden_getElem? (by omega) hlen hb hp hh
  obtain ⟨id, hid⟩ : ∃ id, tokens[b * group[q].numPredictions + p]? = some id := by
    have hlt := (List.getElem?_eq_some_iff.mp hrow).1
    exact ⟨_, List.getElem?_eq_getElem (hbest.length_eq ▸ hlt)⟩
  -- the builder refuses a head with added rows
  have hna : head.NoAdded := by
    intro shard hshard
    obtain ⟨r, hr, rfl⟩ := List.mem_iff_getElem.mp hshard
    exact (hbuilt.get hr (hbuilt.length_eq ▸ hr)).2.numAdded
  obtain ⟨k, rfl, hfirst⟩ := (forall₂_getElem? hbest hrow hid).isFirstMax hna
  exact ⟨k, hid, hfirst⟩

/-- Three tokens on two ranks, the second of which has a row of padding. -/
def tiedHead : VocabParallelHead ℤ :=
  VocabParallelEmbedding.head
    { numEmbeddings := 3, orgVocabSize := 3, paddingSize := 2, tpSize := 2, org_le := le_rfl,
      padding_pos := Nat.two_pos, tp_pos := Nat.two_pos, divide_org := by decide,
      divide_added := by decide }
    (fun r => if r = 0 then [1, 7] else [7, 9])
    (fun r => by rw [VocabParallelEmbedding.numElementsPadded_shardIndices]; split_ifs <;> rfl)

/-- The samplers that the two ranks build. -/
def tiedSamplers : List (DflashDraftSampler ℤ) :=
  [{ weight := [1, 7], blockSize := 2, predictionHiddenStart := 1, numOrg := 2, orgVocabStart := 0,
     maxBs := 1, start_le_one := Nat.one_pos, start_le_block := Nat.le_succ 1 },
   { weight := [7, 9], blockSize := 2, predictionHiddenStart := 1, numOrg := 1, orgVocabStart := 2,
     maxBs := 1, start_le_one := Nat.one_pos, start_le_block := Nat.le_succ 1 }]

/-- The tie of tokens `1` and `2` goes to token `1`; the row of padding would have won. -/
theorem greedy_sampling_full_argmax_tied :
    (∃ out, greedySampleFromVocabParallelHead (· * ·) (-100)
        (.sharded tiedHead (tiedHead.shards.get ⟨1, by decide⟩)) [1, -1] 1 = .ok out ∧
      List.Forall₂ (IsBestToken tiedHead (· * ·)) [1, -1] out) ∧
    ∃ tokens, (tiedSamplers.get ⟨1, by decide⟩).call (· * ·) tiedSamplers [-1, 1] [0] =
        .ok (tokens ++ []) ∧
      ∃ k : ℕ, tokens[0]? = some (k : ℤ) ∧ ∃ m, IsFirstMax (tiedHead.logits (· * ·) 1) m k := by
  have habove : ∀ h ∈ [(1 : ℤ), -1], AboveMin tiedHead (· * ·) (-100) h := by
    unfold AboveMin
    decide
  have habove' : ∀ h ∈ [(-1 : ℤ), 1], AboveMin tiedHead (· * ·) (-100) h := by
    unfold AboveMin
    decide
  refine ⟨(greedy_sampling_full_argmax tiedHead (· * ·) (-100) (by decide) [1, -1] habove).1 _
    (List.get_mem _ _) 1 (by decide), ?_⟩
  obtain ⟨tokens, hcall, -, hrows⟩ := (greedy_sampling_full_argmax tiedHead (· * ·) (-100)
    (by decide) [-1, 1] habove').2 tiedSamplers 2 1 1 1
    (.cons ⟨by decide, rfl⟩ (.cons ⟨by decide, rfl⟩ .nil)) rfl le_rfl _
    (List.get_mem _ ⟨1, by decide⟩) [0] rfl
  exact ⟨tokens, hcall, hrows 0 (by decide) 0 (by decide) 1 rfl⟩

end

end LatentSpec
