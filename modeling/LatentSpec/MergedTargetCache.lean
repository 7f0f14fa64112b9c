import LatentSpec.TargetCacheMerge

/-! # The merged target cache

A job has any number of ranks, each with its samples and its place in the source.  Whatever the
order in which the ranks move their shards, no move meets another one's file, and afterwards the
global shards and the global index hold the samples of all ranks in source order
(`LocalCaches.Renamed.globalCache`).
-/
namespace LatentSpec
open ByteLayout FileMoves

/-! ### What a merged cache holds -/

/-- The shards are the files of these numbers, and the index has these samples in them. -/
structure GlobalCache (files : CacheFiles) (shards : List ShardFile)
    (samples : List TargetCacheSampleBytes) : Prop where
  shard_file : ∀ (i : ℕ) (shard : ShardFile), shards[i]? = some shard →
    files (.shard (globalShardName i)) = some shard.content
  index : ∃ bytes records, files .index = some bytes ∧ IndexHolds bytes records ∧
    List.Forall₂ (fun record sample => record.Locates shards sample) records samples

/-! ### Jobs -/

def computeLocalSampleRange (numSamples rank worldSize : ℕ) : ℕ × ℕ :=
  let base := numSamples / worldSize
  let remainder := numSamples % worldSize
  let start := rank * base + min rank remainder
  (start, start + (base + if rank < remainder then 1 else 0))

/-- The rows of a dataset that a rank prepares. -/
def localRows {Row : Type} (rows : List Row) (rank worldSize : ℕ) : List Row :=
  let (start, stop) := computeLocalSampleRange rows.length rank worldSize
  (rows.drop start).take (stop - start)

theorem computeLocalSampleRange_start_mono (numSamples worldSize : ℕ) {a b : ℕ} (h : a ≤ b) :
    (computeLocalSampleRange numSamples a worldSize).1 ≤
      (computeLocalSampleRange numSamples b worldSize).1 :=
  Nat.add_le_add (Nat.mul_le_mul_right _ h) (min_le_min_right _ h)

/-- A rank's range ends where the next one's begins. -/
theorem computeLocalSampleRange_stop (numSamples rank worldSize : ℕ) :
    (computeLocalSampleRange numSamples rank worldSize).2 =
      (computeLocalSampleRange numSamples (rank + 1) worldSize).1 := by
  simp only [computeLocalSampleRange]
  rw [Nat.succ_mul]
  split <;> omega

/-- The ranges of all ranks cover the dataset. -/
theorem computeLocalSampleRange_start_worldSize (numSamples worldSize : ℕ) (h : 0 < worldSize) :
    (computeLocalSampleRange numSamples worldSize worldSize).1 = numSamples := by
  simp only [computeLocalSampleRange]
  rw [min_eq_right (Nat.mod_lt _ h).le]
  exact Nat.div_add_mod numSamples worldSize

/-- **The ranks' rows are the dataset**, each row in one rank and in the dataset's order. -/
theorem flatMap_localRows {Row : Type} (rows : List Row) {worldSize : ℕ} (h : 0 < worldSize) :
    (List.range worldSize).flatMap (fun rank => localRows rows rank worldSize) = rows := by
  have htake : ∀ n, (List.range n).flatMap (fun rank => localRows rows rank worldSize) =
      rows.take (computeLocalSampleRange rows.length n worldSize).1 := by
    intro n
    induction n with
    | zero => simp [computeLocalSampleRange]
    | succ n ih =>
      have hmono := computeLocalSampleRange_start_mono rows.length worldSize (Nat.le_succ n)
      rw [List.range_succ, List.flatMap_append, ih, List.flatMap_singleton, localRows]
      dsimp only
      rw [computeLocalSampleRange_stop, ← List.take_add, Nat.add_sub_cancel' hmono]
  rw [htake, computeLocalSampleRange_start_worldSize _ _ h, List.take_length]

/-- What the ranks have written when the merge begins.  The samples of a rank are numbered from 0
on, and writing them did not raise. -/
structure LocalCaches where
  worldSize : ℕ
  maxShardBytes : ℤ
  sourceSampleStart : ℕ → ℕ
  samples : ℕ → List TargetCacheSampleBytes
  writer : ℕ → LocalTargetCacheWriter
  sampleIds : ∀ rank < worldSize,
    (samples rank).map TargetCacheSampleBytes.sampleId = List.range (samples rank).length
  written : ∀ rank < worldSize,
    (LocalTargetCacheWriter.init maxShardBytes).writeSamples (samples rank) = some (writer rank)

namespace LocalCaches

variable (c : LocalCaches)

def summary (rank : ℕ) : LocalCacheWriteSummary where
  globalRank := rank
  sourceSampleStart := c.sourceSampleStart rank
  numLocalSamples := (c.writer rank).numLocalSamples
  localShardFiles := (c.writer rank).shards.map ShardFile.fileName

def summaries : List LocalCacheWriteSummary := (List.range c.worldSize).map c.summary

/-- The ranks in the order of their starts; ranks with one start stay in order. -/
def sourceOrder : List ℕ :=
  (List.range c.worldSize).mergeSort fun a b =>
    decide (c.sourceSampleStart a ≤ c.sourceSampleStart b)

/-- The ranks' directories. -/
def files : CacheFiles
  | .localIndex rank => if rank < c.worldSize then some (c.writer rank).index else none
  | .localShard rank fileName =>
    if rank < c.worldSize then
      ((c.writer rank).shards.find? (·.fileName == fileName)).map ShardFile.content
    else none
  | _ => none

def shards : List ShardFile := c.sourceOrder.flatMap fun rank => (c.writer rank).shards

/-- The samples of the ranks in source order. -/
def sourceSamples : List TargetCacheSampleBytes := c.sourceOrder.flatMap c.samples

theorem sortedBySource_summaries : sortedBySource c.summaries = c.sourceOrder.map c.summary :=
  (List.map_mergeSort (f := c.summary) fun _ _ _ _ => rfl).symm

theorem perm_sourceOrder : c.sourceOrder.Perm (List.range c.worldSize) :=
  List.mergeSort_perm _ _

theorem nodup_sourceOrder : c.sourceOrder.Nodup :=
  c.perm_sourceOrder.nodup_iff.mpr List.nodup_range

theorem lt_worldSize {rank : ℕ} (h : rank ∈ c.sourceOrder) : rank < c.worldSize :=
  List.mem_range.mp (c.perm_sourceOrder.mem_iff.mp h)

/-- Ranks whose starts do not decrease are merged in their own order. -/
theorem sourceOrder_eq_range
    (h : ∀ a b, a ≤ b → c.sourceSampleStart a ≤ c.sourceSampleStart b) :
    c.sourceOrder = List.range c.worldSize := by
  refine List.mergeSort_of_pairwise ?_
  refine List.pairwise_lt_range.imp fun {a b} hlt => ?_
  exact decide_eq_true (h a b (Nat.le_of_lt hlt))

/-! ### What the ranks have written -/

theorem writer_holds {rank : ℕ} (h : rank < c.worldSize) :
    (c.writer rank).Ok ∧ ∃ records, (c.writer rank).Holds (c.samples rank) records :=
  LocalTargetCacheWriter.writeSamples_holds (LocalTargetCacheWriter.init_ok _)
    (LocalTargetCacheWriter.init_holds _) (c.written rank h)

/-- A rank's shards have different names. -/
theorem nodup_fileNames {w : LocalTargetCacheWriter} (h : w.Ok) :
    (w.shards.map ShardFile.fileName).Nodup := by
  refine List.nodup_iff_injective_get.mpr fun i j hij => ?_
  rw [List.get_eq_getElem, List.get_eq_getElem, List.getElem_map, List.getElem_map,
    h.named i _ (List.getElem?_eq_getElem _), h.named j _ (List.getElem?_eq_getElem _)] at hij
  exact Fin.ext (named_injective "shard-local-" ".bin" hij)

theorem find?_fileName {shards : List ShardFile} (h : (shards.map ShardFile.fileName).Nodup)
    {shard : ShardFile} (hmem : shard ∈ shards) :
    shards.find? (·.fileName == shard.fileName) = some shard := by
  induction shards with
  | nil => cases hmem
  | cons first shards ih =>
    rw [List.map_cons, List.nodup_cons] at h
    rcases List.mem_cons.mp hmem with rfl | hmem
    · exact List.find?_cons_of_pos (beq_self_eq_true _)
    · rw [List.find?_cons_of_neg, ih h.2 hmem]
      intro heq
      exact h.1 (List.mem_map.mpr ⟨shard, hmem, (eq_of_beq heq).symm⟩)

theorem files_localShard {rank : ℕ} (h : rank < c.worldSize) {shard : ShardFile}
    (hmem : shard ∈ (c.writer rank).shards) :
    c.files (.localShard rank shard.fileName) = some shard.content := by
  rw [files, if_pos h, find?_fileName (nodup_fileNames (c.writer_holds h).1) hmem]
  rfl

/-! ### The moves -/

/-- The local shards in the order of their global numbers. -/
def sources : List CachePath := localShardPaths (c.sourceOrder.map c.summary)

theorem map_files_sources :
    c.sources.map c.files = c.shards.map fun shard => some shard.content := by
  rw [sources, localShardPaths, List.flatMap_map, shards, List.map_flatMap, List.map_flatMap]
  refine List.flatMap_congr fun rank hrank => ?_
  simp only [summary, List.map_map]
  exact List.map_congr_left fun shard hmem => c.files_localShard (c.lt_worldSize hrank) hmem

theorem length_sources : c.sources.length = c.shards.length := by
  have := congrArg List.length c.map_files_sources
  rwa [List.length_map, List.length_map] at this

theorem nodup_sources : c.sources.Nodup := by
  rw [sources, localShardPaths, List.flatMap_map]
  refine List.nodup_flatMap.mpr ⟨fun rank hrank => ?_, ?_⟩
  · refine (nodup_fileNames (c.writer_holds (c.lt_worldSize hrank)).1).map fun a b hab => ?_
    cases hab
    rfl
  · refine c.nodup_sourceOrder.imp fun {a b} hne path ha hb => ?_
    obtain ⟨_, _, rfl⟩ := List.mem_map.mp ha
    obtain ⟨_, _, heq⟩ := List.mem_map.mp hb
    cases heq
    exact hne rfl

/-- The global names of so many shards. -/
def targets (n : ℕ) : List CachePath :=
  (List.range' 0 n).map fun id => .shard (globalShardName id)

theorem nodup_targets (n : ℕ) : (targets n).Nodup := by
  refine List.Nodup.map (fun a b hab => ?_) (List.nodup_range' _ Nat.one_pos)
  exact globalShardName_injective (CachePath.shard.inj hab)

theorem length_targets (n : ℕ) : (targets n).length = n := by
  rw [targets, List.length_map, List.length_range']

theorem getElem?_targets {n i : ℕ} (h : i < n) :
    (targets n)[i]? = some (.shard (globalShardName i)) := by
  rw [targets, List.getElem?_map, List.getElem?_range' h, Nat.zero_add, Nat.one_mul]
  rfl

/-- The shard map that rank 0 broadcasts. -/
def shardMap : ShardMap := (buildGlobalTargetCacheShardMap c.summaries).1

theorem numbered_shardMap : Numbered c.shardMap 0 (c.sourceOrder.map c.summary) := by
  rw [shardMap, buildGlobalTargetCacheShardMap, c.sortedBySource_summaries]
  refine numbered_foldl ?_ ⟨fun _ => none, [], 0⟩
  rw [List.map_map]
  exact (List.map_id _).symm ▸ c.nodup_sourceOrder

/-- Every rank finds the numbers of its shards. -/
theorem exists_renames :
    ∃ renames, (sortedBySource c.summaries).mapM (renameLocalTargetCacheShards c.shardMap) =
      some renames ∧ renames.flatten = c.sources.zip (targets c.shards.length) := by
  obtain ⟨renames, hrenames, hflat⟩ := mapM_rename c.numbered_shardMap
  rw [← sources, c.length_sources] at hflat
  exact ⟨renames, c.sortedBySource_summaries ▸ hrenames, hflat⟩

/-- The ranks' directories after the moves: the indices are there, and the shards are in the
cache's directory under their global names. -/
structure Renamed (files : CacheFiles) : Prop where
  localIndex : ∀ rank, files (.localIndex rank) = c.files (.localIndex rank)
  shard : ∀ (i : ℕ) (shard : ShardFile), c.shards[i]? = some shard →
    files (.shard (globalShardName i)) = some shard.content

/-- The moves succeed in any order. -/
theorem moves_renamed {order : List (CachePath × CachePath)}
    (h : order.Perm (c.sources.zip (targets c.shards.length))) :
    ∃ files, moves c.files order = some files ∧ c.Renamed files := by
  have hlen : c.sources.length = (targets c.shards.length).length := by
    rw [length_targets, c.length_sources]
  have hsources : (order.map Prod.fst).Nodup := by
    rw [(h.map Prod.fst).nodup_iff, List.map_fst_zip hlen.le]
    exact c.nodup_sources
  have htargets : (order.map Prod.snd).Nodup := by
    rw [(h.map Prod.snd).nodup_iff, List.map_snd_zip hlen.ge]
    exact nodup_targets _
  have hop : ∀ op ∈ order, op.1 ∈ c.sources ∧ op.2 ∈ targets c.shards.length :=
    fun op hmem => List.of_mem_zip (h.mem_iff.mp hmem)
  have hsource : ∀ p ∈ c.sources, ∃ rank name, p = .localShard rank name := by
    intro p hp
    obtain ⟨summary, -, hp⟩ := List.mem_flatMap.mp hp
    obtain ⟨name, -, rfl⟩ := List.mem_map.mp hp
    exact ⟨_, _, rfl⟩
  have htarget : ∀ p ∈ targets c.shards.length, ∃ name, p = .shard name := by
    intro p hp
    obtain ⟨id, -, rfl⟩ := List.mem_map.mp hp
    exact ⟨_, rfl⟩
  have hapart : ∀ op ∈ order, ∀ op' ∈ order, op.1 ≠ op'.2 := by
    intro op hmem op' hmem' heq
    obtain ⟨rank, name, hfst⟩ := hsource _ (hop op hmem).1
    obtain ⟨name', hsnd⟩ := htarget _ (hop op' hmem').2
    rw [hfst, hsnd] at heq
    cases heq
  have hexists : ∀ op ∈ order, c.files op.1 ≠ none := by
    intro op hmem hnone
    have hmapped := List.mem_map_of_mem (f := c.files) (hop op hmem).1
    rw [c.map_files_sources, hnone] at hmapped
    obtain ⟨shard, -, heq⟩ := List.mem_map.mp hmapped
    cases heq
  obtain ⟨files, hfiles, hmoved, hstay⟩ := moves_spec hsources htargets hapart hexists
  refine ⟨files, hfiles, ⟨fun rank => hstay _ fun op hmem => ⟨?_, ?_⟩, fun i shard hi => ?_⟩⟩
  · obtain ⟨_, _, hfst⟩ := hsource _ (hop op hmem).1
    rw [hfst]
    exact CachePath.noConfusion
  · obtain ⟨_, hsnd⟩ := htarget _ (hop op hmem).2
    rw [hsnd]
    exact CachePath.noConfusion
  · obtain ⟨hlt, -⟩ := List.getElem?_eq_some_iff.mp hi
    have hcontent := congrArg (·[i]?) c.map_files_sources
    simp only [List.getElem?_map, hi, Option.map_some] at hcontent
    obtain ⟨source, hsrc, hcontent⟩ := Option.map_eq_some_iff.mp hcontent
    have hzip : (source, CachePath.shard (globalShardName i)) ∈
        c.sources.zip (targets c.shards.length) :=
      List.mem_of_getElem? (List.getElem?_zip_eq_some.mpr ⟨hsrc, getElem?_targets hlt⟩)
    exact (hmoved _ (h.mem_iff.mpr hzip)).trans hcontent

/-! ### The global index -/

variable {c}

theorem Renamed.localIndexOk {files : CacheFiles} (h : c.Renamed files) {rank : ℕ}
    (hrank : rank < c.worldSize) {records : List IndexRecord}
    (hholds : (c.writer rank).Holds (c.samples rank) records) :
    LocalIndexOk files rank records (c.summary rank).localShardFiles.length where
  index := by
    refine ⟨(c.writer rank).index, ?_, hholds.index⟩
    rw [h.localIndex, LocalCaches.files, if_pos hrank]
  sampleIds := by
    rw [hholds.map_sampleId, c.sampleIds rank hrank, hholds.located.length_eq]
  shardIds := by
    intro record hmem
    obtain ⟨i, hi, rfl⟩ := List.getElem_of_mem hmem
    obtain ⟨shard, hshard, -⟩ := (hholds.located.get hi (hholds.located.length_eq ▸ hi)).stored
    exact (List.getElem?_eq_some_iff.mp hshard).1.trans_eq (List.length_map _).symm

/-- The merge packs records that point at the samples of all ranks in source order; it fails only
where a number does not fit its field. -/
theorem Renamed.finalize_eq {files : CacheFiles} (h : c.Renamed files) :
    ∃ records, List.Forall₂ (fun record sample => record.Locates c.shards sample) records
        (renumber 0 c.sourceSamples) ∧
      (∀ record ∈ records, record.sampleId < 256 ^ 8 → record.shardId < 256 ^ 4 →
        ∃ bytes, packIndexRecord record = some bytes) ∧
      finalizeTargetCacheIndex files c.summaries c.shardMap =
        (records.mapM packIndexRecord).map fun chunks =>
          (Function.update (Function.update (Function.update files .indexTmp
            (some chunks.flatten)) .indexTmp none) .index (some chunks.flatten),
              c.sourceSamples.length) := by
  have hexists : ∀ rank, ∃ records, rank < c.worldSize →
      (c.writer rank).Holds (c.samples rank) records := by
    intro rank
    by_cases hrank : rank < c.worldSize
    · obtain ⟨-, records, hholds⟩ := c.writer_holds hrank
      exact ⟨records, fun _ => hholds⟩
    · exact ⟨[], fun hlt => absurd hlt hrank⟩
  choose records hholds using hexists
  have hall := fun rank hrank => hholds rank (c.lt_worldSize hrank)
  have hlength : (c.sourceOrder.flatMap records).length = c.sourceSamples.length := by
    rw [sourceSamples, List.length_flatMap, List.length_flatMap]
    exact congrArg List.sum
      (List.map_congr_left fun rank hrank => (hall rank hrank).located.length_eq)
  have hnumShards : (fun rank => (c.summary rank).localShardFiles.length) =
      fun rank => (c.writer rank).shards.length := by
    funext rank
    exact List.length_map _
  refine ⟨mergedRecords records (fun rank => (c.writer rank).shards.length) 0 0 c.sourceOrder,
    mergedRecords_locates (fun rank hrank => (hall rank hrank).located)
      (fun rank hrank => c.sampleIds rank (c.lt_worldSize hrank)) [] 0, ?_, ?_⟩
  · intro record hmem hsample hshard
    obtain ⟨rank, hrank, local', hlocal, a, b, rfl⟩ := exists_of_mem_mergedRecords hmem
    exact exists_packIndexRecord_shift ((hall rank hrank).index.exists_pack hlocal) hsample hshard
  · rw [finalizeTargetCacheIndex, c.sortedBySource_summaries,
      foldlM_mergeLocalIndex (fun _ => rfl) c.numbered_shardMap
        (fun rank hrank => h.localIndexOk (c.lt_worldSize hrank) (hall rank hrank)), hnumShards]
    cases (mergedRecords records (fun rank => (c.writer rank).shards.length) 0 0
      c.sourceOrder).mapM packIndexRecord with
    | none => rfl
    | some chunks =>
      simp only [Option.map_some, Option.bind_some, move, Function.update_self, List.nil_append,
        Nat.zero_add, hlength]

theorem getElem?_renumber {base i : ℕ} {samples : List TargetCacheSampleBytes}
    {sample : TargetCacheSampleBytes} (h : (renumber base samples)[i]? = some sample) :
    sample.sampleId = base + i := by
  rw [renumber, List.getElem?_mapIdx] at h
  obtain ⟨_, -, rfl⟩ := Option.map_eq_some_iff.mp h
  rfl

/-- The merge returns as long as the numbers fit their fields. -/
theorem Renamed.exists_finalize {files : CacheFiles} (h : c.Renamed files)
    (hsamples : c.sourceSamples.length ≤ 256 ^ 8) (hshards : c.shards.length ≤ 256 ^ 4) :
    ∃ result, finalizeTargetCacheIndex files c.summaries c.shardMap = some result := by
  obtain ⟨records, hlocates, hpack, heq⟩ := h.finalize_eq
  have hlength : (renumber 0 c.sourceSamples).length = c.sourceSamples.length :=
    List.length_mapIdx
  have hfits : ∀ record ∈ records, ∃ bytes, packIndexRecord record = some bytes := by
    intro record hmem
    obtain ⟨i, hi, rfl⟩ := List.getElem_of_mem hmem
    have hi' : i < (renumber 0 c.sourceSamples).length := hlocates.length_eq ▸ hi
    have hrecord := hlocates.get hi hi'
    rw [List.get_eq_getElem, List.get_eq_getElem] at hrecord
    refine hpack _ hmem ?_ ?_
    · rw [hrecord.sampleId_eq, getElem?_renumber (List.getElem?_eq_getElem hi'), Nat.zero_add]
      omega
    · obtain ⟨shard, hshard, -⟩ := hrecord.stored
      exact (List.getElem?_eq_some_iff.mp hshard).1.trans_le hshards
  obtain ⟨chunks, hchunks⟩ := exists_mapM hfits
  exact ⟨_, by rw [heq, hchunks]; rfl⟩

/-- The merged cache holds the samples of all ranks in source order, and the temporary directory
is not needed for it. -/
theorem Renamed.globalCache {files final : CacheFiles} {numSamples : ℕ} (h : c.Renamed files)
    (hfinal : finalizeTargetCacheIndex files c.summaries c.shardMap = some (final, numSamples)) :
    numSamples = c.sourceSamples.length ∧
      GlobalCache (cleanupTargetCacheTmpDir final) c.shards (renumber 0 c.sourceSamples) := by
  obtain ⟨records, hlocates, -, heq⟩ := h.finalize_eq
  rw [heq] at hfinal
  obtain ⟨chunks, hchunks, hpair⟩ := Option.map_eq_some_iff.mp hfinal
  obtain ⟨rfl, rfl⟩ := Prod.mk.inj hpair
  refine ⟨rfl, ⟨fun i shard hi => ?_, chunks.flatten, records, ?_, ⟨chunks, hchunks, rfl⟩,
    hlocates⟩⟩
  · exact h.shard i shard hi
  · rw [cleanupTargetCacheTmpDir]
    · exact Function.update_self ..
    · exact fun _ h => CachePath.noConfusion h
    · exact fun _ _ h => CachePath.noConfusion h

/-- The entries of the manifest: one for each shard. -/
theorem shards_eq :
    (buildGlobalTargetCacheShardMap c.summaries).2 =
      (List.range' 0 c.shards.length).map fun id => ⟨id, globalShardName id⟩ := by
  have hlength : ((c.sourceOrder.map c.summary).flatMap (·.localShardFiles)).length =
      c.shards.length := by
    rw [List.flatMap_map, shards, List.length_flatMap, List.length_flatMap]
    exact congrArg List.sum (List.map_congr_left fun rank _ => List.length_map _)
  rw [buildGlobalTargetCacheShardMap, c.sortedBySource_summaries, shards_foldl, hlength]
  rfl

/-- `num_samples` of the manifest, summed in the order of the ranks. -/
theorem sum_numLocalSamples :
    (c.summaries.map LocalCacheWriteSummary.numLocalSamples).sum = c.sourceSamples.length := by
  have hcounts : c.summaries.map LocalCacheWriteSummary.numLocalSamples =
      (List.range c.worldSize).map fun rank => (c.samples rank).length := by
    rw [summaries, List.map_map]
    refine List.map_congr_left fun rank hrank => ?_
    obtain ⟨-, _, hholds⟩ := c.writer_holds (List.mem_range.mp hrank)
    exact hholds.numLocalSamples_eq
  rw [hcounts, sourceSamples, List.length_flatMap]
  exact (c.perm_sourceOrder.map _).sum_nat.symm

end LocalCaches
end LatentSpec
