import Mathlib.Data.List.Nodup
import Mathlib.Data.List.Range
import LatentSpec.FileMoves
import LatentSpec.TargetCacheWriter

/-! # Merging the ranks' target caches

Each rank leaves its shards and its index in a directory of its own.  The global numbers of the
shards follow the order of the ranks in the source, every rank moves its shards to their global
names, and rank 0 writes the global index: the ranks' records one after the other, with the global
numbers of sample and shard.
-/
namespace LatentSpec
open ByteLayout FileMoves

/-! ### Files -/

/-- The files under `output_dir`. -/
inductive CachePath
  /-- `_tmp/rank_{rank}/samples.local.idx` -/
  | localIndex (rank : ℕ)
  /-- `_tmp/rank_{rank}/{file_name}` -/
  | localShard (rank : ℕ) (fileName : String)
  | shard (fileName : String)
  /-- `samples.idx.tmp` -/
  | indexTmp
  /-- `samples.idx` -/
  | index
  deriving DecidableEq

abbrev CacheFiles := CachePath → Option (List UInt8)

/-- `f"shard-{shard_id:05d}.bin"` -/
def globalShardName (shardId : ℕ) : String := "shard-" ++ zeroPadded shardId ++ ".bin"

structure LocalCacheWriteSummary where
  globalRank : ℕ
  sourceSampleStart : ℕ
  numLocalSamples : ℕ
  localShardFiles : List String
  deriving DecidableEq

/-- `sorted(summaries, key=source_sample_start)` -/
def sortedBySource (summaries : List LocalCacheWriteSummary) : List LocalCacheWriteSummary :=
  summaries.mergeSort fun a b => decide (a.sourceSampleStart ≤ b.sourceSampleStart)

/-! ### Global shard numbers -/

structure ShardEntry where
  shardId : ℕ
  fileName : String
  deriving DecidableEq

abbrev ShardMap := ℕ → Option (List ℕ)

/-- The loop variables of `build_global_target_cache_shard_map`. -/
structure ShardNumbering where
  shardMap : ShardMap
  shards : List ShardEntry
  nextShardId : ℕ

/-- One local shard gets the next number. -/
def numberShard (st : List ℕ × List ShardEntry × ℕ) (_fileName : String) :
    List ℕ × List ShardEntry × ℕ :=
  (st.1 ++ [st.2.2], st.2.1 ++ [⟨st.2.2, globalShardName st.2.2⟩], st.2.2 + 1)

def numberLocalShards (st : ShardNumbering) (summary : LocalCacheWriteSummary) : ShardNumbering :=
  let numbered := summary.localShardFiles.foldl numberShard ([], st.shards, st.nextShardId)
  { shardMap := Function.update st.shardMap summary.globalRank (some numbered.1)
    shards := numbered.2.1
    nextShardId := numbered.2.2 }

def buildGlobalTargetCacheShardMap (summaries : List LocalCacheWriteSummary) :
    ShardMap × List ShardEntry :=
  let st := (sortedBySource summaries).foldl numberLocalShards ⟨fun _ => none, [], 0⟩
  (st.shardMap, st.shards)

/-- The `os.replace` calls of `rename_local_target_cache_shards`. -/
def renameLocalTargetCacheShards (shardMap : ShardMap) (summary : LocalCacheWriteSummary) :
    Option (List (CachePath × CachePath)) :=
  (shardMap summary.globalRank).bind fun localMap =>
    summary.localShardFiles.zipIdx.mapM fun p =>
      localMap[p.2]?.map fun shardId =>
        (.localShard summary.globalRank p.1, .shard (globalShardName shardId))

/-! ### The global index -/

/-- What is written to `samples.idx.tmp`, and `next_expected_sample_id`. -/
structure IndexMerge where
  output : List UInt8
  nextExpectedSampleId : ℕ

/-- One record, with `next_local_sample_id`. -/
def mergeRecord (shardMap : ShardMap) (rank : ℕ) (st : IndexMerge × ℕ) (record : IndexRecord) :
    Option (IndexMerge × ℕ) :=
  if record.sampleId = st.2 then
    ((shardMap rank).bind (·[record.shardId]?)).bind fun shardId =>
      (packIndexRecord { record with
        sampleId := st.1.nextExpectedSampleId
        shardId := shardId }).map fun bytes =>
          (⟨st.1.output ++ bytes, st.1.nextExpectedSampleId + 1⟩, st.2 + 1)
  else none

def mergeLocalIndex (files : CacheFiles) (shardMap : ShardMap) (st : IndexMerge)
    (summary : LocalCacheWriteSummary) : Option IndexMerge :=
  (files (.localIndex summary.globalRank)).bind fun localBytes =>
    if localBytes.length % indexRecordSize = 0 then
      ((List.range' 0 (localBytes.length / indexRecordSize) indexRecordSize).foldlM
        (fun st offset => (unpackIndexRecord localBytes offset).bind
          (mergeRecord shardMap summary.globalRank st)) (st, 0)).map Prod.fst
    else none

/-- The files afterwards and the number of samples; `none` when an assertion fails. -/
def finalizeTargetCacheIndex (files : CacheFiles) (summaries : List LocalCacheWriteSummary)
    (shardMap : ShardMap) : Option (CacheFiles × ℕ) :=
  ((sortedBySource summaries).foldlM (mergeLocalIndex files shardMap) ⟨[], 0⟩).bind fun st =>
    (move (Function.update files .indexTmp (some st.output)) .indexTmp .index).map fun files =>
      (files, st.nextExpectedSampleId)

def cleanupTargetCacheTmpDir (files : CacheFiles) : CacheFiles
  | .localIndex _ => none
  | .localShard _ _ => none
  | p => files p

/-! ### The names of shards -/

/-- The digits of a padded number are the number again. -/
theorem ofDigitChars_zeroPadded (n : ℕ) : Nat.ofDigitChars 10 (zeroPadded n).toList 0 = n := by
  rw [zeroPadded, String.toList_ofList, List.leftpad, Nat.ofDigitChars_append,
    Nat.ofDigitChars_replicate_zero, Nat.mul_zero, Nat.ofDigitChars_ten_toDigits]

theorem zeroPadded_injective : Function.Injective zeroPadded := by
  intro m n h
  rw [← ofDigitChars_zeroPadded m, h, ofDigitChars_zeroPadded]

/-- A text in front and one behind do not make different numbers equal. -/
theorem named_injective (before after : String) :
    Function.Injective fun n => before ++ zeroPadded n ++ after := by
  intro m n h
  have hlist := congrArg String.toList h
  simp only [String.toList_append] at hlist
  exact zeroPadded_injective
    (String.toList_injective (List.append_cancel_left (List.append_cancel_right hlist)))

theorem globalShardName_injective : Function.Injective globalShardName :=
  named_injective "shard-" ".bin"

/-! ### What the shards are numbered and renamed to -/

theorem foldl_numberShard (files : List String) (localMap : List ℕ) (shards : List ShardEntry)
    (next : ℕ) :
    files.foldl numberShard (localMap, shards, next) =
      (localMap ++ List.range' next files.length,
        shards ++ (List.range' next files.length).map (fun id => ⟨id, globalShardName id⟩),
        next + files.length) := by
  induction files generalizing localMap shards next with
  | nil => simp
  | cons _ files ih =>
    rw [List.foldl_cons, numberShard, ih, List.length_cons, List.range'_succ, Nat.add_assoc,
      Nat.add_comm 1, List.append_assoc, List.append_assoc]
    rfl

/-- The shards of these ranks are numbered from `base` on, rank after rank. -/
def Numbered (shardMap : ShardMap) : ℕ → List LocalCacheWriteSummary → Prop
  | _, [] => True
  | base, summary :: rest =>
    shardMap summary.globalRank = some (List.range' base summary.localShardFiles.length) ∧
      Numbered shardMap (base + summary.localShardFiles.length) rest

theorem numberLocalShards_eq (st : ShardNumbering) (summary : LocalCacheWriteSummary) :
    numberLocalShards st summary =
      { shardMap := Function.update st.shardMap summary.globalRank
          (some (List.range' st.nextShardId summary.localShardFiles.length))
        shards := st.shards ++ (List.range' st.nextShardId summary.localShardFiles.length).map
          (fun id => ⟨id, globalShardName id⟩)
        nextShardId := st.nextShardId + summary.localShardFiles.length } := by
  rw [numberLocalShards, foldl_numberShard, List.nil_append]

/-- Later ranks leave the map of an earlier one alone. -/
theorem foldl_numberLocalShards_of_notMem {summaries : List LocalCacheWriteSummary} {rank : ℕ}
    (h : rank ∉ summaries.map LocalCacheWriteSummary.globalRank) (st : ShardNumbering) :
    (summaries.foldl numberLocalShards st).shardMap rank = st.shardMap rank := by
  induction summaries generalizing st with
  | nil => rfl
  | cons summary summaries ih =>
    rw [List.map_cons, List.mem_cons, not_or] at h
    rw [List.foldl_cons, ih h.2, numberLocalShards_eq]
    exact Function.update_of_ne h.1 _ _

theorem numbered_foldl {summaries : List LocalCacheWriteSummary}
    (h : (summaries.map LocalCacheWriteSummary.globalRank).Nodup) (st : ShardNumbering) :
    Numbered (summaries.foldl numberLocalShards st).shardMap st.nextShardId summaries := by
  induction summaries generalizing st with
  | nil => trivial
  | cons summary summaries ih =>
    rw [List.map_cons, List.nodup_cons] at h
    have hrest := ih h.2 (numberLocalShards st summary)
    rw [numberLocalShards_eq] at hrest
    refine ⟨?_, by rw [List.foldl_cons, numberLocalShards_eq]; exact hrest⟩
    rw [List.foldl_cons, foldl_numberLocalShards_of_notMem h.1, numberLocalShards_eq]
    exact Function.update_self ..

/-- Every shard of the ranks is in the manifest, under its number. -/
theorem shards_foldl (summaries : List LocalCacheWriteSummary) (st : ShardNumbering) :
    (summaries.foldl numberLocalShards st).shards = st.shards ++
      (List.range' st.nextShardId (summaries.flatMap (·.localShardFiles)).length).map
        (fun id => ⟨id, globalShardName id⟩) := by
  induction summaries generalizing st with
  | nil => simp
  | cons summary summaries ih =>
    rw [List.foldl_cons, ih, numberLocalShards_eq, List.append_assoc, ← List.map_append,
      List.flatMap_cons, List.length_append, List.range'_append_1]

/-- Looking up successive numbers gives the map's entries in their order. -/
theorem mapM_zipIdx {β γ : Type*} {files : List String} {localMap : List β}
    (f : String → β → γ) {k : ℕ} (h : k + files.length = localMap.length) :
    (files.zipIdx k).mapM (fun p => localMap[p.2]?.map (f p.1)) =
      some (List.zipWith f files (localMap.drop k)) := by
  induction files generalizing k with
  | nil => rfl
  | cons file files ih =>
    rw [List.length_cons] at h
    have hk : k < localMap.length := by omega
    rw [List.zipIdx_cons, List.mapM_cons, ih (by omega), List.drop_eq_getElem_cons hk,
      List.getElem?_eq_getElem hk]
    rfl

/-- The local shards of these ranks, in the order of their numbers. -/
def localShardPaths (summaries : List LocalCacheWriteSummary) : List CachePath :=
  summaries.flatMap fun summary => summary.localShardFiles.map (.localShard summary.globalRank)

/-- No look-up fails: each rank moves its shards to the numbers that are its own. -/
theorem mapM_rename {shardMap : ShardMap} {base : ℕ} {summaries : List LocalCacheWriteSummary}
    (h : Numbered shardMap base summaries) :
    ∃ renames, summaries.mapM (renameLocalTargetCacheShards shardMap) = some renames ∧
      renames.flatten = (localShardPaths summaries).zip
        ((List.range' base (localShardPaths summaries).length).map
          fun id => .shard (globalShardName id)) := by
  induction summaries generalizing base with
  | nil => exact ⟨[], rfl, rfl⟩
  | cons summary summaries ih =>
    obtain ⟨hmap, hrest⟩ := h
    obtain ⟨renames, hrenames, hflat⟩ := ih hrest
    have hfirst : renameLocalTargetCacheShards shardMap summary =
        some ((summary.localShardFiles.map (.localShard summary.globalRank)).zip
          ((List.range' base summary.localShardFiles.length).map
            fun id => CachePath.shard (globalShardName id))) := by
      rw [renameLocalTargetCacheShards, hmap, Option.bind_some, mapM_zipIdx
        (fun name id => (CachePath.localShard summary.globalRank name,
          CachePath.shard (globalShardName id))) (by rw [Nat.zero_add, List.length_range']),
        List.drop_zero, List.zip_map, List.zip_eq_zipWith, List.map_zipWith]
      rfl
    refine ⟨_ :: renames, by rw [List.mapM_cons, hfirst, hrenames]; rfl, ?_⟩
    have hpaths : localShardPaths (summary :: summaries) =
        summary.localShardFiles.map (.localShard summary.globalRank) ++
          localShardPaths summaries := List.flatMap_cons
    rw [List.flatten_cons, hflat, hpaths, List.length_append, List.length_map,
      ← List.range'_append_1, List.map_append, List.zip_append (by simp)]

/-! ### Reading an index -/

theorem IndexHolds.unpackIndexRecord {index : List UInt8} {records : List IndexRecord}
    {record : IndexRecord} {i : ℕ} (h : IndexHolds index records)
    (hi : records[i]? = some record) :
    unpackIndexRecord index (i * indexRecordSize) = some record := by
  obtain ⟨chunks, hchunks, rfl⟩ := h.exists_chunks
  have hforall := mapM_eq_some_iff.mp hchunks
  obtain ⟨hlt, rfl⟩ := List.getElem?_eq_some_iff.mp hi
  have hlt' : i < chunks.length := hforall.length_eq ▸ hlt
  have hsize : ∀ chunk ∈ chunks, (id chunk).length = indexRecordSize := by
    intro chunk hchunk
    obtain ⟨j, hj, rfl⟩ := List.getElem_of_mem hchunk
    exact length_packIndexRecord (hforall.get (hforall.length_eq ▸ hj) hj)
  have hstored := storedAt_flatMap id hsize (List.getElem?_eq_getElem hlt')
  rw [List.flatMap_id] at hstored
  exact unpackIndexRecord_of_storedAt (hforall.get hlt hlt') hstored

theorem IndexHolds.length_eq {index : List UInt8} {records : List IndexRecord}
    (h : IndexHolds index records) : index.length = records.length * indexRecordSize := by
  obtain ⟨chunks, hchunks, rfl⟩ := h.exists_chunks
  have hforall := mapM_eq_some_iff.mp hchunks
  clear h hchunks
  induction hforall with
  | nil => rfl
  | cons hpack _ ih =>
    rw [List.flatten_cons, List.length_append, length_packIndexRecord hpack, ih, List.length_cons]
    ring

/-- The offsets of the loop over an index are those of its records. -/
theorem IndexHolds.forall₂_offsets {index : List UInt8} {records : List IndexRecord}
    (h : IndexHolds index records) :
    List.Forall₂ (fun offset record => LatentSpec.unpackIndexRecord index offset = some record)
      (List.range' 0 records.length indexRecordSize) records := by
  refine List.forall₂_iff_get.mpr ⟨List.length_range', ?_⟩
  intro i h₁ h₂
  rw [List.get_eq_getElem, List.get_eq_getElem, List.getElem_range', Nat.zero_add, Nat.mul_comm]
  exact h.unpackIndexRecord (List.getElem?_eq_getElem h₂)

/-- A loop that reads before each step is a loop over what it reads. -/
theorem foldlM_read {σ α β : Type*} {read : α → Option β} {xs : List α} {ys : List β}
    (h : List.Forall₂ (fun x y => read x = some y) xs ys) (step : σ → β → Option σ) (st : σ) :
    xs.foldlM (fun st x => (read x).bind (step st)) st = ys.foldlM step st := by
  induction h generalizing st with
  | nil => rfl
  | cons hread _ ih =>
    rw [List.foldlM_cons, List.foldlM_cons, hread, Option.bind_some]
    exact Option.bind_congr fun _ _ => ih _

/-! ### What the global index holds -/

/-- A record in the global index, after so many samples and shards of earlier ranks. -/
def IndexRecord.shift (record : IndexRecord) (sampleBase shardBase : ℕ) : IndexRecord :=
  { record with
    sampleId := sampleBase + record.sampleId
    shardId := shardBase + record.shardId }

theorem IndexHolds.exists_pack {index : List UInt8} {records : List IndexRecord}
    (h : IndexHolds index records) {record : IndexRecord} (hmem : record ∈ records) :
    ∃ bytes, packIndexRecord record = some bytes := by
  obtain ⟨chunks, hchunks, -⟩ := h.exists_chunks
  have hforall := mapM_eq_some_iff.mp hchunks
  obtain ⟨i, hi, rfl⟩ := List.getElem_of_mem hmem
  exact ⟨_, hforall.get hi (hforall.length_eq ▸ hi)⟩

/-- Only the two new numbers of a record can be too large for their fields. -/
theorem exists_packIndexRecord_shift {record : IndexRecord} {sampleBase shardBase : ℕ}
    (h : ∃ bytes, packIndexRecord record = some bytes)
    (hsample : (record.shift sampleBase shardBase).sampleId < 256 ^ 8)
    (hshard : (record.shift sampleBase shardBase).shardId < 256 ^ 4) :
    ∃ bytes, packIndexRecord (record.shift sampleBase shardBase) = some bytes := by
  rw [packIndexRecord, indexRecordStruct, exists_pack_iff] at h ⊢
  obtain ⟨-, -, hrest⟩ := List.forall₂_cons.mp h |>.imp_right List.forall₂_cons.mp
  exact .cons hsample (.cons hshard hrest)

theorem mergeRecord_eq {shardMap : ShardMap} {rank shardBase count k : ℕ}
    (hmap : shardMap rank = some (List.range' shardBase count)) {record : IndexRecord}
    (hid : record.sampleId = k) (hshard : record.shardId < count) (output : List UInt8)
    (sampleBase : ℕ) :
    mergeRecord shardMap rank (⟨output, sampleBase + k⟩, k) record =
      (packIndexRecord (record.shift sampleBase shardBase)).map fun bytes =>
        (⟨output ++ bytes, sampleBase + k + 1⟩, k + 1) := by
  have hlookup : (List.range' shardBase count)[record.shardId]? =
      some (shardBase + record.shardId) := by
    rw [List.getElem?_range' hshard, Nat.one_mul]
  rw [mergeRecord, if_pos hid, hmap, Option.bind_some, hlookup, Option.bind_some,
    IndexRecord.shift, hid]

/-- The records of one rank, from local number `k` on. -/
theorem foldlM_mergeRecord {shardMap : ShardMap} {rank shardBase count k : ℕ}
    (hmap : shardMap rank = some (List.range' shardBase count)) {records : List IndexRecord}
    (hids : records.map IndexRecord.sampleId = List.range' k records.length)
    (hshards : ∀ record ∈ records, record.shardId < count) (output : List UInt8)
    (sampleBase : ℕ) :
    records.foldlM (mergeRecord shardMap rank) (⟨output, sampleBase + k⟩, k) =
      ((records.map (·.shift sampleBase shardBase)).mapM packIndexRecord).map fun chunks =>
        (⟨output ++ chunks.flatten, sampleBase + k + records.length⟩, k + records.length) := by
  induction records generalizing output k with
  | nil => simp
  | cons record records ih =>
    rw [List.map_cons, List.length_cons, List.range'_succ, List.cons.injEq] at hids
    rw [List.foldlM_cons, mergeRecord_eq hmap hids.1 (hshards _ List.mem_cons_self), List.map_cons,
      List.mapM_cons]
    cases packIndexRecord (record.shift sampleBase shardBase) with
    | none => rfl
    | some bytes =>
      have hrest := ih hids.2 (fun r hr => hshards r (List.mem_cons_of_mem _ hr)) (output ++ bytes)
      have hlen : k + 1 + records.length = k + (records.length + 1) := by omega
      rw [← Nat.add_assoc, Nat.add_assoc sampleBase k 1, Nat.add_assoc sampleBase, hlen] at hrest
      refine Eq.trans hrest ?_
      cases (records.map (·.shift sampleBase shardBase)).mapM packIndexRecord with
      | none => rfl
      | some chunks =>
        simp only [Option.map_some, List.flatten_cons, List.append_assoc, Nat.add_assoc,
          List.length_cons, Option.bind_eq_bind, Option.bind_some, Option.pure_def]

/-- What the merge finds of a rank: an index whose records are numbered from 0 on and point into
the rank's shards. -/
structure LocalIndexOk (files : CacheFiles) (rank : ℕ) (records : List IndexRecord)
    (numShards : ℕ) : Prop where
  index : ∃ bytes, files (.localIndex rank) = some bytes ∧ IndexHolds bytes records
  sampleIds : records.map IndexRecord.sampleId = List.range records.length
  shardIds : ∀ record ∈ records, record.shardId < numShards

theorem mergeLocalIndex_eq {files : CacheFiles} {shardMap : ShardMap} {rank shardBase count : ℕ}
    {records : List IndexRecord} (hok : LocalIndexOk files rank records count)
    (hmap : shardMap rank = some (List.range' shardBase count)) (st : IndexMerge)
    {summary : LocalCacheWriteSummary} (hrank : summary.globalRank = rank) :
    mergeLocalIndex files shardMap st summary =
      ((records.map (·.shift st.nextExpectedSampleId shardBase)).mapM packIndexRecord).map
        fun chunks => ⟨st.output ++ chunks.flatten, st.nextExpectedSampleId + records.length⟩ := by
  obtain ⟨bytes, hbytes, hindex⟩ := hok.index
  have hids := hok.sampleIds
  rw [List.range_eq_range'] at hids
  have hdiv : bytes.length / indexRecordSize = records.length := by
    rw [hindex.length_eq]
    exact Nat.mul_div_cancel _ (by decide)
  have hrun := foldlM_mergeRecord hmap hids hok.shardIds st.output st.nextExpectedSampleId
  rw [Nat.add_zero, Nat.zero_add] at hrun
  rw [mergeLocalIndex, hrank, hbytes, Option.bind_some, if_pos (by
    rw [hindex.length_eq]
    exact Nat.mul_mod_left _ _), hdiv, foldlM_read hindex.forall₂_offsets, hrun, Option.map_map]
  rfl

/-- The records of these ranks in the global index. -/
def mergedRecords (records : ℕ → List IndexRecord) (numShards : ℕ → ℕ) :
    ℕ → ℕ → List ℕ → List IndexRecord
  | _, _, [] => []
  | sampleBase, shardBase, rank :: ranks =>
    (records rank).map (·.shift sampleBase shardBase) ++
      mergedRecords records numShards (sampleBase + (records rank).length)
        (shardBase + numShards rank) ranks

theorem exists_of_mem_mergedRecords {records : ℕ → List IndexRecord} {numShards : ℕ → ℕ}
    {sampleBase shardBase : ℕ} {ranks : List ℕ} {record : IndexRecord}
    (h : record ∈ mergedRecords records numShards sampleBase shardBase ranks) :
    ∃ rank ∈ ranks, ∃ localRecord ∈ records rank, ∃ a b, record = localRecord.shift a b := by
  induction ranks generalizing sampleBase shardBase with
  | nil => cases h
  | cons rank ranks ih =>
    rcases List.mem_append.mp h with hmem | hmem
    · obtain ⟨localRecord, hlocal, rfl⟩ := List.mem_map.mp hmem
      exact ⟨rank, List.mem_cons_self, localRecord, hlocal, _, _, rfl⟩
    · obtain ⟨rank', hrank', hrest⟩ := ih hmem
      exact ⟨rank', List.mem_cons_of_mem _ hrank', hrest⟩

/-- The merge packs the merged records, and fails only where one of them does not fit. -/
theorem foldlM_mergeLocalIndex {files : CacheFiles} {shardMap : ShardMap}
    {summary : ℕ → LocalCacheWriteSummary} (hsummary : ∀ rank, (summary rank).globalRank = rank)
    {records : ℕ → List IndexRecord} {ranks : List ℕ} {shardBase : ℕ}
    (hnumbered : Numbered shardMap shardBase (ranks.map summary))
    (hok : ∀ rank ∈ ranks,
      LocalIndexOk files rank (records rank) (summary rank).localShardFiles.length)
    (st : IndexMerge) :
    (ranks.map summary).foldlM (mergeLocalIndex files shardMap) st =
      ((mergedRecords records (fun rank => (summary rank).localShardFiles.length)
        st.nextExpectedSampleId shardBase ranks).mapM packIndexRecord).map fun chunks =>
          ⟨st.output ++ chunks.flatten,
            st.nextExpectedSampleId + (ranks.flatMap records).length⟩ := by
  induction ranks generalizing shardBase st with
  | nil => simp [mergedRecords]
  | cons rank ranks ih =>
    obtain ⟨hmap, hrest⟩ := hnumbered
    rw [hsummary] at hmap
    rw [List.map_cons, List.foldlM_cons,
      mergeLocalIndex_eq (hok rank List.mem_cons_self) hmap st (hsummary rank), mergedRecords,
      List.mapM_append]
    cases ((records rank).map (·.shift st.nextExpectedSampleId shardBase)).mapM
      packIndexRecord with
    | none => rfl
    | some chunks =>
      refine Eq.trans (ih hrest (fun r hr => hok r (List.mem_cons_of_mem _ hr)) _) ?_
      cases (mergedRecords records (fun rank => (summary rank).localShardFiles.length)
        (st.nextExpectedSampleId + (records rank).length)
        (shardBase + (summary rank).localShardFiles.length) ranks).mapM packIndexRecord with
      | none => rfl
      | some more =>
        simp only [Option.map_some, List.flatten_append, List.append_assoc, Nat.add_assoc,
          List.flatMap_cons, List.length_append, Option.bind_eq_bind, Option.bind_some,
          Option.pure_def]

/-- A record still points at its sample among the shards of all ranks. -/
theorem IndexRecord.Locates.shift {record : IndexRecord} {shards : List ShardFile}
    {sample : TargetCacheSampleBytes} (h : record.Locates shards sample) (sampleBase : ℕ)
    (before after : List ShardFile) :
    (record.shift sampleBase before.length).Locates (before ++ shards ++ after)
      { sample with sampleId := sampleBase + sample.sampleId } := by
  obtain ⟨shard, hshard, hstored⟩ := h.stored
  refine ⟨congrArg (sampleBase + ·) h.sampleId_eq, h.seqLen_eq, shard, ?_, hstored⟩
  obtain ⟨hlt, -⟩ := List.getElem?_eq_some_iff.mp hshard
  change (before ++ shards ++ after)[before.length + record.shardId]? = some shard
  rw [List.append_assoc, List.getElem?_append_right (Nat.le_add_right _ _),
    Nat.add_sub_cancel_left, List.getElem?_append_left hlt]
  exact hshard

/-- The samples numbered from `base` on, whatever numbers they have. -/
def renumber (base : ℕ) (samples : List TargetCacheSampleBytes) : List TargetCacheSampleBytes :=
  samples.mapIdx fun i sample => { sample with sampleId := base + i }

theorem renumber_append (base : ℕ) (samples more : List TargetCacheSampleBytes) :
    renumber base (samples ++ more) =
      renumber base samples ++ renumber (base + samples.length) more := by
  rw [renumber, List.mapIdx_append]
  congr 2
  funext i sample
  rw [Nat.add_assoc, Nat.add_comm i]

/-- Samples that are numbered from 0 on move up by `base`. -/
theorem renumber_eq_map {base : ℕ} {samples : List TargetCacheSampleBytes}
    (hids : samples.map TargetCacheSampleBytes.sampleId = List.range samples.length) :
    renumber base samples =
      samples.map fun sample => { sample with sampleId := base + sample.sampleId } := by
  refine List.mapIdx_eq_iff.mpr fun i => ?_
  rw [List.getElem?_map]
  rcases Nat.lt_or_ge i samples.length with hi | hi
  · have hid : samples[i].sampleId = i := by
      have := List.getElem_of_eq hids (by rwa [List.length_map])
      rwa [List.getElem_map, List.getElem_range] at this
    rw [List.getElem?_eq_getElem hi, Option.map_some, Option.map_some, hid]
  · rw [List.getElem?_eq_none hi]
    rfl

/-- The global index points at the samples of the ranks, in their order. -/
theorem mergedRecords_locates {records : ℕ → List IndexRecord} {shards : ℕ → List ShardFile}
    {samples : ℕ → List TargetCacheSampleBytes} {ranks : List ℕ}
    (hlocates : ∀ rank ∈ ranks, List.Forall₂
      (fun record sample => record.Locates (shards rank) sample) (records rank) (samples rank))
    (hids : ∀ rank ∈ ranks,
      (samples rank).map TargetCacheSampleBytes.sampleId = List.range (samples rank).length)
    (before : List ShardFile) (sampleBase : ℕ) :
    List.Forall₂ (fun record sample => record.Locates (before ++ ranks.flatMap shards) sample)
      (mergedRecords records (fun rank => (shards rank).length) sampleBase before.length ranks)
      (renumber sampleBase (ranks.flatMap samples)) := by
  induction ranks generalizing before sampleBase with
  | nil => exact .nil
  | cons rank ranks ih =>
    have hfirst := hlocates rank List.mem_cons_self
    have hrest := ih (fun r hr => hlocates r (List.mem_cons_of_mem _ hr))
      (fun r hr => hids r (List.mem_cons_of_mem _ hr)) (before ++ shards rank)
      (sampleBase + (records rank).length)
    rw [List.length_append, List.append_assoc, hfirst.length_eq] at hrest
    rw [List.flatMap_cons, List.flatMap_cons, renumber_append, mergedRecords, hfirst.length_eq]
    refine List.rel_append ?_ hrest
    rw [renumber_eq_map (hids rank List.mem_cons_self), List.forall₂_map_left_iff,
      List.forall₂_map_right_iff, ← List.append_assoc]
    exact hfirst.imp fun _ _ h => h.shift sampleBase before (ranks.flatMap shards)

end LatentSpec
