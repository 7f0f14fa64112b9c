import LatentSpec.MergedTargetCache

/-! # Reading the target cache

`CacheDataset` opens a merged cache after checking its manifest, and reads a sample through its
index record and a bounded number of open shards.  `TargetCacheJob.roundTrip` joins the ranks'
writers, the merge and the reader.  The source order of a dataset that the ranks share out is the
dataset's own (`TargetCacheJob.sourceSamples_eq_filterMap`).
-/
namespace LatentSpec
open ByteLayout FileMoves

/-! ### Samples -/

/-- The tensors of a sample, row after row; bfloat16 values are their 16 bits. -/
structure TargetCacheSample (numTargetLayers hiddenSize : ℕ) where
  inputIds : List (BitVec (8 * 4))
  attentionMask : List (BitVec (8 * 1))
  lossMask : List (BitVec (8 * 1))
  targetHiddenStates : List (BitVec (8 * 2))
  targetLastHiddenStates : List (BitVec (8 * 2))
  seqLen_pos : 0 < inputIds.length
  length_attentionMask : attentionMask.length = inputIds.length
  length_lossMask : lossMask.length = inputIds.length
  length_targetHiddenStates :
    targetHiddenStates.length = inputIds.length * (numTargetLayers * hiddenSize)
  length_targetLastHiddenStates : targetLastHiddenStates.length = inputIds.length * hiddenSize

variable {numTargetLayers hiddenSize : ℕ}

def buildTargetCacheSampleBytes (sampleId : ℕ) (s : TargetCacheSample numTargetLayers hiddenSize) :
    TargetCacheSampleBytes where
  sampleId
  seqLen := s.inputIds.length
  inputIds := toBytes s.inputIds
  attentionMask := toBytes s.attentionMask
  lossMask := toBytes s.lossMask
  targetHiddenStates := toBytes s.targetHiddenStates
  targetLastHiddenStates := toBytes s.targetLastHiddenStates

/-- What `__getitem__` returns. -/
structure TargetCacheItem where
  inputIds : List (BitVec (8 * 4))
  lossMask : List (BitVec (8 * 1))
  targetHiddenStates : List (BitVec (8 * 2))
  targetLastHiddenStates : List (BitVec (8 * 2))
  deriving DecidableEq

def TargetCacheSample.item (s : TargetCacheSample numTargetLayers hiddenSize) : TargetCacheItem :=
  ⟨s.inputIds, s.lossMask, s.targetHiddenStates, s.targetLastHiddenStates⟩

structure TargetCacheTensorSizes where
  inputIds : ℕ
  attentionMask : ℕ
  lossMask : ℕ
  targetHiddenStates : ℕ
  targetLastHiddenStates : ℕ

def expectedTargetCacheTensorNumel (seqLen hiddenSize numTargetLayers : ℕ) :
    TargetCacheTensorSizes where
  inputIds := seqLen
  attentionMask := seqLen
  lossMask := seqLen
  targetHiddenStates := seqLen * numTargetLayers * hiddenSize
  targetLastHiddenStates := seqLen * hiddenSize

def expectedTargetCacheTensorNbytes (seqLen hiddenSize numTargetLayers : ℕ) :
    TargetCacheTensorSizes :=
  let numel := expectedTargetCacheTensorNumel seqLen hiddenSize numTargetLayers
  { inputIds := numel.inputIds * 4
    attentionMask := numel.attentionMask
    lossMask := numel.lossMask
    targetHiddenStates := numel.targetHiddenStates * 2
    targetLastHiddenStates := numel.targetLastHiddenStates * 2 }

/-! ### The manifest -/

structure TargetCacheManifest where
  version : ℕ
  numSamples : ℕ
  numShards : ℕ
  targetLayerIds : List ℤ
  hiddenDtype : String
  tokenDtype : String
  maskDtype : String
  indexRecordSize : ℕ
  hiddenSize : ℕ
  shards : List ShardEntry

/-- `TARGET_CACHE_VERSION` -/
def targetCacheVersion : ℕ := 2

/-- `TARGET_CACHE_HIDDEN_DTYPE` -/
def targetCacheHiddenDtype : String := "bfloat16"

/-- `TARGET_CACHE_TOKEN_DTYPE` -/
def targetCacheTokenDtype : String := "int32"

/-- `TARGET_CACHE_MASK_DTYPE` -/
def targetCacheMaskDtype : String := "uint8"

def buildTargetCacheManifest (numSamples : ℕ) (shards : List ShardEntry) (targetLayerIds : List ℤ)
    (hiddenSize : ℕ) : TargetCacheManifest where
  version := targetCacheVersion
  numSamples
  numShards := shards.length
  targetLayerIds
  hiddenDtype := targetCacheHiddenDtype
  tokenDtype := targetCacheTokenDtype
  maskDtype := targetCacheMaskDtype
  indexRecordSize := LatentSpec.indexRecordSize
  hiddenSize
  shards

/-- The index file is there and has one record for each sample. -/
def validateTargetCacheIndex (files : CacheFiles) (numSamples : ℕ) : Bool :=
  match files .index with
  | none => false
  | some bytes =>
    bytes.length % indexRecordSize == 0 && bytes.length == numSamples * indexRecordSize

/-- The assertions of `validate_target_cache_manifest`. -/
def validateTargetCacheManifest (files : CacheFiles) (m : TargetCacheManifest) : Bool :=
  m.version == targetCacheVersion &&
  m.hiddenDtype == targetCacheHiddenDtype &&
  m.tokenDtype == targetCacheTokenDtype &&
  m.maskDtype == targetCacheMaskDtype &&
  m.indexRecordSize == indexRecordSize &&
  decide (0 < m.hiddenSize) &&
  !m.targetLayerIds.isEmpty &&
  m.targetLayerIds == m.targetLayerIds.mergeSort &&
  m.numShards == m.shards.length &&
  m.shards.zipIdx.all (fun p =>
    p.1.shardId == p.2 && (files (.shard p.1.fileName)).isSome) &&
  validateTargetCacheIndex files m.numSamples

/-! ### The dataset -/

/-- `mmap.mmap(fileno, 0)`, which raises on an empty file. -/
def mmapFile (content : List UInt8) : Option (List UInt8) :=
  if content = [] then none else some content

/-- `CacheDataset`.  `shardMmaps` is ordered by last use, the least recent shard first. -/
structure CacheDataset where
  files : CacheFiles
  numSamples : ℕ
  hiddenSize : ℕ
  numTargetLayers : ℕ
  maxOpenShards : ℕ
  shardPaths : ℕ → Option CachePath
  indexMmap : Option (List UInt8)
  shardMmaps : List (ℕ × List UInt8)

namespace CacheDataset

/-- `shard_paths`: a later entry of the manifest replaces an earlier one with its number. -/
def shardPathsOf (shards : List ShardEntry) : ℕ → Option CachePath :=
  shards.foldl
    (fun paths shard => Function.update paths shard.shardId (some (.shard shard.fileName)))
    fun _ => none

/-- `__init__`; `none` when the manifest is refused. -/
def init (files : CacheFiles) (manifest : TargetCacheManifest) (maxOpenShards : ℕ) :
    Option CacheDataset :=
  if validateTargetCacheManifest files manifest then
    some
      { files
        numSamples := manifest.numSamples
        hiddenSize := manifest.hiddenSize
        numTargetLayers := manifest.targetLayerIds.length
        maxOpenShards
        shardPaths := shardPathsOf manifest.shards
        indexMmap := none
        shardMmaps := [] }
  else none

variable (d : CacheDataset)

/-- `_ensure_index_mmap`, with the mapped index. -/
def ensureIndexMmap : Option (CacheDataset × List UInt8) :=
  match d.indexMmap with
  | some bytes => some (d, bytes)
  | none => ((d.files .index).bind mmapFile).map fun bytes =>
      ({ d with indexMmap := some bytes }, bytes)

/-- `_get_shard_mmap`: a shard that is open moves to the end, another one is opened there and the
shards in front are closed until the bound is kept. -/
def getShardMmap (shardId : ℕ) : Option (CacheDataset × List UInt8) :=
  match d.shardMmaps.lookup shardId with
  | some content =>
    some ({ d with
      shardMmaps := d.shardMmaps.filter (·.1 != shardId) ++ [(shardId, content)] }, content)
  | none =>
    (d.shardPaths shardId).bind fun path =>
      ((d.files path).bind mmapFile).bind fun content =>
        let opened := d.shardMmaps ++ [(shardId, content)]
        let kept := opened.drop (opened.length - d.maxOpenShards)
        (kept.lookup shardId).map fun content => ({ d with shardMmaps := kept }, content)

/-- `_read_record` -/
def readRecord (index : ℕ) : Option (CacheDataset × IndexRecord) :=
  d.ensureIndexMmap.bind fun mapped =>
    (unpackIndexRecord mapped.2 (index * indexRecordSize)).bind fun record =>
      if record.sampleId = index then some (mapped.1, record) else none

/-- `_read_tensor_from_shard` and `_read_bfloat16_tensor_from_shard`, for elements of `w` bytes. -/
def readTensorFromShard (w : ℕ) (shardMmap : List UInt8) (offset numel nbytes : ℕ) :
    Option (List (BitVec (8 * w))) :=
  if offset + nbytes ≤ shardMmap.length then fromBuffer w numel offset shardMmap else none

/-- The tensors of a record. -/
def readTensors (shardMmap : List UInt8) (record : IndexRecord) : Option TargetCacheItem :=
  let nbytes := expectedTargetCacheTensorNbytes record.seqLen d.hiddenSize d.numTargetLayers
  (readTensorFromShard 4 shardMmap record.inputIdsOffset record.seqLen nbytes.inputIds).bind
    fun inputIds =>
  (readTensorFromShard 1 shardMmap record.lossMaskOffset record.seqLen nbytes.lossMask).bind
    fun lossMask =>
  (readTensorFromShard 2 shardMmap record.targetHiddenStatesOffset
    (record.seqLen * (d.numTargetLayers * d.hiddenSize)) nbytes.targetHiddenStates).bind
    fun targetHiddenStates =>
  (readTensorFromShard 2 shardMmap record.targetLastHiddenStatesOffset
    (record.seqLen * d.hiddenSize) nbytes.targetLastHiddenStates).map
    fun targetLastHiddenStates =>
      ⟨inputIds, lossMask, targetHiddenStates, targetLastHiddenStates⟩

/-- `__getitem__`; `none` when it raises. -/
def getItem (index : ℤ) : Option (CacheDataset × TargetCacheItem) :=
  if 0 ≤ index ∧ index < d.numSamples then
    (d.readRecord index.toNat).bind fun (d, record) =>
      if 0 < record.seqLen then
        (d.getShardMmap record.shardId).bind fun (d, shardMmap) =>
          (d.readTensors shardMmap record).map fun item => (d, item)
      else none
  else none

/-- The items of these reads, one after the other; `none` when one of them raises. -/
def getItems : CacheDataset → List ℤ → Option (List TargetCacheItem)
  | _, [] => some []
  | d, index :: rest =>
    (d.getItem index).bind fun (d, item) => (getItems d rest).map (item :: ·)

/-! ### Reads of a merged cache -/

/-- The dataset reads a cache of these shards and samples; whatever it has mapped is the file. -/
structure Serves (d : CacheDataset) (shards : List ShardFile)
    (samples : List (TargetCacheSample numTargetLayers hiddenSize)) : Prop where
  cache : GlobalCache d.files shards (samples.mapIdx buildTargetCacheSampleBytes)
  numSamples_eq : d.numSamples = samples.length
  hiddenSize_eq : d.hiddenSize = hiddenSize
  numTargetLayers_eq : d.numTargetLayers = numTargetLayers
  maxOpenShards_pos : 0 < d.maxOpenShards
  shardPaths_eq : ∀ i < shards.length, d.shardPaths i = some (.shard (globalShardName i))
  indexMmap_eq : ∀ bytes, d.indexMmap = some bytes → d.files .index = some bytes
  shardMmaps_eq : ∀ p ∈ d.shardMmaps, ∃ shard, shards[p.1]? = some shard ∧ p.2 = shard.content

variable {d} {shards : List ShardFile}
  {samples : List (TargetCacheSample numTargetLayers hiddenSize)}

/-- The record of a sample is read, and it points at the sample. -/
theorem Serves.readRecord (h : d.Serves shards samples) {i : ℕ}
    {s : TargetCacheSample numTargetLayers hiddenSize} (hi : samples[i]? = some s) :
    ∃ d' record, d.readRecord i = some (d', record) ∧ d'.Serves shards samples ∧
      record.Locates shards (buildTargetCacheSampleBytes i s) := by
  obtain ⟨bytes, records, hbytes, hindex, hlocates⟩ := h.cache.index
  obtain ⟨hlt, rfl⟩ := List.getElem?_eq_some_iff.mp hi
  have hlt' : i < records.length := by
    rw [hlocates.length_eq, List.length_mapIdx]
    exact hlt
  have hrecord : records[i].Locates shards (buildTargetCacheSampleBytes i samples[i]) := by
    have hget := hlocates.get hlt' (by rwa [List.length_mapIdx])
    rwa [List.get_eq_getElem, List.get_eq_getElem, List.getElem_mapIdx] at hget
  have hne : bytes ≠ [] := by
    rintro rfl
    have hlen := hindex.length_eq
    rw [List.length_nil] at hlen
    have : 0 < records.length * indexRecordSize := Nat.mul_pos (by omega) (by decide)
    omega
  have hmapped : ∃ d', d.ensureIndexMmap = some (d', bytes) ∧ d'.Serves shards samples := by
    unfold ensureIndexMmap
    split
    · next bytes' hopen =>
      have := (h.indexMmap_eq bytes' hopen).symm.trans hbytes
      obtain rfl := Option.some.inj this
      exact ⟨d, rfl, h⟩
    · refine ⟨{ d with indexMmap := some bytes }, ?_, { h with indexMmap_eq := ?_ }⟩
      · rw [hbytes, Option.bind_some, mmapFile, if_neg hne]
        rfl
      · intro bytes' hopen
        exact Option.some.inj hopen ▸ hbytes
  obtain ⟨d', hd', hserves⟩ := hmapped
  have hid : records[i].sampleId = i := hrecord.sampleId_eq
  refine ⟨d', records[i], ?_, hserves, hrecord⟩
  rw [CacheDataset.readRecord, hd', Option.bind_some,
    hindex.unpackIndexRecord (List.getElem?_eq_getElem hlt'), Option.bind_some,
    if_pos hid]

/-- Whether it is open or not, the shard that is returned is the file of that number. -/
theorem Serves.getShardMmap (h : d.Serves shards samples) {id : ℕ} {shard : ShardFile}
    (hshard : shards[id]? = some shard) (hne : shard.content ≠ []) :
    ∃ d', d.getShardMmap id = some (d', shard.content) ∧ d'.Serves shards samples := by
  unfold CacheDataset.getShardMmap
  cases hlookup : d.shardMmaps.lookup id with
  | some content =>
    obtain ⟨before, after, heq, -⟩ := List.lookup_eq_some_iff.mp hlookup
    obtain ⟨shard', hshard', hcontent⟩ := h.shardMmaps_eq (id, content) (by rw [heq]; simp)
    obtain rfl := Option.some.inj (hshard'.symm.trans hshard)
    obtain rfl : content = shard'.content := hcontent
    refine ⟨_, rfl, { h with shardMmaps_eq := fun p hp => ?_ }⟩
    rcases List.mem_append.mp hp with hp | hp
    · exact h.shardMmaps_eq p (List.mem_of_mem_filter hp)
    · obtain rfl := List.mem_singleton.mp hp
      exact ⟨shard', hshard, rfl⟩
  | none =>
    have hpath := h.shardPaths_eq id (List.getElem?_eq_some_iff.mp hshard).1
    have hdrop : (d.shardMmaps ++ [(id, shard.content)]).length - d.maxOpenShards ≤
        d.shardMmaps.length := by
      have := h.maxOpenShards_pos
      rw [List.length_append, List.length_singleton]
      omega
    have hkept : ((d.shardMmaps ++ [(id, shard.content)]).drop
        ((d.shardMmaps ++ [(id, shard.content)]).length - d.maxOpenShards)).lookup id =
          some shard.content := by
      rw [List.drop_append_of_le_length hdrop, List.lookup_append,
        (List.drop_suffix _ _).lookup_eq_none hlookup, Option.none_or, List.lookup_cons_self]
    simp only [hpath, Option.bind_some, h.cache.shard_file id shard hshard, mmapFile, if_neg hne,
      hkept, Option.map_some]
    refine ⟨_, rfl, { h with shardMmaps_eq := fun p hp => ?_ }⟩
    rcases List.mem_append.mp (List.mem_of_mem_drop hp) with hp | hp
    · exact h.shardMmaps_eq p hp
    · obtain rfl := List.mem_singleton.mp hp
      exact ⟨shard, hshard, rfl⟩

/-- A stored tensor lies in its shard and is read back. -/
theorem readTensorFromShard_of_storedAt {w : ℕ} {xs : List (BitVec (8 * w))}
    {content : List UInt8} {offset numel nbytes : ℕ} (h : StoredAt content offset (toBytes xs))
    (hnumel : xs.length = numel) (hnbytes : numel * w = nbytes) :
    readTensorFromShard w content offset numel nbytes = some xs := by
  have hle := h.le_length
  rw [length_toBytes, hnumel, hnbytes] at hle
  rw [readTensorFromShard, if_pos hle, ← hnumel, h.fromBuffer]

theorem Serves.readTensors (h : d.Serves shards samples) {i : ℕ}
    {s : TargetCacheSample numTargetLayers hiddenSize} {record : IndexRecord} {shard : ShardFile}
    (hshard : shards[record.shardId]? = some shard)
    (hlocates : record.Locates shards (buildTargetCacheSampleBytes i s)) :
    d.readTensors shard.content record = some s.item := by
  obtain ⟨shard', hshard', hids, -, hmask, hhidden, hlast⟩ := hlocates.stored
  obtain rfl := Option.some.inj (hshard'.symm.trans hshard)
  have hseq : record.seqLen = s.inputIds.length := hlocates.seqLen_eq
  rw [CacheDataset.readTensors, h.hiddenSize_eq, h.numTargetLayers_eq, hseq]
  simp only [expectedTargetCacheTensorNbytes, expectedTargetCacheTensorNumel]
  rw [readTensorFromShard_of_storedAt hids rfl rfl, Option.bind_some,
    readTensorFromShard_of_storedAt hmask s.length_lossMask (Nat.mul_one _), Option.bind_some,
    readTensorFromShard_of_storedAt hhidden s.length_targetHiddenStates
      (by ring),
    Option.bind_some,
    readTensorFromShard_of_storedAt hlast s.length_targetLastHiddenStates rfl, Option.map_some]
  rfl

/-- A read in range returns the sample, whatever was read before. -/
theorem Serves.getItem (h : d.Serves shards samples) {i : ℕ}
    {s : TargetCacheSample numTargetLayers hiddenSize} (hi : samples[i]? = some s) :
    ∃ d', d.getItem i = some (d', s.item) ∧ d'.Serves shards samples := by
  obtain ⟨d₁, record, hread, h₁, hlocates⟩ := h.readRecord hi
  obtain ⟨shard, hshard, hids, -⟩ := hlocates.stored
  have hseq : record.seqLen = s.inputIds.length := hlocates.seqLen_eq
  have hne : shard.content ≠ [] := by
    intro hempty
    have hle := hids.le_length
    rw [hempty, List.length_nil] at hle
    have hlen : (toBytes s.inputIds).length = s.inputIds.length * 4 := length_toBytes _
    have hpos := s.seqLen_pos
    have : (buildTargetCacheSampleBytes i s).inputIds.length = s.inputIds.length * 4 := hlen
    omega
  obtain ⟨d₂, hget, h₂⟩ := h₁.getShardMmap hshard hne
  have hrange : (0 : ℤ) ≤ (i : ℤ) ∧ (i : ℤ) < (d.numSamples : ℤ) := by
    have := (List.getElem?_eq_some_iff.mp hi).1
    rw [h.numSamples_eq]
    omega
  refine ⟨d₂, ?_, h₂⟩
  rw [CacheDataset.getItem, if_pos hrange, Int.toNat_natCast, hread, Option.bind_some]
  simp only
  rw [if_pos (hseq ▸ s.seqLen_pos), hget, Option.bind_some]
  simp only
  rw [h₂.readTensors hshard hlocates, Option.map_some]

/-- Any reads in range return their samples, in any order and with any repetition. -/
theorem Serves.getItems (h : d.Serves shards samples) (reads : List (Fin samples.length)) :
    d.getItems (reads.map fun i => (i.val : ℤ)) =
      some (reads.map fun i => (samples.get i).item) := by
  induction reads generalizing d with
  | nil => rfl
  | cons i reads ih =>
    obtain ⟨d', hd', h'⟩ := h.getItem (List.getElem?_eq_getElem i.isLt)
    rw [List.map_cons, List.map_cons, CacheDataset.getItems, hd', Option.bind_some]
    simp only
    rw [ih h', Option.map_some]
    rfl

/-! ### Opening a merged cache -/

/-- An entry that is named after its number is found under its number. -/
theorem shardPathsOf_eq {entries : List ShardEntry}
    (h : ∀ entry ∈ entries, entry.fileName = globalShardName entry.shardId) {id : ℕ}
    (hid : id ∈ entries.map ShardEntry.shardId) :
    shardPathsOf entries id = some (.shard (globalShardName id)) := by
  induction entries using List.reverseRecOn with
  | nil => cases hid
  | append_singleton entries entry ih =>
    rw [shardPathsOf, List.foldl_append, List.foldl_cons, List.foldl_nil]
    by_cases heq : id = entry.shardId
    · subst heq
      rw [Function.update_self, h entry (by simp)]
    · rw [Function.update_of_ne heq]
      refine ih (fun e he => h e (List.mem_append_left _ he)) ?_
      rw [List.map_append, List.mem_append] at hid
      exact hid.resolve_right fun hlast => heq (List.mem_singleton.mp hlast)

theorem validate_globalCache {files : CacheFiles} {samplesBytes : List TargetCacheSampleBytes}
    (h : GlobalCache files shards samplesBytes) {targetLayerIds : List ℤ} {hiddenSize : ℕ}
    (hlayers : targetLayerIds ≠ []) (hsorted : targetLayerIds.Pairwise (· ≤ ·))
    (hhidden : 0 < hiddenSize) :
    validateTargetCacheManifest files (buildTargetCacheManifest samplesBytes.length
      ((List.range' 0 shards.length).map fun id => ⟨id, globalShardName id⟩) targetLayerIds
      hiddenSize) = true := by
  obtain ⟨bytes, records, hbytes, hindex, hlocates⟩ := h.index
  have hvalid : validateTargetCacheIndex files samplesBytes.length = true := by
    rw [validateTargetCacheIndex, hbytes]
    simp only
    rw [hindex.length_eq, hlocates.length_eq, Nat.mul_mod_left, beq_self_eq_true,
      beq_self_eq_true]
    rfl
  have hshards : (((List.range' 0 shards.length).map
      fun id => (⟨id, globalShardName id⟩ : ShardEntry)).zipIdx.all fun p =>
        p.1.shardId == p.2 && (files (.shard p.1.fileName)).isSome) = true := by
    refine List.all_eq_true.mpr fun p hp => ?_
    obtain ⟨hlt, hentry⟩ := List.mem_zipIdx' hp
    rw [List.length_map, List.length_range'] at hlt
    rw [List.getElem_map, List.getElem_range', Nat.zero_add, Nat.one_mul] at hentry
    rw [hentry, h.shard_file p.2 _ (List.getElem?_eq_getElem hlt)]
    simp
  have hle : targetLayerIds.mergeSort = targetLayerIds :=
    List.mergeSort_of_pairwise (hsorted.imp fun h => decide_eq_true h)
  have hnonempty : (!targetLayerIds.isEmpty) = true := by
    cases targetLayerIds with
    | nil => exact absurd rfl hlayers
    | cons => rfl
  simp only [validateTargetCacheManifest, buildTargetCacheManifest, hvalid, hshards, hle,
    hnonempty, hhidden, decide_true, beq_self_eq_true, Bool.and_self]

/-- A merged cache opens, with the manifest of its shards. -/
theorem exists_init {files : CacheFiles} {targetLayerIds : List ℤ} {hiddenSize : ℕ}
    {samples : List (TargetCacheSample targetLayerIds.length hiddenSize)}
    (h : GlobalCache files shards (samples.mapIdx buildTargetCacheSampleBytes))
    (hlayers : targetLayerIds ≠ []) (hsorted : targetLayerIds.Pairwise (· ≤ ·))
    (hhidden : 0 < hiddenSize) {maxOpenShards : ℕ} (hopen : 0 < maxOpenShards) :
    ∃ d, init files (buildTargetCacheManifest samples.length
      ((List.range' 0 shards.length).map fun id => ⟨id, globalShardName id⟩) targetLayerIds
      hiddenSize) maxOpenShards = some d ∧ d.Serves shards samples := by
  have hvalid := validate_globalCache h hlayers hsorted hhidden
  rw [List.length_mapIdx] at hvalid
  refine ⟨_, by rw [init, if_pos hvalid], ?_⟩
  refine ⟨h, rfl, rfl, rfl, hopen, fun i hi => ?_, fun _ h => (by cases h),
    fun _ h => (by cases h)⟩
  refine shardPathsOf_eq (fun entry hmem => ?_) ?_
  · obtain ⟨id, -, rfl⟩ := List.mem_map.mp hmem
    rfl
  · rw [buildTargetCacheManifest, List.map_map]
    exact List.mem_map.mpr ⟨i, List.mem_range'_1.mpr ⟨Nat.zero_le _, by omega⟩, rfl⟩

end CacheDataset

/-! ### The round trip -/

/-- A job: the samples of each rank, numbered from 0 on as they are written, and where the rank
begins in the source. -/
structure TargetCacheJob where
  targetLayerIds : List ℤ
  hiddenSize : ℕ
  targetLayerIds_ne_nil : targetLayerIds ≠ []
  targetLayerIds_sorted : targetLayerIds.Pairwise (· ≤ ·)
  hiddenSize_pos : 0 < hiddenSize
  worldSize : ℕ
  maxShardBytes : ℤ
  sourceSampleStart : ℕ → ℕ
  samples : ℕ → List (TargetCacheSample targetLayerIds.length hiddenSize)
  writer : ℕ → LocalTargetCacheWriter
  written : ∀ rank < worldSize, (LocalTargetCacheWriter.init maxShardBytes).writeSamples
    ((samples rank).mapIdx buildTargetCacheSampleBytes) = some (writer rank)

namespace TargetCacheJob

variable (j : TargetCacheJob)

def caches : LocalCaches where
  worldSize := j.worldSize
  maxShardBytes := j.maxShardBytes
  sourceSampleStart := j.sourceSampleStart
  samples rank := (j.samples rank).mapIdx buildTargetCacheSampleBytes
  writer := j.writer
  sampleIds rank _ := by
    refine List.ext_getElem (by simp) fun i h₁ h₂ => ?_
    rw [List.getElem_map, List.getElem_mapIdx, List.getElem_range]
    rfl
  written := j.written

/-- The samples of the ranks in source order. -/
def sourceSamples : List (TargetCacheSample j.targetLayerIds.length j.hiddenSize) :=
  j.caches.sourceOrder.flatMap j.samples

/-- **A dataset that the ranks share out** by `compute_local_sample_range` is merged in its own
order, less the rows that no sample was made of. -/
theorem sourceSamples_eq_filterMap {Row : Type} (rows : List Row)
    (keep : Row → Option (TargetCacheSample j.targetLayerIds.length j.hiddenSize))
    (hworld : 0 < j.worldSize)
    (hstart : j.sourceSampleStart =
      fun rank => (computeLocalSampleRange rows.length rank j.worldSize).1)
    (hsamples : ∀ rank < j.worldSize,
      j.samples rank = (localRows rows rank j.worldSize).filterMap keep) :
    j.sourceSamples = rows.filterMap keep := by
  have horder : j.caches.sourceOrder = List.range j.worldSize := by
    refine j.caches.sourceOrder_eq_range fun a b hab => ?_
    change j.sourceSampleStart a ≤ j.sourceSampleStart b
    rw [hstart]
    exact computeLocalSampleRange_start_mono _ _ hab
  calc j.sourceSamples = (List.range j.worldSize).flatMap j.samples := by rw [sourceSamples, horder]
    _ = (List.range j.worldSize).flatMap fun rank =>
          (localRows rows rank j.worldSize).filterMap keep :=
        List.flatMap_congr fun rank hrank => hsamples rank (List.mem_range.mp hrank)
    _ = rows.filterMap keep := by rw [← List.filterMap_flatMap, flatMap_localRows rows hworld]

/-- `_write_manifest` -/
def manifest : TargetCacheManifest :=
  buildTargetCacheManifest (j.caches.summaries.map LocalCacheWriteSummary.numLocalSamples).sum
    (buildGlobalTargetCacheShardMap j.caches.summaries).2 j.targetLayerIds j.hiddenSize

/-- Numbered anew, the samples that the ranks wrote are the samples in source order. -/
theorem renumber_sourceSamples :
    renumber 0 j.caches.sourceSamples = j.sourceSamples.mapIdx buildTargetCacheSampleBytes := by
  have hranks : ∀ (ranks : List ℕ) (base : ℕ),
      renumber base (ranks.flatMap fun rank =>
        (j.samples rank).mapIdx buildTargetCacheSampleBytes) =
      (ranks.flatMap j.samples).mapIdx fun i => buildTargetCacheSampleBytes (base + i) := by
    intro ranks
    induction ranks with
    | nil => exact fun _ => rfl
    | cons rank ranks ih =>
      intro base
      rw [List.flatMap_cons, List.flatMap_cons, renumber_append, ih, List.mapIdx_append,
        List.length_mapIdx]
      congr 1
      · exact List.mapIdx_mapIdx
      · congr 1
        funext i
        rw [Nat.add_assoc, Nat.add_comm i]
  refine (hranks j.caches.sourceOrder 0).trans ?_
  simp only [Nat.zero_add]
  rfl

theorem length_sourceSamples : j.caches.sourceSamples.length = j.sourceSamples.length := by
  have := congrArg List.length j.renumber_sourceSamples
  rwa [renumber, List.length_mapIdx, List.length_mapIdx] at this

/-- **The round trip.**  The ranks' moves have different targets and succeed in any order.  The
merge then returns as long as the numbers fit their fields, it counts every sample, and the cache
opens; record `i` is numbered `i`, and reads in range return exactly the samples in source
order. -/
theorem roundTrip {maxOpenShards : ℕ} (hopen : 0 < maxOpenShards) :
    ∃ renames, (sortedBySource j.caches.summaries).mapM
        (renameLocalTargetCacheShards
          (buildGlobalTargetCacheShardMap j.caches.summaries).1) = some renames ∧
      (renames.flatten.map Prod.snd).Nodup ∧
      ∀ order, order.Perm renames.flatten →
        ∃ renamed, moves j.caches.files order = some renamed ∧
          (j.sourceSamples.length ≤ 2 ^ 64 → j.caches.shards.length ≤ 2 ^ 32 →
            ∃ result, finalizeTargetCacheIndex renamed j.caches.summaries
              (buildGlobalTargetCacheShardMap j.caches.summaries).1 = some result) ∧
          ∀ final numSamples, finalizeTargetCacheIndex renamed j.caches.summaries
              (buildGlobalTargetCacheShardMap j.caches.summaries).1 = some (final, numSamples) →
            numSamples = j.sourceSamples.length ∧
            ∃ d, CacheDataset.init (cleanupTargetCacheTmpDir final) j.manifest maxOpenShards =
                some d ∧
              d.numSamples = j.sourceSamples.length ∧
              (∀ i < j.sourceSamples.length, ∃ d' record,
                d.readRecord i = some (d', record) ∧ record.sampleId = i) ∧
              ∀ reads : List (Fin j.sourceSamples.length),
                d.getItems (reads.map fun i => (i.val : ℤ)) =
                  some (reads.map fun i => (j.sourceSamples.get i).item) := by
  obtain ⟨renames, hrenames, hflat⟩ := j.caches.exists_renames
  refine ⟨renames, hrenames, ?_, fun order horder => ?_⟩
  · rw [hflat, List.map_snd_zip]
    · exact LocalCaches.nodup_targets _
    · rw [LocalCaches.length_targets, j.caches.length_sources]
  rw [hflat] at horder
  obtain ⟨renamed, hmoves, hrenamed⟩ := j.caches.moves_renamed horder
  refine ⟨renamed, hmoves, fun hsamples hshards => ?_, fun final numSamples hfinal => ?_⟩
  · exact hrenamed.exists_finalize (j.length_sourceSamples ▸ hsamples) hshards
  obtain ⟨hcount, hcache⟩ := hrenamed.globalCache hfinal
  rw [j.renumber_sourceSamples] at hcache
  obtain ⟨d, hinit, hserves⟩ := CacheDataset.exists_init hcache j.targetLayerIds_ne_nil
    j.targetLayerIds_sorted j.hiddenSize_pos hopen
  refine ⟨hcount.trans j.length_sourceSamples, d, ?_, hserves.numSamples_eq, fun i hi => ?_,
    hserves.getItems⟩
  · rw [manifest, LocalCaches.sum_numLocalSamples, LocalCaches.shards_eq, j.length_sourceSamples]
    exact hinit
  · obtain ⟨d', record, hread, -, hlocates⟩ := hserves.readRecord (List.getElem?_eq_getElem hi)
    exact ⟨d', record, hread, hlocates.sampleId_eq⟩

/-- A sample of one token. -/
def oneToken (token : BitVec (8 * 4)) (hidden : BitVec (8 * 2)) : TargetCacheSample 1 1 where
  inputIds := [token]
  attentionMask := [1]
  lossMask := [1]
  targetHiddenStates := [hidden]
  targetLastHiddenStates := [hidden]
  seqLen_pos := Nat.one_pos
  length_attentionMask := rfl
  length_lossMask := rfl
  length_targetHiddenStates := rfl
  length_targetLastHiddenStates := rfl

/-- Two ranks with one start; the first has no samples, the second fills two shards. -/
def twoRanks : TargetCacheJob where
  targetLayerIds := [3]
  hiddenSize := 1
  targetLayerIds_ne_nil := List.cons_ne_nil _ _
  targetLayerIds_sorted := List.pairwise_singleton _ _
  hiddenSize_pos := Nat.one_pos
  worldSize := 2
  maxShardBytes := 10
  sourceSampleStart _ := 0
  samples rank := if rank = 1 then [oneToken 7 5, oneToken 8 6] else []
  writer rank := ((LocalTargetCacheWriter.init 10).writeSamples
    ((if rank = 1 then [oneToken 7 5, oneToken 8 6] else []).mapIdx
      buildTargetCacheSampleBytes)).getD (LocalTargetCacheWriter.init 10)
  written rank _ := by
    by_cases h : rank = 1
    · subst h
      rfl
    · rw [if_neg h]
      rfl

/-- The second rank's samples are read back, from two shards of which one is open at a time. -/
theorem exists_twoRanks_reads :
    ∃ d : CacheDataset, d.maxOpenShards = 1 ∧ d.getItems [1, 0, 1] =
      some [(oneToken 8 6).item, (oneToken 7 5).item, (oneToken 8 6).item] := by
  obtain ⟨renames, -, -, hmerge⟩ := @roundTrip twoRanks 1 Nat.one_pos
  have horder : twoRanks.caches.sourceOrder = [0, 1] :=
    twoRanks.caches.sourceOrder_eq_range fun _ _ _ => Nat.le_refl 0
  have hsamples : twoRanks.sourceSamples = [oneToken 7 5, oneToken 8 6] := by
    rw [sourceSamples, horder]
    rfl
  have hshards : twoRanks.caches.shards.length = 2 := by
    rw [LocalCaches.shards, horder]
    rfl
  obtain ⟨renamed, -, hreturns, hreads⟩ := hmerge _ (.refl _)
  obtain ⟨⟨final, numSamples⟩, hfinal⟩ := hreturns (by rw [hsamples]; decide)
    (by rw [hshards]; decide)
  obtain ⟨-, d, hinit, -, -, hitems⟩ := hreads final numSamples hfinal
  rw [hsamples] at hitems
  refine ⟨d, ?_, hitems [1, 0, 1]⟩
  rw [CacheDataset.init] at hinit
  split at hinit
  · exact Option.some.inj hinit ▸ rfl
  · cases hinit

end TargetCacheJob
end LatentSpec
