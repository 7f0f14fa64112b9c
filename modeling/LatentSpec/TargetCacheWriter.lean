import Mathlib.Data.List.Forall2
import LatentSpec.ByteLayout

/-! # Writing the target cache

`LocalTargetCacheWriter` appends the five tensors of a sample to the current shard and a record of
their offsets to the local index; it opens a new shard when the sample would make a nonempty one
too large.  `Holds` says what the shards and the index hold after some samples, and
`writeSampleBytes_holds` that writing one more adds it and leaves the others where they were.
-/
namespace LatentSpec
open ByteLayout

/-! ### Index records -/

structure IndexRecord where
  sampleId : ℕ
  shardId : ℕ
  seqLen : ℕ
  inputIdsOffset : ℕ
  attentionMaskOffset : ℕ
  lossMaskOffset : ℕ
  targetHiddenStatesOffset : ℕ
  targetLastHiddenStatesOffset : ℕ
  deriving DecidableEq

/-- `INDEX_RECORD_STRUCT`, `<QIIQQQQQ` -/
def indexRecordStruct : List ℕ := [8, 4, 4, 8, 8, 8, 8, 8]

/-- `INDEX_RECORD_SIZE` -/
def indexRecordSize : ℕ := indexRecordStruct.sum

def packIndexRecord (record : IndexRecord) : Option (List UInt8) :=
  pack indexRecordStruct
    [record.sampleId, record.shardId, record.seqLen, record.inputIdsOffset,
      record.attentionMaskOffset, record.lossMaskOffset, record.targetHiddenStatesOffset,
      record.targetLastHiddenStatesOffset]

def unpackIndexRecord (buffer : List UInt8) (offset : ℕ) : Option IndexRecord :=
  match unpackFrom indexRecordStruct buffer offset with
  | some [sampleId, shardId, seqLen, inputIdsOffset, attentionMaskOffset, lossMaskOffset,
      targetHiddenStatesOffset, targetLastHiddenStatesOffset] =>
    some ⟨sampleId, shardId, seqLen, inputIdsOffset, attentionMaskOffset, lossMaskOffset,
      targetHiddenStatesOffset, targetLastHiddenStatesOffset⟩
  | _ => none

theorem unpackIndexRecord_of_storedAt {record : IndexRecord} {bytes buffer : List UInt8}
    {offset : ℕ} (hpack : packIndexRecord record = some bytes)
    (hstored : StoredAt buffer offset bytes) : unpackIndexRecord buffer offset = some record := by
  rw [unpackIndexRecord, hstored.unpackFrom hpack]

theorem length_packIndexRecord {record : IndexRecord} {bytes : List UInt8}
    (h : packIndexRecord record = some bytes) : bytes.length = indexRecordSize :=
  length_pack h

/-- The records of an index file. -/
structure IndexHolds (index : List UInt8) (records : List IndexRecord) : Prop where
  exists_chunks : ∃ chunks, records.mapM packIndexRecord = some chunks ∧ index = chunks.flatten

theorem IndexHolds.nil : IndexHolds [] [] := ⟨[], rfl, rfl⟩

theorem IndexHolds.append {index bytes : List UInt8} {records : List IndexRecord}
    {record : IndexRecord} (h : IndexHolds index records)
    (hpack : packIndexRecord record = some bytes) :
    IndexHolds (index ++ bytes) (records ++ [record]) := by
  obtain ⟨chunks, hchunks, rfl⟩ := h.exists_chunks
  refine ⟨chunks ++ [bytes], ?_, by simp⟩
  rw [List.mapM_append, hchunks, List.mapM_cons, hpack]
  rfl

/-! ### The writer -/

structure TargetCacheSampleBytes where
  sampleId : ℕ
  seqLen : ℕ
  inputIds : List UInt8
  attentionMask : List UInt8
  lossMask : List UInt8
  targetHiddenStates : List UInt8
  targetLastHiddenStates : List UInt8
  deriving DecidableEq

/-- A shard of a rank: its name in the rank's directory, and what was written to it. -/
structure ShardFile where
  fileName : String
  content : List UInt8
  deriving DecidableEq

/-- `f"{n:05d}"` -/
def zeroPadded (n : ℕ) : String :=
  String.ofList ((Nat.toDigits 10 n).leftpad 5 '0')

/-- `LocalTargetCacheWriter`.  `shards` are the files of `local_shard_files`, with their content;
`index` is that of `samples.local.idx`. -/
structure LocalTargetCacheWriter where
  maxShardBytes : ℤ
  shards : List ShardFile
  handleOpen : Bool
  currentShardSize : ℕ
  index : List UInt8
  numLocalSamples : ℕ

namespace LocalTargetCacheWriter

def init (maxShardBytes : ℤ) : LocalTargetCacheWriter where
  maxShardBytes
  shards := []
  handleOpen := false
  currentShardSize := 0
  index := []
  numLocalSamples := 0

variable (w : LocalTargetCacheWriter)

/-- `current_shard_id`: the shards are numbered in the order in which they are opened. -/
def currentShardId : ℕ := w.shards.length - 1

/-- `_open_new_shard` -/
def openNewShard : LocalTargetCacheWriter :=
  { w with
    shards := w.shards ++ [⟨"shard-local-" ++ zeroPadded w.shards.length ++ ".bin", []⟩]
    handleOpen := true
    currentShardSize := 0 }

/-- `_ensure_shard` -/
def ensureShard (sampleNbytes : ℕ) : LocalTargetCacheWriter :=
  if !w.handleOpen then w.openNewShard
  else if 0 < w.currentShardSize ∧
      w.maxShardBytes < (w.currentShardSize : ℤ) + (sampleNbytes : ℤ) then w.openNewShard
  else w

/-- `current_shard_handle.write(piece)`, and the count of the bytes. -/
def write (piece : List UInt8) : LocalTargetCacheWriter :=
  { w with
    shards := w.shards.modify w.currentShardId
      fun shard => { shard with content := shard.content ++ piece }
    currentShardSize := w.currentShardSize + piece.length }

/-- The tensors of a sample go to the open shard; the record has their offsets. -/
def writeTensors (sample : TargetCacheSampleBytes) : LocalTargetCacheWriter × IndexRecord :=
  let w₁ := w.write sample.inputIds
  let w₂ := w₁.write sample.attentionMask
  let w₃ := w₂.write sample.lossMask
  let w₄ := w₃.write sample.targetHiddenStates
  let w₅ := w₄.write sample.targetLastHiddenStates
  (w₅,
    { sampleId := sample.sampleId
      shardId := w₅.currentShardId
      seqLen := sample.seqLen
      inputIdsOffset := w.currentShardSize
      attentionMaskOffset := w₁.currentShardSize
      lossMaskOffset := w₂.currentShardSize
      targetHiddenStatesOffset := w₃.currentShardSize
      targetLastHiddenStatesOffset := w₄.currentShardSize })

def writeSampleBytes (sample : TargetCacheSampleBytes) : Option LocalTargetCacheWriter :=
  let sampleNbytes := sample.inputIds.length + sample.attentionMask.length +
    sample.lossMask.length + sample.targetHiddenStates.length +
    sample.targetLastHiddenStates.length
  let written := (w.ensureShard sampleNbytes).writeTensors sample
  (packIndexRecord written.2).map fun bytes =>
    { written.1 with
      index := written.1.index ++ bytes
      numLocalSamples := written.1.numLocalSamples + 1 }

/-- The samples in their order; `none` when one of them raises. -/
def writeSamples (samples : List TargetCacheSampleBytes) : Option LocalTargetCacheWriter :=
  samples.foldlM writeSampleBytes w

def close : LocalTargetCacheWriter := { w with handleOpen := false }

end LocalTargetCacheWriter

/-! ### What the writer holds -/

/-- The record points at the sample's tensors. -/
structure IndexRecord.Locates (record : IndexRecord) (shards : List ShardFile)
    (sample : TargetCacheSampleBytes) : Prop where
  sampleId_eq : record.sampleId = sample.sampleId
  seqLen_eq : record.seqLen = sample.seqLen
  stored : ∃ shard, shards[record.shardId]? = some shard ∧
    StoredAt shard.content record.inputIdsOffset sample.inputIds ∧
    StoredAt shard.content record.attentionMaskOffset sample.attentionMask ∧
    StoredAt shard.content record.lossMaskOffset sample.lossMask ∧
    StoredAt shard.content record.targetHiddenStatesOffset sample.targetHiddenStates ∧
    StoredAt shard.content record.targetLastHiddenStatesOffset sample.targetLastHiddenStates

/-- Shards keep their numbers and names, and only grow at their ends. -/
def ShardsGrow (shards shards' : List ShardFile) : Prop :=
  ∀ (i : ℕ) (shard : ShardFile), shards[i]? = some shard →
    ∃ more, shards'[i]? = some { shard with content := shard.content ++ more }

theorem ShardsGrow.refl (shards : List ShardFile) : ShardsGrow shards shards := by
  intro i shard h
  exact ⟨[], by rw [List.append_nil]; exact h⟩

theorem ShardsGrow.trans {shards shards' shards'' : List ShardFile}
    (h : ShardsGrow shards shards') (h' : ShardsGrow shards' shards'') :
    ShardsGrow shards shards'' := by
  intro i shard hi
  obtain ⟨more, hmore⟩ := h i shard hi
  obtain ⟨more', hmore'⟩ := h' i _ hmore
  exact ⟨more ++ more', by rw [hmore', List.append_assoc]⟩

theorem IndexRecord.Locates.grow {record : IndexRecord} {shards shards' : List ShardFile}
    {sample : TargetCacheSampleBytes} (h : record.Locates shards sample)
    (hgrow : ShardsGrow shards shards') : record.Locates shards' sample := by
  obtain ⟨shard, hshard, h₁, h₂, h₃, h₄, h₅⟩ := h.stored
  obtain ⟨more, hmore⟩ := hgrow _ _ hshard
  exact ⟨h.sampleId_eq, h.seqLen_eq, _, hmore, h₁.append more, h₂.append more, h₃.append more,
    h₄.append more, h₅.append more⟩

namespace LocalTargetCacheWriter

/-- The open shard is the last one, and its size is the one the writer has counted. -/
structure Ok (w : LocalTargetCacheWriter) : Prop where
  named : ∀ i shard, w.shards[i]? = some shard →
    shard.fileName = "shard-local-" ++ zeroPadded i ++ ".bin"
  current : w.handleOpen = true → ∃ shard, w.shards[w.currentShardId]? = some shard ∧
    shard.content.length = w.currentShardSize

/-- The writer was given these samples, and its index has these records of them. -/
structure Holds (w : LocalTargetCacheWriter) (samples : List TargetCacheSampleBytes)
    (records : List IndexRecord) : Prop where
  numLocalSamples_eq : w.numLocalSamples = samples.length
  index : IndexHolds w.index records
  located : List.Forall₂ (fun record sample => record.Locates w.shards sample) records samples

theorem Holds.map_sampleId {w : LocalTargetCacheWriter} {samples : List TargetCacheSampleBytes}
    {records : List IndexRecord} (h : w.Holds samples records) :
    records.map IndexRecord.sampleId = samples.map TargetCacheSampleBytes.sampleId := by
  obtain ⟨-, -, hlocated⟩ := h
  induction hlocated with
  | nil => rfl
  | cons hlocates _ ih => rw [List.map_cons, List.map_cons, hlocates.sampleId_eq, ih]

theorem init_ok (maxShardBytes : ℤ) : (init maxShardBytes).Ok where
  named := fun _ _ h => by cases h
  current := fun h => by cases h

theorem init_holds (maxShardBytes : ℤ) : (init maxShardBytes).Holds [] [] :=
  ⟨rfl, .nil, .nil⟩

variable {w : LocalTargetCacheWriter}

theorem openNewShard_grow (w : LocalTargetCacheWriter) :
    ShardsGrow w.shards w.openNewShard.shards := by
  intro i shard h
  refine ⟨[], ?_⟩
  rw [List.append_nil]
  exact (List.getElem?_append_left (List.getElem?_eq_some_iff.mp h).1).trans h

theorem openNewShard_ok (h : w.Ok) : w.openNewShard.Ok where
  named := by
    intro i shard hi
    rcases Nat.lt_or_ge i w.shards.length with hlt | hge
    · refine h.named i shard ?_
      rw [← hi]
      exact (List.getElem?_append_left hlt).symm
    · have hsingle := (List.getElem?_append_right hge).symm.trans hi
      obtain ⟨hlen, heq⟩ := List.getElem?_eq_some_iff.mp hsingle
      have hi' : i = w.shards.length := by
        rw [List.length_singleton] at hlen
        omega
      subst hi'
      simpa using congrArg ShardFile.fileName heq.symm
  current := by
    intro _
    refine ⟨⟨"shard-local-" ++ zeroPadded w.shards.length ++ ".bin", []⟩, ?_, rfl⟩
    simp [openNewShard, currentShardId]

theorem ensureShard_spec (h : w.Ok) (sampleNbytes : ℕ) :
    (w.ensureShard sampleNbytes).Ok ∧ (w.ensureShard sampleNbytes).handleOpen = true ∧
      ShardsGrow w.shards (w.ensureShard sampleNbytes).shards ∧
      (w.ensureShard sampleNbytes).index = w.index ∧
      (w.ensureShard sampleNbytes).numLocalSamples = w.numLocalSamples := by
  have hopen : w.openNewShard.Ok ∧ w.openNewShard.handleOpen = true ∧
      ShardsGrow w.shards w.openNewShard.shards ∧ w.openNewShard.index = w.index ∧
      w.openNewShard.numLocalSamples = w.numLocalSamples :=
    ⟨openNewShard_ok h, rfl, openNewShard_grow w, rfl, rfl⟩
  unfold ensureShard
  split
  · exact hopen
  · next hhandle =>
    split
    · exact hopen
    · exact ⟨h, by simpa using hhandle, .refl _, rfl, rfl⟩

/-- What a `write` does to the writer: the open shard grows by the piece. -/
theorem write_spec (h : w.Ok) (hopen : w.handleOpen = true) (piece : List UInt8) :
    (w.write piece).Ok ∧ ShardsGrow w.shards (w.write piece).shards ∧
      (w.write piece).currentShardId = w.currentShardId ∧
      ∃ shard, (w.write piece).shards[w.currentShardId]? = some shard ∧
        StoredAt shard.content w.currentShardSize piece := by
  obtain ⟨shard, hshard, hsize⟩ := h.current hopen
  have hget : ∀ i, (w.write piece).shards[i]? = (fun shard => if w.currentShardId = i then
      { shard with content := shard.content ++ piece } else shard) <$> w.shards[i]? :=
    fun i => List.getElem?_modify _ _ _ _
  have hid : (w.write piece).currentShardId = w.currentShardId := by
    simp [currentShardId, write]
  have hcurrent : (w.write piece).shards[w.currentShardId]? =
      some { shard with content := shard.content ++ piece } := by
    rw [hget, hshard]
    simp
  refine ⟨⟨?_, fun _ => ?_⟩, ?_, hid, _, hcurrent, ⟨shard.content, [], by simp, hsize⟩⟩
  · intro i shard' hi
    rw [hget, Option.map_eq_map, Option.map_eq_some_iff] at hi
    obtain ⟨old, hold, rfl⟩ := hi
    have hname := h.named i old hold
    split <;> exact hname
  · refine ⟨_, hid.symm ▸ hcurrent, ?_⟩
    rw [List.length_append, hsize]
    rfl
  · intro i old hold
    rw [hget, hold, Option.map_eq_map, Option.map_some]
    split
    · exact ⟨piece, rfl⟩
    · exact ⟨[], by rw [List.append_nil]⟩

/-- Each tensor is still in the shard after the later writes. -/
theorem writeTensors_spec (h : w.Ok) (hopen : w.handleOpen = true)
    (sample : TargetCacheSampleBytes) :
    (w.writeTensors sample).1.Ok ∧ ShardsGrow w.shards (w.writeTensors sample).1.shards ∧
      (w.writeTensors sample).2.Locates (w.writeTensors sample).1.shards sample := by
  obtain ⟨hok₁, hgrow₁, hid₁, s₁, hs₁, hat₁⟩ := write_spec h hopen sample.inputIds
  obtain ⟨hok₂, hgrow₂, hid₂, s₂, hs₂, hat₂⟩ := write_spec hok₁ hopen sample.attentionMask
  obtain ⟨hok₃, hgrow₃, hid₃, s₃, hs₃, hat₃⟩ := write_spec hok₂ hopen sample.lossMask
  obtain ⟨hok₄, hgrow₄, hid₄, s₄, hs₄, hat₄⟩ := write_spec hok₃ hopen sample.targetHiddenStates
  obtain ⟨hok₅, hgrow₅, hid₅, s₅, hs₅, hat₅⟩ := write_spec hok₄ hopen
    sample.targetLastHiddenStates
  rw [hid₁] at hs₂
  rw [hid₂, hid₁] at hs₃
  rw [hid₃, hid₂, hid₁] at hs₄
  rw [hid₄, hid₃, hid₂, hid₁] at hs₅
  have hgrow₄₅ := hgrow₄.trans hgrow₅
  have hgrow₃₅ := hgrow₃.trans hgrow₄₅
  have hgrow₂₅ := hgrow₂.trans hgrow₃₅
  obtain ⟨m₄, hm₄⟩ := hgrow₅ _ _ hs₄
  obtain ⟨m₃, hm₃⟩ := hgrow₄₅ _ _ hs₃
  obtain ⟨m₂, hm₂⟩ := hgrow₃₅ _ _ hs₂
  obtain ⟨m₁, hm₁⟩ := hgrow₂₅ _ _ hs₁
  have hid := hid₅.trans (hid₄.trans (hid₃.trans (hid₂.trans hid₁)))
  refine ⟨hok₅, hgrow₁.trans hgrow₂₅, rfl, rfl, s₅, ?_, ?_⟩
  · exact (congrArg (_[·]?) hid).trans hs₅
  · have e₁ := Option.some.inj (hm₁.symm.trans hs₅)
    have e₂ := Option.some.inj (hm₂.symm.trans hs₅)
    have e₃ := Option.some.inj (hm₃.symm.trans hs₅)
    have e₄ := Option.some.inj (hm₄.symm.trans hs₅)
    exact ⟨e₁ ▸ hat₁.append m₁, e₂ ▸ hat₂.append m₂, e₃ ▸ hat₃.append m₃, e₄ ▸ hat₄.append m₄,
      hat₅⟩

/-- Writing a sample keeps what is there and adds a record that points at the sample. -/
theorem writeSampleBytes_holds {w' : LocalTargetCacheWriter} {sample : TargetCacheSampleBytes}
    {samples : List TargetCacheSampleBytes} {records : List IndexRecord} (hok : w.Ok)
    (hholds : w.Holds samples records) (h : w.writeSampleBytes sample = some w') :
    w'.Ok ∧ ∃ record, w'.Holds (samples ++ [sample]) (records ++ [record]) := by
  unfold writeSampleBytes at h
  obtain ⟨bytes, hpack, rfl⟩ := Option.map_eq_some_iff.mp h
  obtain ⟨hok₀, hopen, hgrow₀, hindex, hnum⟩ := ensureShard_spec hok
    (sample.inputIds.length + sample.attentionMask.length + sample.lossMask.length +
      sample.targetHiddenStates.length + sample.targetLastHiddenStates.length)
  generalize w.ensureShard _ = w₀ at *
  obtain ⟨hok', hgrow, hlocates⟩ := writeTensors_spec hok₀ hopen sample
  have hindex' : (w₀.writeTensors sample).1.index = w.index := hindex
  have hnum' : (w₀.writeTensors sample).1.numLocalSamples = w.numLocalSamples := hnum
  generalize w₀.writeTensors sample = written at *
  refine ⟨⟨hok'.named, hok'.current⟩, written.2, ?_, ?_, ?_⟩
  · change written.1.numLocalSamples + 1 = _
    rw [hnum', hholds.numLocalSamples_eq, List.length_append, List.length_singleton]
  · change IndexHolds (written.1.index ++ bytes) _
    rw [hindex']
    exact hholds.index.append hpack
  · exact List.rel_append
      (hholds.located.imp fun _ _ hlocates => hlocates.grow (hgrow₀.trans hgrow))
      (.cons hlocates .nil)

/-- What the writer holds after a list of samples. -/
theorem writeSamples_holds {w' : LocalTargetCacheWriter}
    {more samples : List TargetCacheSampleBytes}
    {records : List IndexRecord} (hok : w.Ok) (hholds : w.Holds samples records)
    (h : w.writeSamples more = some w') :
    w'.Ok ∧ ∃ records', w'.Holds (samples ++ more) records' := by
  induction more generalizing w samples records with
  | nil =>
    obtain rfl := Option.some.inj h
    exact ⟨hok, records, by rwa [List.append_nil]⟩
  | cons sample more ih =>
    obtain ⟨w₁, hw₁, hrest⟩ := Option.bind_eq_some_iff.mp h
    obtain ⟨hok₁, record, hholds₁⟩ := writeSampleBytes_holds hok hholds hw₁
    have hall := ih hok₁ hholds₁ hrest
    rwa [List.append_assoc] at hall

end LocalTargetCacheWriter
end LatentSpec
