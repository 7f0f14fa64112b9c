import LatentSpec.LineIndex
import LatentSpec.SortedSearch
import LatentSpec.TargetCacheDataset

/-! # The JSON-lines dataset

`JsonLineDataset` serves the lines of its files, in the sorted order of their paths, as one list.
The starts of a file's lines are scanned once and kept in an index cache on disk, under the
file's key; a line is read again at its start through a map that is opened when it is needed.
-/
namespace LatentSpec
open LineIndex SortedSearch

/-- `mmap.mmap`, with its position. -/
structure MmapFile where
  bytes : List UInt8
  pos : ℕ

namespace MmapFile

def newline : UInt8 := 10

/-- `readline`, with the map after it. -/
def readline (mm : MmapFile) : List UInt8 × MmapFile :=
  let line := firstLine newline (mm.bytes.drop mm.pos)
  (line, { mm with pos := mm.pos + line.length })

/-- `seek`, which raises behind the end. -/
def seek (mm : MmapFile) (pos : ℕ) : Option MmapFile :=
  if pos ≤ mm.bytes.length then some { mm with pos } else none

theorem readline_progress {mm : MmapFile} (h : mm.readline.1 ≠ []) :
    mm.readline.2.bytes = mm.bytes ∧ mm.pos < mm.bytes.length ∧ mm.pos < mm.readline.2.pos := by
  have hrest : mm.bytes.drop mm.pos ≠ [] := fun hnil => h (firstLine_eq_nil_iff.2 hnil)
  have hline : 0 < (firstLine newline (mm.bytes.drop mm.pos)).length := List.length_pos_iff.2 h
  refine ⟨rfl, ?_, Nat.lt_add_of_pos_right hline⟩
  by_contra hge
  exact hrest (List.drop_eq_nil_of_le (by omega))

end MmapFile

/-- A loaded entry of the index cache: a dictionary with these items, where they are of the right
type, or anything else. -/
inductive CachedIndex (Key : Type) where
  | dict (fileKey : Option Key) (lineStarts : Option (List ℕ))
  | other

/-- The files: their bytes, the keys `_file_key` makes of the path and the time of the last change,
and the cache paths made of the keys' hashes. -/
structure JsonlFiles (Path Key CachePath : Type) where
  content : Path → List UInt8
  fileKey : Path → Key
  cachePathFromKey : Key → CachePath

variable {Path Key CachePath : Type}

/-- The exceptions of `__getitem__`; `E` are those of decoding and parsing a line. -/
inductive JsonlError (E : Type) where
  | indexError (idx : ℤ)
  | listIndex
  | valueError
  | parse (e : E)

/-- `JsonLineDataset`; a file handle is the path it was opened with. -/
structure JsonLineDataset (Path : Type) where
  dataPaths : List Path
  cumCounts : List ℕ
  numData : ℕ
  files : List (Option Path)
  mmaps : List (Option MmapFile)
  lineStartsPerFile : List (List ℕ)

/-- The `while True` of `_build_all_line_starts`, with the last `pos`. -/
def scanLines (mm : MmapFile) (pos : ℕ) (starts : List ℕ) : List ℕ × ℕ :=
  if mm.readline.1 = [] then (starts ++ [pos], pos)
  else scanLines mm.readline.2 mm.readline.2.pos (starts ++ [pos])
termination_by mm.bytes.length - mm.pos
decreasing_by
  rename_i h
  obtain ⟨hbytes, hlt, hpos⟩ := MmapFile.readline_progress h
  rw [hbytes]
  omega

/-- The line starts of a mapped file. -/
def scanLineStarts (bytes : List UInt8) : List ℕ :=
  let scanned := scanLines ⟨bytes, 0⟩ 0 []
  if scanned.1 ≠ [] ∧ bytes.length = scanned.2 then scanned.1.dropLast else scanned.1

namespace JsonlFiles
variable (fs : JsonlFiles Path Key CachePath) [DecidableEq Key] [DecidableEq CachePath]

/-- The line starts of a cache entry, if it is the one of the key. -/
def cachedStarts (fileKey : Key) : Option (CachedIndex Key) → Option (List ℕ)
  | some (.dict (some key) (some starts)) => if key = fileKey then some starts else none
  | _ => none

/-- One iteration of `_build_all_line_starts`: the line starts, the map if one was opened, and the
cache; `none` when the map raises. -/
def indexFile (cache : CachePath → Option (CachedIndex Key)) (path : Path) :
    Option (List ℕ × Option MmapFile × (CachePath → Option (CachedIndex Key))) :=
  let fileKey := fs.fileKey path
  let cachePath := fs.cachePathFromKey fileKey
  match cachedStarts fileKey (cache cachePath) with
  | some starts => some (starts, none, cache)
  | none => (mmapFile (fs.content path)).map fun bytes =>
      let starts := scanLineStarts bytes
      (starts, some ⟨bytes, bytes.length⟩,
        Function.update cache cachePath (some (.dict (some fileKey) (some starts))))

/-- `_build_all_line_starts` -/
def buildAllLineStarts : (CachePath → Option (CachedIndex Key)) → List Path →
    Option (List (List ℕ × Option MmapFile))
  | _, [] => some []
  | cache, path :: paths =>
    (fs.indexFile cache path).bind fun (starts, mm, cache') =>
      (buildAllLineStarts cache' paths).map fun rest => (starts, mm) :: rest

end JsonlFiles

namespace JsonLineDataset

/-- `close` -/
def close (d : JsonLineDataset Path) : JsonLineDataset Path :=
  { d with
    mmaps := d.mmaps.map fun _ => none
    files := d.files.map fun _ => none }

/-- `__init__` -/
def init [LinearOrder Path] [DecidableEq Key] [DecidableEq CachePath]
    (fs : JsonlFiles Path Key CachePath)
    (cache : CachePath → Option (CachedIndex Key)) (dataPaths : List Path) :
    Option (JsonLineDataset Path) :=
  let dataPaths := dataPaths.mergeSort
  (fs.buildAllLineStarts cache dataPaths).map fun built =>
    let numDataPerFile := built.map fun file => file.1.length
    let cumCounts :=
      numDataPerFile.foldl (fun cum count => cum ++ [cum.getLastD 0 + count]) [0]
    close
      { dataPaths
        cumCounts
        numData := cumCounts.getLastD 0
        files := (dataPaths.zip built).map fun file => file.2.2.map fun _ => file.1
        mmaps := built.map fun file => file.2
        lineStartsPerFile := built.map fun file => file.1 }

/-- `_map_global_to_local` -/
def mapGlobalToLocal (d : JsonLineDataset Path) (globalIdx : ℕ) : Option (ℕ × ℕ) :=
  let fileIdx := bisectRight d.cumCounts globalIdx - 1
  (d.cumCounts[fileIdx]?).map fun start => (fileIdx, globalIdx - start)

variable {E J : Type} (fs : JsonlFiles Path Key CachePath)

/-- `_open_file_mmap` -/
def openFileMmap (d : JsonLineDataset Path) (index : ℕ) :
    Except (JsonlError E) (JsonLineDataset Path) := do
  let some path := d.dataPaths[index]? | throw .listIndex
  let handle := (d.files[index]?.join).getD path
  let files := d.files.set index (some handle)
  match d.mmaps[index]?.join with
  | some _ => pure { d with files }
  | none =>
    let some bytes := mmapFile (fs.content handle) | throw .valueError
    pure { d with files, mmaps := d.mmaps.set index (some ⟨bytes, 0⟩) }

/-- The map of a file, which is opened unless both of its slots are taken. -/
def ensureMmap (d : JsonLineDataset Path) (fileIdx : ℕ) :
    Except (JsonlError E) (JsonLineDataset Path) :=
  if d.files[fileIdx]?.join.isNone ∨ d.mmaps[fileIdx]?.join.isNone then
    d.openFileMmap fs fileIdx
  else .ok d

/-- `json.loads(line.decode("utf-8"))` -/
def loadLine (parse : List UInt8 → Except E J) (line : List UInt8) : Except (JsonlError E) J :=
  match parse line with
  | .ok value => .ok value
  | .error e => .error (.parse e)

/-- The part of `__getitem__` after the file was opened. -/
def readAt (parse : List UInt8 → Except E J) (d : JsonLineDataset Path) (fileIdx localIdx : ℕ) :
    Except (JsonlError E) J × JsonLineDataset Path :=
  match d.mmaps[fileIdx]?.join, (d.lineStartsPerFile[fileIdx]?).bind (·[localIdx]?) with
  | some mm, some start =>
    match mm.seek start with
    | none => (.error .valueError, d)
    | some mm =>
      (loadLine parse mm.readline.1,
        { d with mmaps := d.mmaps.set fileIdx (some mm.readline.2) })
  | _, _ => (.error .listIndex, d)

/-- `__getitem__`, and the dataset after it. -/
def getItem (parse : List UInt8 → Except E J) (d : JsonLineDataset Path) (idx : ℤ) :
    Except (JsonlError E) J × JsonLineDataset Path :=
  if 0 ≤ idx ∧ idx < d.numData then
    match d.mapGlobalToLocal idx.toNat with
    | none => (.error .listIndex, d)
    | some (fileIdx, localIdx) =>
      match d.ensureMmap fs fileIdx with
      | .error e => (.error e, d)
      | .ok d => d.readAt parse fileIdx localIdx
  else (.error (.indexError idx), d)

/-- A use of the dataset. -/
inductive Call where
  | getItem (idx : ℤ)
  | close

/-- The results of the reads among these calls. -/
def results (parse : List UInt8 → Except E J) :
    JsonLineDataset Path → List Call → List (Except (JsonlError E) J)
  | _, [] => []
  | d, .getItem idx :: calls =>
    (d.getItem fs parse idx).1 :: results parse (d.getItem fs parse idx).2 calls
  | d, .close :: calls => results parse d.close calls

end JsonLineDataset

/-! ## The index -/

namespace JsonlFiles
variable {fs : JsonlFiles Path Key CachePath}

/-- The lines of a file. -/
def fileLines (fs : JsonlFiles Path Key CachePath) (path : Path) : List (List UInt8) :=
  splitLines MmapFile.newline (fs.content path)

theorem scanLines_eq (mm : MmapFile) (starts : List ℕ) (hpos : mm.pos ≤ mm.bytes.length) :
    scanLines mm mm.pos starts =
      (starts ++ offsets mm.pos (splitLines MmapFile.newline (mm.bytes.drop mm.pos)) ++
        [mm.bytes.length], mm.bytes.length) := by
  rw [scanLines]
  split
  · rename_i hline
    have hrest : mm.bytes.drop mm.pos = [] := firstLine_eq_nil_iff.1 hline
    have hend : mm.pos = mm.bytes.length :=
      Nat.le_antisymm hpos (List.drop_eq_nil_iff.1 hrest)
    rw [splitLines_eq_nil_iff.2 hrest, offsets, List.append_nil, hend]
  · rename_i hline
    obtain ⟨hbytes, hlt, hnext⟩ := MmapFile.readline_progress hline
    have hrest : mm.bytes.drop mm.pos ≠ [] := fun hnil => hline (firstLine_eq_nil_iff.2 hnil)
    have hle : mm.readline.2.pos ≤ mm.readline.2.bytes.length := by
      have hline : (firstLine MmapFile.newline (mm.bytes.drop mm.pos)).length ≤ _ :=
        length_firstLine_le _
      rw [List.length_drop] at hline
      show mm.pos + (firstLine MmapFile.newline (mm.bytes.drop mm.pos)).length ≤ mm.bytes.length
      omega
    rw [scanLines_eq mm.readline.2 _ hle, splitLines_eq hrest, offsets, List.drop_drop]
    simp [MmapFile.readline]
termination_by mm.bytes.length - mm.pos
decreasing_by
  rw [hbytes]
  omega

/-- The scan appends the end of the file, too, and takes it off again. -/
theorem scanLineStarts_eq (bytes : List UInt8) :
    scanLineStarts bytes = offsets 0 (splitLines MmapFile.newline bytes) := by
  have hscan := scanLines_eq ⟨bytes, 0⟩ [] (Nat.zero_le _)
  simp only [List.nil_append, List.drop_zero] at hscan
  simp [scanLineStarts, hscan]

variable [DecidableEq Key]

/-- What makes an index cache valid: an entry with the key of a file was built from the bytes of
the file, and files with one key have the same bytes. -/
structure ValidCache (fs : JsonlFiles Path Key CachePath)
    (cache : CachePath → Option (CachedIndex Key)) (paths : List Path) : Prop where
  entry : ∀ path ∈ paths, ∀ starts,
    cachedStarts (fs.fileKey path) (cache (fs.cachePathFromKey (fs.fileKey path))) = some starts →
      starts = scanLineStarts (fs.content path)
  sameBytes : ∀ path ∈ paths, ∀ path' ∈ paths, fs.fileKey path = fs.fileKey path' →
    fs.content path = fs.content path'

theorem ValidCache.sublist {cache : CachePath → Option (CachedIndex Key)} {paths paths' : List Path}
    (h : fs.ValidCache cache paths) (hsub : ∀ path ∈ paths', path ∈ paths) :
    fs.ValidCache cache paths' where
  entry path hpath := h.entry path (hsub path hpath)
  sameBytes path hpath path' hpath' := h.sameBytes path (hsub path hpath) path' (hsub path' hpath')

variable [DecidableEq CachePath]

/-- One iteration finds the starts of the file's lines, cached or not, and what it dumps keeps the
cache valid. -/
theorem ValidCache.indexFile {cache : CachePath → Option (CachedIndex Key)} {paths : List Path}
    (h : fs.ValidCache cache paths) {path : Path} (hpath : path ∈ paths)
    (hne : fs.content path ≠ []) :
    ∃ mm cache', fs.indexFile cache path = some (offsets 0 (fs.fileLines path), mm, cache') ∧
      fs.ValidCache cache' paths := by
  have hstarts : scanLineStarts (fs.content path) = offsets 0 (fs.fileLines path) :=
    scanLineStarts_eq _
  cases hcached : cachedStarts (fs.fileKey path)
      (cache (fs.cachePathFromKey (fs.fileKey path))) with
  | some starts =>
    refine ⟨none, cache, ?_, h⟩
    rw [← hstarts, ← h.entry path hpath starts hcached]
    simp [JsonlFiles.indexFile, hcached]
  | none =>
    refine ⟨some ⟨fs.content path, (fs.content path).length⟩,
      Function.update cache (fs.cachePathFromKey (fs.fileKey path))
        (some (.dict (some (fs.fileKey path)) (some (offsets 0 (fs.fileLines path))))), ?_, ?_⟩
    · simp [JsonlFiles.indexFile, hcached, mmapFile, hne, hstarts]
    · refine ⟨fun path' hpath' starts hentry => ?_, h.sameBytes⟩
      by_cases hslot : fs.cachePathFromKey (fs.fileKey path') =
          fs.cachePathFromKey (fs.fileKey path)
      · -- the entry was replaced, and it is found only by a file with the same key
        rw [hslot, Function.update_self, cachedStarts] at hentry
        split at hentry
        · rename_i hkey
          rw [← h.sameBytes path hpath path' hpath' hkey, hstarts]
          exact (Option.some.inj hentry).symm
        · cases hentry
      · rw [Function.update_of_ne hslot] at hentry
        exact h.entry path' hpath' starts hentry

theorem ValidCache.buildAllLineStarts {cache : CachePath → Option (CachedIndex Key)}
    {paths : List Path} (h : fs.ValidCache cache paths)
    (hne : ∀ path ∈ paths, fs.content path ≠ []) :
    ∃ built, fs.buildAllLineStarts cache paths = some built ∧
      built.map (·.1) = paths.map fun path => offsets 0 (fs.fileLines path) := by
  induction paths generalizing cache with
  | nil => exact ⟨[], rfl, rfl⟩
  | cons path paths ih =>
    obtain ⟨mm, cache', hindex, hvalid⟩ :=
      h.indexFile List.mem_cons_self (hne path List.mem_cons_self)
    obtain ⟨built, hbuilt, hmap⟩ := ih (hvalid.sublist fun _ => List.mem_cons_of_mem path)
      fun path' hpath' => hne path' (List.mem_cons_of_mem path hpath')
    refine ⟨(offsets 0 (fs.fileLines path), mm) :: built, ?_, ?_⟩
    · rw [JsonlFiles.buildAllLineStarts, hindex, Option.bind_some]
      simp only [hbuilt, Option.map_some]
    · rw [List.map_cons, List.map_cons, hmap]

end JsonlFiles

namespace JsonLineDataset
variable {fs : JsonlFiles Path Key CachePath}

/-- The lines of all files, in the order of their paths. -/
def allLines (fs : JsonlFiles Path Key CachePath) (dataPaths : List Path) : List (List UInt8) :=
  dataPaths.flatMap fs.fileLines

/-- The dataset indexes its files, and whatever it has open are its files. -/
structure Serves (fs : JsonlFiles Path Key CachePath) (d : JsonLineDataset Path) : Prop where
  nonempty : ∀ path ∈ d.dataPaths, fs.content path ≠ []
  lineStarts : d.lineStartsPerFile = d.dataPaths.map fun path => offsets 0 (fs.fileLines path)
  cumCounts : d.cumCounts = cumulative 0 (d.dataPaths.map fs.fileLines)
  numData : d.numData = (allLines fs d.dataPaths).length
  lengthFiles : d.files.length = d.dataPaths.length
  lengthMmaps : d.mmaps.length = d.dataPaths.length
  files : ∀ (i : ℕ) path, d.files[i]? = some (some path) → d.dataPaths[i]? = some path
  mmaps : ∀ (i : ℕ) mm, d.mmaps[i]? = some (some mm) →
    ∃ path, d.dataPaths[i]? = some path ∧ mm.bytes = fs.content path

theorem foldl_cumCounts (done : List ℕ) (c : ℕ) (counts : List ℕ) :
    counts.foldl (fun cum count => cum ++ [cum.getLastD 0 + count]) (done ++ [c]) =
      done ++ counts.scanl (· + ·) c := by
  induction counts generalizing done c with
  | nil => rw [List.foldl_nil, List.scanl_nil]
  | cons count counts ih =>
    have hlast : (done ++ [c]).getLastD 0 = c := by simp
    rw [List.foldl_cons, hlast, ih (done ++ [c]) (c + count), List.scanl_cons,
      List.append_assoc, List.singleton_append]

theorem getLastD_scanl (c : ℕ) (counts : List ℕ) :
    (counts.scanl (· + ·) c).getLastD 0 = c + counts.sum := by
  rw [List.getLastD_eq_getLast?, List.getLast?_scanl, Option.getD_some]
  induction counts generalizing c with
  | nil => simp
  | cons count counts ih => rw [List.foldl_cons, ih, List.sum_cons, Nat.add_assoc]

theorem length_fileLines (fs : JsonlFiles Path Key CachePath) (path : Path) :
    (offsets 0 (fs.fileLines path)).length = (fs.fileLines path).length := by
  have h := firstLine_drop_offsets MmapFile.newline (fs.content path) 0
  rw [List.drop_zero] at h
  exact h.length_eq

/-- **The constructor** indexes the files, from a valid cache or afresh. -/
theorem exists_init [LinearOrder Path] [DecidableEq Key] [DecidableEq CachePath]
    {cache : CachePath → Option (CachedIndex Key)}
    {dataPaths : List Path} (hvalid : fs.ValidCache cache dataPaths)
    (hne : ∀ path ∈ dataPaths, fs.content path ≠ []) :
    ∃ d, init fs cache dataPaths = some d ∧ d.Serves fs ∧ d.dataPaths = dataPaths.mergeSort := by
  have hmem : ∀ path ∈ dataPaths.mergeSort, path ∈ dataPaths := fun _ => List.mem_mergeSort.1
  obtain ⟨built, hbuilt, hstarts⟩ := (hvalid.sublist hmem).buildAllLineStarts
    fun path hpath => hne path (hmem path hpath)
  have hcounts : built.map (fun file => file.1.length) =
      (dataPaths.mergeSort.map fs.fileLines).map List.length := by
    have hlength := congrArg (List.map List.length) hstarts
    simpa only [List.map_map, Function.comp_def, length_fileLines] using hlength
  have hcum : (built.map fun file => file.1.length).foldl
      (fun cum count => cum ++ [cum.getLastD 0 + count]) [0] =
        cumulative 0 (dataPaths.mergeSort.map fs.fileLines) := by
    rw [hcounts]
    exact foldl_cumCounts [] 0 _
  have hlength : built.length = dataPaths.mergeSort.length := by
    simpa using congrArg List.length hstarts
  refine ⟨_, by rw [init, hbuilt]; rfl, ?_, rfl⟩
  exact
    { nonempty := fun path hpath => hne path (hmem path hpath)
      lineStarts := hstarts
      cumCounts := hcum
      numData := by
        show List.getLastD _ 0 = _
        rw [hcum, cumulative, getLastD_scanl, Nat.zero_add, allLines, List.length_flatMap,
          List.map_map]
        rfl
      lengthFiles := by simp [close, hlength]
      lengthMmaps := by simp [close, hlength]
      files := by simp [close]
      mmaps := by simp [close] }

theorem Serves.close {d : JsonLineDataset Path} (h : d.Serves fs) : d.close.Serves fs where
  nonempty := h.nonempty
  lineStarts := h.lineStarts
  cumCounts := h.cumCounts
  numData := h.numData
  lengthFiles := (List.length_map _).trans h.lengthFiles
  lengthMmaps := (List.length_map _).trans h.lengthMmaps
  files := by simp [JsonLineDataset.close, List.getElem?_replicate]
  mmaps := by simp [JsonLineDataset.close, List.getElem?_replicate]

/-- Writing the map of a file. -/
theorem Serves.setMmap {d : JsonLineDataset Path} (h : d.Serves fs) {i : ℕ} {path : Path}
    (hpath : d.dataPaths[i]? = some path) {mm : MmapFile} (hmm : mm.bytes = fs.content path) :
    Serves fs { d with mmaps := d.mmaps.set i (some mm) } where
  nonempty := h.nonempty
  lineStarts := h.lineStarts
  cumCounts := h.cumCounts
  numData := h.numData
  lengthFiles := h.lengthFiles
  lengthMmaps := List.length_set.trans h.lengthMmaps
  files := h.files
  mmaps := by
    intro j mm' hj
    simp only [List.getElem?_set] at hj
    split at hj
    · rename_i hij
      split at hj
      · obtain rfl : mm = mm' := Option.some.inj (Option.some.inj hj)
        exact ⟨path, hij ▸ hpath, hmm⟩
      · cases hj
    · exact h.mmaps j mm' hj

theorem Serves.setFile {d : JsonLineDataset Path} (h : d.Serves fs) {i : ℕ} {path : Path}
    (hpath : d.dataPaths[i]? = some path) :
    Serves fs { d with files := d.files.set i (some path) } where
  nonempty := h.nonempty
  lineStarts := h.lineStarts
  cumCounts := h.cumCounts
  numData := h.numData
  lengthFiles := List.length_set.trans h.lengthFiles
  lengthMmaps := h.lengthMmaps
  files := by
    intro j path' hj
    simp only [List.getElem?_set] at hj
    split at hj
    · rename_i hij
      split at hj
      · obtain rfl : path = path' := Option.some.inj (Option.some.inj hj)
        exact hij ▸ hpath
      · cases hj
    · exact h.files j path' hj
  mmaps := h.mmaps

/-- The item that belongs to an index of a list of lines. -/
def lineValue (parse : List UInt8 → Except E J) (lines : List (List UInt8)) (idx : ℤ) :
    Except (JsonlError E) J :=
  if 0 ≤ idx then
    match lines[idx.toNat]? with
    | some line => loadLine parse line
    | none => .error (.indexError idx)
  else .error (.indexError idx)

/-- The lazy opening of a file. -/
theorem Serves.ensureMmap {d : JsonLineDataset Path} (h : d.Serves fs) {i : ℕ} {path : Path}
    (hpath : d.dataPaths[i]? = some path) :
    ∃ d', d.ensureMmap fs i = Except.ok (ε := JsonlError E) d' ∧ d'.Serves fs ∧
      d'.dataPaths = d.dataPaths ∧
      ∃ mm, d'.mmaps[i]? = some (some mm) ∧ mm.bytes = fs.content path := by
  have hi : i < d.dataPaths.length := (List.getElem?_eq_some_iff.1 hpath).1
  obtain ⟨mapped, hmapped⟩ : ∃ mapped, d.mmaps[i]? = some mapped :=
    ⟨_, List.getElem?_eq_getElem (h.lengthMmaps ▸ hi)⟩
  have hbytes : ∀ mm, mapped = some mm → mm.bytes = fs.content path := by
    rintro mm rfl
    obtain ⟨path', hpath', hmm⟩ := h.mmaps i mm hmapped
    rw [hpath] at hpath'
    cases hpath'
    exact hmm
  unfold JsonLineDataset.ensureMmap
  split
  · have hhandle : (d.files[i]?.join).getD path = path := by
      cases hfile : d.files[i]?.join with
      | none => rfl
      | some path' =>
        have := h.files i path' (Option.join_eq_some_iff.1 hfile)
        rw [hpath] at this
        exact (Option.some.inj this).symm
    have hset := h.setFile hpath
    cases mapped with
    | some mm =>
      refine ⟨_, ?_, hset, rfl, mm, hmapped, hbytes mm rfl⟩
      simp [openFileMmap, hpath, hhandle, hmapped]
      rfl
    | none =>
      have hne : fs.content path ≠ [] := h.nonempty path (List.mem_of_getElem? hpath)
      have hopened := hset.setMmap hpath (show (MmapFile.mk (fs.content path) 0).bytes = _ from rfl)
      refine ⟨_, ?_, hopened, rfl, ⟨fs.content path, 0⟩, ?_, rfl⟩
      · simp [openFileMmap, hpath, hhandle, hmapped, mmapFile, hne]
        rfl
      · simp [h.lengthMmaps, hi]
  · rename_i hopen
    cases mapped with
    | some mm => exact ⟨d, rfl, h, rfl, mm, hmapped, hbytes mm rfl⟩
    | none => exact absurd (.inr (by simp [hmapped])) hopen

/-- Reading a line of a file that is open. -/
theorem Serves.readAt {d : JsonLineDataset Path} (h : d.Serves fs)
    (parse : List UInt8 → Except E J) {f i : ℕ} {path : Path} {mm : MmapFile} {line : List UInt8}
    (hpath : d.dataPaths[f]? = some path) (hmm : d.mmaps[f]? = some (some mm))
    (hbytes : mm.bytes = fs.content path) (hline : (fs.fileLines path)[i]? = some line) :
    ∃ d', d.readAt parse f i = (loadLine parse line, d') ∧ d'.Serves fs ∧
      d'.dataPaths = d.dataPaths := by
  obtain ⟨start, hstart, hlt, hread⟩ := exists_offset hline
  have hstarts : (d.lineStartsPerFile[f]?).bind (·[i]?) = some start := by
    rw [h.lineStarts, List.getElem?_map, hpath]
    exact hstart
  have hseek : mm.seek start = some { mm with pos := start } := by
    rw [MmapFile.seek, hbytes, if_pos (Nat.le_of_lt hlt)]
  have hvalue : (MmapFile.readline { mm with pos := start }).1 = line := by
    rw [← hread, ← hbytes]
    rfl
  have hset : Serves fs { d with
      mmaps := d.mmaps.set f (some (MmapFile.readline { mm with pos := start }).2) } :=
    h.setMmap hpath hbytes
  refine ⟨_, ?_, hset, rfl⟩
  rw [JsonLineDataset.readAt, hmm, hstarts]
  simp only [Option.join_some, hseek, hvalue]

/-- **One read** returns its line's value, or raises, and keeps the dataset serving. -/
theorem Serves.getItem {d : JsonLineDataset Path} (h : d.Serves fs)
    (parse : List UInt8 → Except E J) (idx : ℤ) :
    ∃ d', d.getItem fs parse idx = (lineValue parse (allLines fs d.dataPaths) idx, d') ∧
      d'.Serves fs ∧ d'.dataPaths = d.dataPaths := by
  by_cases hrange : 0 ≤ idx ∧ idx < d.numData
  · obtain ⟨n, rfl⟩ := Int.eq_ofNat_of_zero_le hrange.1
    have hn : n < (allLines fs d.dataPaths).length := by
      have := hrange.2
      rw [h.numData] at this
      omega
    have hflat : allLines fs d.dataPaths = (d.dataPaths.map fs.fileLines).flatten :=
      List.flatMap_def
    have hline := List.getElem?_eq_getElem hn
    obtain ⟨f, start, lines, hcount, hstart, hle, hlines, hentry⟩ :=
      locate_flatten (Nat.zero_le n) (by rwa [Nat.zero_add, ← hflat])
    rw [List.getElem?_map, Option.map_eq_some_iff] at hlines
    obtain ⟨path, hpath, rfl⟩ := hlines
    rw [Nat.sub_zero, ← hflat, hline] at hentry
    have hmap : d.mapGlobalToLocal n = some (f, n - start) := by
      rw [mapGlobalToLocal, bisectRight, h.cumCounts, hcount, Nat.add_sub_cancel, hstart]
      rfl
    obtain ⟨d₁, hopen, hserves, hpaths, mm, hmm, hbytes⟩ := h.ensureMmap (E := E) hpath
    obtain ⟨d₂, hread, hserves', hpaths'⟩ :=
      hserves.readAt parse (hpaths ▸ hpath) hmm hbytes hentry
    refine ⟨d₂, ?_, hserves', hpaths'.trans hpaths⟩
    rw [JsonLineDataset.getItem, if_pos hrange, Int.toNat_natCast, hmap]
    simp only [hopen, hread, lineValue, Int.natCast_nonneg, if_true, Int.toNat_natCast, hline]
  · refine ⟨d, ?_, h, rfl⟩
    rw [JsonLineDataset.getItem, if_neg hrange, lineValue]
    split
    · rename_i hnonneg
      rw [List.getElem?_eq_none (by rw [← h.numData]; omega)]
    · rfl

/-- Any calls: each read has its line's value, whatever was read or closed before. -/
theorem Serves.results {d : JsonLineDataset Path} (h : d.Serves fs)
    (parse : List UInt8 → Except E J) (calls : List Call) :
    d.results fs parse calls = calls.filterMap fun call =>
      match call with
      | .getItem idx => some (lineValue parse (allLines fs d.dataPaths) idx)
      | .close => none := by
  induction calls generalizing d with
  | nil => rfl
  | cons call calls ih =>
    cases call with
    | getItem idx =>
      obtain ⟨d', hitem, hserves, hpaths⟩ := h.getItem parse idx
      rw [JsonLineDataset.results, hitem, ih hserves, hpaths]
      rfl
    | close =>
      rw [JsonLineDataset.results, ih h.close]
      rfl

end JsonLineDataset

open JsonLineDataset in
/-- For files that are not empty, and with a valid cache, the dataset has as many items as there are
lines, and item `i` is the value of line `i`, in any order of reads. -/
theorem jsonl_dataset_reads {E J : Type} [LinearOrder Path] [DecidableEq Key]
    [DecidableEq CachePath] (fs : JsonlFiles Path Key CachePath)
    (cache : CachePath → Option (CachedIndex Key)) (dataPaths : List Path)
    (parse : List UInt8 → Except E J) (hvalid : fs.ValidCache cache dataPaths)
    (hne : ∀ path ∈ dataPaths, fs.content path ≠ []) :
    ∃ d, init fs cache dataPaths = some d ∧
      d.numData = (allLines fs dataPaths.mergeSort).length ∧
      ∀ calls, d.results fs parse calls = calls.filterMap fun call =>
        match call with
        | .getItem idx => some (lineValue parse (allLines fs dataPaths.mergeSort) idx)
        | .close => none := by
  obtain ⟨d, hinit, hserves, hpaths⟩ := exists_init hvalid hne
  refine ⟨d, hinit, hpaths ▸ hserves.numData, fun calls => ?_⟩
  rw [hserves.results, hpaths]

/-- Files `1` and `0`, the second without a final newline, whose keys share a cache path. -/
def twoFiles : JsonlFiles ℕ ℕ Unit where
  content path := if path = 0 then [123, 10, 91] else [49, 10]
  fileKey path := path
  cachePathFromKey _ := ()

open JsonLineDataset in
theorem jsonl_dataset_reads_two :
    ∃ d, init twoFiles (fun _ => some (.dict (some 1) (some [0]))) [1, 0] = some d ∧
      d.numData = 3 ∧
      d.results twoFiles (fun line => Except.ok (ε := Empty) line)
          [.getItem 2, .getItem 0, .close, .getItem 1, .getItem 3, .getItem (-1)] =
        [.ok [49, 10], .ok [123, 10], .ok [91], .error (.indexError 3),
          .error (.indexError (-1))] := by
  have hstarts : scanLineStarts (twoFiles.content 1) = [0] := by
    rw [JsonlFiles.scanLineStarts_eq]
    decide
  have hvalid : twoFiles.ValidCache (fun _ => some (.dict (some 1) (some [0]))) [1, 0] := by
    constructor
    · intro path _ starts hentry
      by_cases hkey : 1 = path
      · subst hkey
        rw [hstarts]
        exact (Option.some.inj hentry).symm
      · simp [twoFiles, JsonlFiles.cachedStarts, hkey] at hentry
    · intro path _ path' _ hkey
      rw [show path = path' from hkey]
  have hsort : [1, 0].mergeSort = [0, 1] := by simp [List.mergeSort]
  obtain ⟨d, hinit, hnum, hresults⟩ := jsonl_dataset_reads twoFiles _ [1, 0]
    (fun line => Except.ok (ε := Empty) line) hvalid (by decide)
  rw [hsort] at hnum hresults
  exact ⟨d, hinit, hnum, hresults _⟩

end LatentSpec
