import Mathlib.Data.List.Lattice
import Mathlib.Data.List.Nodup
import Mathlib.Data.List.Perm.Basic
import Mathlib.Data.List.Perm.Lattice
import LatentSpec.GenerateTrainData

/-! # Resuming the regeneration

The resume point is a number of lines, so a resumed run is right only when the results found in
the files are those of the first lines of the input.  The queues and the last loop write results
in another order, so a first run can stop with a later line recorded before an earlier one; the
second run then skips the earlier line and repeats the later one (`exists_lost_line`).
`ResumedJob.recordedOnce_iff` says exactly when a resumed job records every line once.
-/
namespace LatentSpec

/-! ### What is appended to a file -/

@[simp] theorem records_append (c c' : List FileLine) :
    records (c ++ c') = records c ++ records c' :=
  List.filterMap_append

theorem length_records_le (c : List FileLine) : (records c).length ≤ c.length :=
  List.length_filterMap_le ..

/-- A file all of whose lines are results does not end in a torn line. -/
theorem not_torn_of_length_records {c : List FileLine} (h : (records c).length = c.length) :
    c.getLast? ≠ some .torn := by
  intro hlast
  obtain ⟨init, rfl⟩ := List.getLast?_eq_some_iff.mp hlast
  have hle := length_records_le init
  simp only [records_append, List.length_append] at h
  simp [records] at h hle
  omega

theorem appendRecord_not_torn (c : List FileLine) (line : ℕ) :
    (appendRecord c line).getLast? ≠ some .torn := by
  unfold appendRecord
  split <;> simp

theorem records_appendRecord {c : List FileLine} (h : c.getLast? ≠ some .torn) (line : ℕ) :
    records (appendRecord c line) = records c ++ [line] := by
  rw [appendRecord, if_neg h, records_append]
  rfl

/-- Whatever the file ends in, its results stay. -/
theorem records_appendRecord_sublist (c : List FileLine) (line : ℕ) :
    ∃ ws, ws.Sublist [line] ∧ records (appendRecord c line) = records c ++ ws := by
  by_cases h : c.getLast? = some .torn
  · obtain ⟨init, rfl⟩ := List.getLast?_eq_some_iff.mp h
    refine ⟨[], List.nil_sublist _, ?_⟩
    simp [appendRecord, records]
  · exact ⟨[line], List.Sublist.refl _, records_appendRecord h line⟩

theorem records_foldl_appendRecord {c : List FileLine} (h : c.getLast? ≠ some .torn)
    (ws : List ℕ) : records (ws.foldl appendRecord c) = records c ++ ws := by
  induction ws generalizing c with
  | nil => rw [List.foldl_nil, List.append_nil]
  | cons w ws ih =>
    rw [List.foldl_cons, ih (appendRecord_not_torn c w), records_appendRecord h,
      List.append_assoc, List.singleton_append]

theorem records_foldl_appendRecord_sublist (c : List FileLine) (ws : List ℕ) :
    ∃ ws', ws'.Sublist ws ∧ records (ws.foldl appendRecord c) = records c ++ ws' := by
  cases ws with
  | nil => exact ⟨[], List.Sublist.refl _, (List.append_nil _).symm⟩
  | cons w ws =>
    obtain ⟨w', hw', heq⟩ := records_appendRecord_sublist c w
    refine ⟨w' ++ ws, hw'.append (List.Sublist.refl ws), ?_⟩
    rw [List.foldl_cons, records_foldl_appendRecord (appendRecord_not_torn c w), heq,
      List.append_assoc]

/-! ### Queues -/

/-- The lines that wait in a queue. -/
def GenerateState.queuedLines (s : GenerateState) (server : ℕ) : List ℕ :=
  (s.queues server).map CallFuture.line

/-- The end of a call leaves the lines of the queues alone. -/
theorem GenerateState.finishCall_cases {s s' : GenerateState} {server pos : ℕ}
    {result : CallResult} (h : s.finishCall server pos result = some s') :
    ∃ queues, s' = { s with queues } ∧ s'.queuedLines = s.queuedLines := by
  unfold GenerateState.finishCall at h
  split at h
  · next line hfuture =>
    cases h
    refine ⟨_, rfl, funext fun other => ?_⟩
    unfold GenerateState.queuedLines
    by_cases heq : other = server
    · subst heq
      obtain ⟨hpos, hget⟩ := List.getElem?_eq_some_iff.mp hfuture
      have hpos' : pos < ((s.queues other).map CallFuture.line).length := by simpa using hpos
      have hline : ((s.queues other).map CallFuture.line)[pos] = line := by
        rw [List.getElem_map, hget]
      dsimp only
      rw [Function.update_self, List.map_set, ← hline, List.set_getElem_self]
    · dsimp only
      rw [Function.update_of_ne heq]
  · cases h

/-- One queue of a list of different queues grows. -/
theorem flatMap_update_perm {servers : List ℕ} (hnodup : servers.Nodup) {server : ℕ}
    (hmem : server ∈ servers) (queued : ℕ → List ℕ) {queue grown : List ℕ}
    (h : queue.Perm (queued server ++ grown)) :
    (servers.flatMap (Function.update queued server queue)).Perm
      (servers.flatMap queued ++ grown) := by
  induction servers with
  | nil => cases hmem
  | cons a servers ih =>
    rw [List.flatMap_cons, List.flatMap_cons]
    obtain ⟨ha, hnodup⟩ := List.nodup_cons.mp hnodup
    by_cases heq : a = server
    · subst heq
      have hrest : servers.flatMap (Function.update queued a queue) = servers.flatMap queued := by
        refine List.flatMap_congr fun b hb => Function.update_of_ne ?_ ..
        rintro rfl
        exact ha hb
      rw [Function.update_self, hrest, List.append_assoc]
      refine (h.append_right _).trans ?_
      rw [List.append_assoc]
      exact List.perm_append_comm.append_left _
    · rw [Function.update_of_ne heq, List.append_assoc]
      have hmem' : server ∈ servers := (List.mem_cons.mp hmem).resolve_left (Ne.symm heq)
      exact (ih hnodup hmem').append_left _

/-- The queues in the order of the servers are the queues themselves, each once, exactly when no
server with a nonempty queue comes twice. -/
theorem flatMap_perm_dedup {servers : List ℕ} {queued : ℕ → List ℕ}
    (h : ∀ server ∈ servers, queued server ≠ [] → servers.count server = 1) :
    (servers.flatMap queued).Perm (servers.dedup.flatMap queued) := by
  have hfilter : ∀ l : List ℕ, l.flatMap queued =
      (l.filter fun server => queued server ≠ []).flatMap queued := by
    intro l
    induction l with
    | nil => rfl
    | cons a l ih =>
      rw [List.flatMap_cons, List.filter_cons]
      by_cases ha : queued a = []
      · rw [if_neg (by simpa using ha), ha, List.nil_append, ih]
      · rw [if_pos (by simpa using ha), List.flatMap_cons, ← ih]
  rw [hfilter servers, hfilter servers.dedup]
  refine List.Perm.flatMap_right _ ?_
  refine (List.perm_ext_iff_of_nodup ?_ (servers.nodup_dedup.filter _)).mpr fun a => ?_
  · refine List.nodup_iff_count_le_one.mpr fun a => ?_
    by_cases ha : a ∈ servers.filter fun server => queued server ≠ []
    · obtain ⟨hmem, hne⟩ := List.mem_filter.mp ha
      rw [List.count_filter (p := fun server => queued server ≠ []) hne]
      exact (h a hmem (by simpa using hne)).le
    · rw [List.count_eq_zero_of_not_mem ha]
      exact Nat.zero_le _
  · simp only [List.mem_filter, List.mem_dedup]

theorem count_eq_one_of_nodup_flatMap {servers : List ℕ} {queued : ℕ → List ℕ}
    (h : (servers.flatMap queued).Nodup) {server : ℕ} (hmem : server ∈ servers)
    (hne : queued server ≠ []) : servers.count server = 1 := by
  have hpos := List.count_pos_iff.mpr hmem
  by_contra hcount
  have htwice : [server, server].Sublist servers :=
    List.replicate_sublist_iff.mpr (by omega : 2 ≤ servers.count server)
  have hpair := (List.nodup_flatMap.mp h).2.sublist htwice
  obtain ⟨line, hline⟩ := List.exists_mem_of_ne_nil _ hne
  exact (List.pairwise_pair.mp hpair) hline hline

/-! ### The second run -/

namespace ResultFiles

/-- The lines a resumed run finds in the files and keeps: it truncates them when it counts none. -/
def keptOutput (files : ResultFiles) : List FileLine :=
  openResultFile (0 < files.findResumeOffset.1) files.output

def keptError (files : ResultFiles) : List FileLine :=
  openResultFile (0 < files.findResumeOffset.1) files.error

end ResultFiles

/-- The files after the results of `ws` were appended to what was kept of `left`. -/
def Wrote (left files : ResultFiles) (ws : List ℕ) : Prop :=
  ∃ out err, files.output = some (out.foldl appendRecord left.keptOutput) ∧
    files.error = some (err.foldl appendRecord left.keptError) ∧ ws.Perm (out ++ err)

theorem Wrote.writeFinishedResult {left files files' : ResultFiles} {ws : List ℕ} {line : ℕ}
    {result : CallResult} {stats stats' : GenerateStats} (h : Wrote left files ws)
    (hwrite : writeFinishedResult line result files stats = some (files', stats')) :
    Wrote left files' (ws ++ [line]) := by
  obtain ⟨out, err, hout, herr, hperm⟩ := h
  cases result with
  | raised => cases hwrite
  | error =>
    cases hwrite
    refine ⟨out, err ++ [line], hout, ?_, ?_⟩
    · simp only [herr, Option.map_some, List.foldl_append, List.foldl_cons, List.foldl_nil]
    · rw [← List.append_assoc]
      exact hperm.append_right _
  | success contextLength =>
    cases hwrite
    refine ⟨out ++ [line], err, ?_, herr, ?_⟩
    · simp only [hout, Option.map_some, List.foldl_append, List.foldl_cons, List.foldl_nil]
    · refine (hperm.append_right _).trans ?_
      rw [List.append_assoc, List.append_assoc]
      exact List.perm_append_comm.append_left _

namespace GenerateArgs
variable (args : GenerateArgs) (lines : List String) (left : ResultFiles)

/-- In the loop over the input: what was read is written, waits in a queue, or is `current`. -/
structure InLoop (nextLine submitted nextServer : ℕ) (files : ResultFiles)
    (queued : ℕ → List ℕ) (current : List ℕ) : Prop where
  skip_lt : left.findResumeOffset.1 < lines.length
  next_eq : nextLine = left.findResumeOffset.1 + (submitted + current.length)
  next_le : nextLine ≤ lines.length
  server_eq : nextServer = (submitted + current.length) % args.servers.length
  samples : ∀ m ∈ args.numSamples, submitted + current.length ≤ m
  accounted : ∃ ws, Wrote left files ws ∧
    (ws ++ args.servers.dedup.flatMap queued ++ current).Perm
      (List.range' left.findResumeOffset.1 (submitted + current.length))

/-- In the last loop: the queues of `done` are written, and `pos` entries of the next one. -/
structure Draining (submitted : ℕ) (files : ResultFiles) (queued : ℕ → List ℕ)
    (rest : List ℕ) (pos : ℕ) : Prop where
  skip_lt : left.findResumeOffset.1 < lines.length
  all_read : left.findResumeOffset.1 + submitted = lines.length ∨
    left.findResumeOffset.1 + submitted < lines.length ∧ ∃ m ∈ args.numSamples, m ≤ submitted
  samples : ∀ m ∈ args.numSamples, submitted ≤ m
  used : ∀ server, queued server ≠ [] ↔ server ∈ args.servers.take submitted
  accounted : ∃ done early ws, args.servers = done ++ rest ∧ Wrote left files ws ∧
    ws.Perm (early ++ done.flatMap queued ++ ((rest.head?.map queued).getD []).take pos) ∧
    (early ++ args.servers.dedup.flatMap queued).Perm
      (List.range' left.findResumeOffset.1 submitted)

/-- What holds at each place of `main`. -/
def PhaseInv (nextLine submitted nextServer : ℕ) (files : ResultFiles)
    (queued : ℕ → List ℕ) : MainPhase → Prop
  | .openOutput =>
    left.findResumeOffset.1 < lines.length ∧ files = left ∧ submitted = 0 ∧ nextServer = 0 ∧
      ∀ server, queued server = []
  | .openError =>
    left.findResumeOffset.1 < lines.length ∧ files.output = some left.keptOutput ∧
      files.error = left.error ∧ submitted = 0 ∧ nextServer = 0 ∧ ∀ server, queued server = []
  | .readLine =>
    args.InLoop lines left nextLine submitted nextServer files queued [] ∧
      ∀ server, queued server ≠ [] ↔ server ∈ args.servers.take submitted
  | .scan line server _ =>
    args.InLoop lines left nextLine submitted nextServer files queued [line] ∧
      args.servers[submitted % args.servers.length]? = some server ∧
      ∀ other ≠ server, queued other ≠ [] ↔ other ∈ args.servers.take submitted
  | .drain rest pos => args.Draining lines left submitted files queued rest pos
  | .completed => args.Draining lines left submitted files queued [] 0
  | .alreadyProcessed => lines.length ≤ left.findResumeOffset.1 ∧ files = left
  | .raised => True

/-- The invariant of a run that resumes from the files in `left`. -/
structure Inv (s : GenerateState) : Prop where
  skipLines_eq : s.skipLines = left.findResumeOffset.1
  phase : args.PhaseInv lines left s.nextLine s.submittedCount s.nextServerIndex s.files
    s.queuedLines s.phase

variable {args lines left}

theorem inv_start (hresume : args.resume = true) : args.Inv lines left (args.start lines left) := by
  have hskip : (args.start lines left).skipLines = left.findResumeOffset.1 := by
    simp only [start, hresume, if_true]
  refine ⟨hskip, ?_⟩
  simp only [start, hresume, if_true]
  split
  · next hle => exact ⟨hle, rfl⟩
  · next hlt => exact ⟨Nat.lt_of_not_le hlt, rfl, rfl, rfl, fun _ => rfl⟩

theorem Inv.finishCall {s s' : GenerateState} (h : args.Inv lines left s) {server pos : ℕ}
    {result : CallResult} (hstep : s.finishCall server pos result = some s') :
    args.Inv lines left s' := by
  obtain ⟨queues, rfl, hqueued⟩ := GenerateState.finishCall_cases hstep
  refine ⟨h.skipLines_eq, ?_⟩
  rw [hqueued]
  exact h.phase

/-- `file_mode` of the second run is `"a"` when it skips lines. -/
theorem Inv.openFile {s : GenerateState} (h : args.Inv lines left s)
    (content : Option (List FileLine)) :
    openResultFile (0 < s.skipLines) content =
      openResultFile (0 < left.findResumeOffset.1) content := by
  rw [h.skipLines_eq]

/-- The loop over the input begins. -/
theorem InLoop.start {files : ResultFiles} {queued : ℕ → List ℕ}
    (hlt : left.findResumeOffset.1 < lines.length) (hout : files.output = some left.keptOutput)
    (herr : files.error = some left.keptError) (hqueued : ∀ server, queued server = []) :
    args.InLoop lines left left.findResumeOffset.1 0 0 files queued [] := by
  refine ⟨hlt, rfl, hlt.le, (Nat.zero_mod _).symm, fun m _ => Nat.zero_le m, [],
    ⟨[], [], hout, herr, List.Perm.refl _⟩, List.Perm.of_eq ?_⟩
  have hnil : args.servers.dedup.flatMap queued = [] :=
    List.flatMap_eq_nil_iff.mpr fun server _ => hqueued server
  rw [hnil]
  rfl

/-- The loop over the input ends, before or after the last line. -/
theorem InLoop.draining {nextLine submitted nextServer : ℕ} {files : ResultFiles}
    {queued : ℕ → List ℕ} (h : args.InLoop lines left nextLine submitted nextServer files queued [])
    (hused : ∀ server, queued server ≠ [] ↔ server ∈ args.servers.take submitted)
    (hend : nextLine = lines.length ∨
      nextLine < lines.length ∧ ∃ m ∈ args.numSamples, m ≤ submitted) :
    args.Draining lines left submitted files queued args.servers 0 := by
  have hnext := h.next_eq
  rw [List.length_nil, Nat.add_zero] at hnext
  obtain ⟨ws, hwrote, hperm⟩ := h.accounted
  rw [List.append_nil, List.length_nil, Nat.add_zero] at hperm
  refine ⟨h.skip_lt, by rwa [← hnext], ?_, hused, [], ws, ws, rfl, hwrote, ?_, hperm⟩
  · intro m hm
    exact h.samples m hm
  · rw [List.flatMap_nil, List.take_zero, List.append_nil, List.append_nil]

/-- A line is read. -/
theorem InLoop.read {nextLine submitted nextServer : ℕ} {files : ResultFiles}
    {queued : ℕ → List ℕ} (h : args.InLoop lines left nextLine submitted nextServer files queued [])
    (hnext : nextLine < lines.length)
    (hsamples : ∀ m ∈ args.numSamples, submitted < m) :
    args.InLoop lines left (nextLine + 1) submitted ((nextServer + 1) % args.servers.length) files
      queued [nextLine] := by
  obtain ⟨ws, hwrote, hperm⟩ := h.accounted
  have hnext' := h.next_eq
  rw [List.length_nil, Nat.add_zero] at hnext'
  refine ⟨h.skip_lt, ?_, hnext, ?_, ?_, ws, hwrote, ?_⟩
  · rw [hnext', List.length_singleton]
    omega
  · rw [h.server_eq, List.length_nil, List.length_singleton, Nat.add_zero, Nat.mod_add_mod]
  · intro m hm
    exact hsamples m hm
  · rw [List.append_nil, List.length_nil, Nat.add_zero] at hperm
    rw [List.length_singleton, List.range'_concat, Nat.one_mul, ← hnext']
    exact hperm.append_right _

/-- The current line goes to its queue. -/
theorem InLoop.submit {nextLine submitted nextServer line server : ℕ} {files : ResultFiles}
    {queued : ℕ → List ℕ}
    (h : args.InLoop lines left nextLine submitted nextServer files queued [line])
    (hserver : server ∈ args.servers) :
    args.InLoop lines left nextLine (submitted + 1) nextServer files
      (Function.update queued server (queued server ++ [line])) [] := by
  obtain ⟨ws, hwrote, hperm⟩ := h.accounted
  refine ⟨h.skip_lt, h.next_eq, h.next_le, h.server_eq, h.samples, ws, hwrote, ?_⟩
  refine List.Perm.trans ?_ hperm
  rw [List.append_nil, List.append_assoc]
  refine List.Perm.append_left ws ?_
  exact flatMap_update_perm args.servers.nodup_dedup (List.mem_dedup.mpr hserver) queued
    (List.Perm.refl _)

/-- A result leaves its queue for the files. -/
theorem InLoop.write {nextLine submitted nextServer done server : ℕ} {files files' : ResultFiles}
    {queued : ℕ → List ℕ} {current queue : List ℕ}
    (h : args.InLoop lines left nextLine submitted nextServer files queued current)
    (hserver : server ∈ args.servers) (hqueue : (queued server).Perm (queue ++ [done]))
    (hwrote' : ∀ ws, Wrote left files ws → Wrote left files' (ws ++ [done])) :
    args.InLoop lines left nextLine submitted nextServer files'
      (Function.update queued server queue) current := by
  obtain ⟨ws, hwrote, hperm⟩ := h.accounted
  refine ⟨h.skip_lt, h.next_eq, h.next_le, h.server_eq, h.samples, ws ++ [done],
    hwrote' ws hwrote, ?_⟩
  have hflat := @flatMap_update_perm _ args.servers.nodup_dedup _ (List.mem_dedup.mpr hserver)
    (Function.update queued server queue) (queued server) [done] (by rwa [Function.update_self])
  rw [Function.update_idem, Function.update_eq_self] at hflat
  refine List.Perm.trans ?_ hperm
  rw [List.append_assoc ws]
  refine List.Perm.append_right current (List.Perm.append_left ws ?_)
  exact List.perm_append_comm.trans hflat.symm

/-- The last loop writes the next entry of a queue. -/
theorem Draining.write {submitted line server pos : ℕ} {files files' : ResultFiles}
    {queued : ℕ → List ℕ} {servers : List ℕ}
    (h : args.Draining lines left submitted files queued (server :: servers) pos)
    (hline : (queued server)[pos]? = some line)
    (hwrote' : ∀ ws, Wrote left files ws → Wrote left files' (ws ++ [line])) :
    args.Draining lines left submitted files' queued (server :: servers) (pos + 1) := by
  obtain ⟨done, early, ws, hsplit, hwrote, hws, hearly⟩ := h.accounted
  refine ⟨h.skip_lt, h.all_read, h.samples, h.used, done, early, ws ++ [line], hsplit,
    hwrote' ws hwrote, ?_,
    hearly⟩
  refine (hws.append_right [line]).trans (List.Perm.of_eq ?_)
  rw [List.head?_cons, Option.map_some, Option.getD_some, List.append_assoc, List.take_add_one,
    hline, Option.toList_some]

/-- The last loop goes on to the next server. -/
theorem Draining.next {submitted server pos : ℕ} {files : ResultFiles} {queued : ℕ → List ℕ}
    {servers : List ℕ}
    (h : args.Draining lines left submitted files queued (server :: servers) pos)
    (hpos : (queued server)[pos]? = none) :
    args.Draining lines left submitted files queued servers 0 := by
  obtain ⟨done, early, ws, hsplit, hwrote, hws, hearly⟩ := h.accounted
  refine ⟨h.skip_lt, h.all_read, h.samples, h.used, done ++ [server], early, ws, ?_,
    hwrote, ?_, hearly⟩
  · rw [hsplit, List.append_assoc, List.singleton_append]
  · refine hws.trans (List.Perm.of_eq ?_)
    rw [List.head?_cons, Option.map_some, Option.getD_some,
      List.take_of_length_le (List.getElem?_eq_none_iff.mp hpos), List.flatMap_append,
      List.flatMap_singleton, List.take_zero, List.append_nil, List.append_assoc]

theorem Draining.finish {submitted pos : ℕ} {files : ResultFiles} {queued : ℕ → List ℕ}
    (h : args.Draining lines left submitted files queued [] pos) :
    args.Draining lines left submitted files queued [] 0 := by
  obtain ⟨done, early, ws, hsplit, hwrote, hws, hearly⟩ := h.accounted
  refine ⟨h.skip_lt, h.all_read, h.samples, h.used, done, early, ws, hsplit, hwrote, ?_, hearly⟩
  simpa using hws

theorem samplesReached_iff (submitted : ℕ) :
    args.samplesReached submitted = true ↔ ∃ m ∈ args.numSamples, m ≤ submitted := by
  unfold samplesReached
  cases args.numSamples <;> simp

/-- The server of the next line is one that gets lines. -/
theorem mem_take_succ {submitted server : ℕ}
    (h : args.servers[submitted % args.servers.length]? = some server) (other : ℕ) :
    other ∈ args.servers.take (submitted + 1) ↔
      other = server ∨ other ∈ args.servers.take submitted := by
  rcases Nat.lt_or_ge submitted args.servers.length with hlt | hge
  · rw [Nat.mod_eq_of_lt hlt] at h
    rw [List.take_add_one, h, List.mem_append, Option.toList_some, List.mem_singleton, or_comm]
  · rw [List.take_of_length_le hge, List.take_of_length_le (by omega)]
    constructor
    · exact Or.inr
    · rintro (rfl | hmem)
      · exact List.mem_of_getElem? h
      · exact hmem

theorem Inv.readLine {s s' : GenerateState} {parses : String → Bool} (h : args.Inv lines left s)
    (hphase : s.phase = .readLine) (hstep : args.mainStep lines parses s = some s') :
    args.Inv lines left s' := by
  have hinv := h.phase
  rw [hphase] at hinv
  obtain ⟨hloop, hused⟩ := hinv
  simp only [mainStep, hphase] at hstep
  have hnext_le := hloop.next_le
  split at hstep
  · next hnone =>
    cases hstep
    have hge := List.getElem?_eq_none_iff.mp hnone
    exact ⟨h.skipLines_eq, hloop.draining hused (.inl (by omega))⟩
  · next line hline =>
    have hlt := (List.getElem?_eq_some_iff.mp hline).1
    split at hstep
    · next hreached =>
      cases hstep
      exact ⟨h.skipLines_eq, hloop.draining hused (.inr ⟨hlt, (samplesReached_iff _).mp hreached⟩)⟩
    · next hreached =>
      have hmore : ∀ m ∈ args.numSamples, s.submittedCount < m := by
        intro m hm
        by_contra hle
        exact hreached ((samplesReached_iff _).mpr ⟨m, hm, Nat.le_of_not_lt hle⟩)
      split at hstep
      · next server hparses hserver =>
        cases hstep
        refine ⟨h.skipLines_eq, hloop.read hlt hmore, ?_, fun other _ => hused other⟩
        rw [hloop.server_eq] at hserver
        exact hserver
      · cases hstep
        exact ⟨h.skipLines_eq, trivial⟩

theorem queuedLines_update (s : GenerateState) (server : ℕ) (queue : List CallFuture) :
    (fun other => (Function.update s.queues server queue other).map CallFuture.line) =
      Function.update s.queuedLines server (queue.map CallFuture.line) := by
  funext other
  by_cases heq : other = server
  · rw [heq, Function.update_self, Function.update_self]
  · rw [Function.update_of_ne heq, Function.update_of_ne heq]
    rfl

theorem Inv.scan {s s' : GenerateState} {parses : String → Bool} (h : args.Inv lines left s)
    {line server pos : ℕ} (hphase : s.phase = .scan line server pos)
    (hstep : args.mainStep lines parses s = some s') : args.Inv lines left s' := by
  have hinv := h.phase
  rw [hphase] at hinv
  obtain ⟨hloop, hserver, hused⟩ := hinv
  have hmem : server ∈ args.servers := List.mem_of_getElem? hserver
  simp only [mainStep, hphase] at hstep
  split at hstep
  · -- there is room in the queue
    cases hstep
    refine ⟨h.skipLines_eq, ?_⟩
    have hqueued := queuedLines_update s server (s.queues server ++ [⟨line, none⟩])
    rw [List.map_append, List.map_singleton] at hqueued
    unfold GenerateState.queuedLines
    rw [hqueued]
    refine ⟨hloop.submit hmem, fun other => ?_⟩
    rw [mem_take_succ hserver]
    by_cases heq : other = server
    · subst heq
      simp
    · rw [Function.update_of_ne heq, hused other heq]
      exact ⟨.inr, fun hor => hor.resolve_left heq⟩
  · split at hstep
    · cases hstep
      exact ⟨h.skipLines_eq, hloop, hserver, hused⟩
    · cases hstep
      exact ⟨h.skipLines_eq, hloop, hserver, hused⟩
    · next done result hfuture =>
      split at hstep
      · cases hstep
        exact ⟨h.skipLines_eq, trivial⟩
      · next files stats hwrite =>
        cases hstep
        refine ⟨h.skipLines_eq, ?_⟩
        unfold GenerateState.queuedLines
        rw [queuedLines_update]
        obtain ⟨hpos, hget⟩ := List.getElem?_eq_some_iff.mp hfuture
        have hperm := (List.getElem_cons_eraseIdx_perm hpos).symm.map CallFuture.line
        rw [List.map_cons, hget] at hperm
        refine ⟨hloop.write hmem (hperm.trans (List.perm_append_singleton _ _).symm) ?_,
          hserver, ?_⟩
        · exact fun ws hwrote => hwrote.writeFinishedResult hwrite
        · intro other hne
          rw [Function.update_of_ne hne]
          exact hused other hne

theorem Inv.drain {s s' : GenerateState} {parses : String → Bool} (h : args.Inv lines left s)
    {rest : List ℕ} {pos : ℕ} (hphase : s.phase = .drain rest pos)
    (hstep : args.mainStep lines parses s = some s') : args.Inv lines left s' := by
  have hinv := h.phase
  rw [hphase] at hinv
  cases rest with
  | nil =>
    simp only [mainStep, hphase] at hstep
    cases hstep
    exact ⟨h.skipLines_eq, hinv.finish⟩
  | cons server servers =>
    simp only [mainStep, hphase] at hstep
    have hget : ∀ {future?}, (s.queues server)[pos]? = future? →
        (s.queuedLines server)[pos]? = future?.map CallFuture.line := by
      rintro _ rfl
      exact List.getElem?_map
    split at hstep
    · next hnone =>
      cases hstep
      exact ⟨h.skipLines_eq, hinv.next (hget hnone)⟩
    · cases hstep
    · next done result hfuture =>
      split at hstep
      · cases hstep
        exact ⟨h.skipLines_eq, trivial⟩
      · next files stats hwrite =>
        cases hstep
        exact ⟨h.skipLines_eq, hinv.write (hget hfuture) fun ws hwrote =>
          hwrote.writeFinishedResult hwrite⟩

theorem Inv.mainStep {s s' : GenerateState} {parses : String → Bool} (h : args.Inv lines left s)
    (hstep : args.mainStep lines parses s = some s') : args.Inv lines left s' := by
  have hinv := h.phase
  cases hphase : s.phase with
  | openOutput =>
    rw [hphase] at hinv
    obtain ⟨hlt, hfiles, hsubmitted, hserver, hqueued⟩ := hinv
    simp only [GenerateArgs.mainStep, hphase] at hstep
    cases hstep
    have herr : s.files.error = left.error := congrArg ResultFiles.error hfiles
    refine ⟨h.skipLines_eq, hlt, ?_, herr, hsubmitted, hserver, hqueued⟩
    rw [h.openFile, hfiles, ResultFiles.keptOutput]
  | openError =>
    rw [hphase] at hinv
    obtain ⟨hlt, hout, herr, hsubmitted, hserver, hqueued⟩ := hinv
    simp only [GenerateArgs.mainStep, hphase] at hstep
    cases hstep
    refine ⟨h.skipLines_eq, ?_, fun server => ?_⟩
    · change args.InLoop lines left s.skipLines s.submittedCount s.nextServerIndex _
        s.queuedLines []
      rw [h.skipLines_eq, hsubmitted, hserver]
      exact InLoop.start hlt hout (congrArg some (congrArg _ herr)) hqueued
    · rw [hsubmitted, List.take_zero]
      exact ⟨fun hne => absurd (hqueued server) hne, fun hmem => by cases hmem⟩
  | readLine => exact h.readLine hphase hstep
  | scan line server pos => exact h.scan hphase hstep
  | drain rest pos => exact h.drain hphase hstep
  | completed => simp only [GenerateArgs.mainStep, hphase, reduceCtorEq] at hstep
  | alreadyProcessed => simp only [GenerateArgs.mainStep, hphase, reduceCtorEq] at hstep
  | raised => simp only [GenerateArgs.mainStep, hphase, reduceCtorEq] at hstep

theorem Inv.runEvents {s s' : GenerateState} {parses : String → Bool} (h : args.Inv lines left s)
    {events : List GenerateEvent} (hrun : args.runEvents lines parses s events = some s') :
    args.Inv lines left s' := by
  induction events generalizing s with
  | nil =>
    obtain rfl := Option.some.inj hrun
    exact h
  | cons event events ih =>
    obtain ⟨next, hstep, hrest⟩ := Option.bind_eq_some_iff.mp hrun
    refine ih ?_ hrest
    cases event with
    | main => exact h.mainStep hstep
    | callDone server pos result => exact h.finishCall hstep

/-! ### What the second run leaves -/

theorem length_kept (left : ResultFiles) :
    left.keptOutput.length + left.keptError.length = left.findResumeOffset.1 := by
  unfold ResultFiles.keptOutput ResultFiles.keptError openResultFile ResultFiles.findResumeOffset
  cases left.output with
  | none => rfl
  | some output =>
    by_cases hpos : 0 < output.length + (left.error.getD []).length
    · simp only [hpos, decide_true, if_true, Option.getD_some]
    · simp only [hpos, decide_false, Bool.false_eq_true, if_false, List.length_nil]
      omega

theorem range_eq_range_append {k n : ℕ} (h : k ≤ n) :
    List.range n = List.range k ++ List.range' k (n - k) := by
  have happend := List.range'_append_1 (s := 0) (m := k) (n := n - k)
  rw [Nat.zero_add, Nat.add_sub_of_le h] at happend
  rw [List.range_eq_range', List.range_eq_range', happend]

/-- When every kept line is a result, no file ends in a torn line, and every result is appended. -/
theorem recorded_perm_of_wrote {files : ResultFiles} {ws : List ℕ} (hwrote : Wrote left files ws)
    (hlen : (records left.keptOutput ++ records left.keptError).length =
      left.findResumeOffset.1) :
    files.recorded.Perm ((records left.keptOutput ++ records left.keptError) ++ ws) := by
  obtain ⟨out, err, hout, herr, hws⟩ := hwrote
  have hkept := length_kept left
  have hlenOut := length_records_le left.keptOutput
  have hlenErr := length_records_le left.keptError
  rw [List.length_append] at hlen
  have hO := records_foldl_appendRecord
    (not_torn_of_length_records (c := left.keptOutput) (by omega)) out
  have hE := records_foldl_appendRecord
    (not_torn_of_length_records (c := left.keptError) (by omega)) err
  rw [ResultFiles.recorded, hout, herr, Option.getD_some, Option.getD_some, hO, hE]
  refine List.Perm.trans ?_ (hws.symm.append_left _)
  rw [List.append_assoc, List.append_assoc]
  refine List.Perm.append_left _ ?_
  rw [← List.append_assoc, ← List.append_assoc]
  exact List.perm_append_comm.append_right err

/-- The lines below `k`, when all that was written is later. -/
theorem filter_recorded_of_wrote {files : ResultFiles} {ws : List ℕ} (hwrote : Wrote left files ws)
    {k : ℕ} (hlater : ∀ w ∈ ws, k ≤ w) :
    files.recorded.filter (· < k) =
      (records left.keptOutput ++ records left.keptError).filter (· < k) := by
  obtain ⟨out, err, hout, herr, hws⟩ := hwrote
  obtain ⟨wo, hwo, hO⟩ := records_foldl_appendRecord_sublist left.keptOutput out
  obtain ⟨we, hwe, hE⟩ := records_foldl_appendRecord_sublist left.keptError err
  have hnone : ∀ w' : List ℕ, (∀ w ∈ w', w ∈ ws) → w'.filter (· < k) = [] := by
    intro w' hmem
    refine List.filter_eq_nil_iff.mpr fun w hw => ?_
    simpa using hlater w (hmem w hw)
  have hwo' := hnone wo fun w hw => hws.mem_iff.mpr (List.mem_append_left _ (hwo.subset hw))
  have hwe' := hnone we fun w hw => hws.mem_iff.mpr (List.mem_append_right _ (hwe.subset hw))
  rw [ResultFiles.recorded, hout, herr, Option.getD_some, Option.getD_some, hO, hE,
    List.filter_append, List.filter_append, List.filter_append, hwo', hwe', List.append_nil,
    List.append_nil, ← List.filter_append]

/-- Results of later lines were appended to the kept files: every line is recorded once when the
kept results are those of the lines before, and the later lines were written once. -/
theorem recordedOnce_iff_of_wrote {files : ResultFiles} {ws : List ℕ}
    (hle : left.findResumeOffset.1 ≤ lines.length) (hwrote : Wrote left files ws)
    (hlater : ∀ w ∈ ws, left.findResumeOffset.1 ≤ w) :
    RecordedOnce lines files ↔
      (records left.keptOutput ++ records left.keptError).Perm
          (List.range left.findResumeOffset.1) ∧
        ws.Perm (List.range' left.findResumeOffset.1
          (lines.length - left.findResumeOffset.1)) := by
  have hrange := range_eq_range_append hle
  have hfull := recorded_perm_of_wrote hwrote
  have hbelow := filter_recorded_of_wrote hwrote hlater
  have hkept := length_kept left
  generalize left.findResumeOffset.1 = k at *
  constructor
  · intro honce
    -- the lines below `k` were all recorded before
    have hbefore : ((records left.keptOutput ++ records left.keptError).filter (· < k)).Perm
        (List.range k) := by
      have hfilter := List.Perm.filter (· < k) honce
      rw [hrange, List.filter_append, hbelow] at hfilter
      refine hfilter.trans (List.Perm.of_eq ?_)
      rw [List.filter_eq_self.mpr, List.filter_eq_nil_iff.mpr, List.append_nil]
      · intro i hi
        have := List.mem_range'_1.mp hi
        simpa using this.1
      · intro i hi
        simpa using hi
    have hle' := List.length_filter_le (fun i => decide (i < k))
      (records left.keptOutput ++ records left.keptError)
    have hlenOut := length_records_le left.keptOutput
    have hlenErr := length_records_le left.keptError
    have hbefore_len := hbefore.length_eq
    rw [List.length_range] at hbefore_len
    have hlen : (records left.keptOutput ++ records left.keptError).length = k := by
      rw [List.length_append] at hle' ⊢
      omega
    have hall := List.filter_sublist.eq_of_length (hbefore_len.trans hlen.symm)
    rw [hall] at hbefore
    refine ⟨hbefore, ?_⟩
    have hperm := (hfull hlen).symm.trans honce
    rw [hrange] at hperm
    exact (List.perm_append_left_iff _).mp ((hbefore.symm.append_right ws).trans hperm)
  · rintro ⟨hfirst, hrest⟩
    have hlen := hfirst.length_eq
    rw [List.length_range] at hlen
    refine (hfull hlen).trans ?_
    rw [hrange]
    exact hfirst.append hrest

end GenerateArgs

/-- The two files, as the second run keeps them: it truncates both when it counts no line. -/
def ResultFiles.kept (files : ResultFiles) (lines : List String) : ResultFiles :=
  if files.findResumeOffset.1 = 0 ∧ lines ≠ [] then ⟨some [], some []⟩ else files

/-- The kept results are those of the first lines, as many as were counted; the second run may
send all others; and no server that gets one of them was given twice. -/
structure ResumesBehindFirst (lines : List String) (left : ResultFiles) (args : GenerateArgs) :
    Prop where
  first : (left.kept lines).recorded.Perm
    (List.range (min left.findResumeOffset.1 lines.length))
  enough : ∀ m ∈ args.numSamples, lines.length - left.findResumeOffset.1 ≤ m
  once : ∀ server ∈ args.servers.take (lines.length - left.findResumeOffset.1),
    args.servers.count server = 1

namespace GenerateArgs
variable {args : GenerateArgs} {lines : List String} {left : ResultFiles}

theorem recorded_kept (h : left.findResumeOffset.1 < lines.length) :
    (left.kept lines).recorded = records left.keptOutput ++ records left.keptError := by
  have hne : lines ≠ [] := List.ne_nil_of_length_pos (Nat.zero_lt_of_lt h)
  unfold ResultFiles.kept ResultFiles.keptOutput ResultFiles.keptError openResultFile
  by_cases hzero : left.findResumeOffset.1 = 0
  · simp [hzero, hne, ResultFiles.recorded]
  · simp [hzero, Nat.pos_of_ne_zero hzero, ResultFiles.recorded]

/-- Once every server has been drained, the lines behind the skipped ones are all written, and once
each, when all were sent and no server in use comes twice. -/
theorem Draining.perm_iff {submitted : ℕ} {files : ResultFiles} {queued : ℕ → List ℕ}
    (h : args.Draining lines left submitted files queued [] 0) :
    ∃ ws, Wrote left files ws ∧ (∀ w ∈ ws, left.findResumeOffset.1 ≤ w) ∧
      (ws.Perm (List.range' left.findResumeOffset.1 (lines.length - left.findResumeOffset.1)) ↔
        (∀ m ∈ args.numSamples, lines.length - left.findResumeOffset.1 ≤ m) ∧
        ∀ server ∈ args.servers.take (lines.length - left.findResumeOffset.1),
          args.servers.count server = 1) := by
  obtain ⟨done, early, ws, hsplit, hwrote, hws, hearly⟩ := h.accounted
  rw [List.append_nil] at hsplit
  rw [← hsplit, List.take_zero, List.append_nil] at hws
  have hlt := h.skip_lt
  have hread := h.all_read
  refine ⟨ws, hwrote, fun w hw => ?_, fun hperm => ?_, fun ⟨henough, honce⟩ => ?_⟩
  · have hmem : w ∈ early ++ args.servers.dedup.flatMap queued := by
      rcases List.mem_append.mp (hws.mem_iff.mp hw) with hw | hw
      · exact List.mem_append_left _ hw
      · obtain ⟨server, hserver, hw⟩ := List.mem_flatMap.mp hw
        exact List.mem_append_right _
          (List.mem_flatMap.mpr ⟨server, List.mem_dedup.mpr hserver, hw⟩)
    exact (List.mem_range'_1.mp (hearly.mem_iff.mp hmem)).1
  · have hnodup : (args.servers.flatMap queued).Nodup := by
      have hws_nodup := (hws.symm.trans hperm).nodup_iff.mpr (List.nodup_range' 1)
      exact (List.nodup_append.mp hws_nodup).2.1
    have hcount : ∀ server ∈ args.servers, queued server ≠ [] → args.servers.count server = 1 :=
      fun server hserver hne => count_eq_one_of_nodup_flatMap hnodup hserver hne
    -- as many lines were submitted as were to be read
    have hsubmitted : submitted = lines.length - left.findResumeOffset.1 := by
      have hflat := (hws.symm.trans hperm).symm.trans
        (((flatMap_perm_dedup hcount).append_left early).trans hearly)
      simpa using hflat.length_eq.symm
    refine ⟨fun m hm => hsubmitted ▸ h.samples m hm, fun server hserver => ?_⟩
    rw [← hsubmitted] at hserver
    exact hcount server (List.mem_of_mem_take hserver) ((h.used server).mpr hserver)
  · have hsubmitted : submitted = lines.length - left.findResumeOffset.1 := by
      rcases hread with heq | ⟨hmore, m, hm, hle⟩
      · omega
      · have := henough m hm
        omega
    rw [← hsubmitted] at honce ⊢
    refine hws.trans (List.Perm.trans ?_ hearly)
    refine (flatMap_perm_dedup fun server _ hne => ?_).append_left early
    exact honce server ((h.used server).mp hne)

end GenerateArgs

/-- **Exactly when a resumed job records every line once**, for every input, servers and order of
events, and wherever the first run was interrupted. -/
theorem ResumedJob.recordedOnce_iff {lines : List String} {parses : String → Bool}
    (job : ResumedJob lines parses) :
    RecordedOnce lines job.finished.files ↔ ResumesBehindFirst lines job.left job.second := by
  have hphase := ((GenerateArgs.inv_start job.resume).runEvents job.secondRun).phase
  rcases job.ended with hended | hended
  · rw [hended] at hphase
    have hlt := hphase.skip_lt
    obtain ⟨ws, hwrote, hlater, hws⟩ := hphase.perm_iff
    rw [GenerateArgs.recordedOnce_iff_of_wrote hlt.le hwrote hlater, hws,
      ← GenerateArgs.recorded_kept hlt]
    constructor
    · rintro ⟨hfirst, henough, honce⟩
      exact ⟨by rwa [Nat.min_eq_left hlt.le], henough, honce⟩
    · rintro ⟨hfirst, henough, honce⟩
      exact ⟨by rwa [Nat.min_eq_left hlt.le] at hfirst, henough, honce⟩
  · -- nothing was left to do, and the files are as the first run left them
    rw [hended] at hphase
    obtain ⟨hle, hfiles⟩ := hphase
    have hkept : job.left.kept lines = job.left := by
      refine if_neg fun ⟨hzero, hne⟩ => ?_
      rw [hzero] at hle
      exact hne (List.length_eq_zero_iff.mp (Nat.le_zero.mp hle))
    have hnothing := Nat.sub_eq_zero_of_le hle
    rw [hfiles, RecordedOnce]
    constructor
    · intro honce
      refine ⟨by rwa [hkept, Nat.min_eq_right hle], fun m _ => ?_, fun server hserver => ?_⟩
      · rw [hnothing]
        exact Nat.zero_le m
      · rw [hnothing] at hserver
        cases hserver
    · intro h
      have hfirst := h.first
      rwa [hkept, Nat.min_eq_right hle] at hfirst

/-- One server with room for two calls. -/
def roomForTwo (resume : Bool) : GenerateArgs where
  concurrency := 2
  servers := [0]
  numSamples := none
  resume
  concurrency_pos := by decide
  servers_ne_nil := by decide

def threeLines : List String :=
  List.replicate 3 "\x7b\"conversations\": [\x7b\"role\": \"user\"\x7d]\x7d"

/-- Three lines and one server with room for two: the second call ends first and is written when
the third line needs its place, and there the run is interrupted.  The first line is lost, and the
second one comes twice. -/
theorem exists_lost_line :
    ∃ job : ResumedJob threeLines fun _ => true,
      job.finished.files.recorded = [1, 1, 2] ∧ ¬ RecordedOnce threeLines job.finished.files := by
  obtain ⟨interrupted, firstRun, hleft⟩ : ∃ s, (roomForTwo false).runEvents threeLines
      (fun _ => true) ((roomForTwo false).start threeLines ⟨none, none⟩)
      [.main, .main, .main, .main, .main, .main, .callDone 0 1 (.success 3), .main, .main,
        .main] = some s ∧ s.files = ⟨some [.record 1], some []⟩ := ⟨_, rfl, rfl⟩
  obtain ⟨finished, secondRun, hended, hfinished⟩ : ∃ s, (roomForTwo true).runEvents threeLines
      (fun _ => true) ((roomForTwo true).start threeLines ⟨some [.record 1], some []⟩)
      [.main, .main, .main, .main, .main, .main, .main, .callDone 0 0 (.success 3),
        .callDone 0 1 (.success 3), .main, .main, .main, .main] = some s ∧ s.phase = .completed ∧
        s.files = ⟨some [.record 1, .record 1, .record 2], some []⟩ := ⟨_, rfl, rfl, rfl⟩
  refine ⟨⟨roomForTwo false, ⟨none, none⟩, _, interrupted, firstRun,
    ⟨some [.record 1], some []⟩, hleft ▸ .closed, roomForTwo true, rfl, _, finished, secondRun,
    .inl hended⟩, ?_, ?_⟩
  · change finished.files.recorded = _
    rw [hfinished]
    rfl
  · change ¬ finished.files.recorded.Perm _
    rw [hfinished]
    change ¬ List.Perm [1, 1, 2] [0, 1, 2]
    decide

end LatentSpec
