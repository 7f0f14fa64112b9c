import Mathlib.Data.List.Dedup
import Mathlib.Data.List.Range
import Mathlib.Logic.Function.Basic

/-! # Regenerating the training conversations

`generate_train_data.py` sends every line of its input to one of several servers and writes what
comes back to an output file and an error file.  The main thread goes round the servers, keeps a
queue of futures for each, and writes a result when it needs the place in the queue or when the
input is used up; the calls end in any order.  A run that resumes skips as many input lines as
the two files have lines.
-/
namespace LatentSpec

/-! ### The files -/

/-- A line of the output or the error file: the result of an input line, or something else.  A
file that was cut in the middle of a line has `torn` at its end. -/
inductive FileLine where
  | record (line : ℕ)
  | other
  | torn
  deriving DecidableEq

/-- The input lines that a file has results of. -/
def records (content : List FileLine) : List ℕ :=
  content.filterMap fun
    | .record line => some line
    | _ => none

/-- `handle.write(json.dumps(sample) + "\n")`.  Behind a torn line there is no line break. -/
def appendRecord (content : List FileLine) (line : ℕ) : List FileLine :=
  if content.getLast? = some .torn then content.dropLast ++ [.other]
  else content ++ [.record line]

/-- The output and the error file; `none` is a file that does not exist.  They are two files, as
`error_path` is another path once the output path has `.jsonl` in it. -/
structure ResultFiles where
  output : Option (List FileLine)
  error : Option (List FileLine)

namespace ResultFiles

/-- The results in both files. -/
def recorded (files : ResultFiles) : List ℕ :=
  records (files.output.getD []) ++ records (files.error.getD [])

/-- `find_resume_offset`.  A torn line counts as well. -/
def findResumeOffset (files : ResultFiles) : ℕ × ℕ × ℕ :=
  match files.output with
  | none => (0, 0, 0)
  | some output =>
    let successCount := output.length
    let errorCount := (files.error.getD []).length
    (successCount + errorCount, successCount, errorCount)

/-- The content of a file cut off somewhere. -/
inductive Cut : Option (List FileLine) → Option (List FileLine) → Prop where
  | missing : Cut none none
  | between (content : List FileLine) (n : ℕ) : Cut (some content) (some (content.take n))
  | within (content : List FileLine) {n : ℕ} (h : n < content.length) :
    Cut (some content) (some (content.take n ++ [.torn]))

end ResultFiles

/-! ### A run -/

/-- How `call_sglang` ends: with a sample whose status is `"success"` or `"error"`, or with an
exception, of the call or of writing its sample. -/
inductive CallResult where
  | success (contextLength : ℕ)
  | error
  | raised

/-- A future, with the input line it is for. -/
structure CallFuture where
  line : ℕ
  result : Option CallResult

structure GenerateStats where
  success : ℕ
  errors : ℕ
  contextSum : ℕ
  contextMin : Option ℕ
  contextMax : ℕ

/-- The arguments of a run.  `servers` are the addresses that passed `validate_servers`, as often
as they were given. -/
structure GenerateArgs where
  concurrency : ℕ
  servers : List ℕ
  numSamples : Option ℕ
  resume : Bool
  concurrency_pos : 0 < concurrency
  servers_ne_nil : servers ≠ []

/-- Where `main` stands.  `scan` is the wait for a place in a queue, at a position of the queue;
`drain` is the last loop, with the servers left and the position in the first one's queue. -/
inductive MainPhase where
  | openOutput
  | openError
  | readLine
  | scan (line server pos : ℕ)
  | drain (servers : List ℕ) (pos : ℕ)
  | completed
  | alreadyProcessed
  | raised
  deriving DecidableEq

structure GenerateState where
  phase : MainPhase
  skipLines : ℕ
  nextLine : ℕ
  submittedCount : ℕ
  nextServerIndex : ℕ
  queues : ℕ → List CallFuture
  files : ResultFiles
  stats : GenerateStats

/-- `write_finished_result`; `none` is an exception. -/
def writeFinishedResult (line : ℕ) (result : CallResult) (files : ResultFiles)
    (stats : GenerateStats) : Option (ResultFiles × GenerateStats) :=
  match result with
  | .raised => none
  | .error =>
    some ({ files with error := files.error.map (appendRecord · line) },
      { stats with errors := stats.errors + 1 })
  | .success contextLength =>
    some ({ files with output := files.output.map (appendRecord · line) },
      { stats with
        success := stats.success + 1
        contextSum := stats.contextSum + contextLength
        contextMin := some (stats.contextMin.elim contextLength (min · contextLength))
        contextMax := max stats.contextMax contextLength })

/-- `open(path, file_mode)` -/
def openResultFile (append : Bool) (content : Option (List FileLine)) : List FileLine :=
  if append then content.getD [] else []

namespace GenerateArgs
variable (args : GenerateArgs) (lines : List String) (parses : String → Bool)

/-- `main` up to the two `open` calls.  The mode is `"a"` when lines are skipped. -/
def start (files : ResultFiles) : GenerateState where
  phase := if lines.length ≤ (if args.resume then files.findResumeOffset.1 else 0)
    then .alreadyProcessed else .openOutput
  skipLines := if args.resume then files.findResumeOffset.1 else 0
  nextLine := 0
  submittedCount := 0
  nextServerIndex := 0
  queues := fun _ => []
  files
  stats := ⟨0, 0, 0, none, 0⟩

/-- `submitted_count >= args.num_samples` -/
def samplesReached (submittedCount : ℕ) : Bool :=
  args.numSamples.elim false fun numSamples => numSamples ≤ submittedCount

/-- A step of the main thread; `none` while it waits for a future, and after its end.
`parses` tells whether `json.loads` of a line returns. -/
def mainStep (s : GenerateState) : Option GenerateState :=
  match s.phase with
  | .openOutput =>
    some
      { s with
        phase := .openError
        files.output := some (openResultFile (0 < s.skipLines) s.files.output) }
  | .openError =>
    some
      { s with
        phase := .readLine
        files.error := some (openResultFile (0 < s.skipLines) s.files.error)
        nextLine := s.skipLines }
  | .readLine =>
    match lines[s.nextLine]?, args.servers[s.nextServerIndex]? with
    | none, _ => some { s with phase := .drain args.servers 0 }
    | some line, server? =>
      if args.samplesReached s.submittedCount then some { s with phase := .drain args.servers 0 }
      else
        match parses line, server? with
        | true, some server =>
          some
            { s with
              phase := .scan s.nextLine server 0
              nextLine := s.nextLine + 1
              nextServerIndex := (s.nextServerIndex + 1) % args.servers.length }
        | _, _ => some { s with phase := .raised }
  | .scan line server pos =>
    let queue := s.queues server
    if queue.length < args.concurrency then
      some
        { s with
          phase := .readLine
          submittedCount := s.submittedCount + 1
          queues := Function.update s.queues server (queue ++ [⟨line, none⟩]) }
    else
      match queue[pos]? with
      | none => some { s with phase := .scan line server 0 }
      | some ⟨_, none⟩ => some { s with phase := .scan line server (pos + 1) }
      | some ⟨done, some result⟩ =>
        match writeFinishedResult done result s.files s.stats with
        | none => some { s with phase := .raised }
        | some (files, stats) =>
          some
            { s with
              phase := .scan line server 0
              queues := Function.update s.queues server (queue.eraseIdx pos)
              files
              stats }
  | .drain [] _ => some { s with phase := .completed }
  | .drain (server :: servers) pos =>
    match (s.queues server)[pos]? with
    | none => some { s with phase := .drain servers 0 }
    | some ⟨_, none⟩ => none
    | some ⟨done, some result⟩ =>
      match writeFinishedResult done result s.files s.stats with
      | none => some { s with phase := .raised }
      | some (files, stats) =>
        some { s with phase := .drain (server :: servers) (pos + 1), files, stats }
  | .completed | .alreadyProcessed | .raised => none

end GenerateArgs

/-- A pending call ends. -/
def GenerateState.finishCall (s : GenerateState) (server pos : ℕ) (result : CallResult) :
    Option GenerateState :=
  match (s.queues server)[pos]? with
  | some ⟨line, none⟩ =>
    some
      { s with
        queues := Function.update s.queues server
          ((s.queues server).set pos ⟨line, some result⟩) }
  | _ => none

/-- What can happen next: a step of the main thread, or the end of a call. -/
inductive GenerateEvent where
  | main
  | callDone (server pos : ℕ) (result : CallResult)

namespace GenerateArgs
variable (args : GenerateArgs) (lines : List String) (parses : String → Bool)

def stepEvent (s : GenerateState) : GenerateEvent → Option GenerateState
  | .main => args.mainStep lines parses s
  | .callDone server pos result => s.finishCall server pos result

def runEvents (s : GenerateState) (events : List GenerateEvent) : Option GenerateState :=
  events.foldlM (args.stepEvent lines parses) s

end GenerateArgs

/-- What an interrupted run leaves: everything it wrote, when it ends in an exception and closes
its files, and a beginning of each file, when it is killed. -/
inductive LeftBy (s : GenerateState) : ResultFiles → Prop where
  | closed : LeftBy s s.files
  | killed {files : ResultFiles} (output : ResultFiles.Cut s.files.output files.output)
    (error : ResultFiles.Cut s.files.error files.error) : LeftBy s files

/-- A run, interrupted anywhere, and a second one that resumes and comes to its end. -/
structure ResumedJob (lines : List String) (parses : String → Bool) where
  first : GenerateArgs
  initial : ResultFiles
  firstEvents : List GenerateEvent
  interrupted : GenerateState
  firstRun : first.runEvents lines parses (first.start lines initial) firstEvents =
    some interrupted
  left : ResultFiles
  leftBy : LeftBy interrupted left
  second : GenerateArgs
  resume : second.resume = true
  secondEvents : List GenerateEvent
  finished : GenerateState
  secondRun : second.runEvents lines parses (second.start lines left) secondEvents =
    some finished
  ended : finished.phase = .completed ∨ finished.phase = .alreadyProcessed

/-- Every input line has exactly one result in the two files. -/
def RecordedOnce (lines : List String) (files : ResultFiles) : Prop :=
  files.recorded.Perm (List.range lines.length)

end LatentSpec
