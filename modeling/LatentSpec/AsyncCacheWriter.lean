import LatentSpec.TargetCacheWriter

/-! # The asynchronous cache writer

`AsyncTargetCacheWriter` hands its samples over a bounded queue to a thread that writes them.  The
producer and the thread are modelled by a step relation on their shared state; the thread's writer
may raise at any sample and at its close.  The thread publishes a failure in `_exception`, which the
producer reads before every `put`, and not together with it: a sample can still be queued after the
failure became visible (`exists_put_after_exception`), but then `close` raises.
-/
namespace LatentSpec

/-- Where the writer thread stands.  `raised` and `closeRaised` are on the way to the handlers
that set `_exception`. -/
inductive WriterThread where
  | getting
  | writing (sample : TargetCacheSampleBytes)
  | raised
  | closing
  | closeRaised
  | ended

/-- Where the producer stands: outside of a call, in `_put` before and after its check, or in the
`join` of `close`.  An item without a sample is the sentinel. -/
inductive Producer where
  | idle
  | checking (item : Option TargetCacheSampleBytes)
  | putting (item : Option TargetCacheSampleBytes)
  | joining

/-- The producer is in a call of `close` that closes the writer. -/
def Producer.InClose : Producer → Prop
  | .idle => False
  | .checking item | .putting item => item = none
  | .joining => True

/-- How a call of `write_sample` or `close` ends. -/
inductive CallEnd where
  | writeReturned
  | writeRaised
  | closeReturned
  | closeRaised
  deriving DecidableEq

/-- `AsyncTargetCacheWriter`, with the two threads.  `submitted` are the samples that were queued,
and `failed` says that the thread's writer has raised. -/
structure AsyncTargetCacheWriter where
  writer : LocalTargetCacheWriter
  maxQueueSize : ℤ
  queue : List (Option TargetCacheSampleBytes)
  numLocalSamples : ℕ
  closed : Bool
  exception : Bool
  thread : WriterThread
  producer : Producer
  submitted : List TargetCacheSampleBytes
  failed : Bool

namespace AsyncTargetCacheWriter

def init (maxShardBytes maxQueueSize : ℤ) : AsyncTargetCacheWriter where
  writer := .init maxShardBytes
  maxQueueSize
  queue := []
  numLocalSamples := 0
  closed := false
  exception := false
  thread := .getting
  producer := .idle
  submitted := []
  failed := false

/-- `queue.Full`; a size that is not positive is no bound. -/
def Full (s : AsyncTargetCacheWriter) : Prop :=
  0 < s.maxQueueSize ∧ s.maxQueueSize ≤ (s.queue.length : ℤ)

/-- The end of the call that puts the item, when its check raises. -/
def raisedEnd : Option TargetCacheSampleBytes → CallEnd
  | some _ => .writeRaised
  | none => .closeRaised

/-- A step of the thread or of the producer, and the call that ends with it. -/
inductive Step : AsyncTargetCacheWriter → Option CallEnd → AsyncTargetCacheWriter → Prop where
  -- `_run`
  | get {s item queue} : s.thread = .getting → s.queue = item :: queue →
    Step s none { s with queue, thread := item.elim .closing .writing }
  | writeSample {s sample writer} : s.thread = .writing sample →
    s.writer.writeSampleBytes sample = some writer →
    Step s none { s with writer, thread := .getting }
  | writeRaise {s sample} (writer) : s.thread = .writing sample →
    Step s none { s with writer, thread := .raised, failed := true }
  | setException {s} : s.thread = .raised →
    Step s none { s with exception := true, thread := .closing }
  | closeWriter {s} : s.thread = .closing →
    Step s none { s with writer := s.writer.close, thread := .ended }
  | closeRaise {s} (writer) : s.thread = .closing →
    Step s none { s with writer, thread := .closeRaised, failed := true }
  | setCloseException {s} : s.thread = .closeRaised →
    Step s none { s with exception := true, thread := .ended }
  -- `write_sample` and `close`
  | writeBegin {s} (sample : TargetCacheSampleBytes) : s.producer = .idle →
    Step s none
      { s with producer := .checking (some { sample with sampleId := s.numLocalSamples }) }
  | closeBegin {s} : s.producer = .idle → s.closed = false →
    Step s none { s with producer := if s.exception then .joining else .checking none }
  | closeAgain {s} : s.producer = .idle → s.closed = true →
    Step s (some (if s.exception then .closeRaised else .closeReturned)) s
  -- `_put`
  | checkRaise {s item} : s.producer = .checking item → s.exception = true →
    Step s (some (raisedEnd item)) { s with producer := .idle }
  | checkPass {s item} : s.producer = .checking item → s.exception = false →
    Step s none { s with producer := .putting item }
  | putFull {s item} : s.producer = .putting item → s.Full →
    Step s none { s with producer := .checking item }
  | putSample {s sample} : s.producer = .putting (some sample) → ¬ s.Full →
    Step s (some .writeReturned)
      { s with
        queue := s.queue ++ [some sample]
        numLocalSamples := s.numLocalSamples + 1
        submitted := s.submitted ++ [sample]
        producer := .idle }
  | putSentinel {s} : s.producer = .putting none → ¬ s.Full →
    Step s none { s with queue := s.queue ++ [none], producer := .joining }
  -- the end of `close`
  | join {s} : s.producer = .joining → s.thread = .ended →
    Step s
      (some (if s.exception = false ∧ s.writer.numLocalSamples = s.numLocalSamples
        then .closeReturned else .closeRaised))
      { s with closed := true, producer := .idle }

/-- The steps of both threads in any order, and the calls that end. -/
inductive Run : AsyncTargetCacheWriter → List CallEnd → AsyncTargetCacheWriter → Prop where
  | refl (s) : Run s [] s
  | step {s e s' ends s''} : Step s e s' → Run s' ends s'' → Run s (e.toList ++ ends) s''

def Reachable (s : AsyncTargetCacheWriter) : Prop :=
  ∃ maxShardBytes maxQueueSize ends, Run (init maxShardBytes maxQueueSize) ends s

theorem Run.trans {s s' s'' : AsyncTargetCacheWriter} {ends ends' : List CallEnd}
    (h : Run s ends s') (h' : Run s' ends' s'') : Run s (ends ++ ends') s'' := by
  induction h with
  | refl => exact h'
  | step hstep _ ih =>
    rw [List.append_assoc]
    exact .step hstep (ih h')

theorem Run.one {s s' : AsyncTargetCacheWriter} {e : Option CallEnd} (h : Step s e s') :
    Run s e.toList s' := by
  rw [← List.append_nil e.toList]
  exact .step h (.refl s')

/-! ### The invariant -/

/-- The sentinel stands behind the samples once `close` waits for the thread. -/
def sentinelQueued : Producer → List (Option TargetCacheSampleBytes)
  | .joining => [none]
  | _ => []

structure Healthy (s : AsyncTargetCacheWriter) : Prop where
  failed_eq : s.failed = false
  exception_eq : s.exception = false
  ok : s.writer.Ok

/-- The failure is visible. -/
structure Broken (s : AsyncTargetCacheWriter) : Prop where
  failed_eq : s.failed = true
  exception_eq : s.exception = true

/-- Every submitted sample is written, in the thread's hands or queued, in this order. -/
def Flows (s : AsyncTargetCacheWriter) (inHand : List TargetCacheSampleBytes) : Prop :=
  ∃ written pending records, s.writer.Holds written records ∧
    s.submitted = written ++ (inHand ++ pending) ∧
    s.queue = pending.map some ++ sentinelQueued s.producer

/-- Every submitted sample is written, and `close` waits for the thread. -/
def Written (s : AsyncTargetCacheWriter) : Prop :=
  s.producer = .joining ∧ ∃ records, s.writer.Holds s.submitted records

def ThreadInv (s : AsyncTargetCacheWriter) : WriterThread → Prop
  | .getting => s.Healthy ∧ s.closed = false ∧ s.Flows []
  | .writing sample => s.Healthy ∧ s.closed = false ∧ s.Flows [sample]
  | .raised => s.failed = true ∧ s.exception = false ∧ s.closed = false
  | .closing => s.closed = false ∧ (s.Broken ∨ s.Healthy ∧ s.Written)
  | .closeRaised => s.failed = true ∧ s.closed = false
  | .ended => s.Broken ∨ s.Healthy ∧ (s.closed = true ∨ s.Written)

structure Inv (s : AsyncTargetCacheWriter) : Prop where
  count : s.numLocalSamples = s.submitted.length
  ids : s.submitted.map TargetCacheSampleBytes.sampleId = List.range s.submitted.length
  nextId : ∀ sample, s.producer = .checking (some sample) ∨ s.producer = .putting (some sample) →
    sample.sampleId = s.numLocalSamples
  inClose : s.producer.InClose → s.closed = false
  thread : s.ThreadInv s.thread

theorem inv_init (maxShardBytes maxQueueSize : ℤ) : (init maxShardBytes maxQueueSize).Inv where
  count := rfl
  ids := rfl
  nextId := fun _ h => by rcases h with h | h <;> cases h
  inClose := fun h => by cases h
  thread := ⟨⟨rfl, rfl, LocalTargetCacheWriter.init_ok _⟩, rfl, [], [], [],
    LocalTargetCacheWriter.init_holds _, rfl, rfl⟩

/-- The producer moves outside of the `join`. -/
theorem ThreadInv.move {s : AsyncTargetCacheWriter} {thread : WriterThread}
    (h : s.ThreadInv thread) {producer : Producer} (hold : s.producer ≠ .joining)
    (hnew : producer ≠ .joining) : { s with producer }.ThreadInv thread := by
  have hsentinel : sentinelQueued producer = sentinelQueued s.producer := by
    cases producer <;> cases hs : s.producer <;> first | rfl | contradiction
  have hflows : ∀ inHand, s.Flows inHand → { s with producer }.Flows inHand := by
    rintro inHand ⟨written, pending, records, hholds, hsubmitted, hqueue⟩
    exact ⟨written, pending, records, hholds, hsubmitted, by rw [hqueue, hsentinel]⟩
  cases thread with
  | getting => exact ⟨⟨h.1.1, h.1.2, h.1.3⟩, h.2.1, hflows _ h.2.2⟩
  | writing sample => exact ⟨⟨h.1.1, h.1.2, h.1.3⟩, h.2.1, hflows _ h.2.2⟩
  | raised => exact h
  | closing =>
    rcases h with ⟨hclosed, hbroken | ⟨-, hwritten, -⟩⟩
    · exact ⟨hclosed, .inl ⟨hbroken.1, hbroken.2⟩⟩
    · exact absurd hwritten hold
  | closeRaised => exact h
  | ended =>
    rcases h with hbroken | ⟨hhealthy, hclosed | ⟨hwritten, -⟩⟩
    · exact .inl ⟨hbroken.1, hbroken.2⟩
    · exact .inr ⟨⟨hhealthy.1, hhealthy.2, hhealthy.3⟩, .inl hclosed⟩
    · exact absurd hwritten hold

/-- Once the failure is visible, nothing depends on where the producer stands. -/
theorem ThreadInv.move_broken {s : AsyncTargetCacheWriter} {thread : WriterThread}
    (h : s.ThreadInv thread) (hexception : s.exception = true) (producer : Producer) :
    { s with producer }.ThreadInv thread := by
  have hhealthy : ¬ s.Healthy := by
    intro hhealthy
    rw [hhealthy.exception_eq] at hexception
    cases hexception
  cases thread with
  | getting => exact absurd h.1 hhealthy
  | writing sample => exact absurd h.1 hhealthy
  | raised => exact h
  | closing =>
    rcases h with ⟨hclosed, hbroken | ⟨hok, -⟩⟩
    · exact ⟨hclosed, .inl ⟨hbroken.1, hbroken.2⟩⟩
    · exact absurd hok hhealthy
  | closeRaised => exact h
  | ended =>
    rcases h with hbroken | ⟨hok, -⟩
    · exact .inl ⟨hbroken.1, hbroken.2⟩
    · exact absurd hok hhealthy

/-- The thread's steps keep its part of the invariant. -/
theorem Inv.get {s : AsyncTargetCacheWriter} (h : s.Inv) {item : Option TargetCacheSampleBytes}
    {queue : List (Option TargetCacheSampleBytes)} (hthread : s.thread = .getting)
    (hqueue : s.queue = item :: queue) :
    { s with queue, thread := item.elim .closing .writing }.Inv := by
  refine ⟨h.count, h.ids, h.nextId, h.inClose, ?_⟩
  have hinv := h.thread
  rw [hthread] at hinv
  obtain ⟨hhealthy, hclosed, written, pending, records, hholds, hsubmitted, hflow⟩ := hinv
  rw [hqueue] at hflow
  cases pending with
  | nil =>
    -- only the sentinel is left
    cases hproducer : s.producer with
    | joining =>
      rw [hproducer] at hflow
      cases hflow
      refine ⟨hclosed, .inr ⟨⟨hhealthy.1, hhealthy.2, hhealthy.3⟩, rfl, records, ?_⟩⟩
      rw [hsubmitted, List.append_nil, List.append_nil]
      exact hholds
    | idle => rw [hproducer] at hflow; cases hflow
    | checking => rw [hproducer] at hflow; cases hflow
    | putting => rw [hproducer] at hflow; cases hflow
  | cons sample pending =>
    rw [List.map_cons, List.cons_append] at hflow
    injection hflow with hitem hrest
    subst hitem
    exact ⟨⟨hhealthy.1, hhealthy.2, hhealthy.3⟩, hclosed, written, pending, records, hholds,
      hsubmitted, hrest⟩

theorem Inv.writeSample {s : AsyncTargetCacheWriter} (h : s.Inv)
    {sample : TargetCacheSampleBytes} {writer : LocalTargetCacheWriter}
    (hthread : s.thread = .writing sample)
    (hwrite : s.writer.writeSampleBytes sample = some writer) :
    { s with writer, thread := .getting }.Inv := by
  refine ⟨h.count, h.ids, h.nextId, h.inClose, ?_⟩
  have hinv := h.thread
  rw [hthread] at hinv
  obtain ⟨hhealthy, hclosed, written, pending, records, hholds, hsubmitted, hflow⟩ := hinv
  obtain ⟨hok, record, hholds'⟩ :=
    LocalTargetCacheWriter.writeSampleBytes_holds hhealthy.ok hholds hwrite
  refine ⟨⟨hhealthy.1, hhealthy.2, hok⟩, hclosed, written ++ [sample], pending, _, hholds', ?_,
    hflow⟩
  rw [hsubmitted, List.append_assoc]
  rfl

/-- The thread's writer has raised, or the handlers have seen it. -/
theorem Inv.of_failed {s : AsyncTargetCacheWriter} (h : s.Inv) (writer : LocalTargetCacheWriter)
    {exception : Bool} {thread : WriterThread}
    (hthread : { s with writer, exception, thread, failed := true }.ThreadInv thread) :
    { s with writer, exception, thread, failed := true }.Inv :=
  ⟨h.count, h.ids, h.nextId, h.inClose, hthread⟩

theorem Inv.closeWriter {s : AsyncTargetCacheWriter} (h : s.Inv) (hthread : s.thread = .closing) :
    { s with writer := s.writer.close, thread := .ended }.Inv := by
  refine ⟨h.count, h.ids, h.nextId, h.inClose, ?_⟩
  have hinv := h.thread
  rw [hthread] at hinv
  rcases hinv with ⟨-, hbroken | ⟨hhealthy, hjoining, records, hholds⟩⟩
  · exact .inl ⟨hbroken.1, hbroken.2⟩
  · refine .inr ⟨⟨hhealthy.1, hhealthy.2, hhealthy.ok.named, fun hopen => by cases hopen⟩,
      .inr ⟨hjoining, records, hholds.1, hholds.2, hholds.3⟩⟩

theorem Inv.putSample {s : AsyncTargetCacheWriter} (h : s.Inv) {sample : TargetCacheSampleBytes}
    (hputting : s.producer = .putting (some sample)) :
    { s with
      queue := s.queue ++ [some sample]
      numLocalSamples := s.numLocalSamples + 1
      submitted := s.submitted ++ [sample]
      producer := .idle }.Inv := by
  have hid := h.nextId sample (.inr hputting)
  refine ⟨?_, ?_, fun _ hp => hp.elim nofun nofun, False.elim, ?_⟩
  · exact (congrArg (· + 1) h.count).trans (@List.length_append _ s.submitted [sample]).symm
  · dsimp only
    rw [List.map_append, h.ids, List.length_append, List.length_singleton, List.range_succ,
      List.map_singleton, hid, h.count]
  · have hinv := h.thread
    have hsentinel : sentinelQueued s.producer = [] := by rw [hputting]; rfl
    -- what is in the queue has the new sample behind it
    have hflows : ∀ inHand, s.Flows inHand →
        { s with
          queue := s.queue ++ [some sample]
          numLocalSamples := s.numLocalSamples + 1
          submitted := s.submitted ++ [sample]
          producer := .idle }.Flows inHand := by
      rintro inHand ⟨written, pending, records, hholds, hsubmitted, hqueue⟩
      refine ⟨written, pending ++ [sample], records, hholds, ?_, ?_⟩
      · dsimp only
        rw [hsubmitted, List.append_assoc, List.append_assoc]
      · dsimp only
        rw [hqueue, hsentinel, List.append_nil, List.map_append]
        exact (List.append_nil _).symm
    dsimp only
    cases hthread : s.thread with
    | getting =>
      rw [hthread] at hinv
      exact ⟨⟨hinv.1.1, hinv.1.2, hinv.1.3⟩, hinv.2.1, hflows _ hinv.2.2⟩
    | writing sample =>
      rw [hthread] at hinv
      exact ⟨⟨hinv.1.1, hinv.1.2, hinv.1.3⟩, hinv.2.1, hflows _ hinv.2.2⟩
    | raised =>
      rw [hthread] at hinv
      exact hinv
    | closing =>
      rw [hthread] at hinv
      rcases hinv with ⟨hclosed, hbroken | ⟨-, hwritten, -⟩⟩
      · exact ⟨hclosed, .inl ⟨hbroken.1, hbroken.2⟩⟩
      · rw [hputting] at hwritten
        cases hwritten
    | closeRaised =>
      rw [hthread] at hinv
      exact hinv
    | ended =>
      rw [hthread] at hinv
      rcases hinv with hbroken | ⟨hhealthy, hclosed | ⟨hwritten, -⟩⟩
      · exact .inl ⟨hbroken.1, hbroken.2⟩
      · exact .inr ⟨⟨hhealthy.1, hhealthy.2, hhealthy.3⟩, .inl hclosed⟩
      · rw [hputting] at hwritten
        cases hwritten

theorem Inv.putSentinel {s : AsyncTargetCacheWriter} (h : s.Inv)
    (hputting : s.producer = .putting none) :
    { s with queue := s.queue ++ [none], producer := .joining }.Inv := by
  have hopen : s.closed = false := h.inClose (by rw [hputting]; rfl)
  refine ⟨h.count, h.ids, fun _ hp => hp.elim nofun nofun, fun _ => hopen, ?_⟩
  have hinv := h.thread
  have hsentinel : sentinelQueued s.producer = [] := by rw [hputting]; rfl
  have hflows : ∀ inHand, s.Flows inHand →
      { s with queue := s.queue ++ [none], producer := .joining }.Flows inHand := by
    rintro inHand ⟨written, pending, records, hholds, hsubmitted, hqueue⟩
    refine ⟨written, pending, records, hholds, hsubmitted, ?_⟩
    dsimp only
    rw [hqueue, hsentinel, List.append_nil]
    rfl
  dsimp only
  cases hthread : s.thread with
  | getting =>
    rw [hthread] at hinv
    exact ⟨⟨hinv.1.1, hinv.1.2, hinv.1.3⟩, hinv.2.1, hflows _ hinv.2.2⟩
  | writing sample =>
    rw [hthread] at hinv
    exact ⟨⟨hinv.1.1, hinv.1.2, hinv.1.3⟩, hinv.2.1, hflows _ hinv.2.2⟩
  | raised =>
    rw [hthread] at hinv
    exact hinv
  | closing =>
    rw [hthread] at hinv
    rcases hinv with ⟨hclosed, hbroken | ⟨-, hwritten, -⟩⟩
    · exact ⟨hclosed, .inl ⟨hbroken.1, hbroken.2⟩⟩
    · rw [hputting] at hwritten
      cases hwritten
  | closeRaised =>
    rw [hthread] at hinv
    exact hinv
  | ended =>
    rw [hthread] at hinv
    rcases hinv with hbroken | ⟨hhealthy, hclosed | ⟨hwritten, -⟩⟩
    · exact .inl ⟨hbroken.1, hbroken.2⟩
    · rw [hopen] at hclosed
      cases hclosed
    · rw [hputting] at hwritten
      cases hwritten

theorem Inv.join {s : AsyncTargetCacheWriter} (h : s.Inv) (hended : s.thread = .ended) :
    { s with closed := true, producer := .idle }.Inv := by
  refine ⟨h.count, h.ids, fun _ hp => hp.elim nofun nofun,
    False.elim, ?_⟩
  have hinv := h.thread
  rw [hended] at hinv
  dsimp only
  rw [hended]
  rcases hinv with hbroken | ⟨hhealthy, -⟩
  · exact .inl ⟨hbroken.1, hbroken.2⟩
  · exact .inr ⟨⟨hhealthy.1, hhealthy.2, hhealthy.3⟩, .inl rfl⟩

/-- Every step of either thread keeps the invariant. -/
theorem Inv.step {s s' : AsyncTargetCacheWriter} {e : Option CallEnd} (h : s.Inv)
    (hstep : Step s e s') : s'.Inv := by
  cases hstep with
  | get hthread hqueue => exact h.get hthread hqueue
  | writeSample hthread hwrite => exact h.writeSample hthread hwrite
  | writeRaise writer hthread =>
    have hinv := h.thread
    rw [hthread] at hinv
    exact h.of_failed writer ⟨rfl, hinv.1.exception_eq, hinv.2.1⟩
  | setException hthread =>
    have hinv := h.thread
    rw [hthread] at hinv
    exact ⟨h.count, h.ids, h.nextId, h.inClose, hinv.2.2, .inl ⟨hinv.1, rfl⟩⟩
  | closeWriter hthread => exact h.closeWriter hthread
  | closeRaise writer hthread =>
    have hinv := h.thread
    rw [hthread] at hinv
    exact h.of_failed writer ⟨rfl, hinv.1⟩
  | setCloseException hthread =>
    have hinv := h.thread
    rw [hthread] at hinv
    exact ⟨h.count, h.ids, h.nextId, h.inClose, .inl ⟨hinv.1, rfl⟩⟩
  | writeBegin sample hidle =>
    refine ⟨h.count, h.ids, ?_, nofun, h.thread.move (by simp [hidle]) nofun⟩
    rintro next (hp | hp)
    · cases hp
      rfl
    · cases hp
  | closeBegin hidle hclosed =>
    refine ⟨h.count, h.ids, fun sample hp => ?_, fun _ => hclosed, ?_⟩
    · dsimp only at hp
      split at hp <;> rcases hp with hp | hp <;> cases hp
    · by_cases hexception : s.exception = true
      · exact h.thread.move_broken hexception _
      · refine h.thread.move (by simp [hidle]) ?_
        rw [if_neg hexception]
        exact nofun
  | closeAgain hidle hclosed => exact h
  | checkRaise hchecking hexception =>
    exact ⟨h.count, h.ids, fun _ hp => hp.elim nofun nofun,
      False.elim, h.thread.move (by simp [hchecking]) nofun⟩
  | checkPass hchecking hexception =>
    refine ⟨h.count, h.ids, ?_, fun hp => h.inClose (by rw [hchecking]; exact hp),
      h.thread.move (by simp [hchecking]) nofun⟩
    rintro sample (hp | hp)
    · cases hp
    · cases hp
      exact h.nextId sample (.inl hchecking)
  | putFull hputting hfull =>
    refine ⟨h.count, h.ids, ?_, fun hp => h.inClose (by rw [hputting]; exact hp),
      h.thread.move (by simp [hputting]) nofun⟩
    rintro sample (hp | hp)
    · cases hp
      exact h.nextId sample (.inr hputting)
    · cases hp
  | putSample hputting hroom => exact h.putSample hputting
  | putSentinel hputting hroom => exact h.putSentinel hputting
  | join hjoining hended => exact h.join hended

theorem Inv.run {s s' : AsyncTargetCacheWriter} {ends : List CallEnd} (h : s.Inv)
    (hrun : Run s ends s') : s'.Inv := by
  induction hrun with
  | refl => exact h
  | step hstep _ ih => exact ih (h.step hstep)

theorem Reachable.inv {s : AsyncTargetCacheWriter} (h : Reachable s) : s.Inv := by
  obtain ⟨maxShardBytes, maxQueueSize, ends, hrun⟩ := h
  exact (inv_init maxShardBytes maxQueueSize).run hrun

/-! ### When `close` returns -/

/-- The writer holds the submitted samples, in their order, with the ids from `0` on. -/
def HoldsSubmitted (s : AsyncTargetCacheWriter) : Prop :=
  ∃ records, s.writer.Holds s.submitted records ∧
    records.map IndexRecord.sampleId = List.range s.submitted.length

theorem Inv.holdsSubmitted {s : AsyncTargetCacheWriter} (h : s.Inv) {records : List IndexRecord}
    (hholds : s.writer.Holds s.submitted records) : s.HoldsSubmitted := by
  refine ⟨records, hholds, ?_⟩
  rw [← h.ids, hholds.map_sampleId]

/-- A closed writer has an ended thread. -/
theorem Inv.ended_of_closed {s : AsyncTargetCacheWriter} (h : s.Inv) (hclosed : s.closed = true) :
    s.thread = .ended := by
  have hinv := h.thread
  cases hthread : s.thread with
  | ended => rfl
  | getting =>
    rw [hthread] at hinv
    rw [hinv.2.1] at hclosed
    cases hclosed
  | writing sample =>
    rw [hthread] at hinv
    rw [hinv.2.1] at hclosed
    cases hclosed
  | raised =>
    rw [hthread] at hinv
    rw [hinv.2.2] at hclosed
    cases hclosed
  | closing =>
    rw [hthread] at hinv
    rw [hinv.1] at hclosed
    cases hclosed
  | closeRaised =>
    rw [hthread] at hinv
    rw [hinv.2] at hclosed
    cases hclosed

/-- After a failure, the flag is set by the time the thread has ended. -/
theorem Inv.exception_of_failed {s : AsyncTargetCacheWriter} (h : s.Inv) (hfailed : s.failed = true)
    (hended : s.thread = .ended) : s.exception = true := by
  have hinv := h.thread
  rw [hended] at hinv
  rcases hinv with hbroken | ⟨hhealthy, -⟩
  · exact hbroken.exception_eq
  · rw [hhealthy.failed_eq] at hfailed
    cases hfailed

theorem Inv.closeReturned {s s' : AsyncTargetCacheWriter} (h : s.Inv) (hopen : s.closed = false)
    (hstep : Step s (some .closeReturned) s') : s'.HoldsSubmitted := by
  have h' := h.step hstep
  generalize hend : some CallEnd.closeReturned = e at hstep
  cases hstep with
  | closeAgain hidle hclosed =>
    rw [hclosed] at hopen
    cases hopen
  | @checkRaise item hchecking hexception => cases item <;> cases hend
  | putSample => cases hend
  | join hjoining hended =>
    have hinv := h.thread
    rw [hended] at hinv
    rcases hinv with hbroken | ⟨-, hclosed | ⟨-, records, hholds⟩⟩
    · rw [if_neg (by simp [hbroken.exception_eq])] at hend
      cases hend
    · rw [hclosed] at hopen
      cases hopen
    · exact h'.holdsSubmitted hholds
  | _ => cases hend

theorem Step.failed {s s' : AsyncTargetCacheWriter} {e : Option CallEnd} (hstep : Step s e s')
    (hfailed : s.failed = true) : s'.failed = true := by
  cases hstep <;> first | exact hfailed | rfl

theorem Inv.not_closeReturned {s s' : AsyncTargetCacheWriter} {e : Option CallEnd} (h : s.Inv)
    (hfailed : s.failed = true) (hstep : Step s e s') : e ≠ some .closeReturned := by
  rintro rfl
  generalize hend : some CallEnd.closeReturned = e at hstep
  cases hstep with
  | closeAgain hidle hclosed =>
    rw [h.exception_of_failed hfailed (h.ended_of_closed hclosed)] at hend
    cases hend
  | @checkRaise item hchecking hexception => cases item <;> cases hend
  | join hjoining hended =>
    rw [if_neg (by simp [h.exception_of_failed hfailed hended])] at hend
    cases hend
  | _ => cases hend

/-- Once the thread has failed, no `close` returns. -/
theorem Inv.run_not_closeReturned {s s' : AsyncTargetCacheWriter} {ends : List CallEnd}
    (h : s.Inv) (hfailed : s.failed = true) (hrun : Run s ends s') :
    CallEnd.closeReturned ∉ ends := by
  induction hrun with
  | refl => exact List.not_mem_nil
  | @step s e s' ends s'' hstep _ ih =>
    intro hmem
    rcases List.mem_append.mp hmem with hmem | hmem
    · exact h.not_closeReturned hfailed hstep (Option.mem_toList.mp hmem)
    · exact ih (h.step hstep) (hstep.failed hfailed) hmem

/-- The flag is set, and the call in progress, if any, has yet to check it. -/
structure Blocked (s : AsyncTargetCacheWriter) : Prop where
  exception_eq : s.exception = true
  not_putting : ∀ item, s.producer ≠ .putting item

theorem Blocked.step {s s' : AsyncTargetCacheWriter} {e : Option CallEnd} (h : s.Blocked)
    (hstep : Step s e s') : s'.Blocked ∧ e ≠ some .writeReturned := by
  cases hstep with
  | setException => exact ⟨⟨rfl, h.not_putting⟩, nofun⟩
  | setCloseException => exact ⟨⟨rfl, h.not_putting⟩, nofun⟩
  | writeBegin => exact ⟨⟨h.exception_eq, nofun⟩, nofun⟩
  | closeBegin =>
    refine ⟨⟨h.exception_eq, fun item => ?_⟩, nofun⟩
    rw [h.exception_eq]
    exact nofun
  | closeAgain =>
    refine ⟨h, ?_⟩
    rw [h.exception_eq]
    exact nofun
  | @checkRaise item =>
    refine ⟨⟨h.exception_eq, nofun⟩, ?_⟩
    cases item <;> exact nofun
  | checkPass _ hexception =>
    rw [h.exception_eq] at hexception
    cases hexception
  | putFull hputting => exact absurd hputting (h.not_putting _)
  | putSample hputting => exact absurd hputting (h.not_putting _)
  | putSentinel hputting => exact absurd hputting (h.not_putting _)
  | join =>
    refine ⟨⟨h.exception_eq, nofun⟩, ?_⟩
    rw [if_neg (by simp [h.exception_eq])]
    exact nofun
  | _ => exact ⟨⟨h.exception_eq, h.not_putting⟩, nofun⟩

/-- Once the failure is visible to the check, no `write_sample` returns. -/
theorem Blocked.run {s s' : AsyncTargetCacheWriter} {ends : List CallEnd} (h : s.Blocked)
    (hrun : Run s ends s') : CallEnd.writeReturned ∉ ends := by
  induction hrun with
  | refl => exact List.not_mem_nil
  | step hstep _ ih =>
    obtain ⟨hblocked, hend⟩ := h.step hstep
    intro hmem
    rcases List.mem_append.mp hmem with hmem | hmem
    · exact hend (Option.mem_toList.mp hmem)
    · exact ih hblocked hmem

/-! ### `close` ends -/

/-- The steps the thread has left for what it has in hand. -/
def work (s : AsyncTargetCacheWriter) : ℕ :=
  5 * s.queue.length + match s.thread with
    | .getting | .ended => 0
    | .writing _ => 4
    | .raised => 3
    | .closing => 2
    | .closeRaised => 1

/-- The thread has nothing to do, or is gone. -/
def Settled (s : AsyncTargetCacheWriter) : Prop :=
  s.thread = .ended ∨ s.thread = .getting ∧ s.queue = []

/-- Left alone, the thread settles, and the producer stays where it is. -/
theorem exists_settled (s : AsyncTargetCacheWriter) :
    ∃ s', Run s [] s' ∧ s'.Settled ∧ s'.producer = s.producer ∧ s'.closed = s.closed := by
  induction hwork : s.work using Nat.strong_induction_on generalizing s with
  | _ n ih =>
    -- a step of the thread that leaves less work
    have hnext : ∀ s₁, Step s none s₁ → s₁.work < s.work → s₁.producer = s.producer →
        s₁.closed = s.closed →
        ∃ s', Run s [] s' ∧ s'.Settled ∧ s'.producer = s.producer ∧ s'.closed = s.closed := by
      intro s₁ hstep hless hproducer hclosed
      obtain ⟨s', hrun, hsettled, hproducer', hclosed'⟩ := ih _ (hwork ▸ hless) s₁ rfl
      exact ⟨s', .step hstep hrun, hsettled, hproducer'.trans hproducer, hclosed'.trans hclosed⟩
    cases hthread : s.thread with
    | getting =>
      cases hqueue : s.queue with
      | nil => exact ⟨s, .refl s, .inr ⟨hthread, hqueue⟩, rfl, rfl⟩
      | cons item queue =>
        refine hnext _ (.get hthread hqueue) ?_ rfl rfl
        simp only [work, hthread, hqueue, List.length_cons]
        cases item <;> simp only [Option.elim] <;> omega
    | writing sample =>
      cases hwrite : s.writer.writeSampleBytes sample with
      | some writer =>
        refine hnext _ (.writeSample hthread hwrite) ?_ rfl rfl
        simp only [work, hthread]
        omega
      | none =>
        refine hnext _ (.writeRaise s.writer hthread) ?_ rfl rfl
        simp only [work, hthread]
        omega
    | raised =>
      refine hnext _ (.setException hthread) ?_ rfl rfl
      simp only [work, hthread]
      omega
    | closing =>
      refine hnext _ (.closeWriter hthread) ?_ rfl rfl
      simp only [work, hthread]
      omega
    | closeRaised =>
      refine hnext _ (.setCloseException hthread) ?_ rfl rfl
      simp only [work, hthread]
      omega
    | ended => exact ⟨s, .refl s, .inl hthread, rfl, rfl⟩

/-- A `close` can come to its end. -/
def CloseEnds (s : AsyncTargetCacheWriter) : Prop :=
  ∃ ends s', Run s ends s' ∧ (CallEnd.closeReturned ∈ ends ∨ CallEnd.closeRaised ∈ ends)

theorem CloseEnds.of_run {s s' : AsyncTargetCacheWriter} {ends : List CallEnd}
    (hrun : Run s ends s') (h : s'.CloseEnds) : s.CloseEnds := by
  obtain ⟨ends', s'', hrun', hend⟩ := h
  refine ⟨ends ++ ends', s'', hrun.trans hrun', ?_⟩
  exact hend.imp (List.mem_append_right _) (List.mem_append_right _)

/-- The `join` ends once the thread has settled: the sentinel cannot be left in the queue. -/
theorem Inv.closeEnds_joining {s : AsyncTargetCacheWriter} (h : s.Inv)
    (hjoining : s.producer = .joining) : s.CloseEnds := by
  obtain ⟨s', hrun, hsettled, hproducer, -⟩ := exists_settled s
  have h' := h.run hrun
  have hjoining' := hproducer.trans hjoining
  refine .of_run hrun ?_
  rcases hsettled with hended | ⟨hgetting, hqueue⟩
  · refine ⟨_, _, .one (.join hjoining' hended), ?_⟩
    split
    · exact .inl List.mem_cons_self
    · exact .inr List.mem_cons_self
  · have hinv := h'.thread
    rw [hgetting] at hinv
    obtain ⟨-, -, written, pending, records, -, -, hflow⟩ := hinv
    rw [hqueue, hjoining'] at hflow
    simp [sentinelQueued] at hflow

/-- The check of the sentinel passes unless the failure is visible, and then `close` raises. -/
theorem closeEnds_checking {s : AsyncTargetCacheWriter} (hchecking : s.producer = .checking none)
    (hexception : s.exception = true) : s.CloseEnds :=
  ⟨_, _, .one (.checkRaise hchecking hexception), .inr List.mem_cons_self⟩

theorem Inv.closeEnds_putting {s : AsyncTargetCacheWriter} (h : s.Inv) (hsettled : s.Settled)
    (hputting : s.producer = .putting none) : s.CloseEnds := by
  by_cases hfull : s.Full
  · -- a full queue that nobody empties: the thread has failed
    have hended : s.thread = .ended := by
      rcases hsettled with hended | ⟨-, hqueue⟩
      · exact hended
      · obtain ⟨hpos, hle⟩ := hfull
        rw [hqueue] at hle
        exact absurd hle (not_le.mpr hpos)
    have hexception : s.exception = true := by
      have hinv := h.thread
      rw [hended] at hinv
      rcases hinv with hbroken | ⟨-, hclosed | ⟨hjoining, -⟩⟩
      · exact hbroken.exception_eq
      · have hopen : s.closed = false := h.inClose (by rw [hputting]; rfl)
        rw [hopen] at hclosed
        cases hclosed
      · rw [hputting] at hjoining
        cases hjoining
    exact .of_run (.one (.putFull hputting hfull)) (closeEnds_checking rfl hexception)
  · have hstep := Step.putSentinel hputting hfull
    exact .of_run (.one hstep) ((h.step hstep).closeEnds_joining rfl)

/-- From wherever a `close` has got to, it can end. -/
theorem Inv.closeEnds {s : AsyncTargetCacheWriter} (h : s.Inv) (hclose : s.producer.InClose) :
    s.CloseEnds := by
  obtain ⟨s', hrun, hsettled, hproducer, -⟩ := exists_settled s
  have h' := h.run hrun
  refine .of_run hrun ?_
  rw [← hproducer] at hclose
  cases hphase : s'.producer with
  | idle =>
    rw [hphase] at hclose
    cases hclose
  | joining => exact h'.closeEnds_joining hphase
  | putting item =>
    rw [hphase] at hclose
    cases hclose
    exact h'.closeEnds_putting hsettled hphase
  | checking item =>
    rw [hphase] at hclose
    cases hclose
    cases hexception : s'.exception with
    | true => exact closeEnds_checking hphase hexception
    | false =>
      have hstep := Step.checkPass hphase hexception
      exact .of_run (.one hstep) ((h'.step hstep).closeEnds_putting hsettled rfl)

/-- **Nothing is lost silently.**  A `close` that returns leaves every submitted sample in the
index, in order; from everywhere in a `close` it can end; once the thread has failed no `close`
returns; and once the failure is visible no `write_sample` returns that has yet to check it. -/
theorem loses_nothing {s : AsyncTargetCacheWriter} (h : Reachable s) :
    (∀ s', s.closed = false → Step s (some .closeReturned) s' → s'.HoldsSubmitted) ∧
      (s.producer.InClose → s.CloseEnds) ∧
      (s.failed = true → ∀ ends s', Run s ends s' → CallEnd.closeReturned ∉ ends) ∧
      (s.exception = true → (∀ item, s.producer ≠ .putting item) →
        ∀ ends s', Run s ends s' → CallEnd.writeReturned ∉ ends) := by
  have hinv := h.inv
  refine ⟨fun s' hopen hstep => hinv.closeReturned hopen hstep, hinv.closeEnds, ?_, ?_⟩
  · intro hfailed ends s' hrun
    exact hinv.run_not_closeReturned hfailed hrun
  · intro hexception hputting ends s' hrun
    exact Blocked.run ⟨hexception, hputting⟩ hrun

/-- A sample that is written before the `close` returns; and a `close` that waits for the thread
after the first of two samples has failed, the second one queued behind the failure. -/
theorem loses_nothing_samples :
    (∃ s s', Reachable s ∧ s.closed = false ∧ s.submitted.length = 1 ∧
      Step s (some .closeReturned) s' ∧ s'.HoldsSubmitted) ∧
    ∃ s, Reachable s ∧ s.submitted.length = 2 ∧ s.failed = true ∧ s.exception = true ∧
      s.producer = .joining ∧ s.CloseEnds ∧
      (∀ ends s', Run s ends s' → CallEnd.closeReturned ∉ ends) ∧
      ∀ ends s', Run s ends s' → CallEnd.writeReturned ∉ ends := by
  let sample : TargetCacheSampleBytes := ⟨0, 1, [7, 0, 0, 0], [1], [1], [0, 0], [0, 0]⟩
  have taken : Run (init 1024 4) [.writeReturned] _ :=
    .step (.writeBegin sample rfl) <| .step (.checkPass rfl rfl) <|
      .step (.putSample rfl (by simp [Full, init])) <| .step (.get rfl rfl) (.refl _)
  refine ⟨?_, ?_⟩
  · have written : Run (init 1024 4) _ _ := taken.trans <| .step (.writeSample rfl rfl) <|
      .step (.closeBegin rfl rfl) <| .step (.checkPass rfl rfl) <|
      .step (.putSentinel rfl (by simp [Full, init])) <| .step (.get rfl rfl) <|
      .step (.closeWriter rfl) (.refl _)
    have hreach : Reachable _ := ⟨1024, 4, _, written⟩
    obtain ⟨hclose, -⟩ := loses_nothing hreach
    exact ⟨_, _, hreach, rfl, rfl, .join rfl rfl, hclose _ rfl (.join rfl rfl)⟩
  · have failed : Run (init 1024 4) _ _ := taken.trans <|
      .step (.writeRaise (.init 1024) rfl) <| .step (.writeBegin sample rfl) <|
      .step (.checkPass rfl rfl) <| .step (.setException rfl) <|
      .step (.putSample rfl (by simp [Full, init])) <| .step (.closeBegin rfl rfl) (.refl _)
    have hreach : Reachable _ := ⟨1024, 4, _, failed⟩
    obtain ⟨-, hends, hclose, hwrite⟩ := loses_nothing hreach
    exact ⟨_, hreach, rfl, rfl, rfl, rfl, hends trivial, hclose rfl, hwrite rfl nofun⟩

/-- A call of `write_sample` that begins after the thread's writer has raised checks the flag, the
handler sets it, and then the sample is queued: the call returns, and the sample is not written. -/
theorem exists_put_after_exception :
    ∃ s₁ s₂ s₃, Reachable s₁ ∧ s₁.failed = true ∧ s₁.producer = .idle ∧ Run s₁ [] s₂ ∧
      s₂.exception = true ∧ Step s₂ (some .writeReturned) s₃ ∧
      s₃.writer.numLocalSamples < s₃.submitted.length := by
  let sample : TargetCacheSampleBytes := ⟨0, 1, [7, 0, 0, 0], [1], [1], [0, 0], [0, 0]⟩
  have first : Run (init 1024 4) [.writeReturned] _ :=
    .step (.writeBegin sample rfl) <| .step (.checkPass rfl rfl) <|
      .step (.putSample rfl (by simp [Full, init])) <| .step (.get rfl rfl) <|
        .step (.writeRaise (.init 1024) rfl) (.refl _)
  exact ⟨_, _, _, ⟨1024, 4, _, first⟩, rfl, rfl,
    .step (.writeBegin sample rfl) <| .step (.checkPass rfl rfl) <|
      .step (.setException rfl) (.refl _), rfl, .putSample rfl (by simp [Full, init]),
    by simp [init, LocalTargetCacheWriter.init]⟩

end AsyncTargetCacheWriter
end LatentSpec
