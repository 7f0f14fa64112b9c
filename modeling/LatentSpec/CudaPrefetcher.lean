import Mathlib.Data.List.Induction
import LatentSpec.OrderedDict

/-! # The CUDA prefetcher

`CUDAPrefetcher` fetches the next batch in a thread while the caller computes with the current one.
The thread and the caller share `_gpu_batch` and `_done`; an exception ends the thread and is
recorded in neither.  The first fetch runs in the caller, where an exception is raised as it is.
So the prefetcher is a faithful iterator exactly of those dataloaders that do not fail in the
thread (`prefetcher_faithful_iff`).
-/
namespace LatentSpec

/-- What a call of `__iter__` or `__next__` raises. -/
inductive PrefetchError (ε : Type*) where
  | stopIteration
  | keyError (key : String)
  | attributeError
  | raised (e : ε)
  deriving DecidableEq

/-- What `next(self._iter)` does, up to the state it leaves the iterator in. -/
inductive LoaderNext (ε T : Type*) where
  | batch (b : OrderedDict String T)
  | exhausted
  | raised (e : ε)

/-- The iterator of a dataloader with states `σ`, and the tensor operations of the device.  An
iterator may go on after it has raised; whether the copy of a tensor raises is up to the tensor. -/
structure PrefetchSource (σ ε T : Type*) where
  next : σ → LoaderNext ε T × σ
  toDevice : T → Except ε T
  isLong : T → Bool
  toLong : T → Except ε T

/-- Where the background thread stands; `idle` is `_thread = None`, and a thread that has `ended`
may have died of an exception. -/
inductive PrefetchThread (T : Type*) where
  | idle
  | fetching
  | transferring (cpuBatch : OrderedDict String T)
  | ended

/-- There is no thread, or its `join` returns. -/
def PrefetchThread.Joinable {T : Type*} : PrefetchThread T → Prop
  | .idle | .ended => True
  | .fetching | .transferring _ => False

/-- `CUDAPrefetcher` with its thread. -/
structure CudaPrefetcher (σ T : Type*) where
  iter : σ
  done : Bool
  gpuBatch : Option (OrderedDict String T)
  thread : PrefetchThread T

namespace CudaPrefetcher
variable {σ ε T : Type*} (src : PrefetchSource σ ε T)

/-! ## The calls -/

/-- An operation of the device, whose exception is raised as it is. -/
def liftDevice {α : Type*} : Except ε α → Except (PrefetchError ε) α
  | .ok a => .ok a
  | .error e => .error (.raised e)

/-- The dict comprehension of `move_batch_to_device`. -/
def moveItems : OrderedDict String T → List (String × T) →
    Except (PrefetchError ε) (OrderedDict String T)
  | moved, [] => .ok moved
  | moved, (key, value) :: items =>
    match liftDevice (src.toDevice value) with
    | .ok value' => moveItems (moved.set key value') items
    | .error e => .error e

def moveBatchToDevice (batch : OrderedDict String T) :
    Except (PrefetchError ε) (OrderedDict String T) :=
  match moveItems src .empty batch.items with
  | .error e => .error e
  | .ok moved =>
    match moved.get? "input_ids" with
    | none => .error (.keyError "input_ids")
    | some inputIds =>
      if src.isLong inputIds then .ok moved
      else
        match liftDevice (src.toLong inputIds) with
        | .ok inputIds' => .ok (moved.set "input_ids" inputIds')
        | .error e => .error e

/-- The `try` of `_fetch_and_transfer`; without a batch the call returns. -/
def popBatch (s : CudaPrefetcher σ T) :
    Except (PrefetchError ε) (Option (OrderedDict String T)) × CudaPrefetcher σ T :=
  match src.next s.iter with
  | (.batch cpuBatch, iter) => (.ok (some cpuBatch), { s with iter })
  | (.exhausted, iter) => (.ok none, { s with iter, done := true })
  | (.raised e, iter) => (.error (.raised e), { s with iter })

/-- The rest of `_fetch_and_transfer`. -/
def transfer (cpuBatch : OrderedDict String T) (s : CudaPrefetcher σ T) :
    Except (PrefetchError ε) Unit × CudaPrefetcher σ T :=
  match moveBatchToDevice src cpuBatch with
  | .ok gpuBatch => (.ok (), { s with gpuBatch := some gpuBatch })
  | .error e => (.error e, s)

def fetchAndTransfer (s : CudaPrefetcher σ T) :
    Except (PrefetchError ε) Unit × CudaPrefetcher σ T :=
  match popBatch src s with
  | (.ok (some cpuBatch), s') => transfer src cpuBatch s'
  | (.ok none, s') => (.ok (), s')
  | (.error e, s') => (.error e, s')

/-- `__iter__` on a dataloader whose iterator starts in `start`. -/
def iterCall (start : σ) : Except (PrefetchError ε) (CudaPrefetcher σ T) :=
  match fetchAndTransfer src ⟨start, false, none, .idle⟩ with
  | (.ok (), s) => .ok s
  | (.error e, _) => .error e

/-- A step of the thread.  An exception ends it like a return does: the state it leaves is all
that the caller sees. -/
def threadStep (s : CudaPrefetcher σ T) : Option (CudaPrefetcher σ T) :=
  match s.thread with
  | .fetching =>
    match popBatch src s with
    | (.ok (some cpuBatch), s') => some { s' with thread := .transferring cpuBatch }
    | (_, s') => some { s' with thread := .ended }
  | .transferring cpuBatch => some { (transfer src cpuBatch s).2 with thread := .ended }
  | .idle | .ended => none

/-- `__next__` from its `join` on.  The thread it starts shares nothing with the batch that it
returns. -/
def nextCall (s : CudaPrefetcher σ T) :
    Except (PrefetchError ε) (OrderedDict String T) × CudaPrefetcher σ T :=
  if s.done then (.error .stopIteration, { s with thread := .idle })
  else
    match s.gpuBatch with
    | none => (.error .attributeError, { s with thread := .idle })
    | some batch => (.ok batch, { s with thread := .fetching })

/-! ## Iterations -/

variable (start : σ)

/-- `__iter__` has returned, and the calls of `__next__` since then have returned the batches;
the thread takes its steps at any time. -/
inductive Run : List (OrderedDict String T) → CudaPrefetcher σ T → Prop where
  | iter {s} : iterCall src start = .ok s → Run [] s
  | thread {bs s s'} : Run bs s → threadStep src s = some s' → Run bs s'
  | next {bs s b s'} : Run bs s → s.thread.Joinable → nextCall (ε := ε) s = (.ok b, s') →
      Run (bs ++ [b]) s'

/-- The batches that an iteration has yielded, and what it has ended with. -/
inductive Iterates : List (OrderedDict String T) → Option (PrefetchError ε) → Prop where
  | notStarted : Iterates [] none
  | iterRaised {e} : iterCall src start = .error e → Iterates [] (some e)
  | running {bs s} : Run src start bs s → Iterates bs none
  | nextRaised {bs s e s'} : Run src start bs s → s.thread.Joinable →
      nextCall s = (.error e, s') → Iterates bs (some e)

/-! ## What the dataloader yields -/

/-- The state of the dataloader's iterator after `i` calls of `next`. -/
def stateAt : ℕ → σ
  | 0 => start
  | i + 1 => (src.next (stateAt i)).2

/-- A batch of the dataloader on the device, or what its step raises. -/
def fetched : LoaderNext ε T → Except (PrefetchError ε) (OrderedDict String T)
  | .batch cpuBatch => moveBatchToDevice src cpuBatch
  | .exhausted => .error .stopIteration
  | .raised e => .error (.raised e)

/-- Step `i` of the dataloader and of its device transfer. -/
def fetchAt (i : ℕ) : Except (PrefetchError ε) (OrderedDict String T) :=
  fetched src (src.next (stateAt src start i)).1

/-- The first batches of the dataloader, each once and in order. -/
def FirstBatches (bs : List (OrderedDict String T)) : Prop :=
  ∀ i (h : i < bs.length), fetchAt src start i = .ok bs[i]

/-- The first batches of the dataloader, and after them at most the exception of the step that
comes next. -/
def LoaderYields (bs : List (OrderedDict String T)) (r : Option (PrefetchError ε)) : Prop :=
  FirstBatches src start bs ∧ ∀ e, r = some e → fetchAt src start bs.length = .error e

/-- The iterations of the prefetcher are those of the dataloader. -/
def Faithful : Prop :=
  ∀ bs r, Iterates src start bs r ↔ LoaderYields src start bs r

/-- The first step without a batch is step `k`, it is not the first of all, and it is not the
dataloader's end. -/
def FailsInThread (k : ℕ) : Prop :=
  0 < k ∧ (∀ i < k, ∃ b, fetchAt src start i = .ok b) ∧
    ∃ e, fetchAt src start k = .error e ∧ e ≠ .stopIteration

/-! ## The stages of a step -/

/-- The states in which the batches `bs` have been returned and step `bs.length` is on its way.
From the second step on `_gpu_batch` keeps the last batch until the next one is written, and a
step that has `failed` has written nothing. -/
inductive Stage (bs : List (OrderedDict String T)) : CudaPrefetcher σ T → Prop where
  | fetched {b thread} : fetchAt src start bs.length = .ok b → thread.Joinable →
      Stage bs ⟨stateAt src start (bs.length + 1), false, some b, thread⟩
  | exhausted {gpuBatch thread} : fetchAt src start bs.length = .error .stopIteration →
      thread.Joinable → Stage bs ⟨stateAt src start (bs.length + 1), true, gpuBatch, thread⟩
  | failed {e b} : fetchAt src start bs.length = .error e → e ≠ .stopIteration →
      bs.getLast? = some b →
      Stage bs ⟨stateAt src start (bs.length + 1), false, some b, .ended⟩
  | fetching {b} : bs.getLast? = some b →
      Stage bs ⟨stateAt src start bs.length, false, some b, .fetching⟩
  | transferring {b cpuBatch} : bs.getLast? = some b →
      (src.next (stateAt src start bs.length)).1 = .batch cpuBatch →
      Stage bs ⟨stateAt src start (bs.length + 1), false, some b, .transferring cpuBatch⟩

variable {src start}

theorem moveItems_ne_stop {moved : OrderedDict String T} {items : List (String × T)}
    {e : PrefetchError ε} (h : moveItems src moved items = .error e) : e ≠ .stopIteration := by
  induction items generalizing moved with
  | nil => cases h
  | cons item items ih =>
    obtain ⟨key, value⟩ := item
    simp only [moveItems] at h
    cases hvalue : src.toDevice value with
    | ok value' =>
      rw [hvalue] at h
      exact ih h
    | error e' =>
      rw [hvalue] at h
      cases h
      simp

/-- The device does not raise `StopIteration`. -/
theorem moveBatchToDevice_ne_stop {batch : OrderedDict String T} {e : PrefetchError ε}
    (h : moveBatchToDevice src batch = .error e) : e ≠ .stopIteration := by
  unfold moveBatchToDevice at h
  split at h
  · rename_i e' hmove
    cases h
    exact moveItems_ne_stop hmove
  · split at h
    · cases h
      simp
    · rename_i inputIds _
      split at h
      · cases h
      · cases hlong : src.toLong inputIds with
        | ok inputIds' =>
          rw [hlong] at h
          cases h
        | error e' =>
          rw [hlong] at h
          cases h
          simp

theorem fetchAt_of_next {i : ℕ} {outcome : LoaderNext ε T} {iter : σ}
    (h : src.next (stateAt src start i) = (outcome, iter)) :
    stateAt src start (i + 1) = iter ∧ fetchAt src start i = fetched src outcome := by
  constructor
  · rw [stateAt, h]
  · rw [fetchAt, h]

/-- A step of the thread stays in the step of the dataloader that it works on. -/
theorem Stage.threadStep {bs : List (OrderedDict String T)} {s s' : CudaPrefetcher σ T}
    (h : Stage src start bs s) (hstep : threadStep src s = some s') : Stage src start bs s' := by
  cases h with
  | fetched hfetch hjoin =>
    rename_i thread
    cases thread <;> first | cases hjoin; done | cases hstep
  | exhausted hfetch hjoin =>
    rename_i thread
    cases thread <;> first | cases hjoin; done | cases hstep
  | failed => cases hstep
  | fetching hlast =>
    cases hnext : src.next (stateAt src start bs.length) with
    | mk outcome iter =>
      obtain ⟨rfl, hfetch⟩ := fetchAt_of_next hnext
      simp only [CudaPrefetcher.threadStep, popBatch, hnext] at hstep
      cases outcome with
      | batch cpuBatch =>
        cases hstep
        exact .transferring hlast (by rw [hnext])
      | exhausted =>
        cases hstep
        exact .exhausted hfetch trivial
      | raised e =>
        cases hstep
        exact .failed hfetch nofun hlast
  | transferring hlast hbatch =>
    rename_i b cpuBatch
    have hfetch : fetchAt src start bs.length = moveBatchToDevice src cpuBatch := by
      rw [fetchAt, hbatch]
      rfl
    cases hmove : moveBatchToDevice src cpuBatch with
    | ok gpuBatch =>
      simp only [CudaPrefetcher.threadStep, transfer, hmove] at hstep
      cases hstep
      exact .fetched (hfetch.trans hmove) trivial
    | error e =>
      simp only [CudaPrefetcher.threadStep, transfer, hmove] at hstep
      cases hstep
      exact .failed (hfetch.trans hmove) (moveBatchToDevice_ne_stop hmove) hlast

/-- What a call of `__next__` finds: the step's batch or the end of the dataloader, or, after a
step that failed in the thread, the batch of the step before. -/
theorem Stage.nextCall {bs : List (OrderedDict String T)} {s : CudaPrefetcher σ T}
    (h : Stage src start bs s) (hjoin : s.thread.Joinable) :
    (∃ s', nextCall s = (fetchAt src start bs.length, s') ∧
      ∀ b, fetchAt src start bs.length = .ok b → Stage src start (bs ++ [b]) s') ∨
    (∃ e b s', fetchAt src start bs.length = .error e ∧ e ≠ .stopIteration ∧
      bs.getLast? = some b ∧ CudaPrefetcher.nextCall (ε := ε) s = (.ok b, s')) := by
  cases h with
  | fetched hfetch _ =>
    left
    rename_i b _ _
    refine ⟨_, by rw [hfetch]; rfl, fun b' hb' => ?_⟩
    rw [hfetch] at hb'
    obtain rfl := Except.ok.inj hb'
    have hstage : Stage src start (bs ++ [b])
        ⟨stateAt src start (bs ++ [b]).length, false, some b, .fetching⟩ := .fetching (by simp)
    simpa using hstage
  | exhausted hfetch _ =>
    left
    refine ⟨_, by rw [hfetch]; rfl, fun b' hb' => ?_⟩
    rw [hfetch] at hb'
    cases hb'
  | failed hfetch hne hlast =>
    right
    exact ⟨_, _, _, hfetch, hne, hlast, rfl⟩
  | fetching => cases hjoin
  | transferring => cases hjoin

variable (src start) in
/-- The first step runs in `__iter__`, which raises what it raises. -/
theorem iterCall_cases :
    (∃ s, iterCall src start = .ok s ∧ Stage src start [] s ∧ s.thread.Joinable ∧
      ∀ e, fetchAt src start 0 = .error e → e = .stopIteration) ∨
    (∃ e, iterCall src start = .error e ∧ fetchAt src start 0 = .error e ∧
      e ≠ .stopIteration) := by
  cases hnext : src.next (stateAt src start 0) with
  | mk outcome iter =>
    obtain ⟨rfl, hfetch⟩ := fetchAt_of_next hnext
    have hpop : src.next start = (outcome, stateAt src start 1) := hnext
    cases outcome with
    | batch cpuBatch =>
      cases hmove : moveBatchToDevice src cpuBatch with
      | ok gpuBatch =>
        left
        refine ⟨⟨stateAt src start 1, false, some gpuBatch, .idle⟩, ?_,
          .fetched (hfetch.trans hmove) trivial, trivial, fun e he => ?_⟩
        · simp only [iterCall, fetchAndTransfer, popBatch, hpop, transfer, hmove]
        · rw [hfetch, fetched, hmove] at he
          cases he
      | error e =>
        right
        refine ⟨e, ?_, hfetch.trans hmove, moveBatchToDevice_ne_stop hmove⟩
        simp only [iterCall, fetchAndTransfer, popBatch, hpop, transfer, hmove]
    | exhausted =>
      left
      refine ⟨⟨stateAt src start 1, true, none, .idle⟩, ?_, .exhausted hfetch trivial, trivial,
        fun e he => ?_⟩
      · simp only [iterCall, fetchAndTransfer, popBatch, hpop]
      · rw [hfetch] at he
        exact (Except.error.inj he).symm
    | raised e =>
      right
      refine ⟨.raised e, ?_, hfetch, nofun⟩
      simp only [iterCall, fetchAndTransfer, popBatch, hpop]

/-! ## Runs -/

theorem FirstBatches.append {bs : List (OrderedDict String T)} {b : OrderedDict String T}
    (h : FirstBatches src start bs) (hb : fetchAt src start bs.length = .ok b) :
    FirstBatches src start (bs ++ [b]) := by
  intro i hi
  rcases Nat.lt_or_ge i bs.length with hlt | hge
  · rw [List.getElem_append_left hlt]
    exact h i hlt
  · obtain rfl : i = bs.length := by
      simp at hi
      omega
    simpa using hb

theorem FirstBatches.of_append {bs bs' : List (OrderedDict String T)}
    (h : FirstBatches src start (bs ++ bs')) : FirstBatches src start bs := by
  intro i hi
  have := h i (by simp; omega)
  rwa [List.getElem_append_left hi] at this

theorem FirstBatches.not_failsInThread {bs : List (OrderedDict String T)}
    (h : FirstBatches src start bs) {i : ℕ} (hi : i < bs.length) : ¬ FailsInThread src start i := by
  rintro ⟨-, -, e, he, -⟩
  rw [h i hi] at he
  cases he

/-- After the batches of the dataloader, a step that fails has failed in the thread: the first
one would have been raised by `__iter__`. -/
theorem FirstBatches.failsInThread {bs : List (OrderedDict String T)}
    (h : FirstBatches src start bs) {e : PrefetchError ε} {b : OrderedDict String T}
    (he : fetchAt src start bs.length = .error e) (hne : e ≠ .stopIteration)
    (hlast : bs.getLast? = some b) : FailsInThread src start bs.length := by
  refine ⟨?_, fun i hi => ⟨bs[i], h i hi⟩, e, he, hne⟩
  cases bs with
  | nil => cases hlast
  | cons => simp

/-- The run invariant: as long as no step has failed in the thread, the batches are those of the
dataloader. -/
theorem Run.stage {bs : List (OrderedDict String T)} {s : CudaPrefetcher σ T}
    (h : Run src start bs s) (hok : ∀ i < bs.length, ¬ FailsInThread src start i) :
    FirstBatches src start bs ∧ Stage src start bs s := by
  induction h with
  | iter hiter =>
    refine ⟨fun i hi => absurd hi (by simp), ?_⟩
    rcases iterCall_cases src start with ⟨s', hs', hstage, -⟩ | ⟨e, he, -⟩
    · rw [hiter] at hs'
      cases hs'
      exact hstage
    · rw [hiter] at he
      cases he
  | thread _ hstep ih =>
    obtain ⟨hfirst, hstage⟩ := ih hok
    exact ⟨hfirst, hstage.threadStep hstep⟩
  | next _ hjoin hnext ih =>
    rename_i bs s b s' _
    obtain ⟨hfirst, hstage⟩ := ih fun i hi => hok i (by simp; omega)
    rcases hstage.nextCall hjoin with ⟨s'', hcall, hstage'⟩ | ⟨e, b', s'', he, hne, hlast, -⟩
    · rw [hcall] at hnext
      obtain ⟨hb, rfl⟩ := Prod.mk.inj hnext
      exact ⟨hfirst.append hb, hstage' b hb⟩
    · exact absurd (hfirst.failsInThread he hne hlast) (hok bs.length (by simp))

/-- The thread always comes to its end. -/
theorem Run.join {bs : List (OrderedDict String T)} {s : CudaPrefetcher σ T}
    (h : Run src start bs s) : ∃ s', Run src start bs s' ∧ s'.thread.Joinable := by
  have transferred : ∀ {s}, Run src start bs s → ∀ cpuBatch, s.thread = .transferring cpuBatch →
      ∃ s', Run src start bs s' ∧ s'.thread.Joinable := by
    intro s h cpuBatch hthread
    refine ⟨{ (transfer src cpuBatch s).2 with thread := .ended }, h.thread ?_, trivial⟩
    rw [threadStep, hthread]
  cases hthread : s.thread with
  | idle => exact ⟨s, h, by simp [hthread, PrefetchThread.Joinable]⟩
  | ended => exact ⟨s, h, by simp [hthread, PrefetchThread.Joinable]⟩
  | transferring cpuBatch => exact transferred h cpuBatch hthread
  | fetching =>
    have hstep : ∃ s', threadStep src s = some s' ∧
        (s'.thread = .ended ∨ ∃ cpuBatch, s'.thread = .transferring cpuBatch) := by
      rw [threadStep, hthread]
      dsimp only
      split
      · exact ⟨_, rfl, .inr ⟨_, rfl⟩⟩
      · exact ⟨_, rfl, .inl rfl⟩
    rcases hstep with ⟨s', hs', hended | ⟨cpuBatch, htransfer⟩⟩
    · exact ⟨s', h.thread hs', by simp [hended, PrefetchThread.Joinable]⟩
    · exact transferred (h.thread hs') cpuBatch htransfer

/-- The calls of `__next__` deliver any number of batches that the dataloader has. -/
theorem exists_run {s₀ : CudaPrefetcher σ T} (hiter : iterCall src start = .ok s₀)
    {bs : List (OrderedDict String T)} (h : FirstBatches src start bs) :
    ∃ s, Run src start bs s ∧ s.thread.Joinable := by
  induction bs using List.reverseRecOn with
  | nil => exact (Run.iter hiter).join
  | append_singleton bs b ih =>
    obtain ⟨s, hrun, hjoin⟩ := ih h.of_append
    have hb : fetchAt src start bs.length = .ok b := by
      simpa using h bs.length (by simp)
    have hstage := (hrun.stage fun i hi => h.of_append.not_failsInThread hi).2
    rcases hstage.nextCall hjoin with ⟨s', hcall, -⟩ | ⟨e, b', s', he, -⟩
    · rw [hb] at hcall
      exact (hrun.next hjoin hcall).join
    · rw [hb] at he
      cases he

/-! ## Faithfulness -/

/-- Without a failure in the thread a call of `__next__` does what the dataloader's step does. -/
theorem Run.nextCall {bs : List (OrderedDict String T)} {s : CudaPrefetcher σ T}
    (h : Run src start bs s) (hjoin : s.thread.Joinable)
    (hok : ∀ i ≤ bs.length, ¬ FailsInThread src start i) :
    ∃ s', CudaPrefetcher.nextCall s = (fetchAt src start bs.length, s') := by
  obtain ⟨hfirst, hstage⟩ := h.stage fun i hi => hok i (Nat.le_of_lt hi)
  rcases hstage.nextCall hjoin with ⟨s', hcall, -⟩ | ⟨e, b, s', he, hne, hlast, -⟩
  · exact ⟨s', hcall⟩
  · exact absurd (hfirst.failsInThread he hne hlast) (hok _ (Nat.le_refl _))

theorem Iterates.loaderYields (hok : ∀ k, ¬ FailsInThread src start k)
    {bs : List (OrderedDict String T)} {r : Option (PrefetchError ε)}
    (h : Iterates src start bs r) : LoaderYields src start bs r := by
  have nil : FirstBatches src start [] := fun i hi => absurd hi (by simp)
  cases h with
  | notStarted => exact ⟨nil, fun e he => nomatch he⟩
  | iterRaised hiter =>
    rename_i e
    refine ⟨nil, fun e' he' => ?_⟩
    cases he'
    rcases iterCall_cases src start with ⟨s, hs, -⟩ | ⟨e', he', hfetch, -⟩
    · rw [hiter] at hs
      cases hs
    · rw [hiter] at he'
      cases he'
      exact hfetch
  | running hrun => exact ⟨(hrun.stage fun i _ => hok i).1, fun e he => nomatch he⟩
  | nextRaised hrun hjoin hnext =>
    refine ⟨(hrun.stage fun i _ => hok i).1, fun e he => ?_⟩
    cases he
    obtain ⟨s', hcall⟩ := hrun.nextCall hjoin fun i _ => hok i
    rw [hcall] at hnext
    exact (Prod.mk.inj hnext).1

theorem LoaderYields.iterates (hok : ∀ k, ¬ FailsInThread src start k)
    {bs : List (OrderedDict String T)} {r : Option (PrefetchError ε)}
    (h : LoaderYields src start bs r) : Iterates src start bs r := by
  obtain ⟨hfirst, hr⟩ := h
  rcases iterCall_cases src start with ⟨s₀, hs₀, -⟩ | ⟨e₀, he₀, hfetch, hne⟩
  · obtain ⟨s, hrun, hjoin⟩ := exists_run hs₀ hfirst
    cases r with
    | none => exact .running hrun
    | some e =>
      obtain ⟨s', hcall⟩ := hrun.nextCall hjoin fun i _ => hok i
      rw [hr e rfl] at hcall
      exact .nextRaised hrun hjoin hcall
  · -- the first step raises, so there is no batch
    cases bs with
    | cons b bs =>
      have := hfirst 0 (by simp)
      rw [hfetch] at this
      cases this
    | nil =>
      cases r with
      | none => exact .notStarted
      | some e =>
        have := hr e rfl
        rw [List.length_nil, hfetch] at this
        cases this
        exact .iterRaised he₀

/-- A failure in the thread goes unnoticed: the batch before it is yielded a second time. -/
theorem FailsInThread.iterates_twice {k : ℕ} (h : FailsInThread src start k) :
    ∃ bs b, bs.length = k ∧ bs.getLast? = some b ∧ Iterates src start (bs ++ [b]) none := by
  obtain ⟨hk, hbefore, e, he, hne⟩ := h
  choose b hb using hbefore
  let bs := List.ofFn fun i : Fin k => b i i.isLt
  have hlen : bs.length = k := List.length_ofFn
  have hfirst : FirstBatches src start bs := fun i hi => by
    simpa [bs] using hb i (by omega)
  rcases iterCall_cases src start with ⟨s₀, hs₀, -⟩ | ⟨e₀, he₀, hfetch, -⟩
  · obtain ⟨s, hrun, hjoin⟩ := exists_run hs₀ hfirst
    have hstage := (hrun.stage fun i hi => hfirst.not_failsInThread hi).2
    rcases hstage.nextCall hjoin with ⟨s', hcall, -⟩ | ⟨e', b', s', -, -, hlast, hcall⟩
    · -- no state yields the failure itself
      cases hstage with
      | fetched hfetch =>
        rw [hlen, he] at hfetch
        cases hfetch
      | exhausted hfetch =>
        rw [hlen, he] at hfetch
        exact absurd (Except.error.inj hfetch) hne
      | failed hfetch =>
        rw [hfetch] at hcall
        cases hcall
      | fetching => cases hjoin
      | transferring => cases hjoin
    · exact ⟨bs, b', hlen, hlast, .running (hrun.next hjoin hcall)⟩
  · rw [hb 0 hk] at hfetch
    cases hfetch

end CudaPrefetcher

open CudaPrefetcher in
/-- The prefetcher iterates a dataloader as it is, in any interleaving of its thread, if and only
if no step after the first one raises anything but the dataloader's end. -/
theorem prefetcher_faithful_iff {σ ε T : Type*} (src : PrefetchSource σ ε T) (start : σ) :
    Faithful src start ↔ ∀ k, ¬ FailsInThread src start k := by
  constructor
  · intro h k hk
    obtain ⟨bs, b, rfl, -, hiter⟩ := hk.iterates_twice
    obtain ⟨-, -, e, he, -⟩ := hk
    have hb := ((h _ _).1 hiter).1 bs.length (by simp)
    rw [he] at hb
    cases hb
  · intro h bs r
    exact ⟨fun hiter => hiter.loaderYields h, fun hyields => hyields.iterates h⟩

/-- A dataloader with one batch whose second `next` raises, as a generator does that is then
exhausted. -/
def failingSource : PrefetchSource ℕ String ℕ where
  next
    | 0 => (.batch (OrderedDict.empty.set "input_ids" 7), 1)
    | 1 => (.raised "DataLoader worker exited unexpectedly", 2)
    | _ => (.exhausted, 2)
  toDevice := .ok
  isLong _ := true
  toLong := .ok

open CudaPrefetcher in
/-- The prefetcher yields the batch twice and then stops as if the dataloader were exhausted. -/
theorem prefetcher_repeats_batch :
    (∃ b, fetchAt failingSource 0 0 = .ok b ∧
      Iterates failingSource 0 [b, b] (some .stopIteration)) ∧
    fetchAt failingSource 0 1 = .error (.raised "DataLoader worker exited unexpectedly") ∧
    ¬ Faithful failingSource 0 := by
  have hiter : Iterates failingSource 0
      [OrderedDict.empty.set "input_ids" 7, OrderedDict.empty.set "input_ids" 7]
      (some .stopIteration) := by
    have started : Run failingSource 0 [] ⟨1, false, _, .idle⟩ := .iter rfl
    have first := started.next trivial rfl
    -- the thread of the first call dies, the one of the second call finds the end
    have second := (first.thread rfl).next trivial rfl
    exact .nextRaised (second.thread rfl) trivial rfl
  refine ⟨⟨_, rfl, hiter⟩, rfl, fun h => ?_⟩
  have hfirst := ((h _ _).1 hiter).1 1 (by simp)
  cases hfirst

end LatentSpec
