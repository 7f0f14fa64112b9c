import Mathlib.Algebra.BigOperators.Group.List.Basic
import Mathlib.Tactic.NormNum.Eq
import Mathlib.Tactic.Ring
import LatentSpec.TiledStores

/-! # The confidence relay

DSpark sizes a step's verify budget from confidences of earlier steps, which a relay brings to
the host.  `FutureMap.publish` scatters the confidences of the rows it is given into a buffer
with a row for every slot of the request pool, and copies the whole buffer into a ring.
`HostConfidenceBudgetPlanner` reads the entry of two publishes ago, and may lag it further
through a ring of its own.

Slots are reused, so every row carries a generation, and the planner takes a row only when its
generation is the slot's current one.  But the ring tags a row with the generation at the time of
the copy.  A slot that was given to a new request since its row was scattered is tagged as
that request's, and the planner then sizes the new request's budget by the old one's confidence
(`exists_crossed_survival`).  The rows are their own as long as no publish leaves out a request
that has not published yet (`Run.ownSurvival`).
-/
namespace LatentSpec
open TiledStores

variable {K : Type}

/-- A confidence row, and the slot generation it is tagged with. -/
structure TaggedRow (K : Type) where
  confidence : List K
  generation : ℕ

/-- `CONFIDENCE_RELAY_RING_LAG` -/
def confidenceRelayRingLag : ℕ := 2

/-- `CONFIDENCE_RELAY_RING_DEPTH` -/
def confidenceRelayRingDepth : ℕ := confidenceRelayRingLag + 1

/-- `ReqToTokenPool`: the rows requests hold, and how often each row was handed out. -/
structure ReqToTokenPool where
  held : List ℕ
  reqGeneration : ℕ → ℕ

/-- `alloc_rows` -/
def ReqToTokenPool.alloc (pool : ReqToTokenPool) (slot : ℕ) : ReqToTokenPool where
  held := slot :: pool.held
  reqGeneration := Function.update pool.reqGeneration slot (pool.reqGeneration slot + 1)

@[simp] theorem ReqToTokenPool.alloc_reqGeneration_self (pool : ReqToTokenPool) (slot : ℕ) :
    (pool.alloc slot).reqGeneration slot = pool.reqGeneration slot + 1 :=
  Function.update_self ..

theorem ReqToTokenPool.alloc_reqGeneration_of_ne (pool : ReqToTokenPool) {slot slot' : ℕ}
    (h : slot' ≠ slot) : (pool.alloc slot).reqGeneration slot' = pool.reqGeneration slot' :=
  Function.update_of_ne h ..

/-- `free_rows`, of a row that no request holds twice. -/
def ReqToTokenPool.free (pool : ReqToTokenPool) (slot : ℕ) : ReqToTokenPool :=
  { pool with held := pool.held.filter (· ≠ slot) }

/-- `ConfidenceRelay`.  `ring` holds `conf_ring` and `gen_ring`. -/
structure ConfidenceRelay (K : Type) where
  confidenceBuf : ℕ → List K
  ring : ℕ → ℕ → TaggedRow K
  ringPos : ℕ
  initialized : Bool

namespace ConfidenceRelay
variable (relay : ConfidenceRelay K)

def scatter (rows : List (ℕ × List K)) : ConfidenceRelay K :=
  { relay with confidenceBuf := writeAll relay.confidenceBuf rows, initialized := true }

/-- `issue_ring_copy`: the whole buffer, tagged with the generations of this moment. -/
def issueRingCopy (hasStream : Bool) (reqGeneration : ℕ → ℕ) : ConfidenceRelay K :=
  if !relay.initialized || !hasStream then relay
  else
    { relay with
      ring := Function.update relay.ring (relay.ringPos % confidenceRelayRingDepth)
        fun slot => ⟨relay.confidenceBuf slot, reqGeneration slot⟩
      ringPos := relay.ringPos + 1 }

/-- `resolve`.  Without a copy stream the buffer is read directly; with one, the entry of two
copies ago, once its copy is done. -/
def resolve (hasStream : Bool) (reqGeneration : ℕ → ℕ) (batch : List ℕ) (copyDone : Bool) :
    Option (List (TaggedRow K)) :=
  if !relay.initialized then none
  else if batch = [] then none
  else if !hasStream then
    some (batch.map fun slot => ⟨relay.confidenceBuf slot, reqGeneration slot⟩)
  else if relay.ringPos < confidenceRelayRingLag then none
  else if !copyDone then none
  else
    let slot := (relay.ringPos - confidenceRelayRingLag) % confidenceRelayRingDepth
    some (batch.map (relay.ring slot))

end ConfidenceRelay

/-- `HostConfidenceBudgetPlanner`, without the cost table. -/
structure HostConfidenceBudgetPlanner (K : Type) where
  carrySteps : ℕ
  carry : ℕ → ℕ → TaggedRow K
  carryPos : ℕ

/-- `torch.cumprod` of a row -/
def cumprodRow [Mul K] [One K] (row : List K) : List K :=
  (List.range row.length).map fun p => (row.take (p + 1)).prod

namespace HostConfidenceBudgetPlanner
variable (planner : HostConfidenceBudgetPlanner K)

/-- `_shift_to_lag`: the rows of `carry_steps` budgets ago, in exchange for the new ones. -/
def shiftToLag (batch : List ℕ) (resolved : List (TaggedRow K)) :
    HostConfidenceBudgetPlanner K × List (TaggedRow K) :=
  if planner.carrySteps = 0 then (planner, resolved)
  else
    let slot := planner.carryPos % planner.carrySteps
    let lagged := batch.map (planner.carry slot)
    let stored := writeAll (planner.carry slot) (batch.zip resolved)
    ({ planner with
        carry := Function.update planner.carry slot stored
        carryPos := planner.carryPos + 1 }, lagged)

/-- One row of `_two_steps_prior_survival`. -/
def survivalRow [Mul K] [One K] (lagged : TaggedRow K) (currentGen : ℕ) : List K :=
  let kSurvival := cumprodRow lagged.confidence
  let fresh := decide (1 ≤ currentGen) && decide (lagged.generation = currentGen)
  if fresh then kSurvival else kSurvival.map fun _ => 1

def twoStepsPriorSurvival [Mul K] [One K] (lagged : List (TaggedRow K))
    (currentGeneration : List ℕ) : List (List K) :=
  List.zipWith survivalRow lagged currentGeneration

end HostConfidenceBudgetPlanner

/-! ### The system -/

/-- The pool, the relay and the planner of a server; `hasStream` says whether it copies on a
stream of its own. -/
structure RelaySystem (K : Type) where
  hasStream : Bool
  pool : ReqToTokenPool
  relay : ConfidenceRelay K
  planner : HostConfidenceBudgetPlanner K

/-- What happens to the relay.  A publish without confidence leaves it alone. -/
inductive RelayEvent (K : Type) where
  | alloc (slot : ℕ)
  | free (slot : ℕ)
  | publish (rows : List (ℕ × List K))
  | computeBudget (batch : List ℕ) (copyDone : Bool)

/-- A confidence row that a request published. -/
structure Published (K : Type) where
  slot : ℕ
  generation : ℕ
  confidence : List K

namespace RelaySystem
variable (s : RelaySystem K)

/-- `FutureMap.publish`, as far as the relay goes. -/
def publish (rows : List (ℕ × List K)) : RelaySystem K :=
  if rows = [] then s
  else
    { s with relay := (s.relay.scatter rows).issueRingCopy s.hasStream s.pool.reqGeneration }

@[simp] theorem publish_pool (rows : List (ℕ × List K)) : (s.publish rows).pool = s.pool := by
  unfold publish
  split <;> rfl

@[simp] theorem publish_planner (rows : List (ℕ × List K)) :
    (s.publish rows).planner = s.planner := by
  unfold publish
  split <;> rfl

theorem publish_confidenceBuf {rows : List (ℕ × List K)} (hrows : rows ≠ []) :
    (s.publish rows).relay.confidenceBuf = writeAll s.relay.confidenceBuf rows := by
  rw [publish, if_neg hrows]
  dsimp only [ConfidenceRelay.issueRingCopy]
  split <;> rfl

/-- An entry of the ring stays, or becomes the buffer under the current generations. -/
theorem publish_ring {rows : List (ℕ × List K)} (hrows : rows ≠ []) (i : ℕ) :
    (s.publish rows).relay.ring i = s.relay.ring i ∨ s.hasStream = true ∧
      (s.publish rows).relay.ring i =
        fun slot => ⟨writeAll s.relay.confidenceBuf rows slot, s.pool.reqGeneration slot⟩ := by
  rw [publish, if_neg hrows]
  dsimp only [ConfidenceRelay.issueRingCopy, ConfidenceRelay.scatter]
  by_cases hstream : s.hasStream = true
  · simp only [hstream, Bool.not_true, Bool.or_self, Bool.false_eq_true, if_false]
    by_cases hi : i = s.relay.ringPos % confidenceRelayRingDepth
    · exact .inr ⟨trivial, by rw [hi, Function.update_self]⟩
    · exact .inl (Function.update_of_ne hi ..)
  · rw [if_pos (by simp [hstream])]
    exact .inl rfl

/-- The survival rows of a batch, when the relay has any, and the planner after it. -/
def computeBudget [Mul K] [One K] (batch : List ℕ) (copyDone : Bool) :
    RelaySystem K × Option (List (List K)) :=
  match s.relay.resolve s.hasStream s.pool.reqGeneration batch copyDone with
  | none => (s, none)
  | some resolved =>
    let (planner, lagged) := s.planner.shiftToLag batch resolved
    ({ s with planner := planner },
      some (HostConfidenceBudgetPlanner.twoStepsPriorSurvival lagged
        (batch.map s.pool.reqGeneration)))

def step [Mul K] [One K] : RelayEvent K → RelaySystem K
  | .alloc slot => { s with pool := s.pool.alloc slot }
  | .free slot => { s with pool := s.pool.free slot }
  | .publish rows => s.publish rows
  | .computeBudget batch copyDone => (s.computeBudget batch copyDone).1

/-- What an event adds to what was published. -/
def published : RelayEvent K → List (Published K)
  | .publish rows => rows.map fun row => ⟨row.1, s.pool.reqGeneration row.1, row.2⟩
  | _ => []

/-- A slot is handed out when no request holds it; requests publish, and budgets are computed,
for slots that are held. -/
def Enabled : RelayEvent K → Prop
  | .alloc slot => slot ∉ s.pool.held
  | .free slot => slot ∈ s.pool.held
  | .publish rows => ∀ row ∈ rows, row.1 ∈ s.pool.held
  | .computeBudget batch _ => ∀ slot ∈ batch, slot ∈ s.pool.held

instance : DecidablePred s.Enabled
  | .alloc slot => inferInstanceAs (Decidable (slot ∉ s.pool.held))
  | .free slot => inferInstanceAs (Decidable (slot ∈ s.pool.held))
  | .publish rows => inferInstanceAs (Decidable (∀ row ∈ rows, row.1 ∈ s.pool.held))
  | .computeBudget batch _ => inferInstanceAs (Decidable (∀ slot ∈ batch, slot ∈ s.pool.held))

/-- A server that has just started: whatever its buffers hold, no row has a generation. -/
structure Initial : Prop where
  held : s.pool.held = []
  reqGeneration : ∀ slot, s.pool.reqGeneration slot = 0
  ringGeneration : ∀ i slot, (s.relay.ring i slot).generation = 0
  carryGeneration : ∀ i slot, (s.planner.carry i slot).generation = 0
  initialized : s.relay.initialized = false
  ringPos : s.relay.ringPos = 0
  carryPos : s.planner.carryPos = 0

/-- The runs of a server, with what its requests have published.  `guard` restricts the
events that a run may take. -/
inductive Run [Mul K] [One K]
    (guard : RelaySystem K → List (Published K) → RelayEvent K → Prop) :
    RelaySystem K → List (Published K) → Prop where
  | init {s : RelaySystem K} : s.Initial → Run guard s []
  | step {s : RelaySystem K} {log : List (Published K)} (e : RelayEvent K) :
      Run guard s log → s.Enabled e → guard s log e → Run guard (s.step e) (log ++ s.published e)

/-- The events of a list, one after the other, each under the guard. -/
def Steps [Mul K] [One K] (guard : RelaySystem K → List (Published K) → RelayEvent K → Prop) :
    RelaySystem K → List (Published K) → List (RelayEvent K) → Prop
  | _, _, [] => True
  | s, log, e :: es =>
    (s.Enabled e ∧ guard s log e) ∧ Steps guard (s.step e) (log ++ s.published e) es

/-- The state and the log after the events of a list. -/
def after [Mul K] [One K] :
    RelaySystem K → List (Published K) → List (RelayEvent K) → RelaySystem K × List (Published K)
  | s, log, [] => (s, log)
  | s, log, e :: es => after (s.step e) (log ++ s.published e) es

theorem Run.after [Mul K] [One K]
    {guard : RelaySystem K → List (Published K) → RelayEvent K → Prop} {s : RelaySystem K}
    {log : List (Published K)} (hrun : Run guard s log) {es : List (RelayEvent K)}
    (hsteps : Steps guard s log es) : Run guard (s.after log es).1 (s.after log es).2 := by
  induction es generalizing s log with
  | nil => exact hrun
  | cons e es ih => exact ih (hrun.step e hsteps.1.1 hsteps.1.2) hsteps.2

variable (log : List (Published K))

/-- The request that holds `slot` has published. -/
def HasPublished (slot : ℕ) : Prop :=
  ∃ confidence, ⟨slot, s.pool.reqGeneration slot, confidence⟩ ∈ log

/-- The survival rows of a batch are fallbacks, or come from rows that the same requests
published. -/
def OwnSurvival [Mul K] [One K] (batch : List ℕ) (survival : List (List K)) : Prop :=
  survival.length = batch.length ∧ ∀ row ∈ batch.zip survival, (∃ x ∈ row.2, x ≠ 1) →
    ∃ confidence, ⟨row.1, s.pool.reqGeneration row.1, confidence⟩ ∈ log ∧
      row.2 = cumprodRow confidence

/-- Whoever holds a slot has published when its row is tagged. -/
def Covered : RelayEvent K → Prop
  | .publish rows => rows ≠ [] → s.hasStream = true →
      ∀ slot ∈ s.pool.held, slot ∉ rows.map Prod.fst → s.HasPublished log slot
  | .computeBudget batch _ => s.hasStream = false → s.relay.initialized = true →
      ∀ slot ∈ batch, s.HasPublished log slot
  | _ => True

/-! ### Rows keep to their requests -/

/-- A row is older than the slot's current request, or that request published it. -/
def OwnRow (slot : ℕ) (row : TaggedRow K) : Prop :=
  row.generation ≤ s.pool.reqGeneration slot ∧
    (slot ∈ s.pool.held → row.generation = s.pool.reqGeneration slot →
      ⟨slot, row.generation, row.confidence⟩ ∈ log)

structure Inv : Prop where
  log_le : ∀ p ∈ log, p.generation ≤ s.pool.reqGeneration p.slot
  buf : ∀ slot, s.HasPublished log slot →
    ⟨slot, s.pool.reqGeneration slot, s.relay.confidenceBuf slot⟩ ∈ log
  ring : ∀ i slot, s.OwnRow log slot (s.relay.ring i slot)
  carry : ∀ i slot, s.OwnRow log slot (s.planner.carry i slot)

variable {s log}

theorem Initial.inv (h : s.Initial) : s.Inv [] where
  log_le p hp := absurd hp List.not_mem_nil
  buf slot h' := absurd h'.choose_spec List.not_mem_nil
  ring i slot := ⟨by rw [h.ringGeneration, h.reqGeneration], by simp [h.held]⟩
  carry i slot := ⟨by rw [h.carryGeneration, h.reqGeneration], by simp [h.held]⟩

/-- A slot that is handed out leaves its old rows behind. -/
theorem OwnRow.alloc {slot slot' : ℕ} {row : TaggedRow K} (h : s.OwnRow log slot' row) :
    RelaySystem.OwnRow { s with pool := s.pool.alloc slot } log slot' row := by
  by_cases heq : slot' = slot
  · subst heq
    have hlt : row.generation < (s.pool.alloc slot').reqGeneration slot' := by
      rw [ReqToTokenPool.alloc_reqGeneration_self]
      exact Nat.lt_succ_of_le h.1
    exact ⟨Nat.le_of_lt hlt, fun _ hgen => absurd hgen (Nat.ne_of_lt hlt)⟩
  · have hgen := s.pool.alloc_reqGeneration_of_ne heq
    refine ⟨hgen ▸ h.1, fun hheld hrow => h.2 ?_ (hgen ▸ hrow)⟩
    exact (List.mem_cons.mp hheld).resolve_left heq

theorem OwnRow.free {slot slot' : ℕ} {row : TaggedRow K} (h : s.OwnRow log slot' row) :
    RelaySystem.OwnRow { s with pool := s.pool.free slot } log slot' row :=
  ⟨h.1, fun hheld => h.2 (List.mem_filter.mp hheld).1⟩

theorem OwnRow.append {slot : ℕ} {row : TaggedRow K} (h : s.OwnRow log slot row)
    (more : List (Published K)) : s.OwnRow (log ++ more) slot row :=
  ⟨h.1, fun hheld hgen => List.mem_append_left more (h.2 hheld hgen)⟩

theorem Inv.alloc (h : s.Inv log) (slot : ℕ) :
    RelaySystem.Inv { s with pool := s.pool.alloc slot } log where
  log_le p hp := by
    by_cases heq : p.slot = slot
    · subst heq
      exact (h.log_le p hp).trans (s.pool.alloc_reqGeneration_self _ ▸ Nat.le_succ _)
    · exact (h.log_le p hp).trans_eq (s.pool.alloc_reqGeneration_of_ne heq).symm
  buf slot' h' := by
    obtain ⟨confidence, hpub⟩ := h'
    by_cases heq : slot' = slot
    · -- nothing in the log has the new generation
      subst heq
      have hle := h.log_le _ hpub
      rw [ReqToTokenPool.alloc_reqGeneration_self] at hle
      exact absurd hle (Nat.not_succ_le_self _)
    · dsimp only at hpub ⊢
      rw [s.pool.alloc_reqGeneration_of_ne heq] at hpub ⊢
      exact h.buf slot' ⟨confidence, hpub⟩
  ring i slot' := (h.ring i slot').alloc
  carry i slot' := (h.carry i slot').alloc

theorem Inv.free (h : s.Inv log) (slot : ℕ) :
    RelaySystem.Inv { s with pool := s.pool.free slot } log where
  log_le := h.log_le
  buf := h.buf
  ring i slot' := (h.ring i slot').free
  carry i slot' := (h.carry i slot').free

/-- What a publish scatters is what its requests publish. -/
theorem mem_published {rows : List (ℕ × List K)} {slot : ℕ} {confidence : List K}
    (h : (slot, confidence) ∈ rows) :
    ⟨slot, s.pool.reqGeneration slot, confidence⟩ ∈ s.published (.publish rows) :=
  List.mem_map.mpr ⟨(slot, confidence), h, rfl⟩

/-- The buffer keeps the last row of every request that has published. -/
theorem Inv.buf_scatter (h : s.Inv log) (rows : List (ℕ × List K)) {slot : ℕ}
    (hpub : s.HasPublished log slot ∨ slot ∈ rows.map Prod.fst) :
    ⟨slot, s.pool.reqGeneration slot, writeAll s.relay.confidenceBuf rows slot⟩ ∈
      log ++ s.published (.publish rows) := by
  by_cases hslot : slot ∈ rows.map Prod.fst
  · exact List.mem_append_right _ (mem_published (mem_of_writeAll _ hslot))
  · rw [writeAll_of_notMem _ hslot]
    exact List.mem_append_left _ (h.buf slot (hpub.resolve_right hslot))

theorem Inv.publish (h : s.Inv log) {rows : List (ℕ × List K)}
    (hcovered : s.Covered log (.publish rows)) :
    (s.publish rows).Inv (log ++ s.published (.publish rows)) := by
  by_cases hrows : rows = []
  · subst hrows
    simpa [RelaySystem.publish, published] using h
  refine ⟨fun p hp => ?_, fun slot hpub => ?_, fun i slot => ?_, fun i slot => ?_⟩
  · rw [publish_pool]
    rcases List.mem_append.mp hp with hold | hnew
    · exact h.log_le p hold
    · obtain ⟨row, -, rfl⟩ := List.mem_map.mp hnew
      exact Nat.le_refl _
  · obtain ⟨confidence, hpub⟩ := hpub
    rw [publish_pool] at hpub ⊢
    rw [publish_confidenceBuf s hrows]
    refine h.buf_scatter rows ((List.mem_append.mp hpub).imp (fun hold => ⟨confidence, hold⟩) ?_)
    intro hnew
    obtain ⟨row, hrow, heq⟩ := List.mem_map.mp hnew
    cases heq
    exact List.mem_map_of_mem hrow
  · unfold OwnRow
    rw [publish_pool]
    rcases publish_ring s hrows i with hkeep | ⟨hstream, hcopy⟩
    · rw [hkeep]
      exact (h.ring i slot).append _
    · rw [hcopy]
      refine ⟨Nat.le_refl _, fun hheld _ => h.buf_scatter rows ?_⟩
      -- the guard: a held slot that is left out has published before
      by_cases hslot : slot ∈ rows.map Prod.fst
      · exact .inr hslot
      · exact .inl (hcovered hrows hstream slot hheld hslot)
  · unfold OwnRow
    rw [publish_pool, publish_planner]
    exact (h.carry i slot).append _

/-! ### Budgets -/

theorem mem_zip_map {α β : Type} {f : α → β} {xs : List α} {p : α × β}
    (h : p ∈ xs.zip (xs.map f)) : p.1 ∈ xs ∧ p.2 = f p.1 := by
  induction xs with
  | nil => cases h
  | cons x xs ih =>
    rcases List.mem_cons.mp h with rfl | htail
    · exact ⟨List.mem_cons_self, rfl⟩
    · exact ⟨List.mem_cons_of_mem x (ih htail).1, (ih htail).2⟩

/-- What the relay resolves are rows of the batch's own. -/
theorem Inv.resolve (h : s.Inv log) {batch : List ℕ} {copyDone : Bool}
    {resolved : List (TaggedRow K)} (hcovered : s.Covered log (.computeBudget batch copyDone))
    (hresolve : s.relay.resolve s.hasStream s.pool.reqGeneration batch copyDone = some resolved) :
    resolved.length = batch.length ∧
      ∀ row ∈ batch.zip resolved, s.OwnRow log row.1 row.2 := by
  unfold ConfidenceRelay.resolve at hresolve
  split_ifs at hresolve with hinit hbatch hstream hlag hdone
  · cases hresolve
    refine ⟨List.length_map _, fun row hrow => ?_⟩
    obtain ⟨hslot, hrow⟩ := mem_zip_map hrow
    rw [hrow]
    refine ⟨Nat.le_refl _, fun _ _ => h.buf _ (hcovered ?_ ?_ _ hslot)⟩
    · simpa using hstream
    · simpa using hinit
  · cases hresolve
    refine ⟨List.length_map _, fun row hrow => ?_⟩
    obtain ⟨-, hrow⟩ := mem_zip_map hrow
    rw [hrow]
    exact h.ring _ _

/-- The planner's own ring keeps to the requests as well. -/
theorem Inv.shiftToLag (h : s.Inv log) {batch : List ℕ} {resolved : List (TaggedRow K)}
    (hlen : resolved.length = batch.length)
    (hresolved : ∀ row ∈ batch.zip resolved, s.OwnRow log row.1 row.2) :
    (s.planner.shiftToLag batch resolved).2.length = batch.length ∧
      (∀ row ∈ batch.zip (s.planner.shiftToLag batch resolved).2, s.OwnRow log row.1 row.2) ∧
      ∀ i slot, s.OwnRow log slot ((s.planner.shiftToLag batch resolved).1.carry i slot) := by
  unfold HostConfidenceBudgetPlanner.shiftToLag
  split_ifs with hcarry
  · exact ⟨hlen, hresolved, h.carry⟩
  · refine ⟨List.length_map _, fun row hrow => ?_, fun i slot => ?_⟩
    · obtain ⟨-, hrow⟩ := mem_zip_map hrow
      rw [hrow]
      exact h.carry _ _
    · dsimp only
      by_cases hi : i = s.planner.carryPos % s.planner.carrySteps
      · rw [hi, Function.update_self]
        by_cases hslot : slot ∈ (batch.zip resolved).map Prod.fst
        · exact hresolved _ (mem_of_writeAll _ hslot)
        · rw [writeAll_of_notMem _ hslot]
          exact h.carry _ _
      · rw [Function.update_of_ne hi]
        exact h.carry i slot

variable [Mul K] [One K]

theorem Inv.computeBudget (h : s.Inv log) {batch : List ℕ} {copyDone : Bool}
    (hcovered : s.Covered log (.computeBudget batch copyDone)) :
    (s.computeBudget batch copyDone).1.Inv log := by
  unfold RelaySystem.computeBudget
  split
  · exact h
  · next resolved hresolve =>
    obtain ⟨hlen, hresolved⟩ := h.resolve hcovered hresolve
    exact ⟨h.log_le, h.buf, h.ring, (h.shiftToLag hlen hresolved).2.2⟩

/-- **Rows keep to their requests**, in every run whose publishes are covered. -/
theorem Run.inv (hrun : Run Covered s log) : s.Inv log := by
  induction hrun with
  | init hinit => exact hinit.inv
  | step e _ _ hguard ih =>
    cases e with
    | alloc slot => exact (List.append_nil _).symm ▸ ih.alloc slot
    | free slot => exact (List.append_nil _).symm ▸ ih.free slot
    | publish rows => exact ih.publish hguard
    | computeBudget batch copyDone => exact (List.append_nil _).symm ▸ ih.computeBudget hguard

theorem computeBudget_some {batch : List ℕ} {copyDone : Bool} {survival : List (List K)}
    (h : (s.computeBudget batch copyDone).2 = some survival) : ∃ resolved,
    s.relay.resolve s.hasStream s.pool.reqGeneration batch copyDone = some resolved ∧
      survival = HostConfidenceBudgetPlanner.twoStepsPriorSurvival
        (s.planner.shiftToLag batch resolved).2 (batch.map s.pool.reqGeneration) := by
  unfold RelaySystem.computeBudget at h
  split at h
  · cases h
  · next resolved hresolve => exact ⟨resolved, hresolve, (Option.some.inj h).symm⟩

theorem mem_zip_twoStepsPriorSurvival {batch : List ℕ} {gen : ℕ → ℕ} {lagged : List (TaggedRow K)}
    {row : ℕ × List K}
    (h : row ∈ batch.zip (HostConfidenceBudgetPlanner.twoStepsPriorSurvival lagged
      (batch.map gen))) :
    ∃ tagged, (row.1, tagged) ∈ batch.zip lagged ∧
      row.2 = HostConfidenceBudgetPlanner.survivalRow tagged (gen row.1) := by
  induction batch generalizing lagged with
  | nil => cases h
  | cons slot batch ih =>
    cases lagged with
    | nil => cases h
    | cons tagged lagged =>
      rcases List.mem_cons.mp h with rfl | htail
      · exact ⟨tagged, List.mem_cons_self, rfl⟩
      · obtain ⟨tagged', hmem, heq⟩ := ih htail
        exact ⟨tagged', List.mem_cons_of_mem _ hmem, heq⟩

/-- **Lagged confidence does not cross requests** in a run whose publishes leave out no request
that has yet to publish. -/
theorem Run.ownSurvival (hrun : Run Covered s log) {batch : List ℕ} {copyDone : Bool}
    (henabled : s.Enabled (.computeBudget batch copyDone))
    (hcovered : s.Covered log (.computeBudget batch copyDone)) {survival : List (List K)}
    (h : (s.computeBudget batch copyDone).2 = some survival) :
    s.OwnSurvival log batch survival := by
  obtain ⟨resolved, hresolve, rfl⟩ := computeBudget_some h
  obtain ⟨hlen, hresolved⟩ := hrun.inv.resolve hcovered hresolve
  obtain ⟨hlagged, hown, -⟩ := hrun.inv.shiftToLag hlen hresolved
  refine ⟨?_, fun row hrow hne => ?_⟩
  · rw [HostConfidenceBudgetPlanner.twoStepsPriorSurvival, List.length_zipWith, hlagged,
      List.length_map, Nat.min_self]
  obtain ⟨tagged, hmem, heq⟩ := mem_zip_twoStepsPriorSurvival hrow
  rw [heq] at hne ⊢
  dsimp only [HostConfidenceBudgetPlanner.survivalRow] at hne ⊢
  split_ifs at hne ⊢ with hfresh
  · have hgen := of_decide_eq_true (Bool.and_eq_true_iff.mp hfresh).2
    refine ⟨tagged.confidence, ?_, rfl⟩
    have hpub := (hown _ hmem).2 (henabled _ (List.of_mem_zip hmem).1) hgen
    rwa [hgen] at hpub
  · -- the fallback is all ones
    obtain ⟨x, hx, hx1⟩ := hne
    obtain ⟨y, -, rfl⟩ := List.mem_map.mp hx
    exact absurd rfl hx1

/-! ### A slot that is handed on -/

/-- A server that has just started, with a copy stream and no ring of the planner's own. -/
def started : RelaySystem ℚ where
  hasStream := true
  pool := ⟨[], fun _ => 0⟩
  relay := ⟨fun _ => [], fun _ _ => ⟨[], 0⟩, 0, false⟩
  planner := ⟨0, fun _ _ => ⟨[], 0⟩, 0⟩

theorem started_initial : started.Initial :=
  ⟨rfl, fun _ => rfl, fun _ _ => rfl, fun _ _ => rfl, rfl, rfl, rfl⟩

/-- A request that has published twice. -/
def publishedTwice : List (RelayEvent ℚ) :=
  [.alloc 1, .publish [(1, [1 / 2])], .publish [(1, [1 / 2])]]

theorem Run.ownSurvival_publishedTwice :
    OwnSurvival (started.after [] publishedTwice).1 (started.after [] publishedTwice).2
      [1] [[1 / 2]] := by
  have hall : ∀ s : RelaySystem ℚ, s.pool.held = [1] → ∀ log,
      s.Covered log (.publish [(1, [1 / 2])]) := by
    intro s hheld log _ _ slot hslot hleft
    rw [hheld] at hslot
    exact absurd hslot hleft
  refine @Run.ownSurvival _ _ _ _ _ ((Run.init started_initial).after ?_) _ true ?_ ?_ _ ?_
  · exact ⟨⟨by decide, trivial⟩, ⟨by decide, hall _ rfl _⟩, ⟨by decide, hall _ rfl _⟩, trivial⟩
  · decide
  · intro hstream
    cases hstream
  · decide +kernel

/-- Slot 1 goes from a request that has published to one that has not, while the request of
slot 2 publishes twice. -/
def slotHandedOn : List (RelayEvent ℚ) :=
  [.alloc 1, .publish [(1, [1 / 2])], .free 1, .alloc 1, .alloc 2, .publish [(2, [1])],
    .publish [(2, [1])]]

/-- The new request of slot 1 gets the survival of the old one. -/
theorem exists_crossed_survival :
    Run (fun _ _ _ => True) (started.after [] slotHandedOn).1 (started.after [] slotHandedOn).2 ∧
      (started.after [] slotHandedOn).1.Enabled (.computeBudget [1, 2] true) ∧
      ((started.after [] slotHandedOn).1.computeBudget [1, 2] true).2 = some [[1 / 2], [1]] ∧
      ¬(started.after [] slotHandedOn).1.OwnSurvival (started.after [] slotHandedOn).2 [1, 2]
        [[1 / 2], [1]] := by
  refine ⟨(Run.init started_initial).after ?_, by decide, by decide +kernel, ?_⟩
  · exact ⟨⟨by decide, trivial⟩, ⟨by decide, trivial⟩, ⟨by decide, trivial⟩, ⟨by decide, trivial⟩,
      ⟨by decide, trivial⟩, ⟨by decide, trivial⟩, ⟨by decide, trivial⟩, trivial⟩
  · rintro ⟨-, hown⟩
    obtain ⟨confidence, hpub, -⟩ := hown (1, [1 / 2]) List.mem_cons_self
      ⟨1 / 2, List.mem_cons_self, by norm_num⟩
    -- what was published for slot 1 has the generation before
    have hold : ∀ p ∈ (started.after [] slotHandedOn).2, p.slot = 1 →
        p.generation ≠ (started.after [] slotHandedOn).1.pool.reqGeneration 1 := by decide
    exact hold _ hpub rfl rfl

end RelaySystem

end LatentSpec
