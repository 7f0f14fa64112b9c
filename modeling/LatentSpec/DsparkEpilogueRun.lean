import LatentSpec.DsparkEpilogue

/-! # Runs of the folded epilogue

`begin_step` leaves zero for every request that a captured graph has and the batch has not,
and `begin_step(None)` for all of them.  The cap of `cap_correct_len` is signed, so such a row
is capped below zero, and `gather_row_bonus_triton` adds that to the address of the row without
looking at it: it reads the last entry of the row before, or what lies before the table.

A run of the graph keeps to its rows exactly when it has no row but those of the last `begin_step`
(`call_inRow_iff`), and so does a whole sequence of steps (`epilogue_inRow_iff`).
-/
namespace LatentSpec
open TiledStores
open scoped Coins

variable {V : ℕ} {K : Type}

/-- A row whose gather stays in its own `stride` entries, and whose commit is one to `stride`
tokens. -/
def EpilogueRow.InRow (stride : ℕ) (r : EpilogueRow) : Prop :=
  (0 ≤ r.correctLen ∧ r.correctLen < stride) ∧ 1 ≤ r.commitLens ∧ r.commitLens ≤ stride

/-- A replay of the graph: the captured number of requests and what its inputs, the buffer of
the folded draft and the memory around the table hold. -/
structure EpilogueReplay (V : ℕ) (K : Type) where
  bs : ℕ
  compactLogits : ℕ → Fin V → K
  inputIds : ℕ → Fin V
  seqLens : ℕ → ℕ
  draftTokensBuf : ℕ → Fin V
  uninit : ℕ → ℤ
  outside : ℤ → ℤ

/-- What is done to an epilogue. -/
inductive EpilogueEvent (V : ℕ) (K : Type) (stride : ℕ) where
  | beginStep (layout : Option (RaggedVerifyLayout stride)) (armed : Bool)
  | replay (x : EpilogueReplay V K)

namespace EpilogueBuffers
variable [Field K] [LinearOrder K] [NeZero V] (e : EpilogueBuffers V K) (stride : ℕ)

/-- `_scatter`. -/
def scattered (x : EpilogueReplay V K) : EpilogueBuffers V K :=
  { e with draftTokensBuf := x.draftTokensBuf }.scatter stride x.bs x.compactLogits

/-- `__call__`: `_scatter` and `_accept`. -/
def call (x : EpilogueReplay V K) : EpilogueBuffers V K :=
  (e.scattered stride x).accept stride x.bs x.inputIds x.seqLens x.uninit x.outside

/-- One event. -/
def step : EpilogueEvent V K stride → EpilogueBuffers V K
  | .beginStep layout armed => e.beginStep layout armed
  | .replay x => e.call stride x

end EpilogueBuffers

/-! ### Sequences of steps -/

namespace EpilogueEvent
variable {stride : ℕ}

/-- The number of real requests after an event, from that before it. -/
def realBs (real : ℕ) : EpilogueEvent V K stride → ℕ
  | .beginStep layout _ => layout.elim 0 RaggedVerifyLayout.bs
  | .replay _ => real

/-- At most `max_bs` lengths are given, and a graph is captured for no fewer requests than the
batch has and for no more than `max_bs`. -/
def Admissible (maxBs real : ℕ) : EpilogueEvent V K stride → Prop
  | .beginStep layout _ => layout.elim 0 RaggedVerifyLayout.bs ≤ maxBs
  | .replay x => real ≤ x.bs ∧ x.bs ≤ maxBs

/-- A replay has no row but those of real requests. -/
def NoPadding (real : ℕ) : EpilogueEvent V K stride → Prop
  | .beginStep _ _ => True
  | .replay x => x.bs = real

/-- A property of every event of a sequence, given the number of real requests before it. -/
def EachFrom (P : ℕ → EpilogueEvent V K stride → Prop) : ℕ → List (EpilogueEvent V K stride) → Prop
  | _, [] => True
  | real, event :: events => P real event ∧ EachFrom P (event.realBs real) events

instance (maxBs real : ℕ) :
    (event : EpilogueEvent V K stride) → Decidable (event.Admissible maxBs real)
  | .beginStep layout _ => inferInstanceAs (Decidable (layout.elim 0 RaggedVerifyLayout.bs ≤ maxBs))
  | .replay x => inferInstanceAs (Decidable (real ≤ x.bs ∧ x.bs ≤ maxBs))

instance (real : ℕ) : (event : EpilogueEvent V K stride) → Decidable (event.NoPadding real)
  | .beginStep _ _ => inferInstanceAs (Decidable True)
  | .replay x => inferInstanceAs (Decidable (x.bs = real))

instance EachFrom.decidable (P : ℕ → EpilogueEvent V K stride → Prop)
    [h : ∀ real event, Decidable (P real event)] :
    (real : ℕ) → (events : List (EpilogueEvent V K stride)) → Decidable (EachFrom P real events)
  | _, [] => inferInstanceAs (Decidable True)
  | real, event :: events =>
    @instDecidableAnd _ _ (h real event) (EachFrom.decidable P (event.realBs real) events)

variable [Field K] [LinearOrder K] [NeZero V]

/-- Every row that a replay stores is in its window. -/
def InRow (e : EpilogueBuffers V K) : EpilogueEvent V K stride → Prop
  | .beginStep _ _ => True
  | .replay x => ∀ b < x.bs, ((e.call stride x).outs b).InRow stride

/-- Every replay of a sequence keeps to its rows. -/
def AllInRow : EpilogueBuffers V K → List (EpilogueEvent V K stride) → Prop
  | _, [] => True
  | e, event :: events => event.InRow e ∧ AllInRow (e.step stride event) events

end EpilogueEvent

namespace EpilogueBuffers
variable {e : EpilogueBuffers V K} {stride real : ℕ}

/-- The lengths of the real requests, and zeros for the others. -/
structure Holds (e : EpilogueBuffers V K) (stride real : ℕ) : Prop where
  real_pos : ∀ b < real, 1 ≤ e.verifyLensBuf b
  real_le : ∀ b < real, e.verifyLensBuf b ≤ stride
  padding : ∀ b, real ≤ b → e.verifyLensBuf b = 0

variable [Field K] [LinearOrder K] [NeZero V]

omit [LinearOrder K] [NeZero V] in
theorem scattered_verifyLensBuf (e : EpilogueBuffers V K) (stride : ℕ) (x : EpilogueReplay V K) :
    (e.scattered stride x).verifyLensBuf = e.verifyLensBuf := rfl

/-- Every event leaves the lengths of the last `begin_step`. -/
theorem Holds.step (h : e.Holds stride real) (event : EpilogueEvent V K stride) :
    (e.step stride event).Holds stride (event.realBs real) := by
  cases event with
  | replay x => exact ⟨h.real_pos, h.real_le, h.padding⟩
  | beginStep layout armed =>
    cases layout with
    | none => exact ⟨fun b hb => absurd hb (Nat.not_lt_zero b),
        fun b hb => absurd hb (Nat.not_lt_zero b), fun b _ => rfl⟩
    | some layout =>
      refine ⟨fun b hb => ?_, fun b hb => ?_, fun b hb => if_neg (Nat.not_lt.mpr hb)⟩
      · exact (layout.one_le _ (RaggedVerifyLayout.lens_mem hb)).trans_eq (if_pos hb).symm
      · exact (if_pos hb).trans_le (layout.le_stride _ (RaggedVerifyLayout.lens_mem hb))

/-- **A replay keeps to its rows exactly when it has no padding row.** -/
theorem call_inRow_iff (h : e.Holds stride real) {x : EpilogueReplay V K} (hreal : real ≤ x.bs) :
    (∀ b < x.bs, ((e.call stride x).outs b).InRow stride) ↔ x.bs = real := by
  have hrow : ∀ b < x.bs, (e.call stride x).outs b = _ := fun b hb => if_pos hb
  constructor
  · intro hin
    by_contra hne
    -- the first padding row verifies nothing, and is capped below zero
    have hlt : real < x.bs := by omega
    have hcapped : ((e.scattered stride x).capped stride x.bs x.inputIds x.seqLens real).1 ≤
        (0 : ℤ) - 1 := by
      rw [capped, scattered_verifyLensBuf, h.padding real (Nat.le_refl _)]
      exact min_le_right _ _
    have hnonneg := (hin real hlt).1.1
    rw [hrow real hlt] at hnonneg
    dsimp only at hnonneg
    omega
  · rintro rfl b hb
    have hpos := h.real_pos b hb
    have hle := h.real_le b hb
    let w := (e.scattered stride x).window stride x.bs x.inputIds x.seqLens
    have hcapped : ((e.scattered stride x).capped stride x.bs x.inputIds x.seqLens b).1 =
        min (w.greedyBlock.correctLenFused b : ℤ) (e.verifyLensBuf b - 1) := rfl
    rw [hrow b hb]
    simp only [EpilogueRow.InRow, hcapped]
    omega

end EpilogueBuffers

/-! ### Runs -/

namespace EpilogueEvent
variable [Field K] [LinearOrder K] [NeZero V] {stride : ℕ}

/-- From an epilogue whose buffers hold the real lengths. -/
theorem allInRow_iff {maxBs real : ℕ} {e : EpilogueBuffers V K} (h : e.Holds stride real)
    {events : List (EpilogueEvent V K stride)} (hadm : EachFrom (Admissible maxBs) real events) :
    AllInRow e events ↔ EachFrom NoPadding real events := by
  induction events generalizing e real with
  | nil => exact Iff.rfl
  | cons event events ih =>
    obtain ⟨hevent, hrest⟩ := hadm
    refine and_congr ?_ (ih (h.step event) hrest)
    cases event with
    | beginStep layout armed => exact Iff.rfl
    | replay x => exact EpilogueBuffers.call_inRow_iff h hevent.1

/-- **The epilogue keeps to its rows exactly in the runs without padding rows**: whatever its
buffers hold, every gather of every replay is in its own row and every commit is one to `stride`
tokens if and only if each replay has as many rows as the last `begin_step` gave lengths. -/
theorem epilogue_inRow_iff (maxBs : ℕ) (e : EpilogueBuffers V K)
    (hinit : ∀ b, e.verifyLensBuf b = 0) (events : List (EpilogueEvent V K stride))
    (hadm : EachFrom (Admissible maxBs) 0 events) :
    AllInRow e events ↔ EachFrom NoPadding 0 events :=
  allInRow_iff
    { real_pos := fun b hb => absurd hb (Nat.not_lt_zero b)
      real_le := fun b hb => absurd hb (Nat.not_lt_zero b)
      padding := fun b _ => hinit b } hadm

end EpilogueEvent

/-! ### A padding row -/

/-- An epilogue as `__init__` leaves it. -/
def freshEpilogue : EpilogueBuffers 2 ℚ :=
  ⟨0, fun _ => 0, fun _ => 0, fun _ _ => 0, fun _ => ⟨0, 0, 0, 0, 0, []⟩⟩

/-- A replay captured for `bs` requests, over even logits. -/
def evenReplay (bs : ℕ) : EpilogueReplay 2 ℚ :=
  ⟨bs, fun _ _ => 0, fun _ => 0, fun _ => 5, fun _ => 0, fun _ => 0, fun _ => 9⟩

/-- One request that verifies one slot. -/
def oneRequestLayout : RaggedVerifyLayout 2 :=
  { oneSlotStep.layout with
    graphNumTokens := 1
    total_le := by decide }

/-- A step of one request in a graph of one. -/
def oneRequestRun : List (EpilogueEvent 2 ℚ 2) :=
  [.beginStep (some oneRequestLayout) true, .replay (evenReplay 1)]

/-- An idle step in the same graph. -/
def idleRun : List (EpilogueEvent 2 ℚ 2) := [.beginStep none false, .replay (evenReplay 1)]

theorem epilogue_inRow_iff_one : EpilogueEvent.AllInRow freshEpilogue oneRequestRun := by
  have hadm : EpilogueEvent.EachFrom (EpilogueEvent.Admissible 4) 0 oneRequestRun := by decide
  have hpadding : EpilogueEvent.EachFrom EpilogueEvent.NoPadding 0 oneRequestRun := by decide
  exact (EpilogueEvent.epilogue_inRow_iff 4 freshEpilogue (fun _ => rfl) _ hadm).mpr hpadding

/-- **An idle step reads before its table**: the row of a graph of one request has index `-1`,
and commits nothing. -/
theorem idle_replay_outside :
    EpilogueEvent.EachFrom (EpilogueEvent.Admissible 4) 0 idleRun ∧
      ¬ EpilogueEvent.AllInRow freshEpilogue idleRun ∧
      ((freshEpilogue.step 2 (.beginStep none false)).call 2 (evenReplay 1)).outs 0 =
        ⟨-1, 9, 2, 0, 5, [0, 0]⟩ := by
  have hrow : ((freshEpilogue.step 2 (.beginStep none false)).call 2 (evenReplay 1)).outs 0 =
      ⟨-1, 9, 2, 0, 5, [0, 0]⟩ := by decide +kernel
  refine ⟨by decide, ?_, hrow⟩
  rintro ⟨-, hin, -⟩
  have hnonneg := (hin 0 (by decide)).1.1
  rw [hrow] at hnonneg
  exact absurd hnonneg (by decide)

end LatentSpec
