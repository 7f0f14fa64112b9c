import Mathlib.Data.Int.Order.Basic
import Mathlib.Data.List.GetD
import Mathlib.Tactic.ByContra

/-! # Mamba states after a verify

A verify step caches the state after each of its tokens.  Afterwards two of them are committed:
the one of the last accepted token and, where the length of a request has crossed a multiple of
the tracking interval, the one that has exactly that many tokens.
`_verify_commit_step_indices` is the shared rule (`shared_tracks`); the DFlash worker has its
own, which compares a clone of the lengths, taken before the verify, with the lengths of the
batch.

At its call site the batch has not been advanced yet, so the two are the same and nothing is
tracked (`dflash_stepsToTrack`).  On an advanced batch the worker would follow the shared rule
(`updateTargetMambaStateAfterVerify_advanced`).
-/
namespace LatentSpec

/-- What the rules read of a batch; `mambaTrackInterval` is `mamba_track_grid`. -/
structure MambaBatch where
  bs : ℕ
  seqLens : ℕ → ℕ
  mambaTrackIndices : Option (ℕ → ℕ)
  mambaTrackInterval : ℕ

/-- The steps to commit: the last accepted one of each request and, where tracking is on, the
one to track, or `-1`. -/
structure StepIndices where
  lastCorrectStepIndices : List ℤ
  mambaStepsToTrack : Option (List ℤ)
  deriving DecidableEq, Repr

namespace MambaBatch
variable (batch : MambaBatch)

/-- A step for every request, where tracking is on. -/
def steps (step : ℕ → ℤ) : Option (List ℤ) :=
  batch.mambaTrackIndices.map fun _ => (List.range batch.bs).map step

/-- `_verify_commit_step_indices` -/
def verifyCommitStepIndices (acceptIndex : ℕ → ℕ → ℤ) (acceptLens : ℕ → ℕ) (draftTokenNum : ℕ) :
    StepIndices :=
  let acceptIndicesOffset := fun (r : ℕ) => ((r * draftTokenNum : ℕ) : ℤ)
  { lastCorrectStepIndices := (List.range batch.bs).map fun r =>
      acceptIndex r (acceptLens r - 1) - acceptIndicesOffset r
    mambaStepsToTrack := batch.steps fun r =>
      let seqLensPreVerify := batch.seqLens r
      let seqLensPostVerify := batch.seqLens r + acceptLens r
      let toTrackMask := decide (seqLensPreVerify / batch.mambaTrackInterval ≠
        seqLensPostVerify / batch.mambaTrackInterval)
      let trackingPoint :=
        seqLensPostVerify / batch.mambaTrackInterval * batch.mambaTrackInterval
      let toTrackIth := max ((trackingPoint : ℤ) - seqLensPreVerify - 1) 0
      let candidateTrackStep := acceptIndex r toTrackIth.toNat - acceptIndicesOffset r
      if toTrackMask then candidateTrackStep else -1 }

/-- `_update_target_mamba_state_after_verify`: the steps it hands to the backend. -/
def updateTargetMambaStateAfterVerify (seqLensPreVerify commitLens : ℕ → ℕ) : StepIndices :=
  { lastCorrectStepIndices := (List.range batch.bs).map fun r => (commitLens r : ℤ) - 1
    mambaStepsToTrack := batch.steps fun r =>
      let toTrackMask := decide (seqLensPreVerify r / batch.mambaTrackInterval ≠
        batch.seqLens r / batch.mambaTrackInterval)
      let trackingPoint := batch.seqLens r / batch.mambaTrackInterval * batch.mambaTrackInterval
      let toTrackIth := max ((trackingPoint : ℤ) - seqLensPreVerify r - 1) 0
      let canTrackMask := toTrackMask && decide (toTrackIth < commitLens r)
      if canTrackMask then toTrackIth else -1 }

end MambaBatch

/-- `accept_index` of a linear chain: the accepted nodes are the first ones of the row. -/
def chainAcceptIndex (draftTokenNum r i : ℕ) : ℤ := ((r * draftTokenNum + i : ℕ) : ℤ)

/-! ### The shared rule -/

section Rule
variable {interval pre post : ℕ}

/-- A length has crossed a multiple of the interval exactly when its quotient has changed, and
the last one crossed is what the quotient says. -/
theorem lt_trackingPoint (hinterval : 1 ≤ interval) (hle : pre ≤ post)
    (hne : pre / interval ≠ post / interval) : pre < post / interval * interval := by
  have hmono := Nat.div_le_div_right (c := interval) hle
  have hlt : pre / interval < post / interval := by omega
  exact (Nat.div_lt_iff_lt_mul hinterval).mp hlt

/-- A length crosses a multiple of the interval exactly when its quotient changes. -/
theorem crosses_iff (hinterval : 1 ≤ interval) (hle : pre ≤ post) :
    (∃ k, pre < k * interval ∧ k * interval ≤ post) ↔ pre / interval ≠ post / interval := by
  constructor
  · rintro ⟨k, hlt, hge⟩ heq
    have hk : k ≤ post / interval := (Nat.le_div_iff_mul_le hinterval).mpr hge
    rw [← heq] at hk
    have hmul := Nat.mul_le_mul_right interval hk
    have hdiv := Nat.div_mul_le_self pre interval
    omega
  · intro hne
    exact ⟨post / interval, lt_trackingPoint hinterval hle hne, Nat.div_mul_le_self post interval⟩

end Rule

namespace MambaBatch
variable (batch : MambaBatch) (commitLens : ℕ → ℕ)

/-- The length of request `r` crosses a multiple of the tracking interval. -/
def Crosses (r : ℕ) : Prop :=
  ∃ k, batch.seqLens r < k * batch.mambaTrackInterval ∧
    k * batch.mambaTrackInterval ≤ batch.seqLens r + commitLens r

instance (r : ℕ) : Decidable (batch.Crosses commitLens r) :=
  decidable_of_iff (∃ k < batch.seqLens r + commitLens r + 1,
      batch.seqLens r < k * batch.mambaTrackInterval ∧
        k * batch.mambaTrackInterval ≤ batch.seqLens r + commitLens r) <| by
    constructor
    · rintro ⟨k, -, h⟩
      exact ⟨k, h⟩
    · rintro ⟨k, hlt, hle⟩
      have hpos : 0 < batch.mambaTrackInterval := Nat.pos_of_mul_pos_left (Nat.zero_lt_of_lt hlt)
      have hk := Nat.le_mul_of_pos_right k hpos
      exact ⟨k, by omega, hlt, hle⟩

/-- The step after which request `r` has as many tokens as the last multiple crossed. -/
def crossingStep (r : ℕ) : ℤ :=
  ((batch.seqLens r + commitLens r) / batch.mambaTrackInterval * batch.mambaTrackInterval : ℕ) -
    batch.seqLens r - 1

variable {batch commitLens} {r : ℕ}

theorem Crosses.step_bounds (hinterval : 1 ≤ batch.mambaTrackInterval)
    (h : batch.Crosses commitLens r) :
    0 ≤ batch.crossingStep commitLens r ∧ batch.crossingStep commitLens r < commitLens r := by
  have hlt := lt_trackingPoint hinterval (Nat.le_add_right _ _)
    ((crosses_iff hinterval (Nat.le_add_right _ _)).mp h)
  have hle := Nat.div_mul_le_self (batch.seqLens r + commitLens r) batch.mambaTrackInterval
  unfold crossingStep
  omega

/-- **The shared rule** on a linear chain: the last committed step, and the crossing step of the
requests that cross. -/
theorem shared_tracks (hinterval : 1 ≤ batch.mambaTrackInterval)
    (hcommit : ∀ r < batch.bs, 1 ≤ commitLens r) (draftTokenNum : ℕ) :
    batch.verifyCommitStepIndices (chainAcceptIndex draftTokenNum) commitLens draftTokenNum =
      { lastCorrectStepIndices := (List.range batch.bs).map fun r => (commitLens r : ℤ) - 1
        mambaStepsToTrack := batch.steps fun r =>
          if batch.Crosses commitLens r then batch.crossingStep commitLens r else -1 } := by
  have hlast : (List.range batch.bs).map (fun r => chainAcceptIndex draftTokenNum r
      (commitLens r - 1) - ((r * draftTokenNum : ℕ) : ℤ)) =
      (List.range batch.bs).map fun r => (commitLens r : ℤ) - 1 := by
    refine List.map_congr_left fun r hr => ?_
    have hpos := hcommit r (List.mem_range.mp hr)
    rw [chainAcceptIndex]
    omega
  have hsteps : ∀ r, (if decide (batch.seqLens r / batch.mambaTrackInterval ≠
      (batch.seqLens r + commitLens r) / batch.mambaTrackInterval) then
      chainAcceptIndex draftTokenNum r (max (batch.crossingStep commitLens r) 0).toNat -
        ((r * draftTokenNum : ℕ) : ℤ) else -1) =
      if batch.Crosses commitLens r then batch.crossingStep commitLens r else -1 := by
    intro r
    have hiff := crosses_iff hinterval (Nat.le_add_right (batch.seqLens r) (commitLens r))
    by_cases hcross : batch.Crosses commitLens r
    · have hbounds := hcross.step_bounds hinterval
      rw [if_pos hcross, if_pos (decide_eq_true (hiff.mp hcross)), chainAcceptIndex]
      omega
    · rw [if_neg hcross, decide_eq_false fun hne => hcross (hiff.mpr hne),
        if_neg Bool.false_ne_true]
  exact congrArg₂ StepIndices.mk hlast (congrArg batch.steps (funext hsteps))

/-- On a batch that has been advanced the worker's rule is the shared one. -/
theorem updateTargetMambaStateAfterVerify_advanced (hinterval : 1 ≤ batch.mambaTrackInterval)
    (hcommit : ∀ r < batch.bs, 1 ≤ commitLens r) (draftTokenNum : ℕ) :
    ({ batch with seqLens := fun r => batch.seqLens r + commitLens r } :
        MambaBatch).updateTargetMambaStateAfterVerify batch.seqLens commitLens =
      batch.verifyCommitStepIndices (chainAcceptIndex draftTokenNum) commitLens draftTokenNum := by
  rw [shared_tracks hinterval hcommit]
  have hsteps : ∀ r, (if decide (batch.seqLens r / batch.mambaTrackInterval ≠
      (batch.seqLens r + commitLens r) / batch.mambaTrackInterval) &&
      decide (max (batch.crossingStep commitLens r) 0 < commitLens r) then
      max (batch.crossingStep commitLens r) 0 else -1) =
      if batch.Crosses commitLens r then batch.crossingStep commitLens r else -1 := by
    intro r
    have hiff := crosses_iff hinterval (Nat.le_add_right (batch.seqLens r) (commitLens r))
    by_cases hcross : batch.Crosses commitLens r
    · obtain ⟨hnonneg, hlt⟩ := hcross.step_bounds hinterval
      rw [if_pos hcross, max_eq_left hnonneg, decide_eq_true (hiff.mp hcross), decide_eq_true hlt,
        Bool.and_self, if_pos rfl]
    · rw [if_neg hcross, decide_eq_false fun hne => hcross (hiff.mpr hne), Bool.false_and,
        if_neg Bool.false_ne_true]
  exact congrArg _ (congrArg batch.steps (funext hsteps))

/-- On the batch as it was before the verify nothing is tracked. -/
theorem updateTargetMambaStateAfterVerify_same (batch : MambaBatch) (commitLens : ℕ → ℕ) :
    batch.updateTargetMambaStateAfterVerify batch.seqLens commitLens =
      { lastCorrectStepIndices := (List.range batch.bs).map fun r => (commitLens r : ℤ) - 1
        mambaStepsToTrack := batch.steps fun _ => -1 } := by
  simp only [updateTargetMambaStateAfterVerify, ne_eq, not_true_eq_false, decide_false,
    Bool.false_and, Bool.false_eq_true, if_false]

end MambaBatch

/-! ### The call site -/

/-- The verify step of the DFlash worker, as far as lengths go: the batch before it, the track
indices that `prepare_for_verify` leaves, what `_accept_block` returns as commit lengths and new
lengths, and the commit lengths a simulated acceptance forces. -/
structure DflashVerify where
  batch : MambaBatch
  verifySize : ℕ
  trackIndices : Option (ℕ → ℕ)
  accepted : (ℕ → ℕ) × Option (ℕ → ℕ)
  simulated : Option (ℕ → ℕ)

namespace DflashVerify
variable (x : DflashVerify)

/-- The commit lengths of the step. -/
def commitLens : ℕ → ℕ := x.simulated.getD x.accepted.1

/-- The batch after `prepare_for_verify`, which leaves its lengths. -/
def prepared : MambaBatch := { x.batch with mambaTrackIndices := x.trackIndices }

/-- The verify step: the steps handed to the backend and the new lengths, which the scheduler
writes to the batch after the step. -/
def verify : StepIndices × (ℕ → ℕ) :=
  let prefixLens := x.batch.seqLens
  let seqLensPreVerify := x.batch.seqLens
  let newSeqLens := if x.simulated.isSome then none else x.accepted.2
  let indices := x.prepared.updateTargetMambaStateAfterVerify seqLensPreVerify x.commitLens
  (indices, newSeqLens.getD fun r => prefixLens r + x.commitLens r)

/-- What the shared rule returns for the linear chain. -/
def shared : StepIndices :=
  x.prepared.verifyCommitStepIndices (chainAcceptIndex x.verifySize) x.commitLens x.verifySize

/-- The step follows the shared rule: it returns the same indices, tracks exactly the requests
that cross a multiple of the interval, and a tracked step is the one whose state has as many
tokens as the last multiple crossed. -/
structure FollowsRule : Prop where
  eq_shared : x.verify.1 = x.shared
  tracked : ∀ steps, x.verify.1.mambaStepsToTrack = some steps → ∀ r < x.batch.bs,
    (steps.getD r (-1) ≠ -1 ↔ x.prepared.Crosses x.commitLens r) ∧
    (steps.getD r (-1) ≠ -1 → x.batch.seqLens r + steps.getD r (-1) + 1 =
      ((x.batch.seqLens r + x.commitLens r) / x.batch.mambaTrackInterval *
        x.batch.mambaTrackInterval : ℕ))

variable {x}

/-- The batch still has the lengths of before the verify, so no step is tracked. -/
theorem verify_eq : x.verify.1 =
    { lastCorrectStepIndices := (List.range x.batch.bs).map fun r => (x.commitLens r : ℤ) - 1
      mambaStepsToTrack := x.prepared.steps fun _ => -1 } :=
  x.prepared.updateTargetMambaStateAfterVerify_same x.commitLens

/-- **The worker follows the shared rule exactly where there is nothing to track**: tracking is
off, or no request crosses a multiple of the interval. -/
theorem followsRule_iff (x : DflashVerify) (hinterval : 1 ≤ x.batch.mambaTrackInterval)
    (hcommit : ∀ r < x.batch.bs, 1 ≤ x.commitLens r ∧ x.commitLens r ≤ x.verifySize) :
    x.FollowsRule ↔
      x.trackIndices = none ∨ ∀ r < x.batch.bs, ¬ x.prepared.Crosses x.commitLens r := by
  have hsteps : ∀ step, x.trackIndices ≠ none → x.prepared.steps step =
      some ((List.range x.batch.bs).map step) := by
    intro step hon
    obtain ⟨indices, hindices⟩ := Option.ne_none_iff_exists'.mp hon
    rw [MambaBatch.steps, show x.prepared.mambaTrackIndices = x.trackIndices from rfl, hindices]
    rfl
  constructor
  · intro h
    by_contra hnot
    rw [not_or] at hnot
    obtain ⟨hon, hcross⟩ := hnot
    push Not at hcross
    obtain ⟨r, hr, hcross⟩ := hcross
    -- a request that crosses should be tracked, and is not
    have htracked := ((h.tracked _ (by rw [verify_eq]; exact hsteps _ hon) r hr).1.mpr hcross)
    refine htracked ?_
    rw [List.getD_eq_getElem _ _ (by simpa using hr), List.getElem_map]
  · intro h
    have hpos : ∀ r < x.prepared.bs, 1 ≤ x.commitLens r := fun r hr => (hcommit r hr).1
    have hgrid : 1 ≤ x.prepared.mambaTrackInterval := hinterval
    have hshared : x.shared = _ := MambaBatch.shared_tracks hgrid hpos x.verifySize
    rcases h with hoff | hnone
    · have hnil : ∀ step, x.prepared.steps step = none := by
        intro step
        rw [MambaBatch.steps, show x.prepared.mambaTrackIndices = x.trackIndices from rfl, hoff]
        rfl
      refine ⟨?_, fun steps hsome => ?_⟩
      · rw [hshared, verify_eq, hnil, hnil]
        rfl
      · rw [verify_eq, hnil] at hsome
        cases hsome
    · have hnot : ∀ r ∈ List.range x.batch.bs,
          (if x.prepared.Crosses x.commitLens r then x.prepared.crossingStep x.commitLens r
            else -1) = -1 :=
        fun r hr => if_neg (hnone r (List.mem_range.mp hr))
      refine ⟨?_, fun steps hsome r hr => ?_⟩
      · rw [hshared, verify_eq]
        refine congrArg _ ?_
        exact congrArg (Option.map · x.prepared.mambaTrackIndices)
          (funext fun _ => (List.map_congr_left hnot).symm)
      · have hon : x.trackIndices ≠ none := by
          rintro hoff
          rw [verify_eq, MambaBatch.steps,
            show x.prepared.mambaTrackIndices = x.trackIndices from rfl, hoff] at hsome
          cases hsome
        rw [verify_eq, hsteps _ hon] at hsome
        obtain rfl := Option.some.inj hsome
        have hstep : ((List.range x.batch.bs).map fun _ => (-1 : ℤ)).getD r (-1) = -1 := by
          rw [List.getD_eq_getElem _ _ (by simpa using hr), List.getElem_map]
        rw [hstep]
        exact ⟨⟨fun h => absurd rfl h, fun h => absurd h (hnone r hr)⟩, fun h => absurd rfl h⟩

/-- One request of three tokens that commits two, with an interval of four. -/
def crossingVerify (interval : ℕ) : DflashVerify where
  batch := ⟨1, fun _ => 3, none, interval⟩
  verifySize := 4
  trackIndices := some fun _ => 0
  accepted := (fun _ => 2, none)
  simulated := none

theorem followsRule_iff_eight : (crossingVerify 8).FollowsRule := by
  refine (followsRule_iff (crossingVerify 8) (by decide) (by decide)).mpr (.inr ?_)
  decide

/-- **A crossing that is not tracked**: the shared rule tracks the first step. -/
theorem crossing_not_tracked :
    (crossingVerify 4).verify.1 = ⟨[1], some [-1]⟩ ∧ (crossingVerify 4).shared = ⟨[1], some [0]⟩ ∧
      ¬ (crossingVerify 4).FollowsRule := by
  have hverify : (crossingVerify 4).verify.1 = ⟨[1], some [-1]⟩ := by decide
  have hshared : (crossingVerify 4).shared = ⟨[1], some [0]⟩ := by decide
  refine ⟨hverify, hshared, fun h => ?_⟩
  have heq := h.eq_shared
  rw [hverify, hshared] at heq
  exact absurd heq (by decide)

end DflashVerify

end LatentSpec
