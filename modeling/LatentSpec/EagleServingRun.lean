import LatentSpec.EagleServing

/-! # EAGLE serving is lossless

`EagleServer.Reachable` are the states of the engine: from an empty one by prefills, by verify steps
for any batch and any drafts, and by what the scheduler does in between.  `Reachable.inv` is the run
lemma; `Reachable.lossless` reads it: whatever was drafted, the output of every request is the
greedy decoding of its prompt, and the pool holds the states of the committed tokens.
`verify_progress` says how far a step gets: it commits at least one token, and goes along the
longest branch that greedy decoding would take.
-/
namespace LatentSpec.EagleTree
open SiblingLists TiledStores TreeDecoder

variable {S : Type}

/-! ### Between the steps -/

/-- What is kept of a request: its tokens, and what its committed slots hold. -/
structure EagleState.Keeps (s s' : EagleState S) (m : EagleServer S) (r : ℕ) : Prop where
  live : s.live r
  originInputIds : s'.originInputIds r = s.originInputIds r
  outputIds : s'.outputIds r = s.outputIds r
  seqLens : s'.seqLens r = s.seqLens r
  bonusTokens : s'.bonusTokens r = s.bonusTokens r
  allocated : s.seqLens r ≤ s'.kvAllocatedLen r
  slots : ∀ l < m.model.numLayers, ∀ p < s.seqLens r,
    s'.kvBuffer l (s'.slot m r p) = s.kvBuffer l (s.slot m r p)

/-- **A prefill**: request `r` joins with the states of its prompt in the pool, found in the prefix
cache or computed, and with its first token. -/
structure EagleState.Prefills (s s' : EagleState S) (m : EagleServer S) (r : ℕ) : Prop where
  others : ∀ r', s'.live r' → r' ≠ r → s.Keeps s' m r'
  outputIds : s'.outputIds r = [m.model.nextToken (s'.originInputIds r)]
  seqLens : s'.seqLens r = (s'.originInputIds r).length
  bonusTokens : s'.bonusTokens r = m.model.nextToken (s'.originInputIds r)
  allocated : s'.seqLens r ≤ s'.kvAllocatedLen r
  slots : ∀ l < m.model.numLayers, ∀ p < s'.seqLens r, s'.kvBuffer l (s'.slot m r p) =
    m.model.state (Decoder.seqOf (s'.originInputIds r)) l p

section Between
variable {m : EagleServer S} {s s' : EagleState S} {r : ℕ}

theorem EagleState.Keeps.tokens (h : s.Keeps s' m r) : s'.tokens r = s.tokens r := by
  rw [EagleState.tokens, h.originInputIds, h.outputIds]
  rfl

theorem EagleState.Inv.keeps (hs : s.Inv m) (h : ∀ r, s'.live r → s.Keeps s' m r) : s'.Inv m := by
  refine ⟨fun r hr => ?_, fun r hr => ?_, fun r hr => ?_, fun r hr l hl p hp => ?_⟩
  · rw [(h r hr).seqLens]
    exact (h r hr).allocated
  · rw [(h r hr).tokens, (h r hr).bonusTokens, (h r hr).seqLens]
    exact hs.bonus r (h r hr).live
  · rw [(h r hr).outputIds, (h r hr).originInputIds]
    exact hs.greedy r (h r hr).live
  · rw [(h r hr).seqLens] at hp
    rw [(h r hr).tokens, (h r hr).slots l hl p hp]
    exact hs.cached r (h r hr).live l hl p hp

/-- The invariant of one request alone. -/
theorem EagleState.Inv.prefills (hs : s.Inv m) (h : s.Prefills s' m r) : s'.Inv m := by
  have hother : ∀ r', s'.live r' → r' ≠ r → s.Keeps s' m r' := h.others
  have htokens : s'.tokens r =
      s'.originInputIds r ++ [m.model.nextToken (s'.originInputIds r)] := by
    rw [EagleState.tokens, h.outputIds]
  refine ⟨fun r' hr => ?_, fun r' hr => ?_, fun r' hr => ?_, fun r' hr l hl p hp => ?_⟩
  · by_cases heq : r' = r
    · subst heq
      exact h.allocated
    · rw [(hother r' hr heq).seqLens]
      exact (hother r' hr heq).allocated
  · by_cases heq : r' = r
    · subst heq
      rw [htokens, h.bonusTokens, h.seqLens]
      exact ⟨_, rfl, rfl⟩
    · rw [(hother r' hr heq).tokens, (hother r' hr heq).bonusTokens, (hother r' hr heq).seqLens]
      exact hs.bonus r' (hother r' hr heq).live
  · by_cases heq : r' = r
    · subst heq
      rw [h.outputIds]
      intro k t hk
      obtain ⟨hlt, -⟩ := List.getElem?_eq_some_iff.mp hk
      obtain rfl := Nat.lt_one_iff.mp hlt
      rw [List.take_zero, List.append_nil]
      exact (Option.some.inj hk).symm
    · rw [(hother r' hr heq).outputIds, (hother r' hr heq).originInputIds]
      exact hs.greedy r' (hother r' hr heq).live
  · by_cases heq : r' = r
    · subst heq
      rw [h.slots l hl p hp, htokens]
      rw [h.seqLens] at hp
      exact Decoder.state_congr (fun j hj => (Decoder.seqOf_append _ (by omega)).symm) l
    · have hkeeps := hother r' hr heq
      rw [hkeeps.seqLens] at hp
      rw [hkeeps.tokens, hkeeps.slots l hl p hp]
      exact hs.cached r' hkeeps.live l hl p hp

end Between

namespace EagleServer

/-! ### Runs -/

/-- **The states of the engine**: whatever the pool held at first, prefills and verify steps in any
order; in between the scheduler drops requests and allocates, and the draft model and others write
to slots that nobody has committed. -/
inductive Reachable (m : EagleServer S) : EagleState S → Prop
  | init {s : EagleState S} (live : ∀ r, ¬ s.live r) : Reachable m s
  | schedule {s s' : EagleState S} (hs : Reachable m s) (h : ∀ r, s'.live r → s.Keeps s' m r) :
      Reachable m s'
  | prefill {s s' : EagleState S} {r : ℕ} (hs : Reachable m s) (h : s.Prefills s' m r) :
      Reachable m s'
  | verify {s : EagleState S} {d : VerifyStep} (hs : Reachable m s) (hd : d.Gathered m s) :
      Reachable m (m.verify s d)

variable {m : EagleServer S} {s : EagleState S}

/-- **The run lemma.** -/
theorem Reachable.inv (h : m.Reachable s) : s.Inv m := by
  induction h with
  | init live =>
    exact ⟨fun r hr => absurd hr (live r), fun r hr => absurd hr (live r),
      fun r hr => absurd hr (live r), fun r hr => absurd hr (live r)⟩
  | schedule _ h ih => exact ih.keeps h
  | prefill _ h ih => exact ih.prefills h
  | verify _ hd ih => exact verify_inv ih hd

/-- **EAGLE serving is lossless**, in every run and for every draft: the output of a live request is
the greedy decoding of its prompt, all of its tokens but the last are in the pool, and the slot of
each of them holds, in every layer, the state of the token in the committed sequence. -/
theorem Reachable.lossless (h : m.Reachable s) {r : ℕ} (hr : s.live r) :
    s.outputIds r = m.model.greedyDecode (s.outputIds r).length (s.originInputIds r) ∧
      s.seqLens r + 1 = (s.tokens r).length ∧
      ∀ l < m.model.numLayers, ∀ p < s.seqLens r, s.kvBuffer l (s.slot m r p) =
        m.model.state (Decoder.seqOf (s.tokens r)) l p :=
  ⟨Decoder.eq_greedyDecode (h.inv.greedy r hr), (h.inv.length_tokens hr).symm, h.inv.cached r hr⟩

/-- The state of a position is the sum of the tokens up to it, and the next token is its last
digit. -/
def sumServer : EagleServer ℤ where
  model := {
    embed := fun t _ => t
    layer := fun _ _ keys => keys.sum
    numLayers := 1
    predict := fun x => x % 10 }
  topk := 2
  numSteps := 2
  numDraftTokens := 4
  poolLen := 16
  steps_lt := Nat.lt_succ_of_lt (Nat.lt_succ_self 2)

/-- No request yet. -/
def sumEmpty : EagleState ℤ where
  live _ := False
  originInputIds _ := []
  outputIds _ := []
  seqLens _ := 0
  bonusTokens _ := 0
  reqToToken k := k
  kvAllocatedLen _ := 0
  kvBuffer _ _ := 0

/-- A request in row 1, with two prompt tokens. -/
def sumAdmitted : EagleState ℤ where
  live r := r = 1
  originInputIds _ := [3, 4]
  outputIds _ := [7]
  seqLens _ := 2
  bonusTokens _ := 7
  reqToToken k := k
  kvAllocatedLen _ := 8
  kvBuffer _ slot := [3, 4].getD (slot - 16) 0

/-- The step that verifies it. -/
def sumStep : VerifyStep where
  bs := 1
  reqPoolIndices _ := 1
  parentList _ j := [-1, 0, 1].getD j 0
  topScoresIndex _ j := [0, 1, 2].getD j 0
  draftTokens _ j := [4, 5, 8].getD j 0
  freshPositions _ := 0
  freshLocs _ := 0
  freshIndices _ := 0
  freshNum _ := 0

theorem sumAdmitted_reachable : sumServer.Reachable sumAdmitted := by
  refine .prefill (r := 1) (.init (s := sumEmpty) fun _ hr => hr)
    ⟨fun r hr hne => absurd hr hne, rfl, rfl, rfl, ?_, ?_⟩
  · decide
  · intro l hl p hp
    obtain rfl := Nat.lt_one_iff.mp hl
    have hp' : p < 2 := hp
    interval_cases p <;> rfl

theorem sumStep_owns : sumAdmitted.Owns sumServer sumStep := by
  have hslot : ∀ r p, sumAdmitted.slot sumServer r p = r * 16 + p := fun _ _ => rfl
  have hlen : ∀ b, EagleServer.seqLens sumAdmitted sumStep b = 2 := fun _ => rfl
  refine ⟨fun b _ => rfl, fun b hb b' hb' _ => ?_, fun b _ => ?_, fun b _ j hj r p hr hp heq => ?_,
    fun b _ j hj => ?_⟩
  · exact (Nat.lt_one_iff.mp hb).trans (Nat.lt_one_iff.mp hb').symm
  · exact (by decide : 2 + 4 ≤ 8)
  · have hr' : r = 1 := hr
    have hrow : sumStep.reqPoolIndices b = 1 := rfl
    rw [hslot, hslot, hlen, hrow] at heq
    rw [hlen, hrow]
    omega
  · have hrow : sumStep.reqPoolIndices b = 1 := rfl
    rw [hslot, hlen, hrow]
    omega

theorem sumStep_gathered : sumStep.Gathered sumServer sumAdmitted := by
  have hsorted : ∀ j < 3, ∀ i < j,
      sumStep.topScoresIndex 0 i < sumStep.topScoresIndex 0 j := by decide
  have hparent : ∀ j < 3, sumStep.topScoresIndex 0 j / 2 ≠ 0 →
      sumStep.parentList 0 (sumStep.topScoresIndex 0 j / 2) <
        sumStep.topScoresIndex 0 j := by decide
  have hdepth : ∀ tx < 4,
      depth ((sumServer.buildArgs sumAdmitted sumStep).parentOf 0) tx ≤ 2 := by decide
  refine ⟨sumStep_owns, fun b hb => ?_, fun htopk => absurd htopk (by decide)⟩
  obtain rfl := Nat.lt_one_iff.mp hb
  exact ⟨⟨fun i j hij hj => hsorted j hj i hij, hparent⟩, hdepth⟩

theorem Reachable.lossless_sum :
    (sumServer.verify sumAdmitted sumStep).outputIds 1 = [7, 4, 8, 6] ∧
      (sumServer.verify sumAdmitted sumStep).outputIds 1 = sumServer.model.greedyDecode
        ((sumServer.verify sumAdmitted sumStep).outputIds 1).length [3, 4] ∧
      (sumServer.verify sumAdmitted sumStep).seqLens 1 + 1 =
        ((sumServer.verify sumAdmitted sumStep).tokens 1).length ∧
      ∀ l < 1, ∀ p < (sumServer.verify sumAdmitted sumStep).seqLens 1,
        (sumServer.verify sumAdmitted sumStep).kvBuffer l
            ((sumServer.verify sumAdmitted sumStep).slot sumServer 1 p) =
          sumServer.model.state
            (Decoder.seqOf ((sumServer.verify sumAdmitted sumStep).tokens 1)) l p :=
  ⟨by decide +kernel, Reachable.lossless (sumAdmitted_reachable.verify sumStep_gathered) rfl⟩

/-- **What a step commits**, in every run: the next tokens of greedy decoding, at least one and no
more than the draft loop has steps and one; and when no two children of a node have one token, more
than any branch that greedy decoding would take. -/
theorem Reachable.verify_progress (h : m.Reachable s) {d : VerifyStep} (hd : d.Gathered m s) {b : ℕ}
    (hb : b < d.bs) :
    (m.verify s d).outputIds (d.reqPoolIndices b) = s.outputIds (d.reqPoolIndices b) ++
        m.model.greedyDecode (m.acceptLens s d b) (s.tokens (d.reqPoolIndices b)) ∧
      1 ≤ m.acceptLens s d b ∧ m.acceptLens s d b ≤ m.numSteps + 1 ∧
      ((∀ v, ∀ c ∈ m.kids s d b v, ∀ c' ∈ m.kids s d b v,
          m.draftToken s d (b * m.numDraftTokens + c) =
            m.draftToken s d (b * m.numDraftTokens + c') → c = c') →
        ∀ p, m.Branch s d b p →
          m.spelled s d b p = s.tokens (d.reqPoolIndices b) ++
            m.model.greedyDecode p.length (s.tokens (d.reqPoolIndices b)) →
          p.length < m.acceptLens s d b) := by
  refine ⟨?_, Nat.succ_pos _, acceptLens_le hd hb, fun hone p hp hgreedy => ?_⟩
  · rw [(verify_entry hd hb).1, resolved_eq_greedyDecode h.inv hd hb]
  · rw [acceptLens_eq hd hb]
    exact Nat.lt_succ_of_le (greedy_prefix_accepted h.inv hd hb hone hp hgreedy).length_le

end EagleServer

end LatentSpec.EagleTree
