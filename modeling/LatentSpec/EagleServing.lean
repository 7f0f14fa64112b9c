import LatentSpec.EagleVerifyStep
import LatentSpec.LatentServingRun

/-! # Runs of EAGLE serving

What the engine commits in a verify step are the predictions along the accepted path, and each of
them is what greedy decoding puts next, whatever was drafted (`resolved_greedy`).  The pool holds,
for every committed position, the state of the committed sequence there: the pass writes the states
of the nodes into the slots of the block, and moving the path to the front brings each under its
position (`nextKv_slot`).

`EagleServer.Reachable` are the states of the engine: prefills, verify steps for any batch and any
drafts, and what the scheduler does in between.  `Reachable.greedy` says that every output is the
greedy decoding of its prompt.
-/
namespace LatentSpec.EagleTree
open SiblingLists TiledStores TreeDecoder

variable {S : Type}

namespace EagleServer
variable {m : EagleServer S} {s : EagleState S} {d : VerifyStep} {b : ℕ}

/-! ### Branches -/

/-- A path of the tree from the root down, without the root. -/
def Branch (m : EagleServer S) (s : EagleState S) (d : VerifyStep) (b : ℕ) (p : List ℕ) : Prop :=
  Passing (m.kids s d b) (fun _ _ => true) 0 p

theorem branch_accepted : m.Branch s d b (m.accepted s d b) :=
  (passing_descend _ 0).mono fun _ _ _ _ _ => rfl

section Branches
variable {p : List ℕ} (hp : m.Branch s d b p)
include hp

theorem Branch.succ {k c : ℕ} (hk : (0 :: p)[k + 1]? = some c) :
    ∃ u, (0 :: p)[k]? = some u ∧ c ∈ m.kids s d b u := by
  obtain ⟨u, hu, hmem, -⟩ := hp.getElem? (show p[k]? = some c from hk)
  exact ⟨u, hu, hmem⟩

theorem Branch.lt {k v : ℕ} (hk : (0 :: p)[k]? = some v) : v < m.numDraftTokens := by
  cases k with
  | zero =>
    obtain rfl := Option.some.inj hk
    exact m.numDraftTokens_pos
  | succ k =>
    obtain ⟨u, -, hmem⟩ := hp.succ hk
    exact (mem_kids hmem).1

variable (hd : d.Gathered m s) (hb : b < d.bs)
include hd hb

theorem Branch.depth {k v : ℕ} (hk : (0 :: p)[k]? = some v) :
    SiblingLists.depth (m.parent s d b) v = k ∧ Above (m.parent s d b) v 0 := by
  induction k generalizing v with
  | zero =>
    obtain rfl := Option.some.inj hk
    exact ⟨rfl, .refl⟩
  | succ k ih =>
    obtain ⟨u, hu, hmem⟩ := hp.succ hk
    obtain ⟨hdepth, habove⟩ := ih hu
    have hparent := (mem_kids hmem).2
    rw [depth_of_parent (parent_lt hd hb) hparent, hdepth]
    exact ⟨rfl, .head hparent habove⟩

/-- No branch is longer than the draft loop. -/
theorem Branch.length_le : p.length ≤ m.numSteps := by
  obtain ⟨v, hv⟩ : ∃ v, (0 :: p)[p.length]? = some v :=
    ⟨_, List.getElem?_eq_getElem (by rw [List.length_cons]; omega)⟩
  rw [← (hp.depth hd hb hv).1]
  exact (hd.buildable b hb).depth_le v (hp.lt hv)

/-- What is above a node of a branch is a node of the branch. -/
theorem Branch.above {k v c : ℕ} (hk : (0 :: p)[k]? = some v)
    (hc : Above (m.parent s d b) v c) : ∃ j : ℕ, (0 :: p)[j]? = some c := by
  induction k generalizing v with
  | zero =>
    obtain rfl := Option.some.inj hk
    obtain rfl := Nat.le_zero.mp (above_le (parent_lt hd hb) hc)
    exact ⟨0, hk⟩
  | succ k ih =>
    obtain ⟨u, hu, hmem⟩ := hp.succ hk
    rcases hc.cases_head with rfl | ⟨q, hq, habove⟩
    · exact ⟨k + 1, hk⟩
    · rw [(mem_kids hmem).2] at hq
      obtain rfl := Option.some.inj hq
      exact ih hu habove

/-- With one branch it is the front of the block. -/
theorem Branch.chain (htopk : m.topk ≤ 1) {k v : ℕ} (hk : (0 :: p)[k]? = some v) : v = k := by
  induction k generalizing v with
  | zero => exact (Option.some.inj hk).symm
  | succ k ih =>
    obtain ⟨u, hu, hmem⟩ := hp.succ hk
    rw [hd.chain htopk b hb u v hmem, ih hu]

end Branches

/-! ### What is committed -/

theorem length_resolved (m : EagleServer S) (s : EagleState S) (d : VerifyStep) (b : ℕ) :
    (m.resolved s d b).length = m.acceptLens s d b := by
  rw [resolved, List.length_map, List.length_range]

section Commit
variable (hd : d.Gathered m s) (hb : b < d.bs)
include hd hb

theorem acceptLens_eq : m.acceptLens s d b = (m.accepted s d b).length + 1 := by
  rw [acceptLens, (sample_verified hd hb).1.num]

theorem acceptLens_le : m.acceptLens s d b ≤ m.numSteps + 1 := by
  rw [acceptLens_eq hd hb]
  exact Nat.succ_le_succ (branch_accepted.length_le hd hb)

theorem exists_accepted {k : ℕ} (hk : k < m.acceptLens s d b) :
    ∃ v, (0 :: m.accepted s d b)[k]? = some v := by
  rw [acceptLens_eq hd hb] at hk
  exact ⟨_, List.getElem?_eq_getElem hk⟩

variable {k v : ℕ} (hk : (0 :: m.accepted s d b)[k]? = some v)
include hk

theorem acceptIndex_accepted :
    (m.sample s d).acceptIndex b k = ((b * m.numDraftTokens + v : ℕ) : ℤ) :=
  (sample_verified hd hb).1.index k v hk

theorem predicts_accepted :
    (m.sample s d).predicts ((b * m.numDraftTokens + v : ℕ) : ℤ) = m.targetPredict s d b v :=
  (sample_verified hd hb).1.predicts v (List.mem_of_getElem? hk)

/-- **The tokens that are committed** are the predictions along the path. -/
theorem resolved_getElem? : (m.resolved s d b)[k]? = some (m.targetPredict s d b v) := by
  obtain ⟨hlt, -⟩ := List.getElem?_eq_some_iff.mp hk
  rw [List.length_cons, ← acceptLens_eq hd hb] at hlt
  have hlen := hlt.trans_le (acceptLens_le hd hb)
  rw [resolved, List.getElem?_map, List.getElem?_range hlt, Option.map_some]
  refine congrArg some ?_
  have hkn : k < m.numDraftTokens := hlen.trans_le m.steps_lt
  unfold nextTokenIds
  split
  · unfold compactPredict
    dsimp only
    rw [block_div hkn, block_mod hkn, if_pos hlen, acceptIndex_accepted hd hb hk,
      max_eq_left (Int.natCast_nonneg _), predicts_accepted hd hb hk]
  · rename_i htopk
    obtain rfl := branch_accepted.chain hd hb (Nat.le_of_not_lt htopk) hk
    exact predicts_accepted hd hb hk

omit hk

/-- The draft tokens of the path are the tokens that are committed, but for the last. -/
theorem draftToken_accepted {k c : ℕ} (hk : (m.accepted s d b)[k]? = some c) :
    (m.resolved s d b)[k]? = some (m.draftToken s d (b * m.numDraftTokens + c)) := by
  obtain ⟨u, hu, -, hpass⟩ := (passing_descend _ 0).getElem? hk
  rw [resolved_getElem? hd hb hu]
  exact congrArg some (of_decide_eq_true hpass).symm

/-- The next bonus token is the last one that is committed. -/
theorem resolved_bonus :
    (m.resolved s d b)[m.acceptLens s d b - 1]? = some (m.nextBonus s d b) := by
  have hpos : 0 < m.acceptLens s d b := Nat.succ_pos _
  have hle := acceptLens_le hd hb
  have hlt : m.acceptLens s d b - 1 < m.numSteps + 1 := by omega
  obtain ⟨v, hv⟩ :=
    exists_accepted hd hb (show m.acceptLens s d b - 1 < m.acceptLens s d b by omega)
  rw [resolved_getElem? hd hb hv, nextBonus, acceptTokens,
    show (m.numSteps + 1) * b + m.acceptLens s d b - 1 =
      b * (m.numSteps + 1) + (m.acceptLens s d b - 1) by rw [Nat.mul_comm]; omega,
    block_div hlt, block_mod hlt, acceptIndex_accepted hd hb hv,
    if_neg (Int.not_lt.mpr (Int.natCast_nonneg _)), predicts_accepted hd hb hv]

/-- What is committed is the tokens of the path and the bonus token. -/
theorem resolved_eq : m.resolved s d b =
    (m.accepted s d b).map (fun c => m.draftToken s d (b * m.numDraftTokens + c)) ++
      [m.nextBonus s d b] := by
  have hlen := acceptLens_eq hd hb
  refine List.ext_getElem? fun k => ?_
  rcases Nat.lt_trichotomy k (m.accepted s d b).length with hlt | rfl | hgt
  · have hk : (m.accepted s d b)[k]? = some _ := List.getElem?_eq_getElem hlt
    rw [draftToken_accepted hd hb hk, List.getElem?_append_left (by rwa [List.length_map]),
      List.getElem?_map, hk]
    rfl
  · have hbonus := resolved_bonus hd hb
    rw [hlen, Nat.add_sub_cancel] at hbonus
    rw [hbonus, List.getElem?_append_right (by rw [List.length_map]), List.length_map, Nat.sub_self]
    rfl
  · rw [List.getElem?_eq_none (by rw [length_resolved]; omega), List.getElem?_eq_none]
    rw [List.length_append, List.length_map]
    exact hgt

end Commit

end EagleServer

/-! ### The invariant -/

/-- **What holds between steps**, of every live request: the bonus token is the last token and the
only one whose state is not in the pool, and every output token is the greedy one. -/
structure EagleState.Inv (s : EagleState S) (m : EagleServer S) : Prop where
  allocated : ∀ r, s.live r → s.seqLens r ≤ s.kvAllocatedLen r
  bonus : ∀ r, s.live r → ∃ xs, s.tokens r = xs ++ [s.bonusTokens r] ∧ xs.length = s.seqLens r
  greedy : ∀ r, s.live r → ∀ k t, (s.outputIds r)[k]? = some t →
    t = m.model.nextToken (s.originInputIds r ++ (s.outputIds r).take k)
  cached : ∀ r, s.live r → ∀ l < m.model.numLayers, ∀ p < s.seqLens r,
    s.kvBuffer l (s.slot m r p) = m.model.state (Decoder.seqOf (s.tokens r)) l p

theorem EagleState.Inv.length_tokens {s : EagleState S} {m : EagleServer S} (hs : s.Inv m) {r : ℕ}
    (hr : s.live r) : (s.tokens r).length = s.seqLens r + 1 := by
  obtain ⟨xs, htokens, hlen⟩ := hs.bonus r hr
  rw [htokens, List.length_append, hlen]
  rfl

namespace EagleServer
variable {m : EagleServer S} {s : EagleState S} {d : VerifyStep} {b : ℕ}

/-- The tokens of a request of the batch, and those of a path of its tree. -/
def spelled (m : EagleServer S) (s : EagleState S) (d : VerifyStep) (b : ℕ) (p : List ℕ) : List ℤ :=
  s.tokens (d.reqPoolIndices b) ++ p.map fun c => m.draftToken s d (b * m.numDraftTokens + c)

section Step
variable (hs : s.Inv m) (hd : d.Gathered m s) (hb : b < d.bs)
include hs hd hb

theorem draftToken_branch {p : List ℕ} {k v : ℕ} (hk : (0 :: p)[k]? = some v) :
    m.draftToken s d (b * m.numDraftTokens + v) =
      Decoder.seqOf (m.spelled s d b p) (seqLens s d b + k) := by
  have hlive := hd.owns.live b hb
  cases k with
  | zero =>
    obtain rfl := Option.some.inj hk
    obtain ⟨xs, htokens, hlen⟩ := hs.bonus _ hlive
    have hn := m.numDraftTokens_pos
    rw [draftToken, block_div hn, block_mod hn, if_pos rfl, spelled, htokens, List.append_assoc,
      List.singleton_append, Nat.add_zero, show seqLens s d b = xs.length from hlen.symm,
      Decoder.seqOf_length]
  | succ k =>
    have hlen : _ = seqLens s d b + 1 := hs.length_tokens hlive
    rw [spelled, Decoder.seqOf, List.getD_append_right _ _ _ _ (by omega), hlen,
      show seqLens s d b + (k + 1) - (seqLens s d b + 1) = k by omega, List.getD_eq_getElem?_getD,
      List.getElem?_map, show p[k]? = some v from hk]
    rfl

/-- **The states of the nodes of a branch** are those of the sequence that it spells. -/
theorem hidden_branch {p : List ℕ} (hp : m.Branch s d b p) {k v : ℕ} (hk : (0 :: p)[k]? = some v)
    {l : ℕ} (hl : l ≤ m.model.numLayers) :
    m.hidden s d l (b * m.numDraftTokens + v) =
      m.model.state (Decoder.seqOf (m.spelled s d b p)) l (seqLens s d b + k) := by
  have hlive := hd.owns.live b hb
  have hv := hp.lt hk
  obtain ⟨hdepth, hroot⟩ := hp.depth hd hb hk
  have hstate := m.model.nodeState_eq (Decoder.seqOf (m.spelled s d b p))
    (rows_path hd hb hv hroot) (fun l hl i hi => ?_) (fun c hc => ?_) hl
  · rw [hidden_eq hb l hv, hstate, position_eq hd hb hv, hdepth]
  · -- the prefix is what was committed before
    refine (hs.cached _ hlive l hl i hi).trans (Decoder.state_congr (fun j hj => ?_) l)
    have hlen : _ = seqLens s d b + 1 := hs.length_tokens hlive
    have hi' : i < seqLens s d b := hi
    exact (Decoder.seqOf_append _ (by omega)).symm
  · obtain ⟨hcn, hc⟩ := (mem_sees hd hb hv).mp hc
    have habove : Above (m.parent s d b) v c := by
      rcases hc with rfl | habove
      · exact hroot
      · exact habove
    obtain ⟨j, hj⟩ := hp.above hd hb hk habove
    rw [position_eq hd hb hcn, (hp.depth hd hb hj).1]
    exact draftToken_branch hs hd hb hj

/-- **What the target predicts at a node** is what it predicts behind the tokens of its branch. -/
theorem targetPredict_branch {p : List ℕ} (hp : m.Branch s d b p) {k v : ℕ}
    (hk : (0 :: p)[k]? = some v) :
    m.targetPredict s d b v = m.model.nextToken (m.spelled s d b (p.take k)) := by
  obtain ⟨hlt, -⟩ := List.getElem?_eq_some_iff.mp hk
  rw [List.length_cons] at hlt
  have hlen : _ = seqLens s d b + 1 := hs.length_tokens (hd.owns.live b hb)
  have hspelled : (m.spelled s d b (p.take k)).length = seqLens s d b + k + 1 := by
    rw [spelled, List.length_append, hlen, List.length_map, List.length_take]
    omega
  have hsplit : m.spelled s d b p = m.spelled s d b (p.take k) ++
      (p.drop k).map fun c => m.draftToken s d (b * m.numDraftTokens + c) := by
    rw [spelled, spelled, List.append_assoc, ← List.map_append, List.take_append_drop]
  rw [targetPredict, hidden_branch hs hd hb hp hk le_rfl, Decoder.nextToken, hspelled,
    Nat.add_sub_cancel]
  refine Decoder.next_congr (d := m.model) fun j hj => ?_
  rw [hsplit]
  exact Decoder.seqOf_append _ (by omega)

/-- **Every committed token is the greedy one.** -/
theorem resolved_greedy {k : ℕ} {t : ℤ} (hk : (m.resolved s d b)[k]? = some t) :
    t = m.model.nextToken (s.tokens (d.reqPoolIndices b) ++ (m.resolved s d b).take k) := by
  obtain ⟨hlt, -⟩ := List.getElem?_eq_some_iff.mp hk
  rw [length_resolved] at hlt
  obtain ⟨v, hv⟩ := exists_accepted hd hb hlt
  rw [resolved_getElem? hd hb hv] at hk
  obtain rfl := Option.some.inj hk
  rw [acceptLens_eq hd hb] at hlt
  rw [targetPredict_branch hs hd hb branch_accepted hv, spelled, resolved_eq hd hb,
    List.take_append_of_le_length (by rw [List.length_map]; omega), List.map_take]

/-- The tokens that are committed are those of greedy decoding. -/
theorem resolved_eq_greedyDecode :
    m.resolved s d b =
      m.model.greedyDecode (m.acceptLens s d b) (s.tokens (d.reqPoolIndices b)) := by
  rw [← length_resolved]
  exact Decoder.eq_greedyDecode fun k t hk => resolved_greedy hs hd hb hk

/-- **The longest branch of greedy tokens is accepted**, when no two children of a node have the
same token. -/
theorem greedy_prefix_accepted
    (hone : ∀ v, ∀ c ∈ m.kids s d b v, ∀ c' ∈ m.kids s d b v,
      m.draftToken s d (b * m.numDraftTokens + c) = m.draftToken s d (b * m.numDraftTokens + c') →
        c = c')
    {p : List ℕ} (hp : m.Branch s d b p)
    (hgreedy : m.spelled s d b p = s.tokens (d.reqPoolIndices b) ++
      m.model.greedyDecode p.length (s.tokens (d.reqPoolIndices b))) :
    p <+: m.accepted s d b := by
  have htokens := List.append_cancel_left hgreedy
  have hpassing : Passing (m.kids s d b) ((m.verifyArgs s d).matchesAt b) 0 p := by
    refine hp.mono fun k u c hu hc => decide_eq_true ?_
    have hk : (m.model.greedyDecode p.length (s.tokens (d.reqPoolIndices b)))[k]? =
        some (m.draftToken s d (b * m.numDraftTokens + c)) := by
      rw [← htokens, List.getElem?_map, hc]
      rfl
    have hnext := Decoder.greedyDecode_getElem? hk
    rw [← htokens, ← List.map_take] at hnext
    exact hnext.trans (targetPredict_branch hs hd hb hp hu).symm
  refine hpassing.isPrefix_descend (fun v c c' hc hc' hpass hpass' => ?_) (hp.length_le hd hb)
  exact hone v c hc c' hc' ((of_decide_eq_true hpass).trans (of_decide_eq_true hpass').symm)

end Step

/-! ### The pool after the pass -/

/-- The slot of column `j` of a request's block. -/
def blockSlot (m : EagleServer S) (s : EagleState S) (d : VerifyStep) (b j : ℕ) : ℕ :=
  s.slot m (d.reqPoolIndices b) (seqLens s d b + j)

theorem blockSlot_injective (hd : d.Gathered m s) {b' j j' : ℕ} (hb : b < d.bs)
    (hb' : b' < d.bs) (hj : j < m.numDraftTokens) (hj' : j' < m.numDraftTokens)
    (heq : m.blockSlot s d b j = m.blockSlot s d b' j') : b' = b ∧ j' = j := by
  have hroom := hd.owns.allocated b' hb'
  obtain ⟨hrow, hpos⟩ := hd.owns.distinct b hb j hj (d.reqPoolIndices b') (seqLens s d b' + j')
    (hd.owns.live b' hb') (by omega) heq
  obtain rfl := hd.owns.injective b' hb' b hb hrow
  exact ⟨rfl, by omega⟩

/-- No block reaches a committed position. -/
theorem blockSlot_ne (hs : s.Inv m) (hd : d.Gathered m s) {r p : ℕ} (hr : s.live r)
    (hp : p < s.seqLens r) :
    ∀ b < d.bs, ∀ j < m.numDraftTokens, m.blockSlot s d b j ≠ s.slot m r p := by
  intro b hb j hj heq
  obtain ⟨rfl, hpos⟩ := hd.owns.distinct b hb j hj r p hr (hp.trans_le (hs.allocated r hr)) heq
  have hlt : p < seqLens s d b := hp
  omega

theorem outCacheLoc_getD {v : ℕ} (hb : b < d.bs) (hv : v < m.numDraftTokens) :
    (m.outCacheLoc s d).getD (b * m.numDraftTokens + v) 0 = m.blockSlot s d b v := by
  have hget := ragged_getElem? (fun _ => m.numDraftTokens)
    (fun b o => readRow s.reqToToken m.poolLen (d.reqPoolIndices b) (seqLens s d b + o)) hb hv
  rw [offset_const] at hget
  rw [outCacheLoc, assignExtendCacheLocsUniform_eq, List.getD_eq_getElem?_getD]
  exact congrArg (Option.getD · 0) hget

theorem verifiedKv_eq {l : ℕ} (hl : l < m.model.numLayers) :
    m.verifiedKv s d l = writeAll (s.kvBuffer l) (scatter d.bs (fun _ => m.numDraftTokens)
      (m.blockSlot s d) fun b v => m.hidden s d l (b * m.numDraftTokens + v)) := by
  rw [verifiedKv, if_pos hl, map_range_mul, scatter]
  refine congrArg _ (List.flatMap_congr fun b hb => List.map_congr_left fun v hv => ?_)
  rw [outCacheLoc_getD (List.mem_range.mp hb) (List.mem_range.mp hv)]

theorem verifiedKv_frame (l : ℕ) {a : ℕ}
    (ha : ∀ b < d.bs, ∀ j < m.numDraftTokens, m.blockSlot s d b j ≠ a) :
    m.verifiedKv s d l a = s.kvBuffer l a := by
  by_cases hl : l < m.model.numLayers
  · rw [verifiedKv_eq hl]
    exact writeAll_scatter_of_ne _ _ ha
  · rw [verifiedKv, if_neg hl]

theorem verifiedKv_slot (hd : d.Gathered m s) (hb : b < d.bs) {l v : ℕ}
    (hl : l < m.model.numLayers) (hv : v < m.numDraftTokens) :
    m.verifiedKv s d l (m.blockSlot s d b v) = m.hidden s d l (b * m.numDraftTokens + v) := by
  rw [verifiedKv_eq hl]
  exact writeAll_scatter_of_mem (fun b v => m.hidden s d l (b * m.numDraftTokens + v)) _ hb hv
    fun b' hb' v' hv' heq => blockSlot_injective hd hb hb' hv hv' heq

/-! ### Moving the path to the front -/

section Move
variable (hd : d.Gathered m s)
include hd

/-- The index that is accepted at a place, and `-1` behind the path. -/
theorem acceptIndexFlat_eq (hb : b < d.bs) {k : ℕ} (hk : k < m.numSteps + 1) :
    m.acceptIndexFlat s d (b * (m.numSteps + 1) + k) =
      if k < m.acceptLens s d b then
        ((b * m.numDraftTokens + (0 :: m.accepted s d b).getD k 0 : ℕ) : ℤ) else -1 := by
  rw [acceptIndexFlat, block_div hk, block_mod hk]
  split
  · rename_i hlt
    obtain ⟨v, hv⟩ := exists_accepted hd hb hlt
    rw [List.getD_eq_getElem?_getD, hv]
    exact acceptIndex_accepted hd hb hv
  · rename_i hge
    rw [acceptLens_eq hd hb] at hge
    exact (sample_verified hd hb).2 k (by omega)

/-- The places before one that hold an index. -/
theorem countP_acceptIndexFlat {k : ℕ} (hb : b ≤ d.bs)
    (hk : k = 0 ∨ b < d.bs ∧ k ≤ m.acceptLens s d b) :
    ((List.range (b * (m.numSteps + 1) + k)).countP
      fun i => decide (m.acceptIndexFlat s d i ≠ -1)) = offset (m.acceptLens s d) b + k := by
  -- the first places of a row
  have hrow : ∀ b < d.bs, ∀ k ≤ m.numSteps + 1, ((List.range k).countP fun i =>
      decide (m.acceptIndexFlat s d (b * (m.numSteps + 1) + i) ≠ -1)) =
        min k (m.acceptLens s d b) := by
    intro b hb k hk
    have hcongr : ∀ i ∈ List.range k, (decide (m.acceptIndexFlat s d
        (b * (m.numSteps + 1) + i) ≠ -1) = true ↔ decide (i < m.acceptLens s d b) = true) := by
      intro i hi
      rw [acceptIndexFlat_eq hd hb ((List.mem_range.mp hi).trans_le hk)]
      split
      · rename_i hlt
        rw [decide_eq_true_eq, decide_eq_true_eq]
        exact ⟨fun _ => hlt, fun _ => by omega⟩
      · rename_i hge
        rw [decide_eq_true_eq, decide_eq_true_eq]
        exact ⟨fun h => absurd rfl h, fun h => absurd h hge⟩
    rw [List.countP_congr hcongr, List.countP_eq_length_filter]
    rcases Nat.le_total k (m.acceptLens s d b) with hle | hle
    · rw [List.filter_eq_self.mpr fun i hi => decide_eq_true
        ((List.mem_range.mp hi).trans_le hle), List.length_range, Nat.min_eq_left hle]
    · rw [filter_range_lt hle, List.length_range, Nat.min_eq_right hle]
  -- the rows before
  have hrows : ((List.range (b * (m.numSteps + 1))).countP
      fun i => decide (m.acceptIndexFlat s d i ≠ -1)) = offset (m.acceptLens s d) b := by
    clear hk
    induction b with
    | zero => rw [Nat.zero_mul]; rfl
    | succ b ih =>
      rw [Nat.succ_mul, List.range_add, List.countP_append, List.countP_map, ih (by omega),
        offset_succ]
      refine congrArg _ ((hrow b hb _ le_rfl).trans (Nat.min_eq_right (acceptLens_le hd hb)))
  rw [List.range_add, List.countP_append, List.countP_map, hrows]
  refine congrArg _ ?_
  rcases hk with rfl | ⟨hlt, hk⟩
  · rfl
  · exact (hrow b hlt k (hk.trans (acceptLens_le hd hlt))).trans (Nat.min_eq_left hk)

theorem fillAcceptStores_row (hb : b < d.bs) :
    (List.range (m.numSteps + 1)).flatMap
        (fun k => m.fillAcceptStores s d (b * (m.numSteps + 1) + k)) =
      stretch (offset (m.acceptLens s d) b) (m.acceptLens s d b)
        fun k => m.blockSlot s d b ((0 :: m.accepted s d b).getD k 0) := by
  have hle := acceptLens_le hd hb
  obtain ⟨rest, hrest⟩ := Nat.exists_eq_add_of_le hle
  rw [hrest, List.range_add, List.flatMap_append]
  have haccepted : (List.range (m.acceptLens s d b)).flatMap
      (fun k => m.fillAcceptStores s d (b * (m.numSteps + 1) + k)) =
        stretch (offset (m.acceptLens s d) b) (m.acceptLens s d b)
          fun k => m.blockSlot s d b ((0 :: m.accepted s d b).getD k 0) := by
    rw [stretch, ← List.flatMap_singleton' ((List.range _).map _), List.flatMap_map]
    refine List.flatMap_congr fun k hk => ?_
    have hk' := List.mem_range.mp hk
    obtain ⟨v, hv⟩ := exists_accepted hd hb hk'
    have hget : (0 :: m.accepted s d b).getD k 0 = v := by
      rw [List.getD_eq_getElem?_getD, hv]
      rfl
    rw [fillAcceptStores, countP_acceptIndexFlat hd hb.le (.inr ⟨hb, hk'.le⟩),
      acceptIndexFlat_eq hd hb (hk'.trans_le hle), if_pos hk', if_pos (by omega),
      Int.toNat_natCast, hget, outCacheLoc_getD hb (branch_accepted.lt hv)]
  have hpadding : ((List.range rest).map (m.acceptLens s d b + ·)).flatMap
      (fun k => m.fillAcceptStores s d (b * (m.numSteps + 1) + k)) = [] := by
    refine List.flatMap_eq_nil_iff.mpr fun k hk => ?_
    obtain ⟨j, hj, rfl⟩ := List.mem_map.mp hk
    have hj' := List.mem_range.mp hj
    rw [fillAcceptStores, acceptIndexFlat_eq hd hb (by omega), if_neg (by omega)]
  rw [← hrest, haccepted, hpadding, List.append_nil]

theorem acceptOutCacheLoc_eq : m.acceptOutCacheLoc s d =
    writeAll (fun _ => 0) (stretches (offset (m.acceptLens s d)) (m.acceptLens s d)
      (fun b k => m.blockSlot s d b ((0 :: m.accepted s d b).getD k 0)) d.bs) := by
  rw [acceptOutCacheLoc, ← flatMap_tiles, List.flatMap_assoc, stretches]
  refine congrArg _ (List.flatMap_congr fun b hb => ?_)
  rw [List.flatMap_map]
  exact fillAcceptStores_row hd (List.mem_range.mp hb)

omit hd in
theorem acceptLens_sub (m : EagleServer S) (s : EagleState S) (d : VerifyStep) :
    (fun b => seqLens s d b + (m.sample s d).acceptTokenNum b + 1 - seqLens s d b) =
      m.acceptLens s d := by
  funext b
  rw [acceptLens]
  omega

theorem offset_acceptLens_le :
    offset (m.acceptLens s d) d.bs ≤ d.bs * (m.numSteps + 1) :=
  offset_le_mul _ fun _ hb => acceptLens_le hd hb

/-- The two ends of a move. -/
theorem move_row (hb : b < d.bs) {k : ℕ} (hk : k < m.acceptLens s d b) :
    (m.tgtCacheLoc s d).getD (offset (m.acceptLens s d) b + k) 0 = m.blockSlot s d b k ∧
      m.acceptOutCacheLoc s d (offset (m.acceptLens s d) b + k) =
        m.blockSlot s d b ((0 :: m.accepted s d b).getD k 0) := by
  refine ⟨?_, ?_⟩
  · have hlt := (offset_add_lt hb hk).trans_le (offset_acceptLens_le hd)
    have hget : (m.tgtCacheLoc s d)[offset (m.acceptLens s d) b + k]? =
        some (m.blockSlot s d b k) := by
      rw [← acceptLens_sub m s d] at hlt hk ⊢
      exact assignExtendCacheLocs_getElem? _ _ _ _ _ _ hb hk hlt
    rw [List.getD_eq_getElem?_getD, hget]
    rfl
  · rw [acceptOutCacheLoc_eq hd]
    exact writeAll_ragged _ _ _ hb hk

/-- The moves behind the last request stay in the slot of padding. -/
theorem move_padding {i : ℕ} (hi : i < d.bs * (m.numSteps + 1))
    (hbehind : offset (m.acceptLens s d) d.bs ≤ i) :
    (m.tgtCacheLoc s d).getD i 0 = 0 ∧ m.acceptOutCacheLoc s d i = 0 := by
  refine ⟨?_, ?_⟩
  · have hget : (m.tgtCacheLoc s d)[i]? = some 0 := by
      rw [← acceptLens_sub m s d] at hbehind
      exact assignExtendCacheLocs_getElem?_behind _ _ _ _ _ _ hi hbehind
    rw [List.getD_eq_getElem?_getD, hget]
    rfl
  · rw [acceptOutCacheLoc_eq hd]
    refine writeAll_stretches_of_notMem _ _ _ _ fun b hb hmem => ?_
    have hrow : offset (m.acceptLens s d) (b + 1) ≤ offset (m.acceptLens s d) d.bs :=
      offset_mono _ hb
    rw [offset_succ] at hrow
    omega

/-- Every move is one of the path of a request, or stays in the slot of padding. -/
theorem move_cases {i : ℕ} (hi : i < d.bs * (m.numSteps + 1)) :
    (∃ b < d.bs, ∃ k < m.acceptLens s d b, (m.tgtCacheLoc s d).getD i 0 = m.blockSlot s d b k ∧
      m.acceptOutCacheLoc s d i = m.blockSlot s d b ((0 :: m.accepted s d b).getD k 0)) ∨
    ((m.tgtCacheLoc s d).getD i 0 = 0 ∧ m.acceptOutCacheLoc s d i = 0) := by
  rcases Nat.lt_or_ge i (offset (m.acceptLens s d) d.bs) with hlt | hge
  · obtain ⟨b, hb, k, hk, rfl⟩ := exists_row hlt
    exact .inl ⟨b, hb, k, hk, move_row hd hb hk⟩
  · exact .inr (move_padding hd hi hge)

theorem acceptLens_lt (hb : b < d.bs) {k : ℕ} (hk : k < m.acceptLens s d b) :
    k < m.numDraftTokens := hk.trans_le ((acceptLens_le hd hb).trans m.steps_lt)

theorem movedKv_frame (l : ℕ) {a : ℕ}
    (ha : ∀ b < d.bs, ∀ j < m.numDraftTokens, m.blockSlot s d b j ≠ a) :
    m.movedKv s d l a = m.verifiedKv s d l a := by
  rw [movedKv]
  refine writeAll_of_mem _ (.inl rfl) fun w hw hwa => ?_
  obtain ⟨i, hi, rfl⟩ := List.mem_map.mp hw
  dsimp only at hwa
  rcases move_cases hd (List.mem_range.mp hi) with ⟨b, hb, k, hk, htgt, -⟩ | ⟨htgt, hsrc⟩
  · exact absurd (htgt.symm.trans hwa) (ha b hb k (acceptLens_lt hd hb hk))
  · dsimp only
    rw [hsrc, ← htgt, hwa]

theorem movedKv_slot (hb : b < d.bs) (l : ℕ) {k : ℕ} (hk : k < m.acceptLens s d b) :
    m.movedKv s d l (m.blockSlot s d b k) =
      m.verifiedKv s d l (m.blockSlot s d b ((0 :: m.accepted s d b).getD k 0)) := by
  have hkn := acceptLens_lt hd hb hk
  obtain ⟨htgt, hsrc⟩ := move_row hd hb hk
  have hlt := (offset_add_lt hb hk).trans_le (offset_acceptLens_le hd)
  rw [movedKv]
  refine writeAll_of_mem _ (.inr ?_) fun w hw hwa => ?_
  · rw [List.map_map, ← htgt]
    exact List.mem_map.mpr ⟨_, List.mem_range.mpr hlt, rfl⟩
  · obtain ⟨i, hi, rfl⟩ := List.mem_map.mp hw
    dsimp only at hwa ⊢
    rcases move_cases hd (List.mem_range.mp hi) with ⟨b', hb', k', hk', htgt', hsrc'⟩ | ⟨htgt', -⟩
    · obtain ⟨rfl, rfl⟩ := blockSlot_injective hd hb hb' hkn (acceptLens_lt hd hb' hk')
        (hwa.symm.trans htgt')
      rw [hsrc']
    · exact absurd (hwa.symm.trans htgt') (hd.owns.nonzero b hb k hkn)

end Move

/-! ### One step -/

theorem nextKv_frame (hd : d.Gathered m s) (l : ℕ) {a : ℕ}
    (ha : ∀ b < d.bs, ∀ j < m.numDraftTokens, m.blockSlot s d b j ≠ a) :
    m.nextKv s d l a = s.kvBuffer l a := by
  unfold nextKv
  split
  · rw [movedKv_frame hd l ha, verifiedKv_frame l ha]
  · exact verifiedKv_frame l ha

/-- **The committed slots of a block** hold the states of the committed sequence. -/
theorem nextKv_slot (hs : s.Inv m) (hd : d.Gathered m s) (hb : b < d.bs) {l k : ℕ}
    (hl : l < m.model.numLayers) (hk : k < m.acceptLens s d b) :
    m.nextKv s d l (m.blockSlot s d b k) =
      m.model.state (Decoder.seqOf (m.spelled s d b (m.accepted s d b))) l (seqLens s d b + k) := by
  obtain ⟨v, hv⟩ := exists_accepted hd hb hk
  have hslot : m.nextKv s d l (m.blockSlot s d b k) =
      m.verifiedKv s d l (m.blockSlot s d b v) := by
    unfold nextKv
    split
    · rw [movedKv_slot hd hb l hk, List.getD_eq_getElem?_getD, hv]
      rfl
    · rename_i htopk
      rw [branch_accepted.chain hd hb (Nat.le_of_not_lt htopk) hv]
  rw [hslot, verifiedKv_slot hd hb hl (branch_accepted.lt hv),
    hidden_branch hs hd hb branch_accepted hv hl.le]

/-- A request of the batch after the step. -/
theorem verify_entry (hd : d.Gathered m s) (hb : b < d.bs) :
    (m.verify s d).outputIds (d.reqPoolIndices b) =
        s.outputIds (d.reqPoolIndices b) ++ m.resolved s d b ∧
      (m.verify s d).seqLens (d.reqPoolIndices b) = seqLens s d b + m.acceptLens s d b ∧
      (m.verify s d).bonusTokens (d.reqPoolIndices b) = m.nextBonus s d b := by
  have hentry : entryOf d.bs d.reqPoolIndices (d.reqPoolIndices b) = some b := by
    cases hfind : entryOf d.bs d.reqPoolIndices (d.reqPoolIndices b) with
    | none =>
      have hnone := List.find?_eq_none.mp hfind b (List.mem_range.mpr hb)
      exact absurd (decide_eq_true rfl) hnone
    | some b' =>
      obtain ⟨hb', heq⟩ := ServingState.entryOf_eq_some hfind
      rw [hd.owns.injective b' hb' b hb heq]
  refine ⟨?_, ?_, ?_⟩
  · rw [verify]
    simp only [hentry]
  · rw [verify]
    simp only [hentry]
    rfl
  · rw [verify]
    simp only [hentry]

theorem verify_tokens (hd : d.Gathered m s) (hb : b < d.bs) :
    (m.verify s d).tokens (d.reqPoolIndices b) =
      s.tokens (d.reqPoolIndices b) ++ m.resolved s d b := by
  rw [EagleState.tokens, (verify_entry hd hb).1, ← List.append_assoc]
  rfl

/-- A request that is not in the batch. -/
theorem verify_other {r : ℕ} (hr : ∀ b < d.bs, d.reqPoolIndices b ≠ r) :
    (m.verify s d).outputIds r = s.outputIds r ∧ (m.verify s d).seqLens r = s.seqLens r ∧
      (m.verify s d).bonusTokens r = s.bonusTokens r := by
  have hentry : entryOf d.bs d.reqPoolIndices r = none := by
    refine List.find?_eq_none.mpr fun b hb => ?_
    simpa using hr b (List.mem_range.mp hb)
  refine ⟨?_, ?_, ?_⟩ <;> simp only [verify, hentry]

/-- The committed tokens of a request of the batch end in its new bonus token. -/
theorem verify_bonus (hs : s.Inv m) (hd : d.Gathered m s) (hb : b < d.bs)
    (hr : s.live (d.reqPoolIndices b)) :
    ∃ xs, (m.verify s d).tokens (d.reqPoolIndices b) =
        xs ++ [(m.verify s d).bonusTokens (d.reqPoolIndices b)] ∧
      xs.length = (m.verify s d).seqLens (d.reqPoolIndices b) := by
  obtain ⟨-, hlen, hbonus⟩ := verify_entry hd hb
  have hresolved := length_resolved m s d b
  have hpos : 0 < m.acceptLens s d b := Nat.succ_pos _
  have hlast : m.resolved s d b =
      (m.resolved s d b).take (m.acceptLens s d b - 1) ++ [m.nextBonus s d b] := by
    obtain ⟨hlt, hget⟩ := List.getElem?_eq_some_iff.mp (resolved_bonus hd hb)
    rw [← hget, List.take_append_getElem hlt, List.take_of_length_le (by omega)]
  refine ⟨s.tokens (d.reqPoolIndices b) ++ (m.resolved s d b).take (m.acceptLens s d b - 1),
    ?_, ?_⟩
  · rw [hbonus, List.append_assoc, ← hlast, verify_tokens hd hb]
  · rw [hlen, List.length_append, hs.length_tokens hr, List.length_take, hresolved]
    show s.seqLens _ + 1 + _ = s.seqLens _ + _
    omega

/-- Slots of committed tokens that a step leaves alone. -/
theorem verify_kept (hs : s.Inv m) (hd : d.Gathered m s) {r l p : ℕ} (hr : s.live r)
    (hl : l < m.model.numLayers) (hp : p < s.seqLens r) :
    (m.verify s d).kvBuffer l ((m.verify s d).slot m r p) =
      m.model.state (Decoder.seqOf (s.tokens r)) l p := by
  refine (nextKv_frame hd l (blockSlot_ne hs hd hr hp)).trans ?_
  exact hs.cached r hr l hl p hp

/-- The slots of a request of the batch, those that the step committed included. -/
theorem verify_cached (hs : s.Inv m) (hd : d.Gathered m s) (hb : b < d.bs)
    (hr : s.live (d.reqPoolIndices b)) {l p : ℕ} (hl : l < m.model.numLayers)
    (hp : p < (m.verify s d).seqLens (d.reqPoolIndices b)) :
    (m.verify s d).kvBuffer l ((m.verify s d).slot m (d.reqPoolIndices b) p) =
      m.model.state (Decoder.seqOf ((m.verify s d).tokens (d.reqPoolIndices b))) l p := by
  obtain ⟨-, hlen, -⟩ := verify_entry hd hb
  have hlength : _ = seqLens s d b + 1 := hs.length_tokens hr
  rw [hlen] at hp
  rcases Nat.lt_or_ge p (seqLens s d b) with hlt | hge
  · refine (verify_kept hs hd hr hl hlt).trans (Decoder.state_congr (fun j hj => ?_) l)
    rw [verify_tokens hd hb]
    exact (Decoder.seqOf_append _ (by omega)).symm
  · obtain ⟨k, rfl⟩ := Nat.exists_eq_add_of_le hge
    have hk : k < m.acceptLens s d b := by omega
    refine (nextKv_slot hs hd hb hl hk).trans (Decoder.state_congr (fun j hj => ?_) l)
    have hspelled : (m.spelled s d b (m.accepted s d b)).length =
        seqLens s d b + m.acceptLens s d b := by
      rw [spelled, List.length_append, hlength, List.length_map, acceptLens_eq hd hb]
      omega
    rw [verify_tokens hd hb, resolved_eq hd hb, ← List.append_assoc]
    exact (Decoder.seqOf_append _ (by omega)).symm

/-- **A verify step keeps the invariant**, whatever was drafted. -/
theorem verify_inv (hs : s.Inv m) (hd : d.Gathered m s) : (m.verify s d).Inv m := by
  -- what the step does to a request, in the batch or not
  have hcases : ∀ r, (∃ b < d.bs, d.reqPoolIndices b = r) ∨ ∀ b < d.bs, d.reqPoolIndices b ≠ r := by
    intro r
    by_cases h : ∃ b < d.bs, d.reqPoolIndices b = r
    · exact .inl h
    · exact .inr fun b hb heq => h ⟨b, hb, heq⟩
  refine ⟨fun r hr => ?_, fun r hr => ?_, fun r hr => ?_, fun r hr l hl p hp => ?_⟩
  · rcases hcases r with ⟨b, hb, rfl⟩ | hother
    · have hroom := hd.owns.allocated b hb
      have hle := acceptLens_le hd hb
      have hsteps := m.steps_lt
      rw [(verify_entry hd hb).2.1]
      show _ ≤ s.kvAllocatedLen _
      omega
    · rw [(verify_other hother).2.1]
      exact hs.allocated r hr
  · rcases hcases r with ⟨b, hb, rfl⟩ | hother
    · exact verify_bonus hs hd hb hr
    · obtain ⟨houtput, hlen, hbonus⟩ := verify_other (m := m) (s := s) hother
      obtain ⟨xs, htokens, hxs⟩ := hs.bonus r hr
      refine ⟨xs, ?_, hxs.trans hlen.symm⟩
      rw [EagleState.tokens, houtput, hbonus]
      exact htokens
  · rcases hcases r with ⟨b, hb, rfl⟩ | hother
    · rw [(verify_entry hd hb).1]
      intro k t hk
      rcases Nat.lt_or_ge k (s.outputIds (d.reqPoolIndices b)).length with hlt | hge
      · rw [List.getElem?_append_left hlt] at hk
        rw [List.take_append_of_le_length hlt.le]
        exact hs.greedy _ hr k t hk
      · rw [List.getElem?_append_right hge] at hk
        rw [List.take_append, List.take_of_length_le hge, ← List.append_assoc]
        exact resolved_greedy hs hd hb hk
    · rw [(verify_other hother).1]
      exact hs.greedy r hr
  · rcases hcases r with ⟨b, hb, rfl⟩ | hother
    · exact verify_cached hs hd hb hr hl hp
    · obtain ⟨houtput, hlen, -⟩ := verify_other (m := m) (s := s) hother
      have htokens : (m.verify s d).tokens r = s.tokens r := by
        rw [EagleState.tokens, houtput]
        rfl
      rw [htokens]
      rw [hlen] at hp
      exact verify_kept hs hd hr hl hp

end EagleServer

end LatentSpec.EagleTree
