import LatentSpec.EagleTreeSampling
import LatentSpec.RejectSamplingLaw
import LatentSpec.TreeSampling

/-! # Sampling down the tree of a draft is exact

For coins of `[0, 1)` a block of the sampling kernel emits what `TreeSampling` calls a run: at a
node the coin goes on to a child with the target's probability of its token, and the row that is
left when it goes on to none holds what is missing (`exact_coinTree`).  So over any number of
steps, with the tree of each one made of what was emitted before in any way at all, the tokens of
a request have the law of the target.
-/
namespace LatentSpec.EagleTree
open MeasureTheory Set Coins Categorical ReachSearch TreeSampling SiblingLists

variable {V : ℕ}

/-- Tokens as the tensors hold them. -/
def tokenIds (ts : List (Fin V)) : List ℤ := ts.map fun t : Fin V => ((t : ℕ) : ℤ)

namespace SampleArgs
variable (a : SampleArgs V ℝ) (bx : ℕ) (kids : ℕ → List ℕ) (path : ℕ → List (Fin V))

/-- The same request with other coins. -/
noncomputable def withCoins (a : SampleArgs V ℝ) (bx : ℕ) (u : ℕ → Ico (0 : ℝ) 1)
    (w : Ico (0 : ℝ) 1) : SampleArgs V ℝ :=
  { a with
    uniformSamples := Function.update a.uniformSamples bx fun v => u v
    uniformSamplesForFinalSampling := Function.update a.uniformSamplesForFinalSampling bx w }

/-- The token that the search of a row finds. -/
noncomputable def tokenOf (row : Fin V → ℝ) (fallback : Fin V) (w : Ico (0 : ℝ) 1) : Fin V :=
  let i := (searchFrom 0 (List.ofFn row) (w * ∑ s, row s)).getD fallback
  if h : i < V then ⟨i, h⟩ else fallback

/-- The tree of a request, as a tree that is sampled down. -/
noncomputable def coinTree : CoinTree (Fin V) (Ico (0 : ℝ) 1) (Ico (0 : ℝ) 1) where
  kids := kids
  token := a.candidates bx
  path := path
  choose v u := a.chooseFrom bx (a.targetProbs bx v) u 0 (kids v)
  close v full w := tokenOf (a.closeRow bx kids v full) (a.candidates bx 0) w

/-- **What a step hands to the kernel for a request** behind the tokens `pre`: the tree of a draft
whose siblings differ, with the rows that the target gives behind the tokens of each node. -/
structure Drafted (a : SampleArgs V ℝ) (P : List (Fin V) → Dist V) (pre : List (Fin V)) (bx : ℕ)
    (kids : ℕ → List ℕ) (path : ℕ → List (Fin V)) : Prop where
  pos : 0 < a.numDraftTokens
  single : 1 ≤ a.thresholdSingle
  acc : a.thresholdAcc = 1
  holds : (a.greedy fun _ _ => 0).Holds bx kids
  distinct : ∀ v, ∀ c ∈ kids v, ∀ c' ∈ kids v, a.candidates bx c = a.candidates bx c' → c = c'
  root : path 0 = pre
  path_kid : ∀ v, ∀ c ∈ kids v, path c = path v ++ [a.candidates bx c]
  rows : ∀ v < a.numDraftTokens, a.targetProbs bx v = (P (path v)).val

variable {a bx kids path}

/-- The law of the token that the search finds. -/
theorem real_tokenOf {row : Fin V → ℝ} (hnonneg : ∀ t, 0 ≤ row t) (hpos : 0 < ∑ t, row t)
    (fallback t : Fin V) : unitLaw.real {w | tokenOf row fallback w = t} = row t / ∑ s, row s := by
  have hevent : ∀ w : Ico (0 : ℝ) 1, tokenOf row fallback w = t ↔
      searchFrom 0 (List.ofFn row) (w * ∑ s, row s) = some t.val := by
    intro w
    obtain ⟨s, hs⟩ := exists_searchFrom_ofFn hpos w
    rw [tokenOf, hs, Option.getD_some, dif_pos s.2, Option.some.injEq, Fin.ext_iff]
  simp only [hevent]
  exact unitLaw_real_searchFrom hnonneg hpos t

theorem measurableSet_tokenOf (row : Fin V → ℝ) (fallback t : Fin V) :
    MeasurableSet {w | tokenOf row fallback w = t} := by
  have hset : {w : Ico (0 : ℝ) 1 | tokenOf row fallback w = t} =
      ⋃ o ∈ {o : Option ℕ | (if h : o.getD fallback < V then (⟨o.getD fallback, h⟩ : Fin V)
        else fallback) = t},
        Set.preimage Subtype.val
          {u : ℝ | searchFrom 0 (List.ofFn row) (u * ∑ s, row s) = o} := by
    ext w
    simp [tokenOf]
  rw [hset]
  exact MeasurableSet.biUnion (Set.to_countable _) fun o _ =>
    measurable_subtype_coe (measurableSet_searchFrom _ _ _ o)

theorem measurableSet_chooseFrom (row : Fin V → ℝ) (probAcc : ℝ) (xs : List ℕ) (o : Option ℕ) :
    MeasurableSet {u | a.chooseFrom bx row u probAcc xs = o} := by
  induction xs generalizing probAcc with
  | nil =>
    simp only [chooseFrom]
    exact MeasurableSet.const _
  | cons x xs ih =>
    have hpass : MeasurableSet {u | a.passes row u probAcc (a.candidates bx x) = true} := by
      simp only [passes, decide_eq_true_eq]
      exact measurableSet_Iic.union (MeasurableSet.const _)
    have hset : {u | a.chooseFrom bx row u probAcc (x :: xs) = o} =
        ({u | a.passes row u probAcc (a.candidates bx x) = true} ∩ {_u | some x = o}) ∪
          ({u | a.passes row u probAcc (a.candidates bx x) = true}ᶜ ∩
            {u | a.chooseFrom bx row u (probAcc + row (a.candidates bx x)) xs = o}) := by
      ext u
      by_cases h : a.passes row u probAcc (a.candidates bx x) = true
      · simp [chooseFrom, h]
      · simp [chooseFrom, h]
    rw [hset]
    exact (hpass.inter (MeasurableSet.const _)).union (hpass.compl.inter (ih _))

/-! ### The law of a coin -/

section Exact
variable {P : List (Fin V) → Dist V} {pre : List (Fin V)} (h : a.Drafted P pre bx kids path)
include h

theorem Drafted.nodup_kids (v : ℕ) : (kids v).Nodup := (h.holds.kids_sorted v).imp fun hlt => hlt.ne

theorem Drafted.nonneg {v : ℕ} (hv : v < a.numDraftTokens) (t : Fin V) :
    0 ≤ a.targetProbs bx v t := by
  rw [h.rows v hv]
  exact (P (path v)).nonneg t

theorem Drafted.sum_one {v : ℕ} (hv : v < a.numDraftTokens) : ∑ t, a.targetProbs bx v t = 1 := by
  rw [h.rows v hv]
  exact (P (path v)).sum_one

theorem Drafted.closeRow_nonneg {v : ℕ} (hv : v < a.numDraftTokens) (full : Bool) (t : Fin V) :
    0 ≤ a.closeRow bx kids v full t := by
  unfold closeRow
  split
  · exact le_rfl
  · exact h.nonneg hv t

/-- The probabilities of the children, and what they leave. -/
theorem Drafted.sum_kids {v : ℕ} (hv : v < a.numDraftTokens) :
    ((kids v).map fun c => a.targetProbs bx v (a.candidates bx c)).sum =
      1 - ∑ t, a.closeRow bx kids v false t := by
  have hsum := sum_closeRow (h.nodup_kids v) (h.distinct v)
  rw [h.sum_one hv] at hsum
  exact eq_sub_of_add_eq' hsum

/-- The coin of a node by the search of its totals. -/
theorem Drafted.choose_eq {v : ℕ} (hv : v < a.numDraftTokens) (u : Ico (0 : ℝ) 1) :
    (a.coinTree bx kids path).choose v u =
      (reachFrom 0 ((kids v).map fun c => a.targetProbs bx v (a.candidates bx c)) u).bind
        ((kids v)[·]?) :=
  chooseFrom_eq h.single h.acc (h.nonneg hv) u.2.2 le_rfl (kids v)

theorem Drafted.weights_nonneg {v : ℕ} (hv : v < a.numDraftTokens) :
    ∀ w ∈ (kids v).map fun c => a.targetProbs bx v (a.candidates bx c), 0 ≤ w := by
  intro w hw
  obtain ⟨c, -, rfl⟩ := List.mem_map.mp hw
  exact h.nonneg hv _

theorem Drafted.weights_le_one {v : ℕ} (hv : v < a.numDraftTokens) :
    ((kids v).map fun c => a.targetProbs bx v (a.candidates bx c)).sum ≤ 1 := by
  rw [h.sum_kids hv]
  exact sub_le_self 1 (Finset.sum_nonneg fun t _ => h.closeRow_nonneg hv false t)

/-- A child is chosen with the probability of its token. -/
theorem Drafted.real_choose {v c : ℕ} (hv : v < a.numDraftTokens) (hc : c ∈ kids v) :
    unitLaw.real {u | (a.coinTree bx kids path).choose v u = some c} =
      a.targetProbs bx v (a.candidates bx c) := by
  obtain ⟨i, hi, rfl⟩ := List.mem_iff_getElem.mp hc
  let ws := (kids v).map fun c => a.targetProbs bx v (a.candidates bx c)
  have hi' : i < ws.length := by simpa [ws] using hi
  have hevent : ∀ u : Ico (0 : ℝ) 1,
      (a.coinTree bx kids path).choose v u = some (kids v)[i] ↔
        (u : ℝ) ∈ {x | reachFrom 0 ws x = some i} := by
    intro u
    rw [h.choose_eq hv u, mem_ofPred_eq]
    constructor
    · intro hu
      obtain ⟨j, hj, hget⟩ := Option.bind_eq_some_iff.mp hu
      obtain ⟨hlt, heq⟩ := List.getElem?_eq_some_iff.mp hget
      rw [hj, (h.nodup_kids v).getElem_inj_iff.mp heq]
    · intro hu
      rw [hu, Option.bind_some, List.getElem?_eq_getElem hi]
  simp only [hevent]
  rw [unitLaw_real, coin_real_reachFrom (h.weights_nonneg hv) (h.weights_le_one hv) hi',
    List.getElem_map]

/-- No child is chosen with the probability that they leave. -/
theorem Drafted.real_choose_none {v : ℕ} (hv : v < a.numDraftTokens) :
    unitLaw.real {u | (a.coinTree bx kids path).choose v u = none} =
      ∑ t, a.closeRow bx kids v false t := by
  let ws := (kids v).map fun c => a.targetProbs bx v (a.candidates bx c)
  have hevent : ∀ u : Ico (0 : ℝ) 1, (a.coinTree bx kids path).choose v u = none ↔
      (u : ℝ) ∈ {x | reachFrom 0 ws x = none} := by
    intro u
    rw [h.choose_eq hv u, mem_ofPred_eq, Option.bind_eq_none_iff]
    constructor
    · intro hu
      cases hreach : reachFrom 0 ws u with
      | none => rfl
      | some i =>
        have hi := (le_of_reachFrom u.2.1 hreach).1
        have hnone := List.getElem?_eq_none_iff.mp (hu i hreach)
        rw [List.length_map] at hi
        omega
    · intro hu i hi
      rw [hu] at hi
      cases hi
  simp only [hevent]
  rw [unitLaw_real, coin_real_reachFrom_none (h.weights_nonneg hv) (h.weights_le_one hv),
    h.sum_kids hv, sub_sub_cancel]

theorem Drafted.grows : (a.coinTree bx kids path).Grows a.numDraftTokens :=
  ⟨h.holds.kids_mem, h.path_kid, h.distinct⟩

/-- **The kernel's coins are exact.** -/
theorem exact_coinTree : (a.coinTree bx kids path).Exact (fun xs t => (P xs).val t)
    a.numDraftTokens unitLaw unitLaw where
  grows := h.grows
  choose_mem _ _ _ hc := mem_of_chooseFrom hc
  measurable_choose v o := measurable_subtype_coe (measurableSet_chooseFrom _ _ _ o)
  measurable_close v full s := measurableSet_tokenOf _ _ s
  go_on v hv c hc := by
    rw [h.real_choose hv hc, h.rows v hv]
    rfl
  stop v hv s := by
    have hchild : (a.coinTree bx kids path).child v s = none ↔
        ¬ ∃ c ∈ kids v, a.candidates bx c = s := by
      rw [CoinTree.child_eq_none]
      push Not
      rfl
    have hrow : a.closeRow bx kids v false s =
        if (a.coinTree bx kids path).child v s = none then (P (path v)).val s else 0 := by
      rw [closeRow, ← h.rows v hv]
      by_cases hkid : ∃ c ∈ kids v, a.candidates bx c = s
      · rw [if_pos ⟨rfl, hkid⟩, if_neg fun hnone => hchild.mp hnone hkid]
      · rw [if_neg fun h => hkid h.2, if_pos (hchild.mpr hkid)]
    rw [h.real_choose_none hv]
    refine Eq.trans ?_ hrow
    have hnonneg := h.closeRow_nonneg hv false
    rcases (Finset.sum_nonneg fun t _ => hnonneg t).eq_or_lt with hzero | hpos
    · -- nothing is left, and so nothing of `s`
      have hs := (Finset.sum_eq_zero_iff_of_nonneg fun t _ => hnonneg t).mp hzero.symm s
        (Finset.mem_univ s)
      rw [← hzero, zero_mul, hs]
    · show _ * unitLaw.real {w | tokenOf (a.closeRow bx kids v false) (a.candidates bx 0) w = s} = _
      rw [real_tokenOf hnonneg hpos, mul_div_cancel₀ _ hpos.ne']
  full v hv s := by
    show unitLaw.real {w | tokenOf (a.closeRow bx kids v true) (a.candidates bx 0) w = s} = _
    rw [closeRow_full, real_tokenOf (h.nonneg hv) (by rw [h.sum_one hv]; exact one_pos),
      h.sum_one hv, div_one, h.rows v hv]
    rfl

end Exact

/-! ### What the kernel emits -/

section Emit
variable {D : DeviceSampling ℝ} (u : ℕ → Ico (0 : ℝ) 1) (w : Ico (0 : ℝ) 1)

theorem uniformSamples_withCoins (v : ℕ) : (a.withCoins bx u w).uniformSamples bx v = u v := by
  simp [withCoins]

theorem uniformSamples_withCoins_of_ne {b : ℕ} (hb : b ≠ bx) :
    (a.withCoins bx u w).uniformSamples b = a.uniformSamples b := by
  simp [withCoins, hb]

theorem uniformSamplesForFinalSampling_withCoins :
    (a.withCoins bx u w).uniformSamplesForFinalSampling bx = w := by
  simp [withCoins]

theorem uniformSamplesForFinalSampling_withCoins_of_ne {b : ℕ} (hb : b ≠ bx) :
    (a.withCoins bx u w).uniformSamplesForFinalSampling b =
      a.uniformSamplesForFinalSampling b := by
  simp [withCoins, hb]

theorem chooseFrom_withCoins (row : Fin V → ℝ) (x probAcc : ℝ) (xs : List ℕ) :
    (a.withCoins bx u w).chooseFrom bx row x probAcc xs = a.chooseFrom bx row x probAcc xs := by
  induction xs generalizing probAcc with
  | nil => rfl
  | cons c xs ih =>
    rw [chooseFrom, chooseFrom, ih]
    rfl

theorem chosen_withCoins (v : ℕ) :
    (a.withCoins bx u w).chosen bx kids v = (a.coinTree bx kids path).choose v (u v) := by
  rw [chosen, uniformSamples_withCoins, chooseFrom_withCoins]
  rfl

/-- A run is a path and what closes it. -/
theorem run_eq (fuel v : ℕ) :
    let node := descend kids ((a.withCoins bx u w).goesTo bx kids) fuel v
    (a.coinTree bx kids path).run fuel v u w = node.map (a.candidates bx) ++
      [(a.coinTree bx kids path).close (node.getLastD v) (decide (node.length = fuel)) w] := by
  induction fuel generalizing v with
  | zero => rfl
  | succ fuel ih =>
    have hfind : (kids v).find? ((a.withCoins bx u w).goesTo bx kids v) =
        (a.coinTree bx kids path).choose v (u v) :=
      (find?_goesTo v).trans (chosen_withCoins u w v)
    dsimp only
    rw [CoinTree.run]
    cases hchoose : (a.coinTree bx kids path).choose v (u v) with
    | none =>
      rw [hchoose] at hfind
      rw [descend_succ_of_none hfind]
      rfl
    | some c =>
      rw [hchoose] at hfind
      rw [descend_succ_of_some hfind, List.getLastD_cons, List.length_cons, List.map_cons,
        List.cons_append]
      simp only [Nat.add_right_cancel_iff]
      exact congrArg (a.candidates bx c :: ·) (ih c)

variable {P : List (Fin V) → Dist V} {pre : List (Fin V)}

theorem Drafted.proper (h : a.Drafted P pre bx kids path) :
    (a.withCoins bx u w).Proper bx kids where
  single := h.single
  acc := h.acc
  coin v _ := by
    rw [uniformSamples_withCoins]
    exact (u v).2
  coinFinal := by
    rw [uniformSamplesForFinalSampling_withCoins]
    exact w.2
  nonneg _ hv := h.nonneg hv
  sum_one _ hv := h.sum_one hv
  distinct := h.distinct

/-- **The tokens of a walk are a run.** -/
theorem walked_eq_run {kids : ℕ → ℕ → List ℕ} (hD : D.Searches)
    (h : a.Drafted P pre bx (kids bx) path) :
    ((a.withCoins bx u w).sampledPath bx (kids bx)).map (fun c => ((a.candidates bx c : ℕ) : ℤ)) ++
        [(a.withCoins bx u w).closing D bx (kids bx)] =
      tokenIds ((a.coinTree bx (kids bx) path).run (a.numSpeculativeTokens - 1) 0 u w) := by
  have hholds : ((a.withCoins bx u w).greedy fun _ _ => 0).Holds bx (kids bx) := h.holds
  obtain ⟨t, hclosing, -, hsearch⟩ := exists_closing hholds h.pos (h.proper u w) hD
  have hclose : (a.coinTree bx (kids bx) path).close ((a.withCoins bx u w).lastNode bx (kids bx))
      ((a.withCoins bx u w).full bx (kids bx)) w = t := by
    show tokenOf ((a.withCoins bx u w).closeRow bx (kids bx) _ _) _ w = t
    rw [uniformSamplesForFinalSampling_withCoins] at hsearch
    rw [tokenOf, hsearch, Option.getD_some, dif_pos t.2]
  rw [run_eq u w, hclosing, tokenIds, List.map_append, List.map_map, List.map_singleton, ← hclose]
  rfl

end Emit

end SampleArgs

/-! ### Step after step -/

/-- A step of a batch, with a request of it that is followed; its coins are drawn. -/
structure SampleStep (V : ℕ) where
  args : SampleArgs V ℝ
  memory : SampleMemory V ℝ
  bs : ℕ
  bx : ℕ

namespace SampleStep

/-- The tokens that the request is served. -/
noncomputable def emit (s : SampleStep V) (D : DeviceSampling ℝ) (u : ℕ → Ico (0 : ℝ) 1)
    (w : Ico (0 : ℝ) 1) : List ℤ :=
  match (s.args.withCoins s.bx u w).launch D s.bs s.memory with
  | some m => m.emitted s.bx
  | none => []

/-- **A step behind the tokens `pre` of the request**: the whole batch can be sampled, `draft_probs`
is zero, and the target's rows of the request are those behind `pre`. -/
structure Behind (s : SampleStep V) (P : List (Fin V) → Dist V) (n fuel : ℕ)
    (pre : List (Fin V)) : Prop where
  bx_lt : s.bx < s.bs
  numDraftTokens : s.args.numDraftTokens = n
  numSpeculativeTokens : s.args.numSpeculativeTokens = fuel + 1
  zero : ∀ b < s.bs, ∀ v < n, ∀ t, s.memory.draftProbs b v t = 0
  trees : ∃ kids : ℕ → ℕ → List ℕ,
    (∀ b < s.bs, b ≠ s.bx → (s.args.greedy fun _ _ => 0).Holds b (kids b) ∧
      s.args.Proper b (kids b)) ∧
    ∃ path, s.args.Drafted P pre s.bx (kids s.bx) path

variable {s : SampleStep V} {D : DeviceSampling ℝ} {P : List (Fin V) → Dist V} {n fuel : ℕ}
variable {pre : List (Fin V)}

theorem Behind.numDraftTokens_pos (h : s.Behind P n fuel pre) : 0 < n := by
  obtain ⟨_, -, _, hdrafted⟩ := h.trees
  rw [← h.numDraftTokens]
  exact hdrafted.pos

/-- **The launch of a step goes through**, and the request is emitted the tokens of its walk and the
one that is drawn in the end. -/
theorem Behind.exists_launch (h : s.Behind P n fuel pre) (hD : D.Searches) :
    ∃ (kids : ℕ → ℕ → List ℕ) (path : ℕ → List (Fin V)),
      s.args.Drafted P pre s.bx (kids s.bx) path ∧ ∀ u w, ∃ m,
        (s.args.withCoins s.bx u w).launch D s.bs s.memory = some m ∧ m.emitted s.bx =
          ((s.args.withCoins s.bx u w).sampledPath s.bx (kids s.bx)).map
              (fun c => ((s.args.candidates s.bx c : ℕ) : ℤ)) ++
            [(s.args.withCoins s.bx u w).closing D s.bx (kids s.bx)] := by
  obtain ⟨kids, hothers, path, hdrafted⟩ := h.trees
  refine ⟨kids, path, hdrafted, fun u w => ?_⟩
  have hholds : ∀ b < s.bs,
      ((s.args.withCoins s.bx u w).greedy fun _ _ => 0).Holds b (kids b) := by
    intro b hb
    by_cases hne : b = s.bx
    · rw [hne]
      exact hdrafted.holds
    · exact (hothers b hb hne).1
  have hproper : ∀ b < s.bs, (s.args.withCoins s.bx u w).Proper b (kids b) := by
    intro b hb
    by_cases hne : b = s.bx
    · rw [hne]
      exact hdrafted.proper u w
    · -- the coins of the other requests are as they were
      have hp := (hothers b hb hne).2
      refine ⟨hp.single, hp.acc, ?_, ?_, hp.nonneg, hp.sum_one, hp.distinct⟩
      · rw [SampleArgs.uniformSamples_withCoins_of_ne u w hne]
        exact hp.coin
      · rw [SampleArgs.uniformSamplesForFinalSampling_withCoins_of_ne u w hne]
        exact hp.coinFinal
  obtain ⟨m, hlaunch, hemitted⟩ := SampleArgs.launch_emitted hD
    (a := s.args.withCoins s.bx u w) hdrafted.pos hholds hproper hdrafted.acc s.memory
    (by rw [show (s.args.withCoins s.bx u w).numDraftTokens = n from h.numDraftTokens]
        exact h.zero)
  exact ⟨m, hlaunch, hemitted s.bx h.bx_lt⟩

/-- **A step emits a run** of a tree whose draws are exact. -/
theorem Behind.exists_tree (h : s.Behind P n fuel pre) (hD : D.Searches) :
    ∃ t : CoinTree (Fin V) (Ico (0 : ℝ) 1) (Ico (0 : ℝ) 1),
      t.Exact (fun xs t => (P xs).val t) n unitLaw unitLaw ∧ t.path 0 = pre ∧
      ∀ u w, s.emit D u w = tokenIds (t.run fuel 0 u w) := by
  obtain ⟨kids, path, hdrafted, hlaunches⟩ := h.exists_launch hD
  refine ⟨s.args.coinTree s.bx (kids s.bx) path, ?_, hdrafted.root, fun u w => ?_⟩
  · rw [← h.numDraftTokens]
    exact SampleArgs.exact_coinTree hdrafted
  · obtain ⟨m, hlaunch, hemitted⟩ := hlaunches u w
    have hrun := SampleArgs.walked_eq_run (D := D) u w hD hdrafted
    rw [h.numSpeculativeTokens, Nat.add_sub_cancel] at hrun
    rw [emit, hlaunch]
    exact hemitted.trans hrun

/-- What a step does for the request with given coins: the launch goes through, the row where the
walk along the linked children ends has weight, and the token emitted last is the one that the
search of the row finds, not one that a search without a result falls back on. -/
def Served (s : SampleStep V) (D : DeviceSampling ℝ) (u : ℕ → Ico (0 : ℝ) 1) (w : Ico (0 : ℝ) 1) :
    Prop :=
  let a := s.args.withCoins s.bx u w
  ∃ m kids t, a.launch D s.bs s.memory = some m ∧ (a.greedy fun _ _ => 0).Holds s.bx kids ∧
    m.emitted s.bx = tokenIds ((a.sampledPath s.bx kids).map (a.candidates s.bx) ++ [t]) ∧
    let row := a.closeRow s.bx kids (a.lastNode s.bx kids) (a.full s.bx kids)
    0 < ∑ x, row x ∧ 0 < row t ∧ searchFrom 0 (List.ofFn row) (w * ∑ x, row x) = some t.val

theorem Behind.served (h : s.Behind P n fuel pre) (hD : D.Searches) (u : ℕ → Ico (0 : ℝ) 1)
    (w : Ico (0 : ℝ) 1) : s.Served D u w := by
  obtain ⟨kids, path, hdrafted, hlaunches⟩ := h.exists_launch hD
  obtain ⟨m, hlaunch, hemitted⟩ := hlaunches u w
  have hholds : ((s.args.withCoins s.bx u w).greedy fun _ _ => 0).Holds s.bx (kids s.bx) :=
    hdrafted.holds
  obtain ⟨t, hclosing, hweight, hsearch⟩ :=
    SampleArgs.exists_closing hholds hdrafted.pos (hdrafted.proper u w) hD
  rw [SampleArgs.uniformSamplesForFinalSampling_withCoins] at hsearch
  refine ⟨m, kids s.bx, t, hlaunch, hholds, ?_,
    SampleArgs.sum_closeRow_pos hholds hdrafted.pos (hdrafted.proper u w), hweight, hsearch⟩
  rw [hemitted, hclosing, tokenIds, List.map_append, List.map_map, List.map_singleton]
  rfl

/-- **Sampling down the trees of drafts is exact.**  Step after step, with fresh coins and whatever
trees are made of what was emitted before, the first tokens of a request are `y` with the
probability that the target gives to `y`; and every step, whatever its coins, goes through and
draws its last token from a row with weight. -/
theorem emitted_law (hD : D.Searches) (start : List (Fin V))
    (step : List (List ℤ) → SampleStep V)
    (hstep : ∀ runs : List (List (Fin V)),
      (step (runs.map tokenIds)).Behind P n fuel (start ++ runs.flatten))
    {R : ℕ} {y : List (Fin V)} (hy : y.length ≤ R) :
    (Measure.pi fun _ : Fin R => (draws unitLaw n).prod unitLaw).real
        {ω | tokenIds y <+: (DrawLaw.seqDraw
          (fun runs d => (step runs).emit D (stream d.1) d.2) [] (List.ofFn ω)).flatten} =
        ChainLaw.seqProb (fun xs t => (P xs).val t) start y ∧
      ∀ (runs : List (List (Fin V))) u w, (step (runs.map tokenIds)).Served D u w := by
  refine ⟨?_, fun runs u w => (hstep runs).served hD u w⟩
  have hn : 0 < n := (hstep []).numDraftTokens_pos
  choose tree hexact hpath hemit using fun runs => (hstep runs).exists_tree hD
  let trees : List (RoundLaw.BoundedRun (fuel + 1) (Fin V)) →
      CoinTree (Fin V) (Ico (0 : ℝ) 1) (Ico (0 : ℝ) 1) :=
    fun runs => tree (runs.map RoundLaw.BoundedRun.toList)
  have hdraws : ∀ ωs : List ((Fin n → Ico (0 : ℝ) 1) × Ico (0 : ℝ) 1),
      (DrawLaw.seqDraw (fun runs d => (step runs).emit D (stream d.1) d.2) [] ωs).flatten =
        tokenIds (RoundLaw.output (DrawLaw.seqDraw (TreeSampling.round trees) [] ωs)) := by
    intro ωs
    have hmap := @DrawLaw.seqDraw_map _ _ _ (TreeSampling.round trees)
      (fun runs d => (step runs).emit D (stream d.1) d.2) (fun c => tokenIds c.toList)
      (fun runs d => by
        rw [TreeSampling.round, RoundLaw.BoundedRun.toList_ofList, ← hemit, List.map_map]
        rfl) [] ωs
    rw [List.map_nil] at hmap
    rw [hmap, RoundLaw.output, List.flatMap_def, tokenIds, List.map_flatten, List.map_map]
    rfl
  have hinj : Function.Injective fun t : Fin V => ((t : ℕ) : ℤ) := fun s t h =>
    Fin.val_injective (Int.ofNat_inj.mp h)
  have hset : ∀ ωs : List ((Fin n → Ico (0 : ℝ) 1) × Ico (0 : ℝ) 1),
      tokenIds y <+: (DrawLaw.seqDraw
        (fun runs d => (step runs).emit D (stream d.1) d.2) [] ωs).flatten ↔
        y <+: RoundLaw.output (DrawLaw.seqDraw (TreeSampling.round trees) [] ωs) := by
    intro ωs
    rw [hdraws]
    exact List.prefix_map_iff_of_injective hinj
  simp only [hset]
  refine TreeSampling.real_output (fun pre => (P pre).sum_one) hn (fun runs => hexact _)
    (fun runs => ?_) hy
  rw [hpath, RoundLaw.output, List.flatMap_def]

/-- Odds of two to one to one. -/
noncomputable def splitDist : Dist 3 where
  val t := if t = 0 then 1 / 2 else 1 / 2 ^ 2
  nonneg t := by split <;> norm_num
  sum_one := by
    rw [Fin.sum_univ_three, if_pos rfl, if_neg (by decide), if_neg (by decide)]
    norm_num

/-- Two of the three tokens are drafted behind the root. -/
noncomputable def splitStep : SampleStep 3 where
  args := {
    candidates := fun _ v => [0, 0, 1].getD v 0
    retriveIndex := fun b v => ((b * 3 + v : ℕ) : ℤ)
    retriveNextToken := fun _ v => [1, -1, -1].getD v (-1)
    retriveNextSibling := fun _ v => [-1, 2, -1].getD v (-1)
    uniformSamples := fun _ _ => 0
    uniformSamplesForFinalSampling := fun _ => 0
    targetProbs := fun _ _ => splitDist.val
    numSpeculativeTokens := 2
    numDraftTokens := 3
    thresholdSingle := 1
    thresholdAcc := 1 }
  memory := ⟨⟨fun _ => 0, fun _ _ => -1, fun _ => 0⟩, fun _ _ _ => 0⟩
  bs := 1
  bx := 0

theorem splitStep_behind (pre : List (Fin 3)) :
    splitStep.Behind (fun _ => splitDist) 3 1 pre := by
  let kids : ℕ → List ℕ := fun v => if v = 0 then [1, 2] else []
  have hkids : ∀ v, ∀ c ∈ kids v, v = 0 ∧ (c = 1 ∨ c = 2) := by
    intro v c hc
    by_cases hv : v = 0
    · subst hv
      simpa [kids] using hc
    · simp [kids, hv] at hc
  refine ⟨Nat.one_pos, rfl, rfl, fun _ _ _ _ _ => rfl, fun _ => kids,
    fun b hb hne => absurd (Nat.lt_one_iff.mp hb) hne,
    fun v => if v = 1 then pre ++ [0] else if v = 2 then pre ++ [1] else pre, ?_⟩
  refine ⟨Nat.succ_pos 2, le_rfl, rfl,
    ⟨fun v _ => rfl, fun v hv => ?_, fun v c hc => ?_, fun v => ?_⟩,
    fun v c hc c' hc' htoken => ?_, rfl, fun v c hc => ?_, fun v _ => rfl⟩
  · have hv' : v < 3 := hv
    interval_cases v
    · exact ⟨rfl, rfl, rfl⟩
    · exact rfl
    · exact rfl
  · rcases hkids v c hc with ⟨rfl, rfl | rfl⟩
    · exact ⟨Nat.one_pos, by decide⟩
    · exact ⟨Nat.two_pos, by decide⟩
  · by_cases hv : v = 0
    · subst hv
      exact (by decide : [1, 2].Pairwise (· < ·))
    · simp [kids, hv]
  · rcases hkids v c hc with ⟨rfl, rfl | rfl⟩ <;> rcases hkids 0 c' hc' with ⟨-, rfl | rfl⟩
    · rfl
    · exact absurd htoken (by decide)
    · exact absurd htoken (by decide)
    · rfl
  · rcases hkids v c hc with ⟨rfl, rfl | rfl⟩
    · rfl
    · rfl

/-- The token that is not drafted, and then the second one that is. -/
theorem emitted_law_split :
    (Measure.pi fun _ : Fin 2 => (draws unitLaw 3).prod unitLaw).real
        {ω | ([2, 1] : List ℤ) <+: (DrawLaw.seqDraw
          (fun _ d => splitStep.emit .sequential (stream d.1) d.2) [] (List.ofFn ω)).flatten} =
        1 / 16 ∧
      ∀ u w, splitStep.Served .sequential u w := by
  obtain ⟨hlaw, hserved⟩ := emitted_law DeviceSampling.sequential_searches []
    (fun _ => splitStep)
    (fun runs => splitStep_behind _) (R := 2) (y := [2, 1]) le_rfl
  have hprob :
      ChainLaw.seqProb (fun (_ : List (Fin 3)) t => splitDist.val t) [] [2, 1] = 1 / 16 := by
    rw [ChainLaw.seqProb_cons, ChainLaw.seqProb_cons, ChainLaw.seqProb_nil]
    show (if (2 : Fin 3) = 0 then (1 / 2 : ℝ) else 1 / 2 ^ 2) *
      ((if (1 : Fin 3) = 0 then (1 / 2 : ℝ) else 1 / 2 ^ 2) * 1) = 1 / 16
    rw [if_neg (by decide), if_neg (by decide)]
    norm_num
  exact ⟨hlaw.trans hprob, hserved []⟩

end SampleStep

end LatentSpec.EagleTree
