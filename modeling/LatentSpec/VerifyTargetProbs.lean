import LatentSpec.LogitsRejectSampling
import LatentSpec.RenormRows

/-! # The target's rows of a sampled batch

`build_dflash_verify_target_probs` turns the target's logits into the rows `p` that the drafts are
tested against.  How it does so depends on the whole batch: with the largest `top_k` below the
vocabulary it takes a `torch.topk` of that size for every row and cuts each row by rank, otherwise
it cuts the dense softmax at the `top_k`-th largest weight, and either is followed by top-p when
some request asks for it.  `verifyTargetRow_eq` says that a row without a tie at its own `top_k`
does not see the difference.

The renormalisations are whatever the platform provides (`RenormBackend`).  Those of
`renorm_triton.py` are here; they keep all ties at the pivot.
-/
namespace LatentSpec
open Softmax RenormRows TiledSearch

variable {V : ℕ}

/-! ### Requests and batches -/

/-- `TOP_K_ALL` -/
def topKAll : ℕ := 2 ^ 30

/-- What is read of a request's `SamplingParams`, in the ranges that `verify` has checked. -/
structure SamplingParams where
  temperature : ℝ
  topK : ℕ
  topP : ℝ
  temperature_pos : 0 < temperature
  topK_pos : 1 ≤ topK
  topP_pos : 0 < topP
  topP_le : topP ≤ 1

/-- The flags that `SamplingBatchInfo` computes over a batch. -/
structure SamplingFlags where
  isAnyGreedy : Bool
  needTopKSampling : Bool
  needTopPSampling : Bool

noncomputable def samplingFlags (bs : ℕ) (params : ℕ → SamplingParams) : SamplingFlags where
  isAnyGreedy := (List.range bs).any fun b => decide ((params b).topK ≤ 1)
  needTopKSampling := (List.range bs).any fun b => decide ((params b).topK ≠ topKAll)
  needTopPSampling := (List.range bs).any fun b => decide ((params b).topP ≠ 1)

/-- `max_top_k` and `uniform_top_k_value` of the draft input. -/
structure TopKPlan where
  maxTopK : ℕ
  uniformTopKValue : Option ℕ

/-- The loop variables of `prepare_for_decode`. -/
structure TopKVars where
  maxTopK : ℕ
  uniformTopKValue : Option ℕ
  uniformTopK : Bool

def prepareTopKStep (params : ℕ → SamplingParams) (s : TopKVars) (i : ℕ) : TopKVars :=
  let topK := (params i).topK
  let maxTopK := if s.maxTopK < topK then topK else s.maxTopK
  if i = 0 then ⟨maxTopK, some topK, s.uniformTopK⟩
  else if s.uniformTopK ∧ some topK ≠ s.uniformTopKValue then ⟨maxTopK, s.uniformTopKValue, false⟩
  else ⟨maxTopK, s.uniformTopKValue, s.uniformTopK⟩

/-- The part of `prepare_for_decode` that plans the top-k. -/
def prepareTopK (bs : ℕ) (params : ℕ → SamplingParams) : TopKPlan :=
  let s := (List.range bs).foldl (prepareTopKStep params) ⟨1, none, true⟩
  { maxTopK := max s.maxTopK 1
    uniformTopKValue := if s.uniformTopK then s.uniformTopKValue else none }

/-! ### Renormalisation -/

/-- `top_k_renorm_prob` and `top_p_renorm_prob`, by whatever implementation there is. -/
structure RenormBackend where
  topKRenormProb : ∀ {n : ℕ}, ℕ → (Fin n → ℝ) → Fin n → ℝ
  topPRenormProb : ∀ {n : ℕ}, ℝ → (Fin n → ℝ) → Fin n → ℝ

/-- `_renorm_from_pivots`, with its partial sums. -/
noncomputable def renormFromPivots {n : ℕ} (pivot : ℝ) (row : Fin n → ℝ) (v : Fin n) : ℝ :=
  let kept := fun v => if pivot ≤ row v then row v else 0
  kept v / tiledSum n 1024 fun v => if h : v < n then kept ⟨v, h⟩ else 0

/-- `top_k_renorm_probs_triton` and `top_p_renorm_probs_triton`. -/
noncomputable def renormTriton : RenormBackend where
  topKRenormProb k probs := renormFromPivots (topKPivot k probs) probs
  topPRenormProb p probs := renormFromPivots (topPPivot p probs) probs

/-- `torch.topk`: the indices of the largest entries in descending order.  Which of equal entries
come first is left open. -/
structure TorchTopk (V : ℕ) where
  indices : (Fin V → WithBot ℝ) → ℕ → List (Fin V)
  length_eq : ∀ row k, k ≤ V → (indices row k).length = k
  nodup : ∀ row k, (indices row k).Nodup
  descending : ∀ row k, (indices row k).Pairwise fun v w => row w ≤ row v
  largest : ∀ row k, ∀ v ∈ indices row k, ∀ w ∉ indices row k, row w ≤ row v

section Sorted
variable (row : Fin V → WithBot ℝ)

/-- The tokens in descending order of their scores, equal ones by their number. -/
noncomputable def sortedTokens : List (Fin V) :=
  (List.finRange V).mergeSort fun v w => decide (row w ≤ row v)

theorem pairwise_sortedTokens : (sortedTokens row).Pairwise fun v w => row w ≤ row v := by
  have hpairwise := @List.pairwise_mergeSort (Fin V) (fun v w => decide (row w ≤ row v))
    (fun a b c hab hbc => decide_eq_true
      ((of_decide_eq_true hbc).trans (of_decide_eq_true hab)))
    (fun a b => by simpa using le_total (row b) (row a)) (List.finRange V)
  exact hpairwise.imp of_decide_eq_true

theorem perm_sortedTokens : (sortedTokens row).Perm (List.finRange V) := List.mergeSort_perm _ _

end Sorted

/-- A `torch.topk` that puts the smaller index first. -/
noncomputable def stableTopk : TorchTopk V where
  indices row k := (sortedTokens row).take k
  length_eq row k hk := by
    rw [List.length_take, (perm_sortedTokens row).length_eq, List.length_finRange,
      Nat.min_eq_left hk]
  nodup row k := ((perm_sortedTokens row).nodup_iff.mpr (List.nodup_finRange V)).sublist
    (List.take_sublist k _)
  descending row k := (pairwise_sortedTokens row).sublist (List.take_sublist k _)
  largest row k v hv w hw := by
    have hmem : w ∈ sortedTokens row := (perm_sortedTokens row).mem_iff.mpr (List.mem_finRange w)
    rw [← List.take_append_drop k (sortedTokens row), List.mem_append] at hmem
    have hdrop := hmem.resolve_left hw
    have hpairwise := pairwise_sortedTokens row
    rw [← List.take_append_drop k (sortedTokens row)] at hpairwise
    exact (List.pairwise_append.mp hpairwise).2.2 v hv w hdrop

/-! ### The target's rows -/

/-- The sparse path for one row. -/
noncomputable def sparseTargetRow (B : RenormBackend) (T : TorchTopk V) (maxTopK : ℕ)
    (uniformTopKValue : Option ℕ) (topK : ℕ) (needTopP : Bool) (p : ℝ)
    (scaledLogits : Fin V → WithBot ℝ) : Fin V → ℝ :=
  let topkIndices := T.indices scaledLogits maxTopK
  let topkLogits : Fin topkIndices.length → WithBot ℝ := fun rank =>
    if uniformTopKValue = some maxTopK ∨ rank < topK then scaledLogits (topkIndices.get rank)
    else ⊥
  let topkProbs := softmax topkLogits
  RenormRows.scatter topkIndices (if needTopP then B.topPRenormProb p topkProbs else topkProbs)

/-- The dense path for one row. -/
noncomputable def denseTargetRow (B : RenormBackend) (topK : ℕ) (needTopK needTopP : Bool) (p : ℝ)
    (scaledLogits : Fin V → WithBot ℝ) : Fin V → ℝ :=
  let probs := softmax scaledLogits
  let probs := if needTopK then B.topKRenormProb topK probs else probs
  if needTopP then B.topPRenormProb p probs else probs

/-- `build_dflash_verify_target_probs`, one row of a request. -/
noncomputable def verifyTargetRow (B : RenormBackend) (T : TorchTopk V) (useSparseTopk : Bool)
    (flags : SamplingFlags) (plan : TopKPlan) (params : SamplingParams)
    (logits : Fin V → WithBot ℝ) : Fin V → ℝ :=
  let scaledLogits := divTemp params.temperature logits
  let repeatedTopK := min (max params.topK 1) V
  let maxTopK := if plan.maxTopK < 1 then 1 else if V < plan.maxTopK then V else plan.maxTopK
  if useSparseTopk ∧ flags.needTopKSampling ∧ 0 < maxTopK ∧ maxTopK < V then
    sparseTargetRow B T maxTopK plan.uniformTopKValue repeatedTopK flags.needTopPSampling
      params.topP scaledLogits
  else
    denseTargetRow B params.topK flags.needTopKSampling flags.needTopPSampling params.topP
      scaledLogits

/-! ### The batch's plan -/

section Plan
variable {bs : ℕ} {params : ℕ → SamplingParams}

/-- The loop has seen the requests below `n`. -/
structure TopKVars.Seen (s : TopKVars) (params : ℕ → SamplingParams) (n : ℕ) : Prop where
  le_maxTopK : ∀ b < n, (params b).topK ≤ s.maxTopK
  uniform : s.uniformTopK = true → ∀ b < n, s.uniformTopKValue = some (params b).topK

theorem TopKVars.Seen.step {s : TopKVars} {n : ℕ} (h : s.Seen params n) :
    (prepareTopKStep params s n).Seen params (n + 1) := by
  have hmax : ∀ b < n + 1, (params b).topK ≤
      if s.maxTopK < (params n).topK then (params n).topK else s.maxTopK := by
    intro b hb
    rcases Nat.lt_succ_iff_lt_or_eq.mp hb with hlt | rfl
    · have := h.le_maxTopK b hlt
      split <;> omega
    · split <;> omega
  unfold prepareTopKStep
  by_cases hzero : n = 0
  · subst hzero
    refine ⟨hmax, fun _ b hb => ?_⟩
    obtain rfl : b = 0 := by omega
    rfl
  · dsimp only
    rw [if_neg hzero]
    by_cases hdiff : s.uniformTopK ∧ some (params n).topK ≠ s.uniformTopKValue
    · rw [if_pos hdiff]
      exact ⟨hmax, fun hfalse => by cases hfalse⟩
    · rw [if_neg hdiff]
      refine ⟨hmax, fun huniform b hb => ?_⟩
      rcases Nat.lt_succ_iff_lt_or_eq.mp hb with hlt | rfl
      · exact h.uniform huniform b hlt
      · exact (not_not.mp fun hne => hdiff ⟨huniform, hne⟩).symm

theorem seen_foldl (params : ℕ → SamplingParams) (n : ℕ) :
    ((List.range n).foldl (prepareTopKStep params) ⟨1, none, true⟩).Seen params n := by
  induction n with
  | zero =>
    exact ⟨fun b hb => absurd hb (Nat.not_lt_zero b), fun _ b hb => absurd hb (Nat.not_lt_zero b)⟩
  | succ n ih =>
    rw [List.range_succ, List.foldl_append]
    exact ih.step

/-- The flags and the plan of a batch, as far as they concern one of its requests. -/
structure Covers (flags : SamplingFlags) (plan : TopKPlan) (p : SamplingParams) : Prop where
  topK_le : p.topK ≤ plan.maxTopK
  uniform : ∀ u, plan.uniformTopKValue = some u → p.topK = u
  topP_eq : flags.needTopPSampling = false → p.topP = 1

theorem covers {b : ℕ} (hb : b < bs) :
    Covers (samplingFlags bs params) (prepareTopK bs params) (params b) := by
  have hseen := seen_foldl params bs
  refine ⟨(hseen.le_maxTopK b hb).trans (le_max_left _ _), fun u hu => ?_, fun htopP => ?_⟩
  · unfold prepareTopK at hu
    dsimp only at hu
    split at hu
    · next huniform => exact Option.some.inj ((hseen.uniform huniform b hb).symm.trans hu)
    · cases hu
  · by_contra hne
    have hany := List.any_eq_false.mp htopP b (List.mem_range.mpr hb)
    exact hany (decide_eq_true hne)

/-- A greedy request has the batch's top-k on: `top_k = 1` is not the value for "all". -/
theorem flags_of_greedy {b : ℕ} (hb : b < bs) (hgreedy : (params b).topK ≤ 1) :
    (samplingFlags bs params).isAnyGreedy = true ∧
      (samplingFlags bs params).needTopKSampling = true := by
  have hmem := List.mem_range.mpr hb
  refine ⟨List.any_eq_true.mpr ⟨b, hmem, decide_eq_true hgreedy⟩,
    List.any_eq_true.mpr ⟨b, hmem, decide_eq_true fun heq => ?_⟩⟩
  rw [heq, topKAll] at hgreedy
  omega

end Plan

/-! ### What a row is by itself -/

/-- The number of entries that are larger. -/
noncomputable def numAbove {α : Type} [LinearOrder α] {n : ℕ} (row : Fin n → α) (v : Fin n) : ℕ :=
  (Finset.univ.filter fun w => row v < row w).card

/-- The scores of the tokens with fewer than `k` above them. -/
noncomputable def topKScores (k : ℕ) (row : Fin V → WithBot ℝ) (v : Fin V) : WithBot ℝ :=
  if numAbove row v < k then row v else ⊥

/-- The `k` largest entries, divided by their sum. -/
noncomputable def topKRow {n : ℕ} (k : ℕ) (row : Fin n → ℝ) (v : Fin n) : ℝ :=
  (if numAbove row v < k then row v else 0) / ∑ w, if numAbove row w < k then row w else 0

/-- No unmasked token outside the `k` largest ties with the `k`-th. -/
def NoTie (k : ℕ) (row : Fin V → WithBot ℝ) : Prop :=
  ∀ v, row v ≠ ⊥ → numAbove row v < k → (Finset.univ.filter fun w => row v ≤ row w).card ≤ k

/-- The scores a request keeps, if its batch has top-k on. -/
noncomputable def ownScores (needTopK : Bool) (p : SamplingParams) (logits : Fin V → WithBot ℝ) :
    Fin V → WithBot ℝ :=
  if needTopK then topKScores p.topK (divTemp p.temperature logits)
  else divTemp p.temperature logits

/-- The target's row of a request: top-k, softmax, then top-p, all from its own parameters. -/
noncomputable def ownTargetRow (needTopK : Bool) (p : SamplingParams)
    (logits : Fin V → WithBot ℝ) : Fin V → ℝ :=
  topP p.topP (softmax (ownScores needTopK p logits))

/-- A renormalisation cuts a softmax at its `k`-th weight as the scores would have been cut. -/
def RenormBackend.CutsTopK (B : RenormBackend) (k : ℕ) (row : Fin V → WithBot ℝ) : Prop :=
  B.topKRenormProb k (softmax row) = softmax (topKScores k row)

/-- A renormalisation does top-p on the softmax of the unmasked scores and some of the others, in
any order. -/
def RenormBackend.CutsTopP (B : RenormBackend) (p : ℝ) (row : Fin V → WithBot ℝ) : Prop :=
  ∀ (n : ℕ) (f : Fin n → Fin V), Function.Injective f → (∀ v ∉ Set.range f, row v = ⊥) →
    HasFinite (fun i => row (f i)) →
    B.topPRenormProb p (softmax fun i => row (f i)) = topP p (softmax fun i => row (f i))

theorem numAbove_lt {α : Type} [LinearOrder α] {n : ℕ} (row : Fin n → α) (v : Fin n) :
    numAbove row v < n := by
  have hsub : (Finset.univ.filter fun w => row v < row w) ⊂ Finset.univ :=
    (Finset.filter_ssubset).mpr ⟨v, Finset.mem_univ v, lt_irrefl _⟩
  have hcard := Finset.card_lt_card hsub
  rwa [Finset.card_univ, Fintype.card_fin] at hcard

/-- The largest score stays. -/
theorem hasFinite_topKScores {row : Fin V → WithBot ℝ} (h : HasFinite row) {k : ℕ} (hk : 1 ≤ k) :
    HasFinite (topKScores k row) := by
  obtain ⟨v, hv⟩ := h
  obtain ⟨t, -, ht⟩ := Finset.exists_max_image Finset.univ row ⟨v, Finset.mem_univ v⟩
  have habove : numAbove row t = 0 := by
    rw [numAbove, Finset.card_eq_zero, Finset.filter_eq_empty_iff]
    exact fun w _ => not_lt.mpr (ht w (Finset.mem_univ w))
  refine ⟨t, ?_⟩
  rw [topKScores, if_pos (by omega)]
  intro hbot
  have hle := ht v (Finset.mem_univ v)
  rw [hbot] at hle
  exact hv (le_bot_iff.mp hle)

theorem expShift_lt_iff (x y : WithBot ℝ) : expShift 0 x < expShift 0 y ↔ x < y := by
  cases x with
  | bot =>
    cases y with
    | bot => simp
    | coe y => simpa using Real.exp_pos _
  | coe x =>
    cases y with
    | bot => simpa using (Real.exp_pos _).le
    | coe y => simp

/-- The softmax keeps the order of the scores. -/
theorem softmax_lt_iff {row : Fin V → WithBot ℝ} (h : HasFinite row) (v w : Fin V) :
    softmax row v < softmax row w ↔ row v < row w := by
  rw [softmax, softmax, div_lt_div_iff_of_pos_right (sum_expShift_pos h 0), expShift_lt_iff]

theorem renormFromPivots_eq {n : ℕ} (pivot : ℝ) (row : Fin n → ℝ) :
    renormFromPivots pivot row = renormFrom pivot row := by
  have hsum : tiledSum n 1024 (fun v => if h : v < n then
      (if pivot ≤ row ⟨v, h⟩ then row ⟨v, h⟩ else 0) else 0) =
        ∑ w, if pivot ≤ row w then row w else 0 := by
    rw [tiledSum_eq (by decide) fun v hv => dif_neg (not_lt.mpr hv), ← List.sum_ofFn]
    refine congrArg List.sum (List.ext_getElem (by simp) fun v hv _ => ?_)
    have hlt : v < n := by simpa using hv
    simp [hlt]
  funext v
  rw [renormFromPivots, renormFrom]
  exact congrArg (_ / ·) hsum

/-- The `k` largest weights of a softmax are the softmax of the scores that stay. -/
theorem topKRow_softmax {row : Fin V → WithBot ℝ} (h : HasFinite row) (k : ℕ) :
    topKRow k (softmax row) = softmax (topKScores k row) := by
  have hpos := sum_expShift_pos h 0
  have habove : ∀ v, numAbove (softmax row) v = numAbove row v := by
    intro v
    simp only [numAbove, softmax_lt_iff h]
  have hkept : ∀ v, (if numAbove row v < k then softmax row v else 0) =
      expShift 0 (topKScores k row v) / ∑ w, expShift 0 (row w) := by
    intro v
    rw [topKScores]
    by_cases hv : numAbove row v < k
    · rw [if_pos hv, if_pos hv, softmax]
    · rw [if_neg hv, if_neg hv, expShift_bot, zero_div]
  funext v
  rw [topKRow]
  simp only [habove, hkept]
  rw [← Finset.sum_div, div_div_div_cancel_right₀ hpos.ne', softmax]

/-- The kernel cuts at the `k`-th largest weight and keeps its ties. -/
theorem renormTriton_topK {n k : ℕ} (hn : 0 < n) (hk : 1 ≤ k) (row : Fin n → ℝ) :
    renormTriton.topKRenormProb k row = topKRow k row := by
  have hkept : ∀ v, topKPivot k row ≤ row v ↔ numAbove row v < k := by
    intro v
    have hlt := numAbove_lt row v
    rw [topKPivot_le_iff hn]
    show numAbove row v ≤ _ ↔ _
    omega
  funext v
  show renormFromPivots _ _ v = _
  simp only [renormFromPivots_eq, renormFrom, hkept, topKRow]

theorem renormTriton_topP {n : ℕ} (hn : 0 < n) {p : ℝ} (hp : 0 < p) {row : Fin n → ℝ}
    (hnonneg : ∀ v, 0 ≤ row v) (hsum : ∑ v, row v = 1) :
    renormTriton.topPRenormProb p row = topP p row := by
  show renormFromPivots _ _ = _
  rw [renormFromPivots_eq]
  refine renormFrom_topPPivot hn hnonneg ?_
  rw [hsum]
  linarith

/-- A softmax over some tokens, scattered back, is the softmax with the others masked. -/
theorem scatter_softmax {idx : List (Fin V)} (hnodup : idx.Nodup) {row : Fin V → WithBot ℝ}
    (h : ∀ v ∉ idx, row v = ⊥) : scatter idx (softmax fun i => row (idx.get i)) = softmax row := by
  have hsum : ∑ i, expShift 0 (row (idx.get i)) = ∑ v, expShift 0 (row v) :=
    sum_gather hnodup (g := fun v => expShift 0 (row v)) fun v hv => by rw [h v hv, expShift_bot]
  funext v
  by_cases hv : v ∈ idx
  · obtain ⟨i, rfl⟩ := List.get_of_mem hv
    rw [scatter_get _ hnodup, softmax, softmax, hsum]
  · rw [scatter_of_notMem _ hv, softmax, h v hv, expShift_bot, zero_div]

/-- A token that does not tie beyond `k` is among the first `k` indices when fewer than `k` are
above it. -/
theorem TorchTopk.idxOf_lt_iff (T : TorchTopk V) {row : Fin V → WithBot ℝ} {k m : ℕ}
    (hkm : k ≤ m) (hm : m ≤ V) {v : Fin V} (hnotie : numAbove row v < k →
      (Finset.univ.filter fun w => row v ≤ row w).card ≤ k) :
    (T.indices row m).idxOf v < k ↔ numAbove row v < k := by
  have hlen := T.length_eq row m hm
  have hnodup := T.nodup row m
  have hdesc := List.pairwise_iff_getElem.mp (T.descending row m)
  constructor
  · intro hlt
    have hlt' : (T.indices row m).idxOf v < (T.indices row m).length := by omega
    have hmem : v ∈ T.indices row m := List.idxOf_lt_length_iff.mp hlt'
    -- whatever is larger stands before `v`
    have hsub : (Finset.univ.filter fun w => row v < row w) ⊆
        ((T.indices row m).take ((T.indices row m).idxOf v)).toFinset := by
      intro w hw
      have hvw := (Finset.mem_filter.mp hw).2
      have hwmem : w ∈ T.indices row m := by
        by_contra hnot
        exact not_le.mpr hvw (T.largest row m v hmem w hnot)
      obtain ⟨j, hj, rfl⟩ := List.getElem_of_mem hwmem
      have hjv : j < (T.indices row m).idxOf v := by
        by_contra hge
        rcases Nat.lt_or_ge ((T.indices row m).idxOf v) j with hgt | hle
        · have hle := hdesc _ j hlt' hj hgt
          rw [List.getElem_idxOf hlt'] at hle
          exact not_le.mpr hvw hle
        · have heq : j = (T.indices row m).idxOf v := by omega
          subst heq
          rw [List.getElem_idxOf hlt'] at hvw
          exact lt_irrefl _ hvw
      rw [List.mem_toFinset]
      exact List.mem_take_iff_getElem.mpr ⟨j, by omega, rfl⟩
    have hcard := (Finset.card_le_card hsub).trans (List.toFinset_card_le _)
    rw [List.length_take] at hcard
    unfold numAbove
    omega
  · intro habove
    by_contra hge
    rw [not_lt] at hge
    -- the first `k` and `v` would be more than `k` tokens with scores from that of `v` on
    have hnotin : v ∉ ((T.indices row m).take k).toFinset := by
      rw [List.mem_toFinset]
      intro hmem
      obtain ⟨j, hj, hjv⟩ := List.mem_take_iff_getElem.mp hmem
      have hidx := hnodup.idxOf_getElem j (by omega)
      rw [hjv] at hidx
      omega
    have hsub : insert v ((T.indices row m).take k).toFinset ⊆
        Finset.univ.filter fun w => row v ≤ row w := by
      intro w hw
      rw [Finset.mem_filter]
      refine ⟨Finset.mem_univ w, ?_⟩
      rcases Finset.mem_insert.mp hw with rfl | hw
      · exact le_rfl
      · obtain ⟨j, hj, rfl⟩ := List.mem_take_iff_getElem.mp (List.mem_toFinset.mp hw)
        by_cases hmem : v ∈ T.indices row m
        · have hlt' := List.idxOf_lt_length_iff.mpr hmem
          have hle := hdesc j _ (by omega) hlt' (by omega)
          rwa [List.getElem_idxOf hlt'] at hle
        · exact T.largest row m _ (List.getElem_mem _) v hmem
    have hcard := Finset.card_le_card hsub
    rw [Finset.card_insert_of_notMem hnotin,
      List.toFinset_card_of_nodup (hnodup.sublist (List.take_sublist _ _)), List.length_take,
      hlen, Nat.min_eq_left hkm] at hcard
    have := hnotie habove
    omega

/-! ### Both paths give the row itself -/

variable {B : RenormBackend}

theorem sparseTargetRow_eq (T : TorchTopk V) {row : Fin V → WithBot ℝ} (h : HasFinite row)
    {k m : ℕ} (hk : 1 ≤ k) (hkm : k ≤ m) (hm : m < V) (hnotie : NoTie k row)
    {uniformTopKValue : Option ℕ} (huniform : uniformTopKValue = some m → k = m)
    {needTopP : Bool} {p : ℝ} (hcuts : B.CutsTopP p (topKScores k row))
    (htopP : needTopP = false → p = 1) :
    sparseTargetRow B T m uniformTopKValue k needTopP p row =
      topP p (softmax (topKScores k row)) := by
  have hlen := T.length_eq row m hm.le
  have hnodup := T.nodup row m
  have hscores : ∀ v, topKScores k row v =
      if (T.indices row m).idxOf v < k then row v else ⊥ := by
    intro v
    rw [topKScores]
    by_cases hv : row v = ⊥
    · rw [hv, ite_self, ite_self]
    · simp only [T.idxOf_lt_iff hkm hm.le (hnotie v hv)]
  have hmask : (fun rank : Fin (T.indices row m).length =>
      if uniformTopKValue = some m ∨ rank < k then row ((T.indices row m).get rank) else ⊥) =
        fun rank => topKScores k row ((T.indices row m).get rank) := by
    funext rank
    have hrank := rank.isLt
    rw [hscores, List.get_eq_getElem, hnodup.idxOf_getElem rank.val hrank]
    by_cases hlt : rank.val < k
    · rw [if_pos (.inr hlt), if_pos hlt]
    · rw [if_neg hlt, if_neg]
      rintro (huni | hlt')
      · have := huniform huni
        omega
      · exact hlt hlt'
  have houtside : ∀ v ∉ T.indices row m, topKScores k row v = ⊥ := by
    intro v hv
    have hidx : (T.indices row m).idxOf v = (T.indices row m).length :=
      List.idxOf_eq_length_iff.mpr hv
    rw [hscores, if_neg (by omega)]
  have hfinite : HasFinite fun rank => topKScores k row ((T.indices row m).get rank) := by
    obtain ⟨v, hv⟩ := hasFinite_topKScores h hk
    obtain ⟨rank, rfl⟩ := List.get_of_mem (not_not.mp fun hnot => hv (houtside v hnot))
    exact ⟨rank, hv⟩
  have hscatter := scatter_softmax hnodup houtside
  rw [sparseTargetRow]
  simp only [hmask]
  cases needTopP with
  | true =>
    have hrange : ∀ v ∉ Set.range (T.indices row m).get, topKScores k row v = ⊥ := fun v hv =>
      houtside v fun hmem => hv (List.get_of_mem hmem)
    rw [if_pos rfl, hcuts _ (T.indices row m).get hnodup.injective_get hrange hfinite,
      ← topP_scatter _ hnodup, hscatter]
  | false =>
    rw [if_neg Bool.false_ne_true, hscatter, htopP rfl,
      topP_one softmax_nonneg (sum_softmax (hasFinite_topKScores h hk))]

theorem denseTargetRow_eq {row scores : Fin V → WithBot ℝ} (h : HasFinite scores) {k : ℕ}
    {needTopK : Bool}
    (hscores : (if needTopK then B.topKRenormProb k (softmax row) else softmax row) =
      softmax scores) {needTopP : Bool} {p : ℝ} (hcuts : B.CutsTopP p scores)
    (htopP : needTopP = false → p = 1) :
    denseTargetRow B k needTopK needTopP p row = topP p (softmax scores) := by
  simp only [denseTargetRow, hscores]
  cases needTopP with
  | true =>
    rw [if_pos rfl]
    exact hcuts _ id Function.injective_id (fun v hv => absurd ⟨v, rfl⟩ hv) h
  | false => rw [if_neg Bool.false_ne_true, htopP rfl, topP_one softmax_nonneg (sum_softmax h)]

theorem divTemp_lt_iff {t : ℝ} (ht : 0 < t) (row : Fin V → WithBot ℝ) (v w : Fin V) :
    divTemp t row v < divTemp t row w ↔ row v < row w := by
  unfold divTemp
  cases row v with
  | bot => cases row w <;> simp
  | coe x =>
    cases row w with
    | bot => simp
    | coe y =>
      rw [WithBot.map_coe, WithBot.map_coe, WithBot.coe_lt_coe, WithBot.coe_lt_coe]
      exact div_lt_div_iff_of_pos_right ht

theorem divTemp_eq_bot_iff {t : ℝ} {row : Fin V → WithBot ℝ} {v : Fin V} :
    divTemp t row v = ⊥ ↔ row v = ⊥ := by
  unfold divTemp
  cases row v <;> simp

/-- The temperature makes no ties. -/
theorem NoTie.divTemp {k : ℕ} {row : Fin V → WithBot ℝ} (h : NoTie k row) {t : ℝ} (ht : 0 < t) :
    NoTie k (divTemp t row) := by
  intro v hv habove
  simp only [numAbove, divTemp_lt_iff ht] at habove
  simp only [← not_lt, divTemp_lt_iff ht]
  simp only [not_lt]
  exact h v (fun hbot => hv (divTemp_eq_bot_iff.mpr hbot)) habove

/-- What a renormalisation has to do for one row of a request. -/
structure RenormBackend.Cuts (B : RenormBackend) (needTopK : Bool) (p : SamplingParams)
    (logits : Fin V → WithBot ℝ) : Prop where
  topK : needTopK = true → B.CutsTopK p.topK (divTemp p.temperature logits)
  topP : B.CutsTopP p.topP (ownScores needTopK p logits)

/-- A renormalisation that keeps all ties at its pivot, as the fused kernels document. -/
structure RenormBackend.KeepsTies (B : RenormBackend) : Prop where
  topK_eq : ∀ {n k : ℕ}, 0 < n → 1 ≤ k → ∀ row : Fin n → ℝ,
    B.topKRenormProb k row = topKRow k row
  topP_eq : ∀ {n : ℕ}, 0 < n → ∀ {p : ℝ}, 0 < p → ∀ {row : Fin n → ℝ}, (∀ v, 0 ≤ row v) →
    ∑ v, row v = 1 → B.topPRenormProb p row = topP p row

theorem renormTriton_keepsTies : renormTriton.KeepsTies := ⟨renormTriton_topK, renormTriton_topP⟩

theorem RenormBackend.KeepsTies.cuts (hB : B.KeepsTies) (needTopK : Bool) (p : SamplingParams)
    {logits : Fin V → WithBot ℝ} (h : HasFinite logits) : B.Cuts needTopK p logits where
  topK _ := (hB.topK_eq h.choose.pos p.topK_pos _).trans
    (topKRow_softmax (hasFinite_divTemp h p.temperature) p.topK)
  topP _ _ _ _ hf := hB.topP_eq hf.choose.pos p.topP_pos softmax_nonneg (sum_softmax hf)

theorem hasFinite_ownScores (needTopK : Bool) (p : SamplingParams) {logits : Fin V → WithBot ℝ}
    (h : HasFinite logits) : HasFinite (ownScores needTopK p logits) := by
  have hscaled := hasFinite_divTemp h p.temperature
  cases needTopK with
  | true => exact hasFinite_topKScores hscaled p.topK_pos
  | false => exact hscaled

/-- **A row without a tie at its own `top_k` is its own**: neither the plan of the batch nor the
flags of the other requests show in it, on either path. -/
theorem verifyTargetRow_eq (T : TorchTopk V) {flags : SamplingFlags} {plan : TopKPlan}
    {params : SamplingParams} (hcovers : Covers flags plan params) {logits : Fin V → WithBot ℝ}
    (h : HasFinite logits) (hcuts : B.Cuts flags.needTopKSampling params logits)
    (hnotie : flags.needTopKSampling = true → NoTie params.topK logits) (useSparseTopk : Bool) :
    verifyTargetRow B T useSparseTopk flags plan params logits =
      ownTargetRow flags.needTopKSampling params logits := by
  have hfinite := hasFinite_divTemp h params.temperature
  have hk := params.topK_pos
  have hmax := hcovers.topK_le
  have hclamp : (if plan.maxTopK < 1 then 1 else if V < plan.maxTopK then V else plan.maxTopK) =
      min plan.maxTopK V := by
    split_ifs <;> omega
  simp only [verifyTargetRow, ownTargetRow, hclamp]
  by_cases hsparse : useSparseTopk ∧ flags.needTopKSampling ∧ 0 < min plan.maxTopK V ∧
      min plan.maxTopK V < V
  · have hneed := hsparse.2.1
    have hlt := hsparse.2.2.2
    have hmin : min plan.maxTopK V = plan.maxTopK := by omega
    have hown : min (max params.topK 1) V = params.topK := by omega
    have hscores : ownScores flags.needTopKSampling params logits =
        topKScores params.topK (divTemp params.temperature logits) := if_pos hneed
    have htopP := hcuts.topP
    rw [hscores] at htopP
    rw [if_pos hsparse, hmin, hown, hscores]
    exact sparseTargetRow_eq T hfinite hk hmax (hmin ▸ hlt)
      ((hnotie hneed).divTemp params.temperature_pos) (hcovers.uniform _) htopP hcovers.topP_eq
  · rw [if_neg hsparse]
    refine denseTargetRow_eq (hasFinite_ownScores _ params h) ?_ hcuts.topP hcovers.topP_eq
    unfold ownScores
    by_cases hneed : flags.needTopKSampling = true
    · rw [if_pos hneed, if_pos hneed]
      exact hcuts.topK hneed
    · rw [if_neg hneed, if_neg hneed]

/-! ### Greedy rows -/

/-- The token has the largest score, and no other token has it. -/
def UniqueMax (row : Fin V → WithBot ℝ) (t : Fin V) : Prop := ∀ w, w ≠ t → row w < row t

/-- `torch.argmax` of a row of scores. -/
noncomputable def argmaxScore [NeZero V] (row : Fin V → WithBot ℝ) : Fin V :=
  ((List.finRange V).argmax row).getD 0

theorem UniqueMax.argmaxScore [NeZero V] {row : Fin V → WithBot ℝ} {t : Fin V}
    (h : UniqueMax row t) : argmaxScore row = t := by
  unfold LatentSpec.argmaxScore
  cases hmax : (List.finRange V).argmax row with
  | none =>
    have hnil := List.argmax_eq_none.mp hmax
    exact absurd (List.mem_finRange t) (hnil ▸ List.not_mem_nil)
  | some u =>
    by_contra hne
    exact not_lt.mpr (List.le_of_mem_argmax (List.mem_finRange t) hmax) (h u hne)

theorem UniqueMax.ne_bot {row : Fin V → WithBot ℝ} {t : Fin V} (h : UniqueMax row t)
    (hfinite : HasFinite row) : row t ≠ ⊥ := by
  obtain ⟨v, hv⟩ := hfinite
  by_cases heq : v = t
  · exact heq ▸ hv
  · exact fun hbot => not_lt_bot (hbot ▸ h v heq)

theorem UniqueMax.numAbove_lt_one_iff {row : Fin V → WithBot ℝ} {t : Fin V} (h : UniqueMax row t)
    (v : Fin V) : numAbove row v < 1 ↔ v = t := by
  rw [Nat.lt_one_iff, numAbove, Finset.card_eq_zero, Finset.filter_eq_empty_iff]
  constructor
  · intro hnone
    by_contra hne
    exact hnone (Finset.mem_univ t) (h v hne)
  · rintro rfl w -
    by_cases heq : w = v
    · exact heq ▸ lt_irrefl _
    · exact not_lt.mpr (h w heq).le

theorem UniqueMax.noTie {row : Fin V → WithBot ℝ} {t : Fin V} (h : UniqueMax row t) :
    NoTie 1 row := by
  intro v _ habove
  obtain rfl := (h.numAbove_lt_one_iff v).mp habove
  refine Finset.card_le_one.mpr fun a ha b hb => ?_
  have hall : ∀ w, row v ≤ row w → w = v := fun w hle =>
    not_not.mp fun hne => not_le.mpr (h w hne) hle
  rw [hall a (Finset.mem_filter.mp ha).2, hall b (Finset.mem_filter.mp hb).2]

/-- A greedy request's row is all on its largest logit. -/
theorem ownTargetRow_greedy {params : SamplingParams} (hgreedy : params.topK ≤ 1)
    {logits : Fin V → WithBot ℝ} (hfinite : HasFinite logits) {t : Fin V}
    (h : UniqueMax logits t) (v : Fin V) :
    ownTargetRow true params logits v = if v = t then 1 else 0 := by
  have hk : params.topK = 1 := Nat.le_antisymm hgreedy params.topK_pos
  have hscaled : UniqueMax (divTemp params.temperature logits) t := fun w hw =>
    (divTemp_lt_iff params.temperature_pos _ _ _).mpr (h w hw)
  have hne := hscaled.ne_bot (hasFinite_divTemp hfinite _)
  have hscores : ∀ v, expShift 0 (topKScores 1 (divTemp params.temperature logits) v) =
      if v = t then expShift 0 (divTemp params.temperature logits t) else 0 := by
    intro v
    rw [topKScores]
    by_cases hv : v = t
    · rw [if_pos ((hscaled.numAbove_lt_one_iff v).mpr hv), if_pos hv, hv]
    · rw [if_neg fun hlt => hv ((hscaled.numAbove_lt_one_iff v).mp hlt), if_neg hv, expShift_bot]
  have hsoft : softmax (topKScores 1 (divTemp params.temperature logits)) =
      fun v => if v = t then 1 else 0 := by
    funext v
    rw [softmax, hscores]
    simp only [hscores, Finset.sum_ite_eq', Finset.mem_univ, if_true]
    split
    · exact div_self (expShift_pos 0 hne).ne'
    · exact zero_div _
  have hlevel : 1 - params.topP ≤ 1 := by linarith [params.topP_pos]
  have hkept : ∀ v : Fin V, (if 1 - params.topP ≤ ∑ w, (if (if w = t then (1 : ℝ) else 0) ≤
      (if v = t then 1 else 0) then (if w = t then (1 : ℝ) else 0) else 0)
        then (if v = t then (1 : ℝ) else 0) else 0) = if v = t then 1 else 0 := by
    intro v
    by_cases hv : v = t
    · rw [if_pos hv, if_pos]
      have hall : ∀ w, (if (if w = t then (1 : ℝ) else 0) ≤ 1 then
          (if w = t then (1 : ℝ) else 0) else 0) = if w = t then 1 else 0 := by
        intro w
        split <;> simp
      rw [Finset.sum_congr rfl fun w _ => hall w, Finset.sum_ite_eq' Finset.univ t,
        if_pos (Finset.mem_univ t)]
      exact hlevel
    · rw [if_neg hv, ite_self]
  rw [ownTargetRow, ownScores, if_pos rfl, hk, hsoft, topP]
  simp only [hkept, Finset.sum_ite_eq', Finset.mem_univ, if_true, div_one]

end LatentSpec
