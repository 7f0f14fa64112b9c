import LatentSpec.VerifyTargetProbs

/-! # The sparse top-k path

`build_dflash_verify_target_probs` for a whole batch, with and without its sparse path.  The
platform's renormalisation is only asked for what it documents (`RenormBackend.Exact`): to keep
the `k` largest weights, or those whose larger ones have at most `p` together, of a row whose
weights are distinct.  The kernels of `renorm_triton.py` do so (`renormTriton_exact`), and so does
the torch fallback, which takes a `torch.topk` of the batch's largest `top_k` itself
(`renormTorch_exact`).
-/
namespace LatentSpec
open Softmax RenormRows
open scoped Coins

variable {V : ℕ}

/-! ### What a renormalisation does -/

/-- A row of probabilities whose positive entries are distinct. -/
structure DistinctProbs {n : ℕ} (row : Fin n → ℝ) : Prop where
  nonneg : ∀ v, 0 ≤ row v
  sum_eq : ∑ v, row v = 1
  distinct : ∀ v w, 0 < row v → row v = row w → v = w

/-- The documented behaviour of `top_k_renorm_prob` and `top_p_renorm_prob`. -/
structure RenormBackend.Exact (B : RenormBackend) : Prop where
  topK_eq : ∀ {n k : ℕ} {row : Fin n → ℝ}, 1 ≤ k → DistinctProbs row →
    B.topKRenormProb k row = topKRow k row
  topP_eq : ∀ {n : ℕ} {p : ℝ} {row : Fin n → ℝ}, 0 < p → p ≤ 1 → DistinctProbs row →
    B.topPRenormProb p row = topP p row

theorem DistinctProbs.pos {n : ℕ} {row : Fin n → ℝ} (h : DistinctProbs row) : 0 < n := by
  rcases Nat.eq_zero_or_pos n with rfl | hpos
  · exact absurd h.sum_eq (by simp)
  · exact hpos

theorem DistinctProbs.card_le {n : ℕ} {row : Fin n → ℝ} (h : DistinctProbs row) {v : Fin n}
    (hv : 0 < row v) : (Finset.univ.filter fun w => row v ≤ row w).card ≤ numAbove row v + 1 := by
  have hsub : (Finset.univ.filter fun w => row v ≤ row w) ⊆
      insert v (Finset.univ.filter fun w => row v < row w) := by
    intro w hw
    rcases (Finset.mem_filter.mp hw).2.lt_or_eq with hlt | heq
    · exact Finset.mem_insert_of_mem (Finset.mem_filter.mpr ⟨Finset.mem_univ w, hlt⟩)
    · rw [h.distinct v w hv heq]
      exact Finset.mem_insert_self w _
  exact (Finset.card_le_card hsub).trans (Finset.card_insert_le _ _)

/-- **The kernels are exact.** -/
theorem renormTriton_exact : renormTriton.Exact where
  topK_eq hk h := renormTriton_topK h.pos hk _
  topP_eq hp _ h := renormTriton_topP h.pos hp h.nonneg h.sum_eq

/-! ### The torch fallback -/

/-- A row of weights as a row of scores, to be sorted. -/
def asScores {n : ℕ} (probs : Fin n → ℝ) (v : Fin n) : WithBot ℝ := probs v

/-- `_dflash_top_k_renorm_prob` without a kernel, one row; `otherTopK` is the largest of the other
rows' `top_ks`. -/
noncomputable def topKRenormProbTorch {n : ℕ} (T : TorchTopk n) (otherTopK topK : ℕ)
    (probs : Fin n → ℝ) : Fin n → ℝ :=
  let topK := min (max topK 1) n
  let maxTopK := max (min (max otherTopK 1) n) topK
  let topkIndices := T.indices (asScores probs) maxTopK
  let topkProbs : Fin topkIndices.length → ℝ := fun rank =>
    if topK ≤ rank then 0 else probs (topkIndices.get rank)
  RenormRows.scatter topkIndices fun rank => topkProbs rank / ∑ r, topkProbs r

/-- `top_p_normalize_probs_torch`, one row. -/
noncomputable def topPNormalizeProbsTorch {n : ℕ} (T : TorchTopk n) (p : ℝ) (probs : Fin n → ℝ) :
    Fin n → ℝ :=
  let probsIdx := T.indices (asScores probs) n
  let probsSort : Fin probsIdx.length → ℝ := fun rank => probs (probsIdx.get rank)
  let probsSum : Fin probsIdx.length → ℝ := fun rank => ∑ r ∈ Finset.Iic rank, probsSort r
  let kept : Fin probsIdx.length → ℝ := fun rank =>
    if p < probsSum rank - probsSort rank then 0 else probsSort rank
  RenormRows.scatter probsIdx fun rank => kept rank / ∑ r, kept r

/-- The fallback of `_dflash_top_k_renorm_prob` and `_dflash_top_p_renorm_prob`. -/
noncomputable def renormTorch (T : ∀ n, TorchTopk n) (otherTopK : ℕ) : RenormBackend where
  topKRenormProb {n} topK probs := topKRenormProbTorch (T n) otherTopK topK probs
  topPRenormProb {n} p probs := topPNormalizeProbsTorch (T n) p probs

section Torch
variable {n : ℕ} (T : TorchTopk n) {row : Fin n → ℝ}

theorem numAbove_asScores (row : Fin n → ℝ) (v : Fin n) :
    numAbove (asScores row) v = numAbove row v := by
  simp only [numAbove, asScores, WithBot.coe_lt_coe]

/-- Every token is among all of them. -/
theorem TorchTopk.mem_indices (row : Fin n → WithBot ℝ) (v : Fin n) : v ∈ T.indices row n := by
  have hcard : (T.indices row n).toFinset.card = Fintype.card (Fin n) := by
    rw [List.toFinset_card_of_nodup (T.nodup row n), T.length_eq row n le_rfl, Fintype.card_fin]
  exact List.mem_toFinset.mp ((Finset.card_eq_iff_eq_univ _).mp hcard ▸ Finset.mem_univ v)

/-- **Top-k of the fallback**, on a row where no positive weight ties beyond `k`. -/
theorem topKRenormProbTorch_eq (hn : 0 < n) (hnonneg : ∀ v, 0 ≤ row v) (otherTopK : ℕ) {k : ℕ}
    (hk : 1 ≤ k) (hnotie : ∀ v, 0 < row v → numAbove row v < k →
      (Finset.univ.filter fun w => row v ≤ row w).card ≤ k) :
    topKRenormProbTorch T otherTopK k row = topKRow k row := by
  have hmax : max (min (max otherTopK 1) n) (min (max k 1) n) ≤ n := by omega
  unfold topKRenormProbTorch
  simp only
  generalize hm : max (min (max otherTopK 1) n) (min (max k 1) n) = m at hmax
  have hlen := T.length_eq (asScores row) m hmax
  have hnodup := T.nodup (asScores row) m
  -- a positive weight has its rank below `k` exactly if fewer than `k` are larger
  have hrank : ∀ v, 0 < row v →
      ((T.indices (asScores row) m).idxOf v < min (max k 1) n ↔ numAbove row v < k) := by
    intro v hv
    have hlt := numAbove_lt row v
    rw [T.idxOf_lt_iff (by omega) hmax, numAbove_asScores]
    · omega
    · intro habove
      rw [numAbove_asScores] at habove
      have hcard := hnotie v hv (by omega)
      have hall := Finset.card_le_univ (Finset.univ.filter fun w => row v ≤ row w)
      rw [Fintype.card_fin] at hall
      simp only [asScores, WithBot.coe_le_coe]
      omega
  have hkept : ∀ rank : Fin (T.indices (asScores row) m).length,
      (if min (max k 1) n ≤ rank then 0 else row ((T.indices (asScores row) m).get rank)) =
        if numAbove row ((T.indices (asScores row) m).get rank) < k then
          row ((T.indices (asScores row) m).get rank) else 0 := by
    intro rank
    rcases (hnonneg ((T.indices (asScores row) m).get rank)).lt_or_eq with hpos | hzero
    · have hidx :
        (T.indices (asScores row) m).idxOf ((T.indices (asScores row) m).get rank) = rank :=
        hnodup.idxOf_getElem rank rank.isLt
      have hiff := hrank _ hpos
      rw [hidx] at hiff
      by_cases hlt : rank < min (max k 1) n
      · rw [if_neg (by omega), if_pos (hiff.mp hlt)]
      · rw [if_pos (by omega), if_neg fun hlt' => hlt (hiff.mpr hlt')]
    · rw [← hzero, ite_self, ite_self]
  simp only [hkept]
  refine scatter_gather hnodup (g := fun v => if numAbove row v < k then row v else 0) ?_
  intro v hv
  rcases (hnonneg v).lt_or_eq with hpos | hzero
  · refine if_neg fun habove => ?_
    have hidx := List.idxOf_eq_length_iff.mpr hv
    have := (hrank v hpos).mpr habove
    omega
  · rw [← hzero, ite_self]

/-- Top-p takes tokens of equal weight together, also when it goes through the sorted row one token
after another. -/
def NoTopPTie (p : ℝ) (row : Fin n → ℝ) : Prop :=
  ∀ v, 0 < row v → ∑ w with row v < row w, row w ≤ p → (∑ w with row v ≤ row w, row w) - row v ≤ p

theorem NoTopPTie.of_distinct (h : ∀ v w, 0 < row v → row v = row w → v = w) (p : ℝ) :
    NoTopPTie p row := by
  intro v hv hle
  have hcover : (Finset.univ.filter fun w => row v ≤ row w) =
      insert v (Finset.univ.filter fun w => row v < row w) := by
    ext w
    rw [Finset.mem_insert, Finset.mem_filter, Finset.mem_filter, le_iff_lt_or_eq]
    constructor
    · rintro ⟨-, hlt | heq⟩
      · exact .inr ⟨Finset.mem_univ w, hlt⟩
      · exact .inl (h v w hv heq).symm
    · rintro (rfl | ⟨-, hlt⟩)
      · exact ⟨Finset.mem_univ w, .inr rfl⟩
      · exact ⟨Finset.mem_univ w, .inl hlt⟩
  rwa [hcover, Finset.sum_insert (by simp), add_sub_cancel_left]

/-- Before a weight in the sorted row stands all that is larger, and some of what is equal. -/
theorem sum_before_rank (hnonneg : ∀ v, 0 ≤ row v)
    (rank : Fin (T.indices (asScores row) n).length) :
    ∑ w with row ((T.indices (asScores row) n).get rank) < row w, row w ≤
        ∑ r ∈ Finset.Iio rank, row ((T.indices (asScores row) n).get r) ∧
      ∑ r ∈ Finset.Iio rank, row ((T.indices (asScores row) n).get r) ≤
        (∑ w with row ((T.indices (asScores row) n).get rank) ≤ row w, row w) -
          row ((T.indices (asScores row) n).get rank) := by
  have hinj := (T.nodup (asScores row) n).injective_get
  have hdesc : ∀ r r' : Fin (T.indices (asScores row) n).length, r < r' →
      row ((T.indices (asScores row) n).get r') ≤ row ((T.indices (asScores row) n).get r) :=
    fun r r' hlt => WithBot.coe_le_coe.mp
      (List.pairwise_iff_getElem.mp (T.descending (asScores row) n) r r' r.isLt r'.isLt hlt)
  have hbefore : ∑ r ∈ Finset.Iio rank, row ((T.indices (asScores row) n).get r) =
      ∑ w ∈ (Finset.Iio rank).map ⟨(T.indices (asScores row) n).get, hinj⟩, row w :=
    (Finset.sum_map (Finset.Iio rank) ⟨(T.indices (asScores row) n).get, hinj⟩ row).symm
  have hself : (T.indices (asScores row) n).get rank ∈
      Finset.univ.filter fun w => row ((T.indices (asScores row) n).get rank) ≤ row w :=
    Finset.mem_filter.mpr ⟨Finset.mem_univ _, le_rfl⟩
  rw [hbefore, ← Finset.sum_erase_eq_sub hself]
  constructor
  · refine Finset.sum_le_sum_of_subset_of_nonneg (fun w hw => ?_) fun w _ _ => hnonneg w
    obtain ⟨r, rfl⟩ := List.get_of_mem (T.mem_indices (asScores row) w)
    have hlarger := (Finset.mem_filter.mp hw).2
    refine Finset.mem_map_of_mem _ (Finset.mem_Iio.mpr ?_)
    by_contra hge
    rcases (not_lt.mp hge).lt_or_eq with hgt | heq
    · exact absurd hlarger (not_lt.mpr (hdesc rank r hgt))
    · rw [heq] at hlarger
      exact lt_irrefl _ hlarger
  · refine Finset.sum_le_sum_of_subset_of_nonneg (fun w hw => ?_) fun w _ _ => hnonneg w
    obtain ⟨r, hr, rfl⟩ := Finset.mem_map.mp hw
    have hlt := Finset.mem_Iio.mp hr
    refine Finset.mem_erase.mpr ⟨fun heq => hlt.ne (hinj heq), ?_⟩
    exact Finset.mem_filter.mpr ⟨Finset.mem_univ _, hdesc r rank hlt⟩

/-- **Top-p of the fallback**, on a row where top-p takes equal weights together. -/
theorem topPNormalizeProbsTorch_eq (hnonneg : ∀ v, 0 ≤ row v) (hsum : ∑ v, row v = 1) {p : ℝ}
    (hnotie : NoTopPTie p row) : topPNormalizeProbsTorch T p row = topP p row := by
  have hkept : ∀ rank : Fin (T.indices (asScores row) n).length,
      (if p < ∑ r ∈ Finset.Iic rank, row ((T.indices (asScores row) n).get r) -
          row ((T.indices (asScores row) n).get rank) then 0
        else row ((T.indices (asScores row) n).get rank)) =
      if 1 - p ≤ ∑ w, (if row w ≤ row ((T.indices (asScores row) n).get rank) then row w else 0)
        then row ((T.indices (asScores row) n).get rank) else 0 := by
    intro rank
    rcases (hnonneg ((T.indices (asScores row) n).get rank)).lt_or_eq with hpos | hzero
    · obtain ⟨hlarger, hequal⟩ := sum_before_rank T hnonneg rank
      rw [← Finset.Iio_insert, Finset.sum_insert Finset.notMem_Iio_self, add_sub_cancel_left]
      simp only [one_sub_le_iff hsum]
      split_ifs with hlt hle hle
      · exact absurd hlt (not_lt.mpr (hequal.trans (hnotie _ hpos hle)))
      · rfl
      · rfl
      · exact absurd (hlarger.trans (not_lt.mp hlt)) hle
    · rw [← hzero, ite_self, ite_self]
  unfold topPNormalizeProbsTorch
  simp only [hkept]
  exact scatter_gather (T.nodup (asScores row) n)
    (g := fun v => if 1 - p ≤ ∑ w, (if row w ≤ row v then row w else 0) then row v else 0)
    fun v hv => absurd (T.mem_indices (asScores row) v) hv

end Torch

/-- **The fallback is exact.** -/
theorem renormTorch_exact (T : ∀ n, TorchTopk n) (otherTopK : ℕ) :
    (renormTorch T otherTopK).Exact where
  topK_eq hk h := topKRenormProbTorch_eq (T _) h.pos h.nonneg otherTopK hk fun _ hv habove =>
    (h.card_le hv).trans habove
  topP_eq _ _ h := topPNormalizeProbsTorch_eq (T _) h.nonneg h.sum_eq (.of_distinct h.distinct _)

/-! ### Exact renormalisations cut logits -/

theorem injective_divTemp {t : ℝ} (ht : 0 < t) {logits : Fin V → WithBot ℝ}
    (h : Function.Injective logits) : Function.Injective (divTemp t logits) := by
  intro v w heq
  by_contra hne
  rcases lt_or_gt_of_ne fun hrow => hne (h hrow) with hlt | hgt
  · exact absurd heq ((divTemp_lt_iff ht logits v w).mpr hlt).ne
  · exact absurd heq ((divTemp_lt_iff ht logits w v).mpr hgt).ne'

/-- Distinct logits are distinct where they are not masked. -/
theorem ownScores_distinct (needTopK : Bool) (p : SamplingParams) {logits : Fin V → WithBot ℝ}
    (h : Function.Injective logits) (v w : Fin V) (hv : ownScores needTopK p logits v ≠ ⊥)
    (heq : ownScores needTopK p logits v = ownScores needTopK p logits w) : v = w := by
  have hscaled := injective_divTemp p.temperature_pos h
  unfold ownScores at hv heq
  cases needTopK with
  | false => exact hscaled heq
  | true =>
    simp only [if_true, topKScores] at hv heq
    split at hv
    · rw [if_pos (by assumption)] at heq
      split at heq
      · exact hscaled heq
      · exact absurd heq hv
    · exact absurd rfl hv

section Exact
variable {B : RenormBackend} (hB : B.Exact)

/-- The softmax of distinct scores. -/
theorem distinctProbs_softmax {n : ℕ} {row : Fin n → WithBot ℝ} (h : HasFinite row)
    (hdistinct : ∀ v w, row v ≠ ⊥ → row v = row w → v = w) : DistinctProbs (softmax row) where
  nonneg := softmax_nonneg
  sum_eq := sum_softmax h
  distinct v w hv heq := by
    have hne : row v ≠ ⊥ := by
      intro hbot
      rw [softmax, hbot, expShift_bot, zero_div] at hv
      exact lt_irrefl _ hv
    refine hdistinct v w hne ?_
    rcases lt_trichotomy (row v) (row w) with hlt | hrow | hgt
    · exact absurd heq ((softmax_lt_iff h v w).mpr hlt).ne
    · exact hrow
    · exact absurd heq ((softmax_lt_iff h w v).mpr hgt).ne'

include hB

theorem RenormBackend.Exact.cutsTopK {row : Fin V → WithBot ℝ} (h : HasFinite row)
    (hdistinct : Function.Injective row) {k : ℕ} (hk : 1 ≤ k) : B.CutsTopK k row := by
  have hprobs := distinctProbs_softmax h fun v w _ heq => hdistinct heq
  exact (hB.topK_eq hk hprobs).trans (topKRow_softmax h k)

theorem RenormBackend.Exact.cutsTopP {row : Fin V → WithBot ℝ}
    (hdistinct : ∀ v w, row v ≠ ⊥ → row v = row w → v = w) {p : ℝ} (hp : 0 < p) (hp1 : p ≤ 1) :
    B.CutsTopP p row := by
  intro n f hf _ h
  refine hB.topP_eq hp hp1 (distinctProbs_softmax h fun i j hi heq => ?_)
  exact hf (hdistinct (f i) (f j) hi heq)

theorem RenormBackend.Exact.cuts (needTopK : Bool) (p : SamplingParams)
    {logits : Fin V → WithBot ℝ} (h : HasFinite logits) (hdistinct : Function.Injective logits) :
    B.Cuts needTopK p logits :=
  ⟨fun _ => hB.cutsTopK (hasFinite_divTemp h _) (injective_divTemp p.temperature_pos hdistinct)
      p.topK_pos,
    hB.cutsTopP (ownScores_distinct needTopK p hdistinct) p.topP_pos p.topP_le⟩

end Exact

/-! ### Platforms -/

theorem NoTie.of_injective {logits : Fin V → WithBot ℝ} (h : Function.Injective logits) (k : ℕ) :
    NoTie k logits := by
  intro v _ habove
  have hsub : (Finset.univ.filter fun w => logits v ≤ logits w) ⊆
      insert v (Finset.univ.filter fun w => logits v < logits w) := by
    intro w hw
    rcases (Finset.mem_filter.mp hw).2.lt_or_eq with hlt | heq
    · exact Finset.mem_insert_of_mem (Finset.mem_filter.mpr ⟨Finset.mem_univ w, hlt⟩)
    · rw [h heq]
      exact Finset.mem_insert_self w _
  exact ((Finset.card_le_card hsub).trans (Finset.card_insert_le _ _)).trans habove

/-- What a platform renormalises with: a fused kernel, or torch where it has none. -/
inductive RenormPlatform where
  | fused
  | torch
  deriving DecidableEq

/-- The renormalisations of a step.  Those of the fallback depend on the batch, by its largest
`top_k`. -/
def RenormBackend.RunsOn (B : RenormBackend) : RenormPlatform → Prop
  | .fused => B.KeepsTies
  | .torch => ∃ T otherTopK, B = renormTorch T otherTopK

/-- No tie decides what a request keeps of its row: none at its own `top_k`, and none at its own
`top_p` where the platform goes through the row one token after another. -/
structure Untied (platform : RenormPlatform) (p : SamplingParams) (logits : Fin V → WithBot ℝ) :
    Prop where
  topK : NoTie p.topK logits
  topP : platform = .torch → NoTopPTie p.topP (softmax (ownScores true p logits))

section Platforms
variable {n : ℕ} {row : Fin V → WithBot ℝ} {f : Fin n → Fin V} (hf : Function.Injective f)
include hf

theorem softmax_comp (hrange : ∀ v ∉ Set.range f, row v = ⊥) :
    (softmax fun i => row (f i)) = fun i => softmax row (f i) := by
  have hsum : ∑ i, expShift 0 (row (f i)) = ∑ v, expShift 0 (row v) :=
    Fintype.sum_of_injective f hf _ _ (fun v hv => by rw [hrange v hv, expShift_bot]) fun _ => rfl
  funext i
  rw [softmax, softmax, hsum]

/-- Zeros left out make no ties. -/
theorem NoTopPTie.comp {p : ℝ} {w : Fin V → ℝ} (h : NoTopPTie p w)
    (hzero : ∀ v ∉ Set.range f, w v = 0) : NoTopPTie p fun i => w (f i) := by
  have hsum : ∀ (P : ℝ → Prop) [DecidablePred P],
      ∑ i with P (w (f i)), w (f i) = ∑ v with P (w v), w v := by
    intro P _
    rw [Finset.sum_filter, Finset.sum_filter]
    exact Fintype.sum_of_injective f hf _ _ (fun v hv => by rw [hzero v hv, ite_self]) fun _ => rfl
  intro i hi hle
  rw [hsum (w (f i) < ·)] at hle
  rw [hsum (w (f i) ≤ ·)]
  exact h (f i) hi hle

end Platforms

theorem RenormBackend.RunsOn.cuts {B : RenormBackend} {platform : RenormPlatform}
    (hB : B.RunsOn platform) {p : SamplingParams} {logits : Fin V → WithBot ℝ}
    (h : HasFinite logits)
    (huntied : Untied platform p logits) : B.Cuts true p logits := by
  cases platform with
  | fused => exact RenormBackend.KeepsTies.cuts hB true p h
  | torch =>
    obtain ⟨T, otherTopK, rfl⟩ := hB
    have hscaled := hasFinite_divTemp h p.temperature
    have hnotie := huntied.topK.divTemp p.temperature_pos
    refine ⟨fun _ => ?_, fun n f hf hrange hfinite => ?_⟩
    · refine (topKRenormProbTorch_eq (T V) h.choose.pos softmax_nonneg otherTopK p.topK_pos
        fun v hv habove => ?_).trans (topKRow_softmax hscaled p.topK)
      have hne : divTemp p.temperature logits v ≠ ⊥ := by
        intro hbot
        rw [softmax, hbot, expShift_bot, zero_div] at hv
        exact lt_irrefl _ hv
      simp only [numAbove, softmax_lt_iff hscaled] at habove
      simp only [← not_lt, softmax_lt_iff hscaled]
      simp only [not_lt]
      exact hnotie v hne habove
    · refine topPNormalizeProbsTorch_eq (T n) softmax_nonneg (sum_softmax hfinite) ?_
      rw [softmax_comp hf hrange]
      refine (huntied.topP rfl).comp hf fun v hv => ?_
      rw [softmax, hrange v hv, expShift_bot, zero_div]

/-- A greedy request keeps one token, whatever the platform. -/
theorem UniqueMax.untied {platform : RenormPlatform} {p : SamplingParams} (hgreedy : p.topK ≤ 1)
    {logits : Fin V → WithBot ℝ} {t : Fin V} (h : UniqueMax logits t) :
    Untied platform p logits := by
  have hk : p.topK = 1 := Nat.le_antisymm hgreedy p.topK_pos
  have hscaled : UniqueMax (divTemp p.temperature logits) t := fun w hw =>
    (divTemp_lt_iff p.temperature_pos _ _ _).mpr (h w hw)
  have honly : ∀ v, 0 < softmax (ownScores true p logits) v → v = t := by
    intro v hv
    rw [← hscaled.numAbove_lt_one_iff v]
    by_contra hnot
    rw [ownScores, if_pos rfl, hk, softmax, topKScores, if_neg hnot, expShift_bot, zero_div] at hv
    exact lt_irrefl _ hv
  refine ⟨hk ▸ h.noTie, fun _ => .of_distinct (fun v w hv heq => ?_) _⟩
  rw [honly v hv, honly w (heq ▸ hv)]

/-- Distinct logits do not tie. -/
theorem Untied.of_injective {logits : Fin V → WithBot ℝ} (h : Function.Injective logits)
    (hfinite : HasFinite logits) (platform : RenormPlatform) (p : SamplingParams) :
    Untied platform p logits := by
  have hprobs := distinctProbs_softmax (hasFinite_ownScores true p hfinite)
    (ownScores_distinct true p h)
  exact ⟨NoTie.of_injective h p.topK, fun _ => .of_distinct hprobs.distinct p.topP⟩

/-! ### The batch -/

/-- **`build_dflash_verify_target_probs`**: the rows of a batch, with the plan that
`prepare_for_decode` makes of its requests. -/
noncomputable def buildDflashVerifyTargetProbs (B : RenormBackend) (T : TorchTopk V)
    (bs draftTokenNum : ℕ) (params : ℕ → SamplingParams) (nextTokenLogits : ℕ → LogitRow V)
    (useSparseTopk : Bool) (b i : ℕ) : Fin V → ℝ :=
  let row := b * draftTokenNum + i
  verifyTargetRow B T useSparseTopk (samplingFlags bs params) (prepareTopK bs params)
    (params (row / draftTokenNum)) (nextTokenLogits row).score

/-- The tokens that top-k followed by top-p keeps: unmasked, fewer than `top_k` above them (if any
request of the batch asks for top-k), and those above them have at most `top_p` of what top-k
keeps. -/
def Kept (needTopK : Bool) (p : SamplingParams) (logits : Fin V → WithBot ℝ) (v : Fin V) : Prop :=
  logits v ≠ ⊥ ∧ (needTopK = true → numAbove logits v < p.topK) ∧
    ∑ w with logits v < logits w, softmax (ownScores needTopK p logits) w ≤ p.topP

section Support
variable {needTopK : Bool} {p : SamplingParams} {logits : Fin V → WithBot ℝ}

theorem numAbove_divTemp {t : ℝ} (ht : 0 < t) (row : Fin V → WithBot ℝ) (v : Fin V) :
    numAbove (divTemp t row) v = numAbove row v := by
  simp only [numAbove, divTemp_lt_iff ht]

theorem ownScores_ne_bot_iff (v : Fin V) : ownScores needTopK p logits v ≠ ⊥ ↔
    logits v ≠ ⊥ ∧ (needTopK = true → numAbove logits v < p.topK) := by
  unfold ownScores
  cases needTopK with
  | false => simp [divTemp_eq_bot_iff]
  | true =>
    rw [if_pos rfl, topKScores, numAbove_divTemp p.temperature_pos]
    by_cases hv : numAbove logits v < p.topK
    · rw [if_pos hv]
      simp [divTemp_eq_bot_iff, hv]
    · rw [if_neg hv]
      simp [hv]

/-- Above a token that stays, the scores keep the order of the logits. -/
theorem ownScores_lt_iff {v : Fin V} (hv : ownScores needTopK p logits v ≠ ⊥) (w : Fin V) :
    ownScores needTopK p logits v < ownScores needTopK p logits w ↔ logits v < logits w := by
  obtain ⟨hbot, habove⟩ := (ownScores_ne_bot_iff v).mp hv
  unfold ownScores
  cases needTopK with
  | false => exact divTemp_lt_iff p.temperature_pos logits v w
  | true =>
    simp only [if_true, topKScores, numAbove_divTemp p.temperature_pos]
    rw [if_pos (habove rfl)]
    by_cases hw : numAbove logits w < p.topK
    · rw [if_pos hw]
      exact divTemp_lt_iff p.temperature_pos logits v w
    · rw [if_neg hw]
      refine ⟨fun hlt => absurd hlt not_lt_bot, fun hlt => absurd ?_ hw⟩
      refine lt_of_le_of_lt (Finset.card_le_card fun u hu => ?_) (habove rfl)
      exact Finset.mem_filter.mpr ⟨Finset.mem_univ u, hlt.trans (Finset.mem_filter.mp hu).2⟩

/-- **The support of a request's row** is what its own top-k and top-p keep. -/
theorem ownTargetRow_pos_iff (h : HasFinite logits) (v : Fin V) :
    0 < ownTargetRow needTopK p logits v ↔ Kept needTopK p logits v := by
  have hfinite := hasFinite_ownScores needTopK p h
  have hsoft : 0 < softmax (ownScores needTopK p logits) v ↔ ownScores needTopK p logits v ≠ ⊥ := by
    rw [softmax, div_pos_iff_of_pos_right (sum_expShift_pos hfinite 0)]
    constructor
    · intro hpos hbot
      rw [hbot, expShift_bot] at hpos
      exact lt_irrefl _ hpos
    · exact expShift_pos 0
  rw [ownTargetRow, topP_pos_iff p.topP_pos softmax_nonneg (sum_softmax hfinite), hsoft,
    one_sub_le_iff (sum_softmax hfinite), Kept, ← and_assoc, ← ownScores_ne_bot_iff]
  refine and_congr_right fun hv => ?_
  simp only [softmax_lt_iff hfinite, ownScores_lt_iff hv]

end Support

/-- **The sparse path is the dense path.**  For every batch, every row of distinct logits, and any
renormalisation that does what it documents, both give the same row; it is normalised, and its
support is what the request's top-k and top-p keep. -/
theorem sparse_eq_dense {B : RenormBackend} (hB : B.Exact) (T : TorchTopk V)
    {bs draftTokenNum : ℕ} {params : ℕ → SamplingParams} {nextTokenLogits : ℕ → LogitRow V}
    (hdistinct : ∀ row < bs * draftTokenNum, Function.Injective (nextTokenLogits row).score)
    {b i : ℕ} (hb : b < bs) (hi : i < draftTokenNum) :
    let probs := buildDflashVerifyTargetProbs B T bs draftTokenNum params nextTokenLogits
    probs true b i = probs false b i ∧ (∀ v, 0 ≤ probs true b i v) ∧ ∑ v, probs true b i v = 1 ∧
      ∀ v, 0 < probs true b i v ↔ Kept (samplingFlags bs params).needTopKSampling (params b)
        (nextTokenLogits (b * draftTokenNum + i)).score v := by
  have hfinite := (nextTokenLogits (b * draftTokenNum + i)).finite
  have hinj := hdistinct _ (TiledStores.block_lt hb hi)
  have hrow : ∀ useSparseTopk,
      buildDflashVerifyTargetProbs B T bs draftTokenNum params nextTokenLogits useSparseTopk b i =
        ownTargetRow (samplingFlags bs params).needTopKSampling (params b)
          (nextTokenLogits (b * draftTokenNum + i)).score := by
    intro useSparseTopk
    unfold buildDflashVerifyTargetProbs
    simp only [TiledStores.block_div hi]
    exact verifyTargetRow_eq T (covers hb) hfinite (hB.cuts _ _ hfinite hinj)
      (fun _ => NoTie.of_injective hinj _) useSparseTopk
  have hsoft := sum_softmax
    (hasFinite_ownScores (samplingFlags bs params).needTopKSampling (params b) hfinite)
  simp only [hrow]
  exact ⟨trivial, topP_nonneg (params b).topP_pos softmax_nonneg hsoft,
    sum_topP (params b).topP_pos softmax_nonneg hsoft, ownTargetRow_pos_iff hfinite⟩

/-- Two requests over three tokens, one of them greedy, the other with a smaller `top_p`. -/
noncomputable def twoRequests (b : ℕ) : SamplingParams :=
  if b = 0 then ⟨1, 1, 1 / 2, one_pos, le_rfl, by norm_num, by norm_num⟩
  else ⟨2, 2, 1 / 2, by norm_num, Nat.le_of_lt Nat.one_lt_two, by norm_num, by norm_num⟩

/-- Logits that grow with the token. -/
def risingLogits : LogitRow 3 where
  score v := ((v.val : ℝ) : WithBot ℝ)
  finite := ⟨0, WithBot.coe_ne_bot⟩

/-- The batch of two requests, cut at the largest `top_k` of both. -/
theorem sparse_eq_dense_twoRequests :
    buildDflashVerifyTargetProbs renormTriton stableTopk 2 1 twoRequests (fun _ => risingLogits)
        true 1 0 =
      buildDflashVerifyTargetProbs renormTriton stableTopk 2 1 twoRequests (fun _ => risingLogits)
        false 1 0 := by
  have hinj : Function.Injective risingLogits.score := fun v w heq =>
    Fin.ext (Nat.cast_injective (WithBot.coe_injective heq))
  exact (sparse_eq_dense renormTriton_exact stableTopk (fun _ _ => hinj) Nat.one_lt_two
    Nat.one_pos).1

end LatentSpec
