import Mathlib.Algebra.BigOperators.Group.Finset.Basic
import Mathlib.MeasureTheory.MeasurableSpace.Embedding
import Mathlib.MeasureTheory.Measure.AEMeasurable
import Mathlib.MeasureTheory.Measure.Dirac

/-! # Selections by exchangeable values

The law of a family of values is exchangeable when no permutation of the indices changes it.
`lowest` selects the candidates with the `m` lowest values.  It only looks at ranks, so it
commutes with permutations of the candidates, and under an exchangeable law any two sets of
candidates of one size are selected equally often (`lowest_equally_likely`).
`two_nsmul_sum_powersetCard` is the mean of a sum over a selection when the selections of one
size count equally.
-/
namespace ExchangeableDraws
open MeasureTheory

variable {ι K : Type*}

section Lowest
variable [LinearOrder K]

/-- The number of candidates with a lower value. -/
def place (candidates : Finset ι) (r : ι → K) (i : ι) : ℕ :=
  (candidates.filter fun c => r c < r i).card

/-- The candidates with the `m` lowest values. -/
def lowest (candidates : Finset ι) (m : ℕ) (r : ι → K) : Finset ι :=
  candidates.filter fun i => place candidates r i < m

theorem place_comp {candidates : Finset ι} {σ : Equiv.Perm ι}
    (hσ : ∀ i, σ i ∈ candidates ↔ i ∈ candidates) (r : ι → K) (i : ι) :
    place candidates (r ∘ σ) i = place candidates r (σ i) := by
  refine Finset.card_bij (fun c _ => σ c) ?_ (fun a _ b _ hab => σ.injective hab) ?_
  · intro c hc
    rw [Finset.mem_filter] at hc ⊢
    exact ⟨(hσ c).2 hc.1, hc.2⟩
  · intro c hc
    rw [Finset.mem_filter] at hc
    refine ⟨σ.symm c, ?_, σ.apply_symm_apply c⟩
    rw [Finset.mem_filter, ← hσ, Function.comp_apply, σ.apply_symm_apply]
    exact hc

theorem mem_lowest_comp {candidates : Finset ι} {σ : Equiv.Perm ι}
    (hσ : ∀ i, σ i ∈ candidates ↔ i ∈ candidates) (m : ℕ) (r : ι → K) (i : ι) :
    i ∈ lowest candidates m (r ∘ σ) ↔ σ i ∈ lowest candidates m r := by
  rw [lowest, lowest, Finset.mem_filter, Finset.mem_filter, hσ, place_comp hσ]

theorem lowest_map {κ : Type*} (f : ι ↪ κ) (candidates : Finset ι) (m : ℕ) {r : ι → K}
    {r' : κ → K} (hr : ∀ i, r' (f i) = r i) :
    lowest (candidates.map f) m r' = (lowest candidates m r).map f := by
  have hplace : ∀ i, place (candidates.map f) r' (f i) = place candidates r i := by
    intro i
    rw [place, Finset.filter_map, Finset.card_map, place]
    simp only [Function.comp_def, hr]
  rw [lowest, Finset.filter_map, lowest]
  simp only [Function.comp_def, hplace]

end Lowest

/-- Subsets of one size are exchanged by a permutation that keeps the set they are in. -/
theorem exists_perm [Fintype ι] [DecidableEq ι] {candidates S T : Finset ι}
    (hS : S ⊆ candidates) (hT : T ⊆ candidates) (hcard : S.card = T.card) :
    ∃ σ : Equiv.Perm ι, (∀ i, σ i ∈ candidates ↔ i ∈ candidates) ∧ ∀ i, σ i ∈ T ↔ i ∈ S := by
  -- the classes of an index are being a candidate and being selected
  let classOf (A : Finset ι) (i : ι) : Bool × Bool := (decide (i ∈ candidates), decide (i ∈ A))
  have hclass : ∀ c : Bool × Bool,
      Fintype.card {i // classOf S i = c} = Fintype.card {i // classOf T i = c} := by
    have count (A : Finset ι) (hA : A ⊆ candidates) : ∀ c : Bool × Bool,
        Fintype.card {i // classOf A i = c} =
          match c with
          | (true, true) => A.card
          | (true, false) => candidates.card - A.card
          | (false, true) => 0
          | (false, false) => candidatesᶜ.card := by
      rintro ⟨_ | _, _ | _⟩ <;> rw [Fintype.card_subtype]
      · congr 1
        ext i
        simp only [classOf, Finset.mem_filter, Finset.mem_univ, true_and, Prod.mk.injEq,
          decide_eq_false_iff_not, Finset.mem_compl]
        exact ⟨fun h => h.1, fun h => ⟨h, fun hi => h (hA hi)⟩⟩
      · rw [Finset.card_eq_zero, Finset.filter_eq_empty_iff]
        intro i _ h
        simp only [classOf, Prod.mk.injEq, decide_eq_false_iff_not, decide_eq_true_eq] at h
        exact h.1 (hA h.2)
      · rw [← Finset.card_sdiff_of_subset hA]
        congr 1
        ext i
        simp [classOf]
      · congr 1
        ext i
        simp only [classOf, Finset.mem_filter, Finset.mem_univ, true_and, Prod.mk.injEq,
          decide_eq_true_eq]
        exact ⟨fun h => h.2, fun h => ⟨hA h, h⟩⟩
    intro c
    rw [count S hS c, count T hT c, hcard]
  let σ : Equiv.Perm ι := Equiv.ofFiberEquiv fun c => Fintype.equivOfCardEq (hclass c)
  have hσ : ∀ i, classOf T (σ i) = classOf S i := fun i => Equiv.ofFiberEquiv_map _ i
  refine ⟨σ, fun i => ?_, fun i => ?_⟩
  · simpa [classOf] using congrArg Prod.fst (hσ i)
  · simpa [classOf] using congrArg Prod.snd (hσ i)

section Subsets
variable {M : Type*} [DecidableEq ι]

/-- Summing over the subsets of one size, a subset may be replaced by its mirror image. -/
theorem sum_powersetCard_image [AddCommMonoid M] {candidates : Finset ι} {mirror : ι → ι}
    (hmem : ∀ i ∈ candidates, mirror i ∈ candidates)
    (hinv : ∀ i ∈ candidates, mirror (mirror i) = i) (k : ℕ) (g : Finset ι → M) :
    ∑ S ∈ candidates.powersetCard k, g (S.image mirror) =
      ∑ S ∈ candidates.powersetCard k, g S := by
  have hinj : Set.InjOn mirror candidates := fun i hi j hj h => by
    rw [← hinv i hi, ← hinv j hj, h]
  have himage : ∀ S ∈ candidates.powersetCard k, S.image mirror ∈ candidates.powersetCard k := by
    intro S hS
    obtain ⟨hsub, hcard⟩ := Finset.mem_powersetCard.mp hS
    refine Finset.mem_powersetCard.mpr ⟨Finset.image_subset_iff.mpr fun i hi =>
      hmem i (hsub hi), ?_⟩
    rw [Finset.card_image_of_injOn (hinj.mono hsub), hcard]
  have hback : ∀ S ∈ candidates.powersetCard k, (S.image mirror).image mirror = S := by
    intro S hS
    have hsub := (Finset.mem_powersetCard.mp hS).1
    rw [Finset.image_image]
    refine (Finset.image_congr fun i hi => ?_).trans Finset.image_id
    exact hinv i (hsub hi)
  exact Finset.sum_nbij' (Finset.image mirror) (Finset.image mirror) himage himage hback hback
    fun S _ => rfl

/-- **The mean of the sums over the subsets of one size**, where a value and its mirror image
always add up to the same. -/
theorem two_nsmul_sum_powersetCard [AddCommMonoid M] {candidates : Finset ι} {mirror : ι → ι}
    (hmem : ∀ i ∈ candidates, mirror i ∈ candidates)
    (hinv : ∀ i ∈ candidates, mirror (mirror i) = i) {value : ι → M} {c : M}
    (hc : ∀ i ∈ candidates, value i + value (mirror i) = c) (k : ℕ) :
    2 • ∑ S ∈ candidates.powersetCard k, ∑ i ∈ S, value i =
      (candidates.powersetCard k).card • k • c := by
  have hpair : ∀ S ∈ candidates.powersetCard k,
      ∑ i ∈ S, value i + ∑ i ∈ S.image mirror, value i = k • c := by
    intro S hS
    obtain ⟨hsub, hcard⟩ := Finset.mem_powersetCard.mp hS
    have hinj : Set.InjOn mirror S := fun i hi j hj h => by
      rw [← hinv i (hsub hi), ← hinv j (hsub hj), h]
    rw [Finset.sum_image hinj, ← Finset.sum_add_distrib,
      Finset.sum_congr rfl fun i hi => hc i (hsub hi), Finset.sum_const, hcard]
  calc 2 • ∑ S ∈ candidates.powersetCard k, ∑ i ∈ S, value i
      = ∑ S ∈ candidates.powersetCard k, ∑ i ∈ S, value i +
          ∑ S ∈ candidates.powersetCard k, ∑ i ∈ S.image mirror, value i := by
        rw [two_nsmul, sum_powersetCard_image hmem hinv k fun S => ∑ i ∈ S, value i]
    _ = ∑ S ∈ candidates.powersetCard k,
          (∑ i ∈ S, value i + ∑ i ∈ S.image mirror, value i) := Finset.sum_add_distrib.symm
    _ = (candidates.powersetCard k).card • k • c := by
        rw [Finset.sum_congr rfl hpair, Finset.sum_const]

end Subsets

section Law
variable [MeasurableSpace K]

/-- No permutation of the indices changes the law. -/
def Exchangeable (μ : Measure (ι → K)) : Prop :=
  ∀ σ : Equiv.Perm ι, μ.map (fun r => r ∘ σ) = μ

/-- Permuting the values, as a measurable equivalence. -/
def permute (σ : Equiv.Perm ι) : (ι → K) ≃ᵐ (ι → K) where
  toEquiv := σ.symm.arrowCongr (Equiv.refl K)
  measurable_toFun := measurable_pi_lambda _ fun i => measurable_pi_apply (σ i)
  measurable_invFun := measurable_pi_lambda _ fun i => measurable_pi_apply (σ.symm i)

theorem Exchangeable.measure_comp {μ : Measure (ι → K)} (h : Exchangeable μ) (σ : Equiv.Perm ι)
    (A : Set (ι → K)) : μ {r | r ∘ σ ∈ A} = μ A := by
  have hmap : μ.map (permute σ) = μ := h σ
  calc μ {r | r ∘ σ ∈ A} = μ.map (permute σ) A := ((permute σ).map_apply A).symm
    _ = μ A := by rw [hmap]

/-- **Sets of one size are selected equally often.** -/
theorem Exchangeable.lowest_equally_likely [Fintype ι] [DecidableEq ι] [LinearOrder K]
    {μ : Measure (ι → K)} (h : Exchangeable μ) {candidates S T : Finset ι}
    (hS : S ⊆ candidates) (hT : T ⊆ candidates) (hcard : S.card = T.card) (m : ℕ) :
    μ {r | lowest candidates m r = S} = μ {r | lowest candidates m r = T} := by
  obtain ⟨σ, hσ, hST⟩ := exists_perm hS hT hcard
  rw [← h.measure_comp σ {r | lowest candidates m r = S}]
  congr 1
  ext r
  simp only [Set.mem_ofPred_eq, Finset.ext_iff, mem_lowest_comp hσ]
  constructor
  · intro heq i
    rw [← σ.apply_symm_apply i, heq, hST]
  · intro heq i
    rw [heq, hST]

/-- Some values in every order, each order counted once. -/
noncomputable def shuffled (v : ι → K) : Measure (ι → K) :=
  Measure.sum fun σ : Equiv.Perm ι => Measure.dirac (v ∘ σ)

theorem exchangeable_shuffled (v : ι → K) : Exchangeable (shuffled v) := by
  intro τ
  have hcomp : Measurable fun r : ι → K => r ∘ τ := (permute τ).measurable
  rw [shuffled, Measure.map_sum hcomp.aemeasurable]
  ext s hs
  rw [Measure.sum_apply _ hs, Measure.sum_apply _ hs]
  simp only [Measure.map_dirac' hcomp]
  exact (Equiv.mulRight τ).tsum_eq fun σ => Measure.dirac (v ∘ σ) s

theorem ae_shuffled_iff [Finite ι] [MeasurableSingletonClass K] {v : ι → K}
    {P : (ι → K) → Prop} : (∀ᵐ r ∂shuffled v, P r) ↔ ∀ σ : Equiv.Perm ι, P (v ∘ σ) := by
  unfold shuffled
  rw [Measure.ae_sum_iff]
  refine forall_congr' fun σ => ?_
  rw [ae_dirac_eq]
  rfl

end Law
end ExchangeableDraws
