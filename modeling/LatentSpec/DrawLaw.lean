import Mathlib.MeasureTheory.Constructions.Pi
import Mathlib.MeasureTheory.Measure.Real
import LatentSpec.ChainLaw

/-! # Drawing a block one token at a time

A block is drawn token by token from independent draws, each token given the ones
before it.  The event that the block is `x` is a box, so its probability is the
product `seqProb` of the conditionals (`pi_real_seqDraw`), and an event that
depends on the block and on further independent draws has the expectation
`drawExp` of its conditional probabilities (`prod_real_seqDraw`).
-/
namespace DrawLaw
open MeasureTheory Set ChainLaw

variable {T Ω β : Type*}

/-- One token for each draw, each given the tokens before it. -/
def seqDraw (pick : List T → Ω → T) : List T → List Ω → List T
  | _, [] => []
  | pre, ω :: ωs => pick pre ω :: seqDraw pick (pre ++ [pick pre ω]) ωs

@[simp] theorem length_seqDraw (pick : List T → Ω → T) (pre : List T) (ωs : List Ω) :
    (seqDraw pick pre ωs).length = ωs.length := by
  induction ωs generalizing pre with
  | nil => rfl
  | cons ω ωs ih => rw [seqDraw, List.length_cons, List.length_cons, ih]

/-- What every pick has, every token of a block has. -/
theorem mem_seqDraw {pick : List T → Ω → T} {P : T → Prop} (h : ∀ pre ω, P (pick pre ω))
    (pre : List T) (ωs : List Ω) : ∀ t ∈ seqDraw pick pre ωs, P t := by
  induction ωs generalizing pre with
  | nil => exact fun t ht => absurd ht List.not_mem_nil
  | cons ω ωs ih =>
    intro t ht
    rcases List.mem_cons.mp ht with rfl | ht
    · exact h pre ω
    · exact ih _ t ht

/-- Picks that agree through a map of the tokens. -/
theorem seqDraw_map {S : Type*} {pick : List T → Ω → T} {pick' : List S → Ω → S} (g : T → S)
    (h : ∀ pre ω, pick' (pre.map g) ω = g (pick pre ω)) (pre : List T) (ωs : List Ω) :
    seqDraw pick' (pre.map g) ωs = (seqDraw pick pre ωs).map g := by
  induction ωs generalizing pre with
  | nil => rfl
  | cons ω ωs ih =>
    have hpre : pre.map g ++ [g (pick pre ω)] = (pre ++ [pick pre ω]).map g := by simp
    rw [seqDraw, seqDraw, List.map_cons, h, hpre, ih]

/-- A token already drawn is part of every later condition. -/
theorem seqDraw_cons (pick : List T → Ω → T) (t : T) (pre : List T) (ωs : List Ω) :
    seqDraw pick (t :: pre) ωs = seqDraw (fun xs => pick (t :: xs)) pre ωs := by
  induction ωs generalizing pre with
  | nil => rfl
  | cons ω ωs ih => rw [seqDraw, seqDraw, List.cons_append, ih]

/-- The block is `x` exactly when each draw picks its token after the ones before. -/
theorem seqDraw_ofFn_eq_iff (pick : List T → Ω → T) {n : ℕ} (pre : List T) (ω : Fin n → Ω)
    (x : Fin n → T) :
    seqDraw pick pre (List.ofFn ω) = List.ofFn x ↔
      ∀ i : Fin n, pick (pre ++ (List.ofFn x).take i) (ω i) = x i := by
  induction n generalizing pre with
  | zero => simp [seqDraw]
  | succ n ih =>
    rw [List.ofFn_succ, List.ofFn_succ, seqDraw, List.cons.injEq, Fin.forall_fin_succ]
    constructor
    · rintro ⟨h0, h⟩
      rw [h0, ih] at h
      exact ⟨by simpa using h0, fun i => by simpa using h i⟩
    · rintro ⟨h0, h⟩
      have h0' : pick pre (ω 0) = x 0 := by simpa using h0
      rw [h0', ih]
      exact ⟨rfl, fun i => by simpa using h i⟩

/-- A list of draws picks a block. -/
theorem exists_seqDraw_eq_ofFn (pick : List T → Ω → T) {n : ℕ} (pre : List T) (ω : Fin n → Ω) :
    ∃ x : Fin n → T, seqDraw pick pre (List.ofFn ω) = List.ofFn x := by
  have hlen : (seqDraw pick pre (List.ofFn ω)).length = n := by simp
  generalize seqDraw pick pre (List.ofFn ω) = block at hlen
  subst hlen
  exact ⟨_, (List.ofFn_get _).symm⟩

/-- The probability of a block is the product of its conditionals. -/
theorem seqProb_ofFn {K : Type*} [CommSemiring K] (Q : List T → T → K) {n : ℕ} (pre : List T)
    (x : Fin n → T) :
    seqProb Q pre (List.ofFn x) = ∏ i : Fin n, Q (pre ++ (List.ofFn x).take i) (x i) := by
  induction n generalizing pre with
  | zero => simp
  | succ n ih =>
    rw [List.ofFn_succ, seqProb_cons, ih, Fin.prod_univ_succ]
    simp

/-- An expectation over a drawn block, summed over all blocks. -/
theorem drawExp_eq_sum {K : Type*} [CommSemiring K] [Fintype T] (Q : List T → T → K) (n : ℕ)
    (pre : List T) (f : List T → K) :
    drawExp Q n pre f = ∑ x : Fin n → T, seqProb Q pre (List.ofFn x) * f (List.ofFn x) := by
  induction n generalizing pre f with
  | zero => simp [drawExp]
  | succ n ih =>
    rw [← (Fin.consEquiv fun _ => T).sum_comp, Fintype.sum_prod_type, drawExp]
    refine Finset.sum_congr rfl fun t _ => ?_
    rw [ih, Finset.mul_sum]
    refine Finset.sum_congr rfl fun x _ => ?_
    simp [List.ofFn_succ, seqProb_cons, mul_assoc]

theorem setOf_seqDraw (pick : List T → Ω → T) {n : ℕ} (pre : List T) (x : Fin n → T) :
    {ω : Fin n → Ω | seqDraw pick pre (List.ofFn ω) = List.ofFn x} =
      univ.pi fun i : Fin n => {ω | pick (pre ++ (List.ofFn x).take i) ω = x i} := by
  ext ω
  simp only [mem_ofPred_eq, mem_univ_pi]
  exact seqDraw_ofFn_eq_iff pick pre ω x

variable [MeasurableSpace Ω] [MeasurableSpace β]

/-- The draws of `μ` pick tokens with the conditionals `Q`. -/
structure Follows (μ : Measure Ω) (pick : List T → Ω → T) (Q : List T → T → ℝ) : Prop where
  measurable : ∀ pre t, MeasurableSet {ω | pick pre ω = t}
  law : ∀ pre t, μ.real {ω | pick pre ω = t} = Q pre t

variable {μ : Measure Ω} [IsProbabilityMeasure μ] {pick : List T → Ω → T} {Q : List T → T → ℝ}

/-- **The law of a drawn block** is the chain of its conditionals. -/
theorem pi_real_seqDraw (h : Follows μ pick Q) {n : ℕ} (pre : List T) (x : Fin n → T) :
    (Measure.pi fun _ : Fin n => μ).real {ω | seqDraw pick pre (List.ofFn ω) = List.ofFn x} =
      seqProb Q pre (List.ofFn x) := by
  rw [setOf_seqDraw, seqProb_ofFn]
  simp only [Measure.real, Measure.pi_pi, ENNReal.toReal_prod]
  exact Finset.prod_congr rfl fun i _ => h.law _ _

omit [IsProbabilityMeasure μ] in
theorem measurableSet_seqDraw (h : Follows μ pick Q) {n : ℕ} (pre : List T) (x : Fin n → T) :
    MeasurableSet {ω : Fin n → Ω | seqDraw pick pre (List.ofFn ω) = List.ofFn x} := by
  rw [setOf_seqDraw]
  exact MeasurableSet.univ_pi fun i => h.measurable _ _

/-- **The probability of a property of a drawn block** is an expectation; what is averaged need be
right for the blocks that can be drawn only. -/
theorem pi_real_setOf_seqDraw [Fintype T] (h : Follows μ pick Q) (n : ℕ) (pre : List T)
    (p : List T → Prop) [DecidablePred p] {f : List T → ℝ}
    (hf : ∀ ω : Fin n → Ω, f (seqDraw pick pre (List.ofFn ω)) =
      if p (seqDraw pick pre (List.ofFn ω)) then 1 else 0) :
    (Measure.pi fun _ : Fin n => μ).real {ω | p (seqDraw pick pre (List.ofFn ω))} =
      drawExp Q n pre f := by
  have hset : {ω : Fin n → Ω | p (seqDraw pick pre (List.ofFn ω))} =
      ⋃ x ∈ Finset.univ.filter (fun x : Fin n → T => p (List.ofFn x)),
        {ω | seqDraw pick pre (List.ofFn ω) = List.ofFn x} := by
    ext ω
    simp only [mem_ofPred_eq, mem_iUnion, Finset.mem_filter, Finset.mem_univ, true_and]
    constructor
    · intro hp
      obtain ⟨x, hx⟩ := exists_seqDraw_eq_ofFn pick pre ω
      exact ⟨x, hx ▸ hp, hx⟩
    · rintro ⟨x, hp, hx⟩
      rwa [hx]
  rw [hset, measureReal_biUnion_finset, drawExp_eq_sum, Finset.sum_filter]
  · refine Finset.sum_congr rfl fun x _ => ?_
    rw [← pi_real_seqDraw h]
    rcases Set.eq_empty_or_nonempty {ω : Fin n → Ω | seqDraw pick pre (List.ofFn ω) = List.ofFn x}
      with hempty | ⟨ω, hω⟩
    · rw [hempty, measureReal_empty, zero_mul, ite_self]
    · have hx : f (List.ofFn x) = if p (List.ofFn x) then 1 else 0 := by
        rw [← show seqDraw pick pre (List.ofFn ω) = List.ofFn x from hω]
        exact hf ω
      rw [hx, mul_ite, mul_one, mul_zero]
  · intro x _ y _ hxy
    refine Set.disjoint_left.mpr fun d hdx hdy => hxy ?_
    exact List.ofFn_injective (hdx.symm.trans hdy)
  · exact fun x _ => measurableSet_seqDraw h pre x

/-- **A drawn block and independent further draws**: the probability of an event
that depends on both is the expectation of its conditional probability. -/
theorem prod_real_seqDraw [Fintype T] (h : Follows μ pick Q) (ν : Measure β)
    [IsProbabilityMeasure ν] (n : ℕ) (pre : List T) (E : List T → Set β)
    (hE : ∀ x, x.length = n → MeasurableSet (E x)) :
    ((Measure.pi fun _ : Fin n => μ).prod ν).real
        {d | d.2 ∈ E (seqDraw pick pre (List.ofFn d.1))} =
      drawExp Q n pre fun x => ν.real (E x) := by
  have hset : {d : (Fin n → Ω) × β | d.2 ∈ E (seqDraw pick pre (List.ofFn d.1))} =
      ⋃ x ∈ (Finset.univ : Finset (Fin n → T)),
        {ω | seqDraw pick pre (List.ofFn ω) = List.ofFn x} ×ˢ E (List.ofFn x) := by
    ext d
    simp only [mem_ofPred_eq, Finset.mem_univ, iUnion_true, mem_iUnion, mem_prod]
    constructor
    · intro hd
      obtain ⟨x, hx⟩ := exists_seqDraw_eq_ofFn pick pre d.1
      exact ⟨x, hx, hx ▸ hd⟩
    · rintro ⟨x, hx, hd⟩
      rwa [hx]
  rw [hset, measureReal_biUnion_finset, drawExp_eq_sum]
  · refine Finset.sum_congr rfl fun x _ => ?_
    rw [measureReal_prod_prod, pi_real_seqDraw h]
  · intro x _ y _ hxy
    refine Set.disjoint_left.mpr fun d hdx hdy => hxy ?_
    exact List.ofFn_injective (hdx.1.symm.trans hdy.1)
  · intro x _
    exact (measurableSet_seqDraw h pre x).prod (hE _ List.length_ofFn)

end DrawLaw
