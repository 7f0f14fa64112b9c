import Mathlib.Data.List.Basic
import Mathlib.Data.List.GetD
import Mathlib.Tactic.Linarith
import LatentSpec.SortedSearch

/-! # The cost tables of the DSpark budget

A step is priced by a table of probes.  `SpsCostTable` holds steps per second and answers with
the probe at or below the batch; `SpsAdditiveCostTable` adds up a bias and two interpolated
step times.  Both are also evaluated for a whole vector of batches by tensor code, which finds
the probes by `bucketize` and clamps where the host code returns early.  The two agree at every
batch, below the first probe and beyond the last one included, and for a table of one probe
(`lookupSpsTensor_eq`, `additiveStepTimeTensor_eq`).
-/
namespace LatentSpec
open SortedSearch

variable {K : Type} [Field K] [LinearOrder K] [IsStrictOrderedRing K]

/-- `floor_probe_index`; the subtractions stop at zero as its `max(0, ·)` does. -/
def floorProbeIndex (edges : List ℤ) (batchTokens : ℤ) : ℕ :=
  min (bisectRight edges batchTokens - 1) (edges.length - 1)

/-! ### Tables -/

/-- `SpsCostTable`, with what `__post_init__` checks. -/
structure SpsCostTable (K : Type) where
  sampleBatchTokens : List ℤ
  sampleStepsPerSec : List K
  maxBatchTokens : ℤ
  probes : sampleBatchTokens ≠ []
  increasing : sampleBatchTokens.Pairwise (· < ·)
  equal_length : sampleBatchTokens.length = sampleStepsPerSec.length
  probe_le_max : ∀ t ∈ sampleBatchTokens, t ≤ maxBatchTokens

def SpsCostTable.lookup (table : SpsCostTable K) (batchTokens : ℤ) : K :=
  table.sampleStepsPerSec.getD (floorProbeIndex table.sampleBatchTokens batchTokens) 0

/-- `_lookup_sps_tensor` -/
def lookupSpsTensor (table : SpsCostTable K) (batchTokens : List ℤ) : List K :=
  let probes := table.sampleBatchTokens
  let sps := table.sampleStepsPerSec
  batchTokens.map fun t =>
    let idx := min (max ((bucketize probes t : ℤ) - 1) 0) ((probes.length : ℤ) - 1)
    sps.getD idx.toNat 0

/-- `_interp_clamped` -/
def interpClamped (xs : List ℤ) (ys : List K) (x : K) : K :=
  if x ≤ (xs.getD 0 0 : ℤ) then ys.getD 0 0
  else if ((xs.getD (xs.length - 1) 0 : ℤ) : K) ≤ x then ys.getD (ys.length - 1) 0
  else
    let hi := bisectRight (xs.map (Int.cast : ℤ → K)) x
    let lo := hi - 1
    let frac := (x - (xs.getD lo 0 : ℤ)) / ((xs.getD hi 0 : ℤ) - (xs.getD lo 0 : ℤ))
    ys.getD lo 0 + frac * (ys.getD hi 0 - ys.getD lo 0)

/-- `SpsAdditiveCostTable`, with what `__post_init__` checks. -/
structure SpsAdditiveCostTable (K : Type) [LT K] [Zero K] where
  biasSeconds : K
  bsProbes : List ℤ
  alphaSeconds : List K
  mProbes : List ℤ
  thetaSeconds : List K
  bs_probes : bsProbes ≠ []
  bs_increasing : bsProbes.Pairwise (· < ·)
  bs_length : bsProbes.length = alphaSeconds.length
  m_probes : mProbes ≠ []
  m_increasing : mProbes.Pairwise (· < ·)
  m_length : mProbes.length = thetaSeconds.length
  bias_pos : 0 < biasSeconds

def SpsAdditiveCostTable.stepTime (table : SpsAdditiveCostTable K) (numReqs budget : ℕ) : K :=
  table.biasSeconds + interpClamped table.bsProbes table.alphaSeconds numReqs +
    interpClamped table.mProbes table.thetaSeconds ((numReqs + budget : ℕ) : K)

/-- A tensor's element, counted from the end for a negative index. -/
def tensorGet {α : Type} (xs : List α) (i : ℤ) (d : α) : α :=
  if i < 0 then xs.getD (xs.length + i).toNat d else xs.getD i.toNat d

/-- `_additive_step_time_tensor`.  `clamp_` with a lower bound above the upper one answers the
upper one. -/
def additiveStepTimeTensor (table : SpsAdditiveCostTable K) (numRequests numBudgets : ℕ) : List K :=
  let floor := table.biasSeconds + interpClamped table.bsProbes table.alphaSeconds numRequests
  let mProbes := table.mProbes.map (Int.cast : ℤ → K)
  let thetaVals := table.thetaSeconds
  (List.range numBudgets).map fun (b : ℕ) =>
    let m := min (max ((numRequests : K) + (b : K)) (mProbes.getD 0 0))
      (mProbes.getD (mProbes.length - 1) 0)
    let hi : ℤ := min (max (bucketize mProbes m : ℤ) 1) ((mProbes.length : ℤ) - 1)
    let lo : ℤ := hi - 1
    let span := max (tensorGet mProbes hi 0 - tensorGet mProbes lo 0) (1 / 1000000000)
    let frac := (m - tensorGet mProbes lo 0) / span
    let thetaAtM := tensorGet thetaVals lo 0 +
      frac * (tensorGet thetaVals hi 0 - tensorGet thetaVals lo 0)
    floor + thetaAtM

/-! ### The two evaluations -/

omit [IsStrictOrderedRing K] [LinearOrder K] in
/-- **The tensor code looks up what the table does**, at every batch. -/
theorem lookupSpsTensor_eq (table : SpsCostTable K) (batchTokens : List ℤ) :
    lookupSpsTensor table batchTokens = batchTokens.map table.lookup := by
  refine List.map_congr_left fun t _ => ?_
  have hlen := List.length_pos_of_ne_nil table.probes
  rw [SpsCostTable.lookup, floorProbeIndex, bucketize_eq_bisectRight table.increasing]
  have hidx : (min (max ((bisectRight table.sampleBatchTokens t : ℤ) - 1) 0)
      ((table.sampleBatchTokens.length : ℤ) - 1)).toNat =
        min (bisectRight table.sampleBatchTokens t - 1) (table.sampleBatchTokens.length - 1) := by
    omega
  exact congrArg (table.sampleStepsPerSec.getD · 0) hidx

section
variable {probes : List ℤ} {vals : List K}

/-- The interpolation of `_additive_step_time_tensor` at `x`. -/
def interpTensor (probes : List ℤ) (vals : List K) (x : K) : K :=
  let probes := probes.map (Int.cast : ℤ → K)
  let m := min (max x (probes.getD 0 0)) (probes.getD (probes.length - 1) 0)
  let hi : ℤ := min (max (bucketize probes m : ℤ) 1) ((probes.length : ℤ) - 1)
  let lo : ℤ := hi - 1
  let span := max (tensorGet probes hi 0 - tensorGet probes lo 0) (1 / 1000000000)
  let frac := (m - tensorGet probes lo 0) / span
  tensorGet vals lo 0 + frac * (tensorGet vals hi 0 - tensorGet vals lo 0)

omit [IsStrictOrderedRing K] [LinearOrder K] in
theorem getD_cast (probes : List ℤ) (i : ℕ) :
    (probes.map (Int.cast : ℤ → K)).getD i 0 = ((probes.getD i 0 : ℤ) : K) := by
  rcases Nat.lt_or_ge i probes.length with hi | hi
  · simp [hi]
  · rw [List.getD_eq_default _ _ (by simpa using hi), List.getD_eq_default _ _ hi, Int.cast_zero]

omit [LinearOrder K] [IsStrictOrderedRing K] in
theorem tensorGet_natCast {α : Type} (xs : List α) (i : ℕ) (d : α) :
    tensorGet xs i d = xs.getD i d := by
  simp [tensorGet]

/-- Probes are whole numbers, so two of them are at least one apart. -/
theorem probe_gap (hinc : probes.Pairwise (· < ·)) {i j : ℕ} (hij : i < j)
    (hj : j < probes.length) :
    ((probes.getD i 0 : ℤ) : K) + 1 ≤ ((probes.getD j 0 : ℤ) : K) := by
  have hlt : probes.getD i 0 < probes.getD j 0 := by
    rw [List.getD_eq_getElem _ _ (hij.trans hj), List.getD_eq_getElem _ _ hj]
    exact List.pairwise_iff_getElem.mp hinc i j (hij.trans hj) hj hij
  exact_mod_cast hlt

omit [IsStrictOrderedRing K] in
/-- The probes that `bucketize` counts are those up to `y`. -/
theorem lt_bucketize_getD {ps : List K} (hinc : ps.Pairwise (· < ·)) (y : K) {i : ℕ}
    (hi : i < ps.length) : i < bucketize ps y ↔ ps.getD i 0 ≤ y := by
  rw [List.getD_eq_getElem _ _ hi]
  exact lt_bucketize_iff hinc hi

omit [IsStrictOrderedRing K] in
/-- A single probe: the tensor indexes it from both ends. -/
theorem interpTensor_single (p : ℤ) (v x : K) :
    interpTensor [p] [v] x = interpClamped [p] [v] x := by
  have hhost : interpClamped [p] [v] x = v := by
    unfold interpClamped
    split_ifs with hlow hhigh
    · rfl
    · rfl
    · exact absurd (not_le.mp hlow).le hhigh
  rw [hhost]
  simp [interpTensor, tensorGet]

/-- The tensor interpolates as the host does. -/
theorem interpTensor_eq (hne : probes ≠ []) (hinc : probes.Pairwise (· < ·))
    (hlen : probes.length = vals.length) (x : K) :
    interpTensor probes vals x = interpClamped probes vals x := by
  have hpos := List.length_pos_of_ne_nil hne
  rcases Nat.eq_or_lt_of_le (show 1 ≤ probes.length from hpos) with hone | hmany
  · obtain ⟨p, rfl⟩ := List.length_eq_one_iff.mp hone.symm
    obtain ⟨v, rfl⟩ := List.length_eq_one_iff.mp (hlen ▸ hone.symm)
    exact interpTensor_single p v x
  set ps := probes.map (Int.cast : ℤ → K) with hps
  have hpslen : ps.length = probes.length := List.length_map _
  have hpsinc : ps.Pairwise (· < ·) :=
    List.pairwise_map.mpr (hinc.imp fun hab => Int.cast_lt.mpr hab)
  have hcell : ∀ i, ps.getD i 0 = ((probes.getD i 0 : ℤ) : K) := getD_cast probes
  have hgap : ∀ i j, i < j → j < ps.length → ps.getD i 0 + 1 ≤ ps.getD j 0 := by
    intro i j hij hj
    rw [hcell, hcell]
    exact probe_gap hinc hij (by omega)
  have hmono : ∀ i j, i < j → j < ps.length → ps.getD i 0 < ps.getD j 0 := fun i j hij hj =>
    (lt_add_one _).trans_le (hgap i j hij hj)
  unfold interpTensor interpClamped
  rw [← hps]
  simp only [← hcell, ← hpslen]
  rw [← bucketize_eq_bisectRight hpsinc]
  obtain ⟨m, hm⟩ : ∃ m, m = min (max x (ps.getD 0 0)) (ps.getD (ps.length - 1) 0) := ⟨_, rfl⟩
  rw [← hm]
  have hle := bucketize_le_length ps m
  obtain ⟨h, hh⟩ : ∃ h : ℕ, (h : ℤ) = min (max (bucketize ps m : ℤ) 1) ((ps.length : ℤ) - 1) :=
    ⟨(min (max (bucketize ps m : ℤ) 1) ((ps.length : ℤ) - 1)).toNat, by omega⟩
  have hlo : (h : ℤ) - 1 = ((h - 1 : ℕ) : ℤ) := by omega
  have hspan : max (ps.getD h 0 - ps.getD (h - 1) 0) (1 / 1000000000) =
      ps.getD h 0 - ps.getD (h - 1) 0 := by
    have hone := hgap (h - 1) h (by omega) (by omega)
    have hsmall : (1 : K) / 1000000000 ≤ 1 := by norm_num
    exact max_eq_left (by linarith)
  rw [← hh, hlo]
  simp only [tensorGet_natCast]
  rw [hspan]
  have hends := hmono 0 (ps.length - 1) (by omega) (by omega)
  split_ifs with hlow hhigh
  · -- below the first probe
    have hm0 : m = ps.getD 0 0 := by rw [hm, max_eq_right hlow, min_eq_left hends.le]
    have hfirst := (lt_bucketize_getD hpsinc m (show 0 < ps.length by omega)).mpr hm0.ge
    have hsecond : ¬1 < bucketize ps m := by
      rw [lt_bucketize_getD hpsinc m (by omega), hm0, not_le]
      exact hmono 0 1 Nat.zero_lt_one (by omega)
    have hh1 : h = 1 := by omega
    rw [hh1, hm0, sub_self, zero_div, zero_mul, add_zero]
  · -- beyond the last one
    have hmlast : m = ps.getD (ps.length - 1) 0 := by
      rw [hm, max_eq_left (not_le.mp hlow).le, min_eq_right hhigh]
    have hall := (lt_bucketize_getD hpsinc m (show ps.length - 1 < ps.length by omega)).mpr
      hmlast.ge
    have hh1 : h = ps.length - 1 := by omega
    have hstep := hmono (h - 1) h (by omega) (by omega)
    have hvlen : vals.length - 1 = h := by omega
    rw [hvlen, hmlast, ← hh1, div_self (sub_pos.mpr hstep).ne', one_mul, add_sub_cancel]
  · -- between two probes
    have hmx : m = x := by
      rw [hm, max_eq_left (not_le.mp hlow).le, min_eq_left (not_le.mp hhigh).le]
    have hfirst := (lt_bucketize_getD hpsinc m (show 0 < ps.length by omega)).mpr
      (hmx.symm ▸ (not_le.mp hlow).le)
    have hlast : ¬ps.length - 1 < bucketize ps m := by
      rw [lt_bucketize_getD hpsinc m (by omega), hmx]
      exact hhigh
    have hh1 : h = bucketize ps m := by omega
    rw [hh1, hmx]

end

/-- **The tensor code prices a step as the table does**, for every batch and every budget. -/
theorem additiveStepTimeTensor_eq (table : SpsAdditiveCostTable K) (numRequests numBudgets : ℕ) :
    additiveStepTimeTensor table numRequests numBudgets =
      (List.range numBudgets).map (table.stepTime numRequests) := by
  unfold additiveStepTimeTensor
  refine List.map_congr_left fun b _ => ?_
  have hinterp := interpTensor_eq table.m_probes table.m_increasing table.m_length
    ((numRequests : K) + b)
  rw [SpsAdditiveCostTable.stepTime, Nat.cast_add, ← hinterp]
  rfl

end LatentSpec
