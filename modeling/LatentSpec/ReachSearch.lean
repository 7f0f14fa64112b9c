import LatentSpec.Coins

/-! # The first total that reaches a level

One uniform draw walks along a list of weights and stops at the first one with which the running
total reaches the draw, or at none.  Unlike the inverse search of `Categorical` the test is `≤` and
the weights need not add up to one: what the list leaves is the probability that the walk stops
nowhere (`coin_real_reachFrom_none`), and each entry has its own weight (`coin_real_reachFrom`),
ties being a matter of finitely many draws.
-/
namespace ReachSearch

variable {K : Type*} [Field K] [LinearOrder K]

/-- The first index of `ws` with which the total, started from `c`, reaches `u`. -/
def reachFrom (c : K) : List K → K → Option ℕ
  | [], _ => none
  | w :: ws, u => if u ≤ c + w then some 0 else (reachFrom (c + w) ws u).map (· + 1)

variable {ws : List K} {c u : K} {i : ℕ}

/-- What is reached lies between two totals. -/
theorem le_of_reachFrom (hcu : c ≤ u) (h : reachFrom c ws u = some i) :
    i < ws.length ∧ c + (ws.take i).sum ≤ u ∧ u ≤ c + (ws.take (i + 1)).sum := by
  induction ws generalizing c i with
  | nil => cases h
  | cons w ws ih =>
    rw [reachFrom] at h
    by_cases hle : u ≤ c + w
    · rw [if_pos hle] at h
      obtain rfl := Option.some.inj h
      exact ⟨Nat.succ_pos _, by simpa using hcu, by simpa using hle⟩
    · rw [if_neg hle] at h
      obtain ⟨j, hj, rfl⟩ := Option.map_eq_some_iff.mp h
      obtain ⟨hlen, hlo, hhi⟩ := ih (not_le.mp hle).le hj
      rw [add_assoc, ← List.sum_cons] at hlo hhi
      exact ⟨Nat.succ_lt_succ hlen, hlo, hhi⟩

/-- Where nothing is reached, the total stays behind. -/
theorem le_of_reachFrom_none (hcu : c ≤ u) (h : reachFrom c ws u = none) : c + ws.sum ≤ u := by
  induction ws generalizing c with
  | nil => simpa using hcu
  | cons w ws ih =>
    rw [reachFrom] at h
    by_cases hle : u ≤ c + w
    · rw [if_pos hle] at h
      cases h
    · rw [if_neg hle] at h
      rw [List.sum_cons, ← add_assoc]
      exact ih (not_le.mp hle).le (Option.map_eq_none_iff.mp h)

variable [IsStrictOrderedRing K]

/-- A list whose total stays behind the level does not reach it. -/
theorem reachFrom_eq_none (hw : ∀ w ∈ ws, 0 ≤ w) (h : c + ws.sum < u) :
    reachFrom c ws u = none := by
  induction ws generalizing c with
  | nil => rfl
  | cons w ws ih =>
    have hws : ∀ v ∈ ws, 0 ≤ v := fun v hv => hw v (List.mem_cons_of_mem w hv)
    have hrest : 0 ≤ ws.sum := List.sum_nonneg hws
    rw [List.sum_cons, ← add_assoc] at h
    rw [reachFrom, if_neg (not_le.mpr (by linarith)), ih hws h]
    rfl

/-- A level between two totals reaches the second one. -/
theorem reachFrom_eq_some (hw : ∀ w ∈ ws, 0 ≤ w) (hi : i < ws.length)
    (hlo : c + (ws.take i).sum < u) (hhi : u ≤ c + (ws.take (i + 1)).sum) :
    reachFrom c ws u = some i := by
  induction ws generalizing c i with
  | nil => exact absurd hi (Nat.not_lt_zero i)
  | cons w ws ih =>
    have hws : ∀ v ∈ ws, 0 ≤ v := fun v hv => hw v (List.mem_cons_of_mem w hv)
    rw [reachFrom]
    cases i with
    | zero =>
      have hle : u ≤ c + w := by simpa using hhi
      rw [if_pos hle]
    | succ i =>
      have hbefore : 0 ≤ (ws.take i).sum :=
        List.sum_nonneg fun v hv => hws v (List.mem_of_mem_take hv)
      rw [List.take_succ_cons, List.sum_cons, ← add_assoc] at hlo hhi
      rw [if_neg (not_le.mpr (by linarith)), ih hws (Nat.lt_of_succ_lt_succ hi) hlo hhi]
      rfl

end ReachSearch

namespace ReachSearch
open MeasureTheory Set Coins

variable {ws : List ℝ}

/-- The measure of a set of draws that is an interval but for its ends. -/
theorem coin_real_of_between {s : Set ℝ} {a b : ℝ} (hab : a ≤ b) (h0 : 0 ≤ a) (h1 : b ≤ 1)
    (hinner : Ioo a b ⊆ s) (houter : ∀ u ∈ s, 0 ≤ u → u < 1 → a ≤ u ∧ u ≤ b) :
    coin.real s = b - a := by
  have hIoo : coin.real (Ioo a b) = b - a := by
    have hin : Ioo a b ∩ Ico 0 1 = Ioo a b := by
      refine inter_eq_left.mpr fun u hu => ⟨h0.trans hu.1.le, hu.2.trans_le h1⟩
    rw [Measure.real, coin, Measure.restrict_apply' measurableSet_Ico, hin, Real.volume_Ioo,
      ENNReal.toReal_ofReal (sub_nonneg.mpr hab)]
  refine le_antisymm ?_ (hIoo ▸ measureReal_mono hinner)
  -- only draws of the unit interval count
  have hle : coin s ≤ volume (Icc a b) := by
    rw [coin, Measure.restrict_apply' measurableSet_Ico]
    exact measure_mono fun u hu => houter u hu.1 hu.2.1 hu.2.2
  rw [Real.volume_Icc] at hle
  have htop := ENNReal.toReal_mono ENNReal.ofReal_ne_top hle
  rwa [ENNReal.toReal_ofReal (sub_nonneg.mpr hab)] at htop

section
variable (hw : ∀ w ∈ ws, 0 ≤ w) (hsum : ws.sum ≤ 1)
include hw hsum

/-- **Each entry is reached with its weight.** -/
theorem coin_real_reachFrom {i : ℕ} (hi : i < ws.length) :
    coin.real {u | reachFrom 0 ws u = some i} = ws[i] := by
  have hbefore : 0 ≤ (ws.take i).sum := List.sum_nonneg fun w h => hw w (List.mem_of_mem_take h)
  have hafter : 0 ≤ (ws.drop (i + 1)).sum :=
    List.sum_nonneg fun w h => hw w (List.mem_of_mem_drop h)
  have hwi : 0 ≤ ws[i] := hw _ (List.getElem_mem hi)
  have hsucc : (ws.take (i + 1)).sum = (ws.take i).sum + ws[i] := List.sum_take_succ ws i hi
  have htotal := List.sum_take_add_sum_drop ws (i + 1)
  rw [coin_real_of_between (a := (ws.take i).sum) (b := (ws.take (i + 1)).sum)]
  · rw [hsucc, add_sub_cancel_left]
  · linarith
  · exact hbefore
  · linarith
  · rintro u ⟨hlo, hhi⟩
    exact reachFrom_eq_some hw hi (by rwa [zero_add]) (by rw [zero_add]; exact hhi.le)
  · intro u hu h0 _
    obtain ⟨-, hlo, hhi⟩ := le_of_reachFrom h0 hu
    rw [zero_add] at hlo hhi
    exact ⟨hlo, hhi⟩

/-- **What the entries leave** is the probability that none is reached. -/
theorem coin_real_reachFrom_none : coin.real {u | reachFrom 0 ws u = none} = 1 - ws.sum := by
  refine coin_real_of_between hsum (List.sum_nonneg hw) le_rfl ?_ fun u hu h0 h1 => ?_
  · rintro u ⟨hlo, -⟩
    exact reachFrom_eq_none hw (by rwa [zero_add])
  · have hle := le_of_reachFrom_none h0 hu
    rw [zero_add] at hle
    exact ⟨hle, h1.le⟩

end

end ReachSearch
