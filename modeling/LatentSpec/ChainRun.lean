import LatentSpec.ChainLaw
import LatentSpec.Coins

/-! # The run a chain of tests emits

For a fixed proposal `x`, a chain tests its first `k` tokens against one uniform draw
each, keeps the passing prefix and closes the run with one more token drawn on its
own (`run`).  The event that the run is `c ++ [t]` is empty or a rectangle
(`setOf_run_concat`), so its probability is `ChainLaw.runGiven` as soon as the tests
and the closing draw have the matching probabilities (`real_run`).
-/
namespace ChainRun
open MeasureTheory Set Coins ChainLaw LeadingRun

variable {T Ω : Type*}

/-- How many of `k` tests pass before the first failure. -/
def passed (pass : ℕ → ℝ → Bool) (k : ℕ) (u : ℕ → ℝ) : ℕ :=
  leadingRun ((List.range k).map fun i => pass i (u i))

theorem passed_le (pass : ℕ → ℝ → Bool) (k : ℕ) (u : ℕ → ℝ) : passed pass k u ≤ k := by
  refine (leadingRun_le_length _).trans ?_
  rw [List.length_map, List.length_range]

/-- The passing prefix of the proposal and the closing token. -/
def run (pass : ℕ → ℝ → Bool) (close : List T → Ω → T) (x : List T) (k : ℕ) (u : ℕ → ℝ) (ω : Ω) :
    List T :=
  x.take (passed pass k u) ++ [close (x.take (passed pass k u)) ω]

section Events
variable (pass : ℕ → ℝ → Bool) (close : List T → Ω → T) {x : List T} {n k : ℕ}

theorem setOf_run_nil :
    {d : (Fin n → ℝ) × Ω | run pass close x k (stream d.1) d.2 = []} = ∅ := by
  ext d
  simp [run]

variable (hk : k ≤ x.length)
include hk

/-- A run is emitted when it is a tested prefix of the proposal, exactly its tests
pass, and the closing draw gives its last token. -/
theorem setOf_run_concat (c : List T) (t : T) [Decidable (c <+: x.take k)] :
    {d : (Fin n → ℝ) × Ω | run pass close x k (stream d.1) d.2 = c ++ [t]} =
      if c <+: x.take k then {u | passed pass k (stream u) = c.length} ×ˢ {ω | close c ω = t}
      else ∅ := by
  ext d
  have hle := passed_le pass k (stream d.1)
  simp only [run, mem_ofPred_eq, List.append_singleton_inj]
  by_cases hc : c <+: x.take k
  · rw [if_pos hc]
    have hpre : c = x.take c.length := by
      have h1 := List.prefix_iff_eq_take.mp hc
      have h2 := hc.length_le
      rw [List.length_take] at h2
      rwa [List.take_take, Nat.min_eq_left (by omega)] at h1
    constructor
    · rintro ⟨htake, hclose⟩
      refine ⟨?_, by rw [htake] at hclose; exact hclose⟩
      have := congrArg List.length htake
      rw [List.length_take] at this
      show passed pass k (stream d.1) = c.length
      omega
    · rintro ⟨hlen, hclose⟩
      have : x.take (passed pass k (stream d.1)) = c := by
        rw [show passed pass k (stream d.1) = c.length from hlen]
        exact hpre.symm
      rw [this]
      exact ⟨rfl, hclose⟩
  · rw [if_neg hc]
    simp only [mem_empty_iff_false, iff_false, not_and]
    intro htake
    refine absurd ?_ hc
    rw [← htake]
    exact List.take_prefix_take_left hle

end Events

/-! ### Capped runs -/

section Capped
variable (pass : ℕ → ℝ → Bool) (close : List T → Ω → T) {x : List T} {k ℓ : ℕ}

theorem passed_min {j : ℕ} (h : j ≤ k) (u : ℕ → ℝ) : passed pass j u = min (passed pass k u) j := by
  rw [passed, passed, ← leadingRun_take, ← List.map_take, List.take_range, Nat.min_eq_left h]

/-- A run cut after `ℓ + 1` tokens looks at no test beyond the first `ℓ + 1`: either all
of these pass and it is a prefix of the proposal, or it is the run of these tests. -/
theorem take_run (hk : k ≤ x.length) (hℓ : ℓ < k) (u : ℕ → ℝ) (ω : Ω) :
    (run pass close x k u ω).take (ℓ + 1) =
      if passed pass (ℓ + 1) u = ℓ + 1 then x.take (ℓ + 1) else run pass close x (ℓ + 1) u ω := by
  have hmin := passed_min pass (show ℓ + 1 ≤ k from hℓ) u
  have hle := passed_le pass k u
  by_cases hall : passed pass (ℓ + 1) u = ℓ + 1
  · rw [if_pos hall, run, List.take_append_of_le_length (by rw [List.length_take]; omega),
      List.take_take, Nat.min_eq_left (by omega)]
  · have heq : passed pass k u = passed pass (ℓ + 1) u := by omega
    rw [if_neg hall, run, run, heq, List.take_of_length_le]
    simp only [List.length_append, List.length_take, List.length_singleton]
    omega

/-- The event that a capped run is `c ++ [t]`: its tests end after `c` and the closing draw
gives `t`, or all tests pass and it is the proposal. -/
theorem setOf_take_run_concat {n : ℕ} (hk : k ≤ x.length) (hℓ : ℓ < k) {c : List T}
    (hc : c <+: x.take ℓ) (t : T) :
    {d : (Fin n → ℝ) × Ω | (run pass close x k (stream d.1) d.2).take (ℓ + 1) = c ++ [t]} =
      {u | passed pass (ℓ + 1) (stream u) = c.length} ×ˢ {ω | close c ω = t} ∪
        {u | passed pass (ℓ + 1) (stream u) = ℓ + 1 ∧ x.take (ℓ + 1) = c ++ [t]} ×ˢ univ := by
  classical
  have hlen : c.length ≤ ℓ := hc.length_le.trans (List.length_take_le _ _)
  have hc' : c <+: x.take (ℓ + 1) := hc.trans (List.take_prefix_take_left (Nat.le_succ ℓ))
  ext d
  have hrun : run pass close x (ℓ + 1) (stream d.1) d.2 = c ++ [t] ↔
      passed pass (ℓ + 1) (stream d.1) = c.length ∧ close c d.2 = t := by
    have hset := setOf_run_concat (n := n) pass close (show ℓ + 1 ≤ x.length by omega) c t
    rw [if_pos hc'] at hset
    exact Set.ext_iff.mp hset d
  simp only [mem_ofPred_eq, take_run pass close hk hℓ, mem_union, mem_prod, mem_univ, and_true]
  by_cases hall : passed pass (ℓ + 1) (stream d.1) = ℓ + 1
  · rw [if_pos hall, hall]
    constructor
    · exact fun h => .inr ⟨rfl, h⟩
    · rintro (⟨h, -⟩ | ⟨-, h⟩)
      · omega
      · exact h
  · rw [if_neg hall, hrun]
    constructor
    · exact .inl
    · rintro (h | ⟨h, -⟩)
      · exact h
      · exact absurd h hall

/-- A capped run starts with proposals: all but its last token. -/
theorem prefix_of_take_run_concat {u : ℕ → ℝ} {ω : Ω} (hk : k ≤ x.length) (hℓ : ℓ < k)
    {c : List T} {t : T} (h : (run pass close x k u ω).take (ℓ + 1) = c ++ [t]) :
    c <+: x.take ℓ := by
  have hle := passed_le pass (ℓ + 1) u
  rw [take_run pass close hk hℓ] at h
  split at h
  · have hlen := congrArg List.length h
    simp only [List.length_take, List.length_append, List.length_singleton] at hlen
    have hpre : c <+: x.take (ℓ + 1) := h ▸ List.prefix_append c [t]
    rw [List.prefix_iff_eq_take, List.take_take] at hpre
    rw [hpre]
    exact List.take_prefix_take_left (by omega)
  · rw [run, List.append_singleton_inj] at h
    rw [← h.1]
    exact List.take_prefix_take_left (by omega)

end Capped

/-- The proposal that a cap at `ℓ` leaves for the closing test. -/
theorem exists_proposal_at (acc : List T → T → ℝ) {x : List T} {ℓ : ℕ} (hℓ : ℓ < x.length) :
    ∃ s rest, x.drop ℓ = s :: rest ∧ x.take (ℓ + 1) = x.take ℓ ++ [s] ∧
      (accepts acc [] x).getD ℓ 0 = acc (x.take ℓ) s := by
  refine ⟨x[ℓ], x.drop (ℓ + 1), List.drop_eq_getElem_cons hℓ, ?_, ?_⟩
  · rw [List.take_append_getElem]
  · rw [getD_accepts acc [] hℓ x[ℓ], List.nil_append, List.getD_eq_getElem?_getD,
      List.getElem?_eq_getElem hℓ, Option.getD_some]

section Law
variable [DecidableEq T] [MeasurableSpace Ω] {pass : ℕ → ℝ → Bool} {close : List T → Ω → T}
  {x : List T} {n k : ℕ}
variable (hpass : ∀ i, MeasurableSet {v | pass i v = true}) (hx : x.length ≤ n) (hk : k ≤ x.length)
include hpass hx hk

theorem measurableSet_run (hclose : ∀ c t, MeasurableSet {ω | close c ω = t}) (c : List T) :
    MeasurableSet {d : (Fin n → ℝ) × Ω | run pass close x k (stream d.1) d.2 = c} := by
  rcases List.eq_nil_or_concat c with rfl | ⟨c, t, rfl⟩
  · rw [setOf_run_nil]
    exact MeasurableSet.empty
  · rw [List.concat_eq_append, setOf_run_concat pass close hk]
    split
    · rename_i hc
      have hlen : c.length ≤ k := hc.length_le.trans (List.length_take_le _ _)
      exact (measurableSet_leadingRun pass hpass (hk.trans hx) hlen).prod (hclose c t)
    · exact MeasurableSet.empty

/-- **The law of the emitted run.** -/
theorem real_run (ν : Measure Ω) [IsProbabilityMeasure ν] {acc res : List T → T → ℝ}
    {fin : List T → List T → T → ℝ} {cut : List T → Bool} (hkept : k = kept cut [] x)
    (hacc : ∀ i, i < k → coin.real {v | pass i v = true} = (accepts acc [] x).getD i 0)
    (hclose : ∀ c t, c <+: x.take k → ν.real {ω | close c ω = t} =
      if c.length < k then res c t else fin c (x.drop c.length) t) (c : List T) :
    ((coins n).prod ν).real {d | run pass close x k (stream d.1) d.2 = c} =
      runGiven acc res fin cut [] x c := by
  rcases List.eq_nil_or_concat c with rfl | ⟨c, t, rfl⟩
  · rw [setOf_run_nil, measureReal_empty]
    cases x <;> rfl
  rw [List.concat_eq_append, setOf_run_concat pass close hk, runGiven_concat, ← hkept,
    List.nil_append]
  by_cases hc : c <+: x.take k
  · have hlen : c.length ≤ k := hc.length_le.trans (List.length_take_le _ _)
    have hrun : (coins n).real {u | passed pass k (stream u) = c.length} = _ :=
      coins_real_leadingRun pass hpass (hk.trans hx) hlen
    rw [if_pos hc, if_pos hc, measureReal_prod_prod, hrun, hclose c t hc, mul_assoc]
    congr 1
    · refine Finset.prod_congr rfl fun i hi => hacc i ?_
      exact (Finset.mem_range.mp hi).trans_le hlen
    · by_cases hlt : c.length < k
      · rw [if_pos hlt, if_pos hlt, if_pos hlt, hacc _ hlt]
      · rw [if_neg hlt, if_neg hlt, if_neg hlt, one_mul]
  · rw [if_neg hc, if_neg hc, measureReal_empty]

omit [DecidableEq T] hpass hx hk in
theorem real_union_prod (ν : Measure Ω) [IsProbabilityMeasure ν] {A C : Set (Fin n → ℝ)} {B : Set Ω}
    (hdisj : ∀ u ∈ A, u ∉ C) (hC : MeasurableSet C) :
    ((coins n).prod ν).real (A ×ˢ B ∪ C ×ˢ univ) =
      (coins n).real A * ν.real B + (coins n).real C := by
  have hdisj' : Disjoint (A ×ˢ B) (C ×ˢ (univ : Set Ω)) :=
    Set.disjoint_prod.mpr (.inl (Set.disjoint_left.mpr hdisj))
  rw [measureReal_union hdisj' (hC.prod MeasurableSet.univ), measureReal_prod_prod,
    measureReal_prod_prod, probReal_univ, mul_one]

omit hx hk in
theorem measurableSet_allPassed {j : ℕ} (hj : j ≤ n) (p : Prop) :
    MeasurableSet {u : Fin n → ℝ | passed pass j (stream u) = j ∧ p} := by
  by_cases hp : p
  · simp only [hp, and_true]
    exact measurableSet_leadingRun pass hpass hj le_rfl
  · simp [hp]

omit hx hk in
theorem real_allPassed {j : ℕ} (hj : j ≤ n) (p : Prop) [Decidable p] :
    (coins n).real {u | passed pass j (stream u) = j ∧ p} =
      if p then ∏ i ∈ Finset.range j, coin.real {v | pass i v = true} else 0 := by
  by_cases hp : p
  · simp only [hp, and_true, if_true]
    have hrun : (coins n).real {u | passed pass j (stream u) = j} = _ :=
      coins_real_leadingRun pass hpass hj le_rfl
    rw [hrun, if_neg (lt_irrefl j), mul_one]
  · simp [hp]

/-- **The law of a capped run.**  It is that of a chain which stops proposing after `ℓ`
tokens and closes by testing the next one. -/
theorem real_take_run (ν : Measure Ω) [IsProbabilityMeasure ν] (P : List T → T → ℝ)
    {acc res : List T → T → ℝ} {ℓ : ℕ} (hℓ : ℓ < k)
    (hacc : ∀ i, i ≤ ℓ → coin.real {v | pass i v = true} = (accepts acc [] x).getD i 0)
    (hres : ∀ c t, c.length ≤ ℓ → ν.real {ω | close c ω = t} = res c t) (c : List T) :
    ((coins n).prod ν).real {d | (run pass close x k (stream d.1) d.2).take (ℓ + 1) = c} =
      runGiven acc res (testClose P acc res) (fun xs => decide (xs.length = ℓ)) [] x c := by
  have hcut : kept (fun xs => decide (xs.length = ℓ)) [] x = ℓ := by
    rw [kept_length ℓ [] x (Nat.zero_le ℓ), List.length_nil]
    omega
  rcases List.eq_nil_or_concat c with rfl | ⟨c, t, rfl⟩
  · have hempty : {d : (Fin n → ℝ) × Ω | (run pass close x k (stream d.1) d.2).take (ℓ + 1) = []} =
        ∅ := by
      ext d
      simp [run]
    rw [hempty, measureReal_empty]
    cases x <;> rfl
  rw [List.concat_eq_append, runGiven_concat, hcut, List.nil_append]
  by_cases hc : c <+: x.take ℓ
  · have hlen : c.length ≤ ℓ := hc.length_le.trans (List.length_take_le _ _)
    have hfirst : (coins n).real {u | passed pass (ℓ + 1) (stream u) = c.length} = _ :=
      coins_real_leadingRun pass hpass (show ℓ + 1 ≤ n by omega) (show c.length ≤ ℓ + 1 by omega)
    have hdisj : ∀ u ∈ {u : Fin n → ℝ | passed pass (ℓ + 1) (stream u) = c.length},
        u ∉ {u | passed pass (ℓ + 1) (stream u) = ℓ + 1 ∧ x.take (ℓ + 1) = c ++ [t]} := by
      intro u hu hu'
      have h : c.length = ℓ + 1 := hu.symm.trans hu'.1
      omega
    have hprod : ∀ j ≤ ℓ + 1, ∏ i ∈ Finset.range j, coin.real {v | pass i v = true} =
        ∏ i ∈ Finset.range j, (accepts acc [] x).getD i 0 := by
      intro j hj
      refine Finset.prod_congr rfl fun i hi => hacc i ?_
      have := Finset.mem_range.mp hi
      omega
    rw [if_pos hc, setOf_take_run_concat pass close hk hℓ hc,
      real_union_prod ν hdisj (measurableSet_allPassed hpass (by omega) _), hfirst,
      real_allPassed hpass (by omega), if_pos (show c.length < ℓ + 1 by omega), hacc _ hlen,
      hres c t hlen, hprod _ le_rfl, hprod _ (by omega)]
    rcases Nat.lt_or_ge c.length ℓ with hlt | hge
    · -- the run ends before the cap
      have hne : x.take (ℓ + 1) ≠ c ++ [t] := by
        intro h
        have := congrArg List.length h
        simp only [List.length_take, List.length_append, List.length_singleton] at this
        omega
      rw [if_neg hne, if_pos hlt, add_zero, mul_assoc]
    · -- the run reaches the cap, where one more token is tested
      have hpre : c = x.take ℓ := hc.eq_of_length (by rw [List.length_take]; omega)
      obtain ⟨s, rest, hdrop, htake, hat⟩ :=
        exists_proposal_at acc (show ℓ < x.length by omega)
      rw [← hpre] at htake hat
      rw [show c.length = ℓ by omega, if_neg (lt_irrefl ℓ), hdrop, testClose, htake, hat,
        Finset.prod_range_succ, hat]
      by_cases hst : s = t
      · subst hst
        rw [if_pos rfl, if_pos rfl]
        ring
      · rw [if_neg (by simpa using hst), if_neg hst]
        ring
  · have hempty : {d : (Fin n → ℝ) × Ω |
        (run pass close x k (stream d.1) d.2).take (ℓ + 1) = c ++ [t]} = ∅ := by
      refine Set.eq_empty_iff_forall_notMem.mpr fun d hd => hc ?_
      exact prefix_of_take_run_concat pass close hk hℓ hd
    rw [if_neg hc, hempty, measureReal_empty]

end Law

end ChainRun
