import LatentSpec.ChainRun
import LatentSpec.RejectSampling

/-! # The chain kernel is exact

For normalised rows and draws in `[0, 1)`, a program of the chain kernel accepts the
leading drafts that pass their tests and closes with a token of positive weight: a
rejection is only possible where the target row exceeds the draft row somewhere, so
the residual has mass and the search never falls back (`sum_weights_pos`,
`exists_finalToken`).

When the drafts are drawn from the draft conditionals, the emitted run is a
`ChainRun.run` whose tests and closing draw are exact, and its law is the target's.
-/
namespace LatentSpec
open ChainLaw ChainRun Coins LeadingRun Categorical MeasureTheory Set

variable {V : ℕ}

/-- A normalised row of probabilities. -/
structure Dist (V : ℕ) where
  val : Fin V → ℝ
  nonneg : ∀ t, 0 ≤ val t
  sum_one : ∑ t, val t = 1

/-! ### One program -/

namespace KernelArgs
variable (a : KernelArgs V ℝ) (pid : ℕ)

/-- What request `pid` hands to the kernel: normalised rows, draws in `[0, 1)`, drafts
that can be drawn from their rows, and one `Predicts` cell per slot. -/
structure Valid : Prop where
  slots : 0 < a.numSlots
  block : 0 < a.blockV
  coin : ∀ i, a.uniformSamples pid i ∈ Ico (0 : ℝ) 1
  coinFinal : a.uniformSamplesFinal pid ∈ Ico (0 : ℝ) 1
  target : ∀ i, i < a.numSlots → ∃ p : Dist V, a.targetProbs pid i = p.val
  draft : ∀ i, i < a.numDrafts → ∃ q : Dist V, a.draftProbs pid i = q.val
  drawn : ∀ i, i < a.numDrafts → 0 < a.draftProbs pid i (a.candidates pid (i + 1))
  cells : a.OwnCells pid

variable {a pid} (h : a.Valid pid)
include h

theorem Valid.accepted_lt_numSlots : a.accepted pid < a.numSlots := by
  have := a.accepted_le pid
  have := h.slots
  unfold numDrafts at *
  omega

theorem Valid.weights_nonneg (t : Fin V) : 0 ≤ a.weights pid t := by
  unfold weights
  split
  · obtain ⟨p, hp⟩ := h.target _ h.accepted_lt_numSlots
    rw [hp]
    exact p.nonneg t
  · exact excess_nonneg _ _ t

/-- **A rejection leaves residual mass.**  Equal rows would have passed the test. -/
theorem Valid.sum_weights_pos : 0 < ∑ t, a.weights pid t := by
  obtain ⟨p, hp⟩ := h.target _ h.accepted_lt_numSlots
  unfold weights
  by_cases hall : a.accepted pid = a.numDrafts
  · rw [if_pos hall, hp, p.sum_one]
    exact one_pos
  · rw [if_neg hall]
    have hlt : a.accepted pid < a.numDrafts := lt_of_le_of_ne (a.accepted_le pid) hall
    obtain ⟨q, hq⟩ := h.draft _ hlt
    refine lt_of_le_of_ne (Finset.sum_nonneg fun t _ => excess_nonneg _ _ t) fun hzero => ?_
    rw [hp, hq] at hzero
    have heq := eq_of_sum_excess_eq_zero p.sum_one q.sum_one hzero.symm
      (a.candidates pid (a.accepted pid + 1))
    have hfail : a.passes pid (a.accepted pid) = false := by
      have := getElem?_leadingRun_ne ((List.range a.numDrafts).map (a.passes pid))
      change ((List.range a.numDrafts).map (a.passes pid))[a.accepted pid]? ≠ some true at this
      rw [List.getElem?_map, List.getElem?_range hlt] at this
      simpa using this
    have hdrawn := h.drawn _ hlt
    have hcoin := (h.coin (a.accepted pid)).2
    simp only [passes, hp, heq, decide_eq_false_iff_not, not_lt] at hfail
    rw [hq] at hdrawn hfail
    have := mul_lt_mul_of_pos_right hcoin hdrawn
    linarith

/-- **The final token is the plain inverse-search token of the sampled row**: the
search finds it, so the fallback is not used, and it carries weight. -/
theorem Valid.exists_finalToken : ∃ t : Fin V,
    searchFrom 0 (List.ofFn (a.weights pid))
        (a.uniformSamplesFinal pid * ∑ v, a.weights pid v) = some t.val ∧
      a.finalToken pid = t ∧ 0 < a.weights pid t := by
  have hpos := h.sum_weights_pos
  have hlevel : 0 ≤ a.uniformSamplesFinal pid * ∑ v, a.weights pid v :=
    mul_nonneg h.coinFinal.1 hpos.le
  have hlt : a.uniformSamplesFinal pid * ∑ v, a.weights pid v <
      0 + (List.ofFn (a.weights pid)).sum := by
    rw [zero_add, List.sum_ofFn]
    exact mul_lt_of_lt_one_left hpos h.coinFinal.2
  have hnn : ∀ w ∈ List.ofFn (a.weights pid), 0 ≤ w := by
    intro w hw
    obtain ⟨t, rfl⟩ := List.mem_ofFn.mp hw
    exact h.weights_nonneg t
  obtain ⟨i, hi⟩ := searchFrom_isSome hlt hlevel
  have hV : i < (List.ofFn (a.weights pid)).length := searchFrom_lt_length hi
  have hw := searchFrom_pos hnn hlevel hi hV
  rw [List.getElem_ofFn] at hw
  rw [List.length_ofFn] at hV
  refine ⟨⟨i, hV⟩, hi, ?_, hw⟩
  rw [a.finalToken_eq pid h.block hlevel, hi]
  rfl

omit h in
/-- The same inputs with another final draw. -/
def withFinal (a : KernelArgs V ℝ) (v : ℝ) : KernelArgs V ℝ :=
  { a with uniformSamplesFinal := fun _ => v }

theorem Valid.withFinal (v : Ico (0 : ℝ) 1) : (a.withFinal v).Valid pid :=
  ⟨h.slots, h.block, h.coin, v.2, h.target, h.draft, h.drawn, h.cells⟩

/-- **The law of the final token** is the normalised sampled row. -/
theorem Valid.real_finalToken (t : Fin V) :
    unitLaw.real {v | (a.withFinal v).finalToken pid = t.val} =
      a.weights pid t / ∑ s, a.weights pid s := by
  have hevent : ∀ v : Ico (0 : ℝ) 1, (a.withFinal v).finalToken pid = t.val ↔
      searchFrom 0 (List.ofFn (a.weights pid)) (v * ∑ s, a.weights pid s) = some t.val := by
    intro v
    obtain ⟨s, hs, hfinal, -⟩ := (h.withFinal v).exists_finalToken
    change searchFrom 0 (List.ofFn (a.weights pid)) (v * ∑ s, a.weights pid s) = _ at hs
    rw [hs, hfinal, Option.some.injEq]
  simp only [hevent]
  exact unitLaw_real_searchFrom h.weights_nonneg h.sum_weights_pos t

end KernelArgs

/-! ### The law of the emitted run -/

/-- A chain of drafts after a prefix: the target and draft conditionals given the
drafts so far, and the constants of the kernel. -/
structure Chain (V : ℕ) where
  target : List (Fin V) → Dist V
  draft : List (Fin V) → Dist V
  root : Fin V
  numDrafts : ℕ
  blockV : ℕ
  retriveIndex : ℕ → ℕ
  blockV_pos : 0 < blockV
  cells : Function.Injective retriveIndex

namespace Chain
variable (c : Chain V)

/-- What the kernel is handed for the drafts `x`. -/
def args (x : List (Fin V)) (u : ℕ → ℝ) (v : ℝ) : KernelArgs V ℝ where
  candidates _ i := (c.root :: x).getD i c.root
  retriveIndex _ := c.retriveIndex
  uniformSamples _ := u
  uniformSamplesFinal _ := v
  targetProbs _ i := (c.target (x.take i)).val
  draftProbs _ i := (c.draft (x.take i)).val
  numSlots := c.numDrafts + 1
  blockV := c.blockV

/-- The tokens the kernel emits. -/
noncomputable def emit (m : KernelMemory) (x : List (Fin V)) (u : ℕ → ℝ) (v : ℝ) : List ℕ :=
  ((c.args x u v).program 0 m).emitted 0

/-- The test of draft `i`. -/
noncomputable def pass (x : List (Fin V)) (i : ℕ) (w : ℝ) : Bool :=
  decide (w * (c.draft (x.take i)).val (x.getD i c.root) <
    (c.target (x.take i)).val (x.getD i c.root))

/-- The row the run is closed from after `xs`. -/
noncomputable def closeWeights (xs : List (Fin V)) : Fin V → ℝ :=
  if xs.length = c.numDrafts then (c.target xs).val else excess (c.target xs).val (c.draft xs).val

/-- The closing token after `xs`. -/
noncomputable def close (xs : List (Fin V)) (v : Ico (0 : ℝ) 1) : Fin V :=
  let i :=
    (searchFrom 0 (List.ofFn (c.closeWeights xs)) (v * ∑ t, c.closeWeights xs t)).getD (V - 1)
  if h : i < V then ⟨i, h⟩ else c.root

theorem closeWeights_nonneg (xs : List (Fin V)) (t : Fin V) : 0 ≤ c.closeWeights xs t := by
  unfold closeWeights
  split
  · exact (c.target xs).nonneg t
  · exact excess_nonneg _ _ t

theorem close_val (xs : List (Fin V)) (v : Ico (0 : ℝ) 1) :
    (c.close xs v).val = (searchFrom 0 (List.ofFn (c.closeWeights xs))
      (v * ∑ t, c.closeWeights xs t)).getD (V - 1) := by
  have hlt : (searchFrom 0 (List.ofFn (c.closeWeights xs))
      (v * ∑ t, c.closeWeights xs t)).getD (V - 1) < V := by
    cases hs : searchFrom 0 (List.ofFn (c.closeWeights xs)) (v * ∑ t, c.closeWeights xs t) with
    | none => exact Nat.sub_lt c.root.pos Nat.one_pos
    | some i => simpa using searchFrom_lt_length hs
  unfold close
  simp only [dif_pos hlt]

/-- The law of the closing token, from a row with weight. -/
theorem real_close {xs : List (Fin V)} (hpos : 0 < ∑ t, c.closeWeights xs t) (t : Fin V) :
    unitLaw.real {v | c.close xs v = t} = c.closeWeights xs t / ∑ s, c.closeWeights xs s := by
  have hevent : ∀ v : Ico (0 : ℝ) 1, c.close xs v = t ↔
      searchFrom 0 (List.ofFn (c.closeWeights xs)) (v * ∑ s, c.closeWeights xs s) = some t.val := by
    intro v
    obtain ⟨s, hs⟩ := exists_searchFrom_ofFn hpos v
    rw [Fin.ext_iff, close_val, hs, Option.some.injEq]
    rfl
  simp only [hevent]
  exact unitLaw_real_searchFrom (c.closeWeights_nonneg xs) hpos t

/-- **What the kernel emits for the drafts `x`** is the run of its tests, closed by
the inverse search. -/
theorem emit_eq (m : KernelMemory) {x : List (Fin V)} (hx : x.length = c.numDrafts) (u : ℕ → ℝ)
    (v : Ico (0 : ℝ) 1) :
    c.emit m x u v = (run (c.pass x) c.close x c.numDrafts u v).map Fin.val := by
  set a := c.args x u v with ha
  have hdrafts : a.numDrafts = c.numDrafts := rfl
  have hacc : a.accepted 0 = passed (c.pass x) c.numDrafts u := rfl
  have hle := passed_le (c.pass x) c.numDrafts u
  have htake : (x.take (passed (c.pass x) c.numDrafts u)).length =
      passed (c.pass x) c.numDrafts u := by
    rw [List.length_take]
    omega
  have hweights : a.weights 0 = c.closeWeights (x.take (passed (c.pass x) c.numDrafts u)) := by
    unfold KernelArgs.weights closeWeights
    rw [hacc, hdrafts, htake]
    rfl
  have hlevel : 0 ≤ a.uniformSamplesFinal 0 * ∑ t, a.weights 0 t := by
    refine mul_nonneg v.2.1 (Finset.sum_nonneg fun t _ => ?_)
    rw [hweights]
    exact c.closeWeights_nonneg _ t
  have hstored : a.Stored 0 (a.program 0 m) :=
    KernelArgs.program_stored (Nat.succ_pos _) (fun i j _ _ heq => c.cells heq) m
  rw [emit, ← ha, hstored.emitted, hacc, run, List.map_append, List.map_singleton, close_val,
    a.finalToken_eq 0 c.blockV_pos hlevel, hweights]
  congr 1
  refine List.ext_getElem? fun i => ?_
  rw [List.getElem?_map, List.getElem?_map]
  rcases Nat.lt_or_ge i (passed (c.pass x) c.numDrafts u) with hi | hi
  · rw [List.getElem?_range hi, List.getElem?_take_of_lt hi, List.getElem?_eq_getElem (by omega)]
    simp only [Option.map_some, ha, args, List.getD_cons_succ]
    rw [List.getD_eq_getElem?_getD, List.getElem?_eq_getElem (by omega)]
    rfl
  · rw [List.getElem?_eq_none (by simpa using hi), List.getElem?_eq_none (by omega)]
    rfl

/-- The probability that a draft passes its test. -/
noncomputable def acc (xs : List (Fin V)) (s : Fin V) : ℝ :=
  coin.real {w | w * (c.draft xs).val s < (c.target xs).val s}

/-- The law of the closing draw after `xs`. -/
noncomputable def res (xs : List (Fin V)) (t : Fin V) : ℝ := unitLaw.real {v | c.close xs v = t}

theorem draft_mul_acc (xs : List (Fin V)) (s : Fin V) :
    (c.draft xs).val s * c.acc xs s = min ((c.target xs).val s) ((c.draft xs).val s) := by
  have hp := (c.target xs).nonneg s
  rcases ((c.draft xs).nonneg s).eq_or_lt with h0 | hpos
  · rw [← h0, zero_mul, min_eq_right hp]
  · rw [acc, coin_real_mul_lt hp hpos, mul_min_of_nonneg _ _ hpos.le, mul_one,
      mul_div_cancel₀ _ hpos.ne', min_comm]

/-- **The kernel's tests and draws are exact.** -/
theorem exact : Exact c.acc c.res
    (fun xs _ t => (c.target xs).val t) (fun xs t => (c.target xs).val t)
    (fun xs t => (c.draft xs).val t) c.numDrafts where
  accept xs s _ := c.draft_mul_acc xs s
  residual xs t hxs := by
    refine residual_of_accept (c.target xs).sum_one (c.draft xs).sum_one (c.draft_mul_acc xs)
      (fun hne s => ?_) t
    have hrow : c.closeWeights xs = excess (c.target xs).val (c.draft xs).val :=
      if_neg (Nat.ne_of_lt hxs)
    have hpos : 0 < ∑ t, c.closeWeights xs t := by
      rw [hrow]
      exact lt_of_le_of_ne (Finset.sum_nonneg fun t _ => excess_nonneg _ _ t) (Ne.symm hne)
    rw [res, c.real_close hpos, hrow]
  close n xs t _ := drawExp_const (fun pre => (c.draft pre).sum_one) n xs _

theorem measurableSet_pass (x : List (Fin V)) (i : ℕ) :
    MeasurableSet {w | c.pass x i w = true} := by
  simp only [pass, decide_eq_true_eq]
  exact measurableSet_lt (measurable_id.mul_const _) measurable_const

/-- The law of the emitted run for fixed drafts. -/
theorem real_emit (m : KernelMemory) {x : List (Fin V)} (hx : x.length = c.numDrafts)
    (y : List (Fin V)) :
    ((coins c.numDrafts).prod unitLaw).real {d | c.emit m x (stream d.1) d.2 = y.map Fin.val} =
      runGiven c.acc c.res
        (fun xs _ t => (c.target xs).val t) (fun _ => false) [] x y := by
  have hkept : c.numDrafts = kept (fun _ => false) [] x := by
    rw [kept_of_not_cut _ (fun _ => rfl), hx]
  have hset : {d : (Fin c.numDrafts → ℝ) × Ico (0 : ℝ) 1 |
      c.emit m x (stream d.1) d.2 = y.map Fin.val} =
      {d | run (c.pass x) c.close x c.numDrafts (stream d.1) d.2 = y} := by
    ext d
    rw [mem_ofPred_eq, c.emit_eq m hx]
    exact (List.map_injective_iff.mpr Fin.val_injective).eq_iff
  rw [hset]
  refine real_run (c.measurableSet_pass x) hx.le hx.ge unitLaw hkept (fun i hi => ?_)
    (fun xs t hxs => ?_) y
  · rw [getD_accepts c.acc [] (by omega) c.root, List.nil_append]
    simp only [pass, decide_eq_true_eq]
    rfl
  · split
    · rfl
    · rename_i hge
      have hlen : xs.length = c.numDrafts := by
        have := hxs.length_le
        rw [List.length_take] at this
        omega
      have hrow : c.closeWeights xs = (c.target xs).val := if_pos hlen
      rw [c.real_close (by rw [hrow, (c.target xs).sum_one]; exact one_pos), hrow,
        (c.target xs).sum_one, div_one]

/-- **The emitted tokens have the target's law**, when each draft is drawn from its
conditional. -/
theorem sum_drawExp_emit (m : KernelMemory) (y : List (Fin V)) (hy : y.length = c.numDrafts + 1) :
    ∑ k ∈ Finset.range (c.numDrafts + 2),
        drawExp (fun xs t => (c.draft xs).val t) c.numDrafts [] (fun x =>
          ((coins c.numDrafts).prod unitLaw).real
            {d | c.emit m x (stream d.1) d.2 = (y.take k).map Fin.val}) *
          seqProb (fun xs t => (c.target xs).val t) (y.take k) (y.drop k) =
      seqProb (fun xs t => (c.target xs).val t) [] y := by
  have hrun : ∀ k, drawExp (fun xs t => (c.draft xs).val t) c.numDrafts [] (fun x =>
      ((coins c.numDrafts).prod unitLaw).real
        {d | c.emit m x (stream d.1) d.2 = (y.take k).map Fin.val}) =
      runLaw (fun xs t => (c.target xs).val t) (fun xs t => (c.draft xs).val t) (fun _ => false)
        c.numDrafts [] (y.take k) := by
    intro k
    rw [drawExp_congr fun x hx => c.real_emit m hx (y.take k)]
    exact drawExp_runGiven (fun pre => (c.draft pre).sum_one) c.exact _ [] _ (by simp)
  simp only [hrun]
  exact sum_runLaw_seqProb _ _ _ c.numDrafts [] y hy

end Chain

/-- **The chain kernel is exact.**  For every valid request it accepts the drafts that
pass `coin * q < p` along an unbroken prefix and closes with the token the plain
inverse search of the sampled row finds, which carries weight and, over the final
draw, has the normalised row as its law; the row is the excess of the rejected slot or
the last target row.  When the drafts are drawn from their conditionals, the emitted
tokens have the target's law. -/
theorem speculativeSamplingClassicKernel_exact :
    (∀ (a : KernelArgs V ℝ) (pid : ℕ) (m : KernelMemory), a.Valid pid →
      (a.program pid m).acceptTokenNum pid = leadingRun ((List.range a.numDrafts).map fun i =>
        decide (a.uniformSamples pid i * a.draftProbs pid i (a.candidates pid (i + 1)) <
          a.targetProbs pid i (a.candidates pid (i + 1)))) ∧
      (∃ t : Fin V, (a.program pid m).emitted pid =
          (List.range (a.accepted pid)).map (fun i => (a.candidates pid (i + 1)).val) ++ [t.val] ∧
        searchFrom 0 (List.ofFn (a.weights pid))
          (a.uniformSamplesFinal pid * ∑ s, a.weights pid s) = some t.val ∧
        0 < a.weights pid t) ∧
      ∀ t : Fin V, unitLaw.real {v | (a.withFinal v).finalToken pid = t.val} =
        a.weights pid t / ∑ s, a.weights pid s) ∧
    ∀ (c : Chain V) (m : KernelMemory) (y : List (Fin V)), y.length = c.numDrafts + 1 →
      ∑ k ∈ Finset.range (c.numDrafts + 2),
          drawExp (fun xs t => (c.draft xs).val t) c.numDrafts [] (fun x =>
            ((coins c.numDrafts).prod unitLaw).real
              {d | c.emit m x (stream d.1) d.2 = (y.take k).map Fin.val}) *
            seqProb (fun xs t => (c.target xs).val t) (y.take k) (y.drop k) =
        seqProb (fun xs t => (c.target xs).val t) [] y := by
  refine ⟨fun a pid m h => ?_, fun c m y hy => c.sum_drawExp_emit m y hy⟩
  have hstored := KernelArgs.program_stored h.slots h.cells m
  obtain ⟨t, hsearch, hfinal, hpos⟩ := h.exists_finalToken
  refine ⟨hstored.num, ⟨t, ?_, hsearch, hpos⟩, h.real_finalToken⟩
  rw [hstored.emitted, hfinal]

/-- Even odds over two tokens. -/
noncomputable def evenDist : Dist 2 where
  val _ := 1 / 2
  nonneg _ := by norm_num
  sum_one := by norm_num

/-- Odds of three to one. -/
noncomputable def leaningDist : Dist 2 where
  val t := if t = Fin.last 1 then 1 / 4 else 3 / 4
  nonneg t := by split <;> norm_num
  sum_one := by
    rw [Fin.sum_univ_two, if_neg (by decide), if_pos (by decide)]
    norm_num

/-- One draft from the leaning row, tested against the even row. -/
noncomputable def leaningChain : Chain 2 where
  target _ := evenDist
  draft _ := leaningDist
  root := Fin.last 1
  numDrafts := 1
  blockV := 4096
  retriveIndex := id
  blockV_pos := by norm_num
  cells := Function.injective_id

/-- Freshly zeroed outputs. -/
def zeroMemory : KernelMemory := ⟨fun _ => 0, fun _ _ => 0, fun _ => 0⟩

theorem speculativeSamplingClassicKernel_exact_leaning :
    ((leaningChain.args [0] (fun _ => 9 / 10) (1 / 3)).program 0 zeroMemory).emitted 0 = [1] ∧
      ∑ k ∈ Finset.range 3,
          drawExp (fun xs t => (leaningChain.draft xs).val t) 1 [] (fun x =>
            ((coins 1).prod unitLaw).real {d | leaningChain.emit zeroMemory x (stream d.1) d.2 =
              (([0, 1] : List (Fin 2)).take k).map Fin.val}) *
            seqProb (fun xs t => (leaningChain.target xs).val t) ([0, 1].take k) ([0, 1].drop k) =
        1 / 4 := by
  obtain ⟨hrun, hlaw⟩ := speculativeSamplingClassicKernel_exact (V := 2)
  set a := leaningChain.args [0] (fun _ => 9 / 10) (1 / 3) with ha
  have hvalid : a.Valid 0 := by
    refine ⟨Nat.succ_pos 1, leaningChain.blockV_pos, fun i => ?_, ?_, fun i _ => ⟨_, rfl⟩,
      fun i _ => ⟨_, rfl⟩, fun i _ => ?_, fun i j _ _ h => h⟩
    · show (9 / 10 : ℝ) ∈ Ico (0 : ℝ) 1
      norm_num
    · show (1 / 3 : ℝ) ∈ Ico (0 : ℝ) 1
      norm_num
    · show 0 < leaningDist.val _
      simp only [leaningDist]
      split <;> norm_num
  have hreject : a.accepted 0 = 0 := by
    have hpass : a.passes 0 0 = false := by
      simp [KernelArgs.passes, ha, Chain.args, leaningChain, evenDist, leaningDist]
      norm_num
    show leadingRun [a.passes 0 0] = 0
    rw [hpass]
    rfl
  obtain ⟨-, ⟨t, hemit, -, hpos⟩, -⟩ := hrun a 0 zeroMemory hvalid
  have hweights : a.weights 0 = excess evenDist.val leaningDist.val := by
    rw [KernelArgs.weights, hreject]
    exact if_neg (by decide)
  have ht : t = 1 := by
    rw [hweights] at hpos
    by_contra hne
    obtain rfl : t = 0 := by omega
    simp [excess, evenDist, leaningDist] at hpos
    norm_num at hpos
  refine ⟨?_, (hlaw leaningChain zeroMemory [0, 1] rfl).trans ?_⟩
  · rw [hemit, hreject, ht]
    rfl
  · simp only [seqProb, leaningChain, evenDist]
    norm_num

end LatentSpec
