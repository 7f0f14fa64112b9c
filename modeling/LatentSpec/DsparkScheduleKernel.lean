import LatentSpec.DflashAccept
import LatentSpec.DsparkTopk

/-! # The kernels of the DSpark schedule

On a GPU the schedule is three kernels over buffers nobody has cleared.  The first writes a
row's running products through a tile that is padded to a power of two, the second counts for
every candidate those before it and adds the selected ones up atomically, the third clamps.
`scheduleVerifyLensTopkTriton_eq` says that they return what the reference returns.
-/
namespace LatentSpec
open TiledStores RankSelection

variable {K : Type} [LinearOrder K]

/-! ### The kernels -/

section
variable [Mul K] [One K]

/-- `tl.load(confidence_ptr + row * gamma + g, mask=g < gamma, other=1.0)` -/
def prepLane (confidence : ℕ → ℕ → K) (gamma row g : ℕ) : K :=
  if g < gamma then confidence row g else 1

/-- The stores of a row of `_schedule_topk_prep_kernel` to the survival buffer. -/
def prepStores (confidence : ℕ → ℕ → K) (gamma cols row : ℕ) : List (ℕ × K) :=
  let gP2 := nextPowerOf2 (max gamma 1)
  ((List.range gP2).filter (· < cols)).map fun g =>
    (row * cols + g, ((List.range (g + 1)).map (prepLane confidence gamma row)).prod)

/-- The candidates as `_schedule_topk_selected_extra_kernel` loads them from the survival buffer
that `_schedule_topk_prep_kernel` has written. -/
def tritonWindow (survival : ℕ → K) (cfg : DSparkScheduleConfig K) (bs gamma : ℕ)
    (confidence : ℕ → ℕ → K) : TopkWindow K :=
  let cols := min cfg.resolvedMaxVerifyLen gamma
  let survival := writeAll survival ((List.range bs).flatMap (prepStores confidence gamma cols))
  { numRequests := bs
    cols := cols
    survival := fun r p => survival (r * cols + p)
    survivalEps := cfg.survivalEps }

/-- The lanes of `_schedule_topk_selected_extra_kernel` and what they add. -/
def TopkWindow.selectedAdds (w : TopkWindow K) (budget : ℕ) : List (ℕ × ℕ) :=
  (tiles TopkWindow.blockC w.numCandidates).map fun c =>
    (w.request c,
      (w.valid c &&
        decide (rank w.before (tiles TopkWindow.blockCp w.numCandidates) c < budget)).toNat)

/-- `schedule_verify_lens_topk_triton`, from what the buffers it allocates happen to hold. -/
def scheduleVerifyLensTopkTriton (survival : ℕ → K) (selectedExtra out : ℕ → ℕ)
    (cfg : DSparkScheduleConfig K) (bs gamma : ℕ) (confidence : ℕ → ℕ → K) (budget : ℕ) : List ℕ :=
  let maxLen := cfg.resolvedMaxVerifyLen
  let cols := min maxLen gamma
  let n := bs * cols
  let selectedExtra := writeAll selectedExtra ((List.range bs).map fun row => (row, 0))
  let selectedExtra :=
    if 0 < budget ∧ 0 < n then
      addAll selectedExtra ((tritonWindow survival cfg bs gamma confidence).selectedAdds budget)
    else selectedExtra
  let verifyLens := writeAll out ((tiles 256 bs).map fun offs =>
    (offs, clampVerifyLen cfg (selectedExtra offs)))
  (List.range bs).map verifyLens

end

/-! ### What they write -/

namespace TopkWindow
variable {w w' : TopkWindow K} {budget : ℕ}

/-- Windows that hold the same survival select the same candidates. -/
theorem selected_congr (hnum : w.numRequests = w'.numRequests) (hcols : w.cols = w'.cols)
    (heps : w.survivalEps = w'.survivalEps)
    (hsurvival : ∀ r < w.numRequests, ∀ p < w.cols, w.survival r p = w'.survival r p) {c : ℕ}
    (hc : c < w.numCandidates) : w.selected budget c = w'.selected budget c := by
  have hcell : ∀ c < w.numCandidates,
      w.survival (w.request c) (w.position c) = w'.survival (w'.request c) (w'.position c) := by
    intro c hc
    obtain ⟨r, hr, p, hp, rfl⟩ := exists_candidate hc
    rw [request_block hp, position_block hp, hcols, request_block (hcols ▸ hp),
      position_block (hcols ▸ hp), hsurvival r hr p hp]
  have hvalid : ∀ c < w.numCandidates, w.valid c = w'.valid c := by
    intro c hc
    rw [valid, valid, hcell c hc, heps]
  have hmask : ∀ c < w.numCandidates, w.maskedProb c = w'.maskedProb c := by
    intro c hc
    rw [maskedProb, maskedProb, hvalid c hc, hcell c hc]
  have hbefore : ∀ a < w.numCandidates, ∀ b < w.numCandidates, w.before a b = w'.before a b := by
    intro a ha b hb
    have hplace : ∀ c, w.position c = w'.position c ∧ w.request c = w'.request c := by
      intro c
      simp only [position, request, hcols, and_self]
    simp only [before, hmask a ha, hmask b hb, hplace]
  have hnumCandidates : w'.numCandidates = w.numCandidates := by
    rw [numCandidates, numCandidates, hnum, hcols]
  have hrank : rank w.before (List.range w.numCandidates) c =
      rank w'.before (List.range w'.numCandidates) c := by
    rw [hnumCandidates]
    exact List.countP_congr fun a ha => by rw [hbefore a (List.mem_range.mp ha) c hc]
  rw [selected, selected, hvalid c hc, hrank]

end TopkWindow

variable [Field K] {cfg : DSparkScheduleConfig K} {bs gamma budget : ℕ} {confidence : ℕ → ℕ → K}

omit [LinearOrder K] in
/-- A row of the survival buffer holds the running products of its confidences: the padding
lanes come after them and are not stored. -/
theorem prepStores_eq {cols : ℕ} (hcols : cols ≤ gamma) (row : ℕ) :
    prepStores confidence gamma cols row =
      stretch (row * cols) cols (computeSortSurvival confidence row) := by
  have hpad : cols ≤ nextPowerOf2 (max gamma 1) :=
    hcols.trans ((Nat.le_max_left _ _).trans (le_nextPowerOf2 _))
  rw [prepStores, filter_range_lt hpad, stretch]
  refine List.map_congr_left fun g hg => ?_
  have hlanes : (List.range (g + 1)).map (prepLane confidence gamma row) =
      (List.range (g + 1)).map (confidence row) := by
    refine List.map_congr_left fun i hi => if_pos ?_
    have := List.mem_range.mp hg
    have := List.mem_range.mp hi
    omega
  rw [hlanes, computeSortSurvival]

omit [LinearOrder K] in
theorem survival_buffer (survival : ℕ → K) {cols r p : ℕ} (hcols : cols ≤ gamma) (hr : r < bs)
    (hp : p < cols) :
    writeAll survival ((List.range bs).flatMap (prepStores confidence gamma cols)) (r * cols + p) =
      computeSortSurvival confidence r p := by
  have hstores : (List.range bs).flatMap (prepStores confidence gamma cols) =
      stretches (fun r => r * cols) (fun _ => cols) (computeSortSurvival confidence) bs := by
    rw [stretches]
    exact congrArg (List.range bs).flatMap (funext fun row => prepStores_eq hcols row)
  rw [hstores]
  refine writeAll_stretches_of_mem _ _ _ _ hr hp fun b _ hb => ?_
  rintro ⟨hle, hlt⟩
  obtain ⟨j, hj⟩ := Nat.exists_eq_add_of_le hle
  exact hb (block_inj (show j < cols by omega) hp hj.symm).1

omit [Field K] in
theorem selectedAdds_apply {w : TopkWindow K} (mem : ℕ → ℕ) (r : ℕ) :
    addAll mem (w.selectedAdds budget) r = mem r + w.extra budget r := by
  rw [TopkWindow.selectedAdds, addAll_lanes]
  simp only [tiles_eq_range (show 0 < TopkWindow.blockC by decide),
    tiles_eq_range (show 0 < TopkWindow.blockCp by decide)]
  rfl

/-- The kernels select the candidates that the reference selects. -/
theorem tritonWindow_selected (survival : ℕ → K) {c : ℕ}
    (hc : c < (candidateWindow cfg bs gamma confidence).numCandidates) :
    (tritonWindow survival cfg bs gamma confidence).selected budget c =
      (candidateWindow cfg bs gamma confidence).selected budget c := by
  have hc' : c < (tritonWindow survival cfg bs gamma confidence).numCandidates := hc
  refine TopkWindow.selected_congr ?_ ?_ ?_ (fun r hr p hp => ?_) hc'
  · rfl
  · rfl
  · rfl
  · exact survival_buffer survival (Nat.min_le_right _ _) hr hp

/-- **The kernels return what the reference returns**, whatever their buffers hold. -/
theorem scheduleVerifyLensTopkTriton_eq (survival : ℕ → K) (selectedExtra out : ℕ → ℕ) :
    scheduleVerifyLensTopkTriton survival selectedExtra out cfg bs gamma confidence budget =
      scheduleVerifyLensTopk false cfg bs gamma confidence budget := by
  unfold scheduleVerifyLensTopkTriton scheduleVerifyLensTopk
  simp only [Bool.false_eq_true, if_false, tiles_eq_range (show 0 < 256 by decide)]
  refine List.map_congr_left fun r hr => ?_
  rw [writeAll_lanes _ _ _ hr, TopkWindow.selectedExtra_eq]
  congr 1
  have hzero : writeAll selectedExtra ((List.range bs).map fun row => (row, 0)) r = 0 :=
    writeAll_lanes _ _ (fun _ => 0) hr
  have hextra : (tritonWindow survival cfg bs gamma confidence).extra budget r =
      (candidateWindow cfg bs gamma confidence).extra budget r :=
    List.countP_congr fun c hc => by
      rw [tritonWindow_selected survival (List.mem_range.mp hc)]
      rfl
  split_ifs with hpos
  · rw [selectedAdds_apply, hzero, Nat.zero_add, hextra]
  · -- nothing is launched, and nothing can be selected
    rw [hzero, ← TopkWindow.selectedExtraTriton_eq]
    exact (if_neg hpos).symm

/-- The candidates the reference takes from the sorted list and that survive. -/
def TopkWindow.Chosen (w : TopkWindow K) (budget c : ℕ) : Prop :=
  c ∈ w.valueIndependentDescendingOrder.take (min budget w.numCandidates) ∧ w.valid c

/-- **Both schedules select the same candidates and keep to their bounds.**  The candidates chosen
of a request are its first ones; between two requests the likelier candidate is chosen first,
then the earlier position, then the earlier request. -/
theorem schedules_agree [IsStrictOrderedRing K] (hcfg : cfg.validate = .ok ())
    (hconf : IsConfidence bs gamma confidence) (survival : ℕ → K) (selectedExtra out : ℕ → ℕ) :
    let w := candidateWindow cfg bs gamma confidence
    let lens :=
      scheduleVerifyLensTopkTriton survival selectedExtra out cfg bs gamma confidence budget
    lens = scheduleVerifyLensTopk false cfg bs gamma confidence budget ∧
      (∀ c < w.numCandidates,
        (tritonWindow survival cfg bs gamma confidence).selected budget c ↔ w.Chosen budget c) ∧
      (∀ r < bs, ∀ p q, p ≤ q → q < w.cols → w.Chosen budget (r * w.cols + q) →
        w.Chosen budget (r * w.cols + p)) ∧
      (∀ a < w.numCandidates, ∀ b < w.numCandidates, w.valid a → w.Chosen budget b →
        w.survival (w.request b) (w.position b) < w.survival (w.request a) (w.position a) ∨
          w.survival (w.request b) (w.position b) = w.survival (w.request a) (w.position a) ∧
            (w.position a < w.position b ∨
              w.position a = w.position b ∧ w.request a < w.request b) →
        w.Chosen budget a) ∧
      (∀ n ∈ lens, max cfg.minVerifyLen 1 ≤ n ∧ n ≤ cfg.resolvedMaxVerifyLen) ∧
      (lens.map fun n => n - max cfg.minVerifyLen 1).sum ≤ budget := by
  intro w lens
  have hfalling : w.Falling := hconf.falling cfg
  have hchosen : ∀ c < w.numCandidates, w.Chosen budget c ↔ w.selected budget c :=
    fun c hc => TopkWindow.mem_take_order hc
  have hlens : lens = scheduleVerifyLensTopk false cfg bs gamma confidence budget :=
    scheduleVerifyLensTopkTriton_eq survival selectedExtra out
  have hverifyLen :
      lens = (List.range bs).map (verifyLen false cfg bs gamma confidence budget) := by
    rw [hlens, scheduleVerifyLensTopk]
    refine List.map_congr_left fun r hr => ?_
    rw [verifyLen_eq (List.mem_range.mp hr), ← TopkWindow.selectedExtra_eq]
    rfl
  refine ⟨hlens, fun c hc => ?_, fun r hr p q hpq hq hsel => ?_,
    fun a ha b hb hvalid hsel hab => ?_, fun n hn => ?_, ?_⟩
  · rw [hchosen c hc, tritonWindow_selected survival hc]
  · have hp := hpq.trans_lt hq
    rw [hchosen _ (block_lt hr hp)]
    exact hfalling.selected_mono hr hpq hq ((hchosen _ (block_lt hr hq)).mp hsel)
  · have hvalid' : w.valid b := hsel.2
    rw [hchosen a ha]
    refine TopkWindow.selected_of_before ha ?_ hvalid ((hchosen b hb).mp hsel)
    simp only [TopkWindow.before, TopkWindow.maskedProb, hvalid, hvalid', if_true, Bool.or_eq_true,
      Bool.and_eq_true, decide_eq_true_eq, WithBot.coe_lt_coe, WithBot.coe_inj]
    rcases hab with hlt | ⟨heq, hplace⟩
    · exact .inl hlt
    · exact .inr ⟨heq.symm, hplace⟩
  · rw [hverifyLen] at hn
    obtain ⟨r, hr, rfl⟩ := List.mem_map.mp hn
    exact verifyLen_bounds hcfg (List.mem_range.mp hr)
  · rw [hverifyLen, List.map_map]
    exact sum_verifyLen_sub_le

theorem schedules_agree_plain :
    scheduleVerifyLensTopkTriton (fun _ => 7) (fun _ => 7) (fun _ => 7) plainScheduleConfig 2 3
        (fun _ _ => 1 / 2) 2 =
      scheduleVerifyLensTopk false plainScheduleConfig 2 3 (fun _ _ => 1 / 2) 2 :=
  (schedules_agree plainScheduleConfig_validate
    (fun _ _ _ _ => by norm_num) (fun _ => 7) (fun _ => 7) (fun _ => 7)).1

end LatentSpec
