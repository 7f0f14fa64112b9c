import LatentSpec.DsparkVerifyWindow

/-! # Padding a ragged layout to a captured graph

A captured graph has a number of request slots and a number of tokens.  A layout with fewer
of both is padded: the leftover tokens are spread over the missing requests, or pushed into
the last request when none is missing.  Consumers with dense rows clamp the lengths to the
window's width and lose the leftover.

Whatever is done, what comes before a real request is unchanged (`take_padded`,
`take_capped`), so its rows start where they did.
-/
namespace LatentSpec
open TiledStores

/-! ### The padded lengths -/

/-- `pad_verify_lens_to_bucket`; it refuses to drop requests, and an empty vector that it would
have to extend. -/
def padVerifyLensToBucket (verifyLens : List ℤ) (graphNumTokens : ℤ) (bs paddedBs : ℕ) :
    Option (List ℤ) :=
  if paddedBs < bs then none
  else
    let numPadReqs := paddedBs - bs
    let leftover := graphNumTokens - verifyLens.sum
    if 0 < numPadReqs then
      let base := Int.fdiv leftover numPadReqs
      let rem := leftover - base * numPadReqs
      let padBlock :=
        (List.range numPadReqs).map fun (i : ℕ) => base + if (i : ℤ) < rem then 1 else 0
      some (verifyLens ++ padBlock)
    else if verifyLens = [] then none
    else some (verifyLens.modify (verifyLens.length - 1) (· + leftover))

/-- A lane of `_padded_to_bucket_kernel`, whose division truncates. -/
def paddedToBucketLane (verifyLens : ℕ → ℤ) (graphNumTokens : ℤ) (bs paddedBs block idx : ℕ) : ℤ :=
  let vl := fun (idx : ℕ) => if idx < bs then verifyLens idx else 0
  let leftover := graphNumTokens - ((List.range block).map vl).sum
  let numPad := (paddedBs : ℤ) - bs
  let numPadSafe := max numPad 1
  let base := Int.tdiv leftover numPadSafe
  let rem := leftover - base * numPadSafe
  let padLen := base + if (idx : ℤ) - bs < rem then 1 else 0
  let final := if idx < bs then vl idx else padLen
  final + if numPad = 0 ∧ (idx : ℤ) = bs - 1 then leftover else 0

/-- `pad_verify_lens_to_bucket_triton`; `out` is what the allocated tensor holds. -/
def padVerifyLensToBucketTriton (out : ℕ → ℤ) (verifyLens : List ℤ) (graphNumTokens : ℤ)
    (bs paddedBs : ℕ) : Option (List ℤ) :=
  if paddedBs < bs then none
  else
    let block := nextPowerOf2 (max paddedBs 1)
    let out := writeAll out <| ((List.range block).filter (· < paddedBs)).map fun idx =>
      (idx, paddedToBucketLane (verifyLens.getD · 0) graphNumTokens bs paddedBs block idx)
    some ((List.range paddedBs).map out)

/-! ### Where requests start -/

/-- `QoIndptrResult` -/
structure QoIndptr where
  qoIndptr : List ℤ
  extendStartLoc : List ℤ
  deriving DecidableEq, Repr

/-- `build_qo_indptr` -/
def buildQoIndptr (verifyLens : List ℤ) : QoIndptr :=
  let cumsum := (List.range verifyLens.length).map fun i => (verifyLens.take (i + 1)).sum
  let qoIndptr := 0 :: cumsum
  { qoIndptr := qoIndptr
    extendStartLoc := qoIndptr.dropLast }

/-- `build_qo_indptr_triton`; the functions are what the allocated tensors hold. -/
def buildQoIndptrTriton (qoIndptr extendStartLoc : ℕ → ℤ) (verifyLens : List ℤ) : QoIndptr :=
  let bs := verifyLens.length
  let block := nextPowerOf2 (max bs 1)
  let vl := fun idx => if idx < bs then verifyLens.getD idx 0 else 0
  let incl := fun idx => ((List.range (idx + 1)).map vl).sum
  let lanes := (List.range block).filter (· < bs)
  let qoIndptr := writeAll (Function.update qoIndptr 0 0) (lanes.map fun idx => (1 + idx, incl idx))
  let extendStartLoc := writeAll extendStartLoc (lanes.map fun idx => (idx, incl idx - vl idx))
  { qoIndptr := (List.range (bs + 1)).map qoIndptr
    extendStartLoc := (List.range bs).map extendStartLoc }

/-! ### The kernels compute what torch computes -/

section Agreement
variable {verifyLens : List ℤ}

theorem sum_take_eq (verifyLens : List ℤ) {k : ℕ} (hk : k ≤ verifyLens.length) :
    ((List.range k).map fun idx => verifyLens.getD idx 0).sum = (verifyLens.take k).sum := by
  refine congrArg List.sum (List.ext_getElem (by simpa using hk) fun i hi _ => ?_)
  have hlt : i < verifyLens.length := by simp only [List.length_map, List.length_range] at hi; omega
  simp [hlt]

theorem zero_cons_prefixSums (verifyLens : List ℤ) :
    0 :: (List.range verifyLens.length).map (fun i => (verifyLens.take (i + 1)).sum) =
      (List.range (verifyLens.length + 1)).map fun k => (verifyLens.take k).sum := by
  rw [List.range_succ_eq_map, List.map_cons, List.map_map]
  rfl

/-- Lanes past the vector load zeros. -/
theorem sum_lanes (verifyLens : List ℤ) {block : ℕ} (h : verifyLens.length ≤ block) :
    ((List.range block).map fun idx =>
      if idx < verifyLens.length then verifyLens.getD idx 0 else 0).sum = verifyLens.sum := by
  obtain ⟨d, rfl⟩ := Nat.exists_eq_add_of_le h
  have hreal : (List.range verifyLens.length).map
      (fun idx => if idx < verifyLens.length then verifyLens.getD idx 0 else 0) =
      (List.range verifyLens.length).map fun idx => verifyLens.getD idx 0 :=
    List.map_congr_left fun idx hidx => if_pos (List.mem_range.mp hidx)
  rw [List.range_add, List.map_append, List.sum_append, hreal, sum_take_eq _ (Nat.le_refl _),
    List.take_length, List.map_map]
  simp [Function.comp_def]

theorem buildQoIndptrTriton_eq (qoIndptr extendStartLoc : ℕ → ℤ) (verifyLens : List ℤ) :
    buildQoIndptrTriton qoIndptr extendStartLoc verifyLens = buildQoIndptr verifyLens := by
  have hblock : verifyLens.length ≤ nextPowerOf2 (max verifyLens.length 1) :=
    (Nat.le_max_left _ _).trans (le_nextPowerOf2 _)
  have hincl : ∀ idx < verifyLens.length,
      ((List.range (idx + 1)).map fun idx =>
        if idx < verifyLens.length then verifyLens.getD idx 0 else 0).sum =
        (verifyLens.take (idx + 1)).sum := by
    intro idx hidx
    rw [← sum_take_eq verifyLens hidx]
    refine congrArg List.sum (List.map_congr_left fun i hi => if_pos ?_)
    have := List.mem_range.mp hi
    omega
  have hqo : (buildQoIndptrTriton qoIndptr extendStartLoc verifyLens).qoIndptr =
      (buildQoIndptr verifyLens).qoIndptr := by
    dsimp only [buildQoIndptrTriton, buildQoIndptr]
    rw [filter_range_lt hblock, ← stretch, List.range_succ_eq_map, List.map_cons, List.map_map]
    refine congrArg₂ List.cons ?_ (List.map_congr_left fun idx hidx => ?_)
    · rw [writeAll_stretch, if_neg (by omega), Function.update_self]
    · have hlt := List.mem_range.mp hidx
      rw [Function.comp_apply, writeAll_stretch, if_pos (by omega), Nat.succ_sub_one]
      exact hincl idx hlt
  have hstart : (buildQoIndptrTriton qoIndptr extendStartLoc verifyLens).extendStartLoc =
      (buildQoIndptr verifyLens).extendStartLoc := by
    dsimp only [buildQoIndptrTriton, buildQoIndptr]
    rw [zero_cons_prefixSums, List.range_succ, List.map_append, List.map_singleton,
      List.dropLast_concat]
    refine List.map_congr_left fun idx hidx => ?_
    have hlt := List.mem_range.mp hidx
    rw [writeAll_lanes _ _ (fun idx => _ - _) (by rwa [filter_range_lt hblock]), hincl idx hlt,
      if_pos hlt, List.sum_take_succ _ _ hlt, List.getD_eq_getElem _ _ hlt, add_sub_cancel_right]
  exact congrArg₂ QoIndptr.mk hqo hstart

variable {graphNumTokens : ℤ} {bs block : ℕ} (hbs : verifyLens.length = bs)
  (htotal : verifyLens.sum ≤ graphNumTokens)
include hbs htotal

/-- Where requests are missing, a lane of the kernel holds a real length or a share of what is
left over; its truncated division rounds down. -/
theorem paddedToBucketLane_of_pos {numPad : ℕ} (hpad : 0 < numPad) (hblock : bs ≤ block) (idx : ℕ) :
    paddedToBucketLane (verifyLens.getD · 0) graphNumTokens bs (bs + numPad) block idx =
      let leftover := graphNumTokens - verifyLens.sum
      let base := Int.fdiv leftover numPad
      let rem := leftover - base * numPad
      if idx < bs then verifyLens.getD idx 0
      else base + if (idx : ℤ) - bs < rem then 1 else 0 := by
  subst hbs
  have hsafe : max (((verifyLens.length + numPad : ℕ) : ℤ) - verifyLens.length) 1 = numPad := by
    omega
  have hne : ¬ (((verifyLens.length + numPad : ℕ) : ℤ) - verifyLens.length = 0 ∧
      (idx : ℤ) = verifyLens.length - 1) := by
    rintro ⟨hzero, -⟩
    omega
  dsimp only [paddedToBucketLane]
  rw [sum_lanes _ hblock, hsafe, if_neg hne, add_zero, Int.tdiv_eq_ediv_of_nonneg (by omega),
    Int.fdiv_eq_ediv_of_nonneg _ (by omega)]
  by_cases hidx : idx < verifyLens.length
  · rw [if_pos hidx, if_pos hidx, if_pos hidx]
  · rw [if_neg hidx, if_neg hidx]

omit htotal in
/-- Where none is missing, the last real length takes all of it. -/
theorem paddedToBucketLane_of_eq (hblock : bs ≤ block) {idx : ℕ} (hidx : idx < bs) :
    paddedToBucketLane (verifyLens.getD · 0) graphNumTokens bs bs block idx =
      verifyLens.getD idx 0 + if idx = bs - 1 then graphNumTokens - verifyLens.sum else 0 := by
  subst hbs
  have hcond : ((verifyLens.length : ℤ) - verifyLens.length = 0 ∧
      (idx : ℤ) = (verifyLens.length : ℤ) - 1) ↔ idx = verifyLens.length - 1 := by
    omega
  dsimp only [paddedToBucketLane]
  rw [sum_lanes _ hblock, if_pos hidx, if_pos hidx]
  simp only [hcond]

/-- **Both paddings agree**, whatever the kernel's tensor held. -/
theorem padVerifyLensToBucketTriton_eq (out : ℕ → ℤ) (hpos : 1 ≤ bs) (paddedBs : ℕ) :
    padVerifyLensToBucketTriton out verifyLens graphNumTokens bs paddedBs =
      padVerifyLensToBucket verifyLens graphNumTokens bs paddedBs := by
  unfold padVerifyLensToBucketTriton padVerifyLensToBucket
  by_cases hlt : paddedBs < bs
  · rw [if_pos hlt, if_pos hlt]
  rw [if_neg hlt, if_neg hlt]
  have hblock : paddedBs ≤ nextPowerOf2 (max paddedBs 1) :=
    (Nat.le_max_left _ _).trans (le_nextPowerOf2 _)
  have hread : (List.range paddedBs).map (writeAll out <|
      ((List.range (nextPowerOf2 (max paddedBs 1))).filter (· < paddedBs)).map fun idx =>
        (idx, paddedToBucketLane (verifyLens.getD · 0) graphNumTokens bs paddedBs
          (nextPowerOf2 (max paddedBs 1)) idx)) =
      (List.range paddedBs).map
        (paddedToBucketLane (verifyLens.getD · 0) graphNumTokens bs paddedBs
          (nextPowerOf2 (max paddedBs 1))) := by
    refine List.map_congr_left fun idx hidx => ?_
    exact writeAll_lanes _ _ _ (by rwa [filter_range_lt hblock])
  dsimp only
  rw [hread]
  generalize nextPowerOf2 (max paddedBs 1) = block at hblock ⊢
  obtain ⟨numPad, rfl⟩ := Nat.exists_eq_add_of_le (Nat.not_lt.mp hlt)
  rw [Nat.add_sub_cancel_left]
  rcases Nat.eq_zero_or_pos numPad with rfl | hpad
  · have hne : verifyLens ≠ [] := List.ne_nil_of_length_pos (hbs ▸ hpos)
    rw [if_neg (Nat.lt_irrefl 0), if_neg hne, Nat.add_zero]
    refine congrArg some (List.ext_getElem (by simp [hbs]) fun i hi hi' => ?_)
    have hidx : i < bs := by simpa using hi
    rw [List.getElem_map, List.getElem_range, paddedToBucketLane_of_eq hbs hblock hidx,
      List.getElem_modify, List.getD_eq_getElem _ _ (hbs ▸ hidx)]
    by_cases hlast : i = bs - 1
    · rw [if_pos hlast, if_pos (by omega)]
    · rw [if_neg hlast, if_neg (by omega), add_zero]
  · rw [if_pos hpad, List.range_add, List.map_append, List.map_map]
    have hlane := paddedToBucketLane_of_pos hbs htotal hpad ((Nat.le_add_right _ _).trans hblock)
    refine congrArg some (congrArg₂ (· ++ ·) ?_ (List.map_congr_left fun i _ => ?_))
    · refine List.ext_getElem (by simp [hbs]) fun i hi _ => ?_
      have hidx : i < bs := by simpa using hi
      rw [List.getElem_map, List.getElem_range, hlane, if_pos hidx,
        List.getD_eq_getElem _ _ (hbs ▸ hidx)]
    · have hidx : ((bs + i : ℕ) : ℤ) - bs = i := by omega
      rw [Function.comp_apply, hlane, if_neg (by omega), hidx]

end Agreement

/-! ### The padded layout -/

/-- `RaggedVerifyLayout` as `_assemble_device` builds it. -/
structure AssembledLayout where
  verifyLens : List ℤ
  graphNumTokens : ℤ
  indptr : QoIndptr
  totalVerifyTokens : Option ℤ
  cap : Option ℤ
  deriving DecidableEq, Repr

/-- `_assemble_device` -/
def assembleDevice (verifyLens : List ℤ) (graphNumTokens : ℤ) (totalVerifyTokens cap : Option ℤ) :
    AssembledLayout :=
  { verifyLens, graphNumTokens, indptr := buildQoIndptr verifyLens, totalVerifyTokens, cap }

/-- The clamp of `padded_to_bucket`. -/
def clampLens (cap : Option ℤ) (padded : List ℤ) : List ℤ :=
  match cap with
  | none => padded
  | some cap => padded.map (min · cap)

namespace RaggedVerifyLayout
variable {stride : ℕ} (layout : RaggedVerifyLayout stride)

/-- The verify lengths as the tensors hold them. -/
def deviceLens : List ℤ := layout.verifyLens.map (↑)

/-- The layout before it is padded. -/
def assembled : AssembledLayout :=
  assembleDevice layout.deviceLens layout.graphNumTokens none none

/-- `padded_to_bucket` -/
def paddedToBucket (paddedBs : ℕ) (cap : Option ℤ) : Option AssembledLayout := do
  let padded ← padVerifyLensToBucket layout.deviceLens layout.graphNumTokens layout.bs paddedBs
  return assembleDevice (clampLens cap padded) layout.graphNumTokens
    (if cap.isSome then none else some layout.graphNumTokens) cap

variable {layout} {paddedBs : ℕ} {padded : List ℤ}

theorem length_deviceLens : layout.deviceLens.length = layout.bs := List.length_map _

theorem sum_deviceLens : layout.deviceLens.sum = layout.verifyLens.sum :=
  (Nat.cast_list_sum layout.verifyLens).symm

theorem deviceLens_getElem? {r : ℕ} (hr : r < layout.bs) :
    layout.deviceLens[r]? = some (layout.lens r : ℤ) := by
  have hr' : r < layout.verifyLens.length := hr
  rw [deviceLens, List.getElem?_map, lens, List.getElem?_eq_getElem hr',
    List.getD_eq_getElem _ _ hr']
  rfl

theorem mem_deviceLens {n : ℤ} (h : n ∈ layout.deviceLens) : 1 ≤ n ∧ n ≤ stride := by
  obtain ⟨m, hm, rfl⟩ := List.mem_map.mp h
  have hone := layout.one_le m hm
  have hle := layout.le_stride m hm
  omega

/-- The shares of the missing requests: one more for each of the first `rem`. -/
theorem sum_shares (base : ℤ) {rem : ℤ} (hrem : 0 ≤ rem) (numPad : ℕ) :
    ((List.range numPad).map fun (i : ℕ) => base + if (i : ℤ) < rem then 1 else 0).sum =
      numPad * base + min rem numPad := by
  induction numPad with
  | zero => simp [hrem]
  | succ numPad ih =>
    have hmin :
        min rem ((numPad : ℤ) + 1) = min rem numPad + if (numPad : ℤ) < rem then 1 else 0 := by
      split <;> omega
    rw [List.range_succ, List.map_append, List.sum_append, ih, List.map_singleton,
      List.sum_singleton, Nat.cast_succ, hmin]
    ring

theorem modify_last (init : List ℤ) (last : ℤ) (f : ℤ → ℤ) :
    (init ++ [last]).modify init.length f = init ++ [f last] := by
  induction init with
  | nil => rfl
  | cons a init ih => exact congrArg (List.cons a) ih

/-- What a padded vector says of the layout: the real lengths stand first and the tokens of the
bucket are all given out; the last length alone may grow, where no request is missing. -/
structure PadsLens (layout : RaggedVerifyLayout stride) (paddedBs : ℕ) (padded : List ℤ) :
    Prop where
  length_eq : padded.length = paddedBs
  sum_eq : padded.sum = layout.graphNumTokens
  nonneg : ∀ n ∈ padded, 0 ≤ n
  kept : ∀ r < layout.bs, r + 1 < layout.bs ∨ layout.bs < paddedBs →
    padded[r]? = some (layout.lens r : ℤ)
  lens_le : ∀ r < layout.bs, ∃ n, padded[r]? = some n ∧ (layout.lens r : ℤ) ≤ n

/-- No request is missing: the leftover goes to the last length. -/
theorem padsLens_last {init : List ℤ} {last leftover : ℤ}
    (hinit : layout.deviceLens = init ++ [last]) (hnonneg : 0 ≤ leftover)
    (hleft : layout.deviceLens.sum + leftover = layout.graphNumTokens) :
    layout.PadsLens layout.bs (init ++ [last + leftover]) := by
  have hlen : layout.bs = init.length + 1 := by
    rw [← length_deviceLens, hinit, List.length_append, List.length_singleton]
  have hlast : last ∈ layout.deviceLens :=
    hinit ▸ List.mem_append_right _ (List.mem_singleton_self _)
  have hreal : ∀ r < init.length, init[r]? = some (layout.lens r : ℤ) := by
    intro r hr
    rw [← deviceLens_getElem? (show r < layout.bs by omega), hinit, List.getElem?_append_left hr]
  refine ⟨?_, ?_, ?_, ?_, ?_⟩
  · rw [List.length_append, List.length_singleton, hlen]
  · have hsum : layout.deviceLens.sum = init.sum + last := by
      rw [hinit, List.sum_append, List.sum_singleton]
    rw [List.sum_append, List.sum_singleton]
    omega
  · intro n hn
    rcases List.mem_append.mp hn with hn | hn
    · exact zero_le_one.trans (mem_deviceLens (hinit ▸ List.mem_append_left _ hn)).1
    · obtain rfl := List.mem_singleton.mp hn
      have hone := (mem_deviceLens hlast).1
      omega
  · rintro r hr (hlt | hlt)
    · rw [List.getElem?_append_left (by omega)]
      exact hreal r (by omega)
    · omega
  · intro r hr
    rcases Nat.lt_succ_iff_lt_or_eq.mp (hlen ▸ hr) with hlt | rfl
    · exact ⟨_, by rw [List.getElem?_append_left hlt, hreal r hlt], le_refl _⟩
    · have hlens : layout.deviceLens[init.length]? = some last := by
        rw [hinit, List.getElem?_append_right (Nat.le_refl _), Nat.sub_self]
        rfl
      rw [deviceLens_getElem? hr] at hlens
      refine ⟨last + leftover, ?_, ?_⟩
      · rw [List.getElem?_append_right (Nat.le_refl _), Nat.sub_self]
        rfl
      · rw [Option.some.inj hlens]
        omega

/-- Some requests are missing: the leftover is shared among them. -/
theorem padsLens_shares {numPad : ℕ} (hpad : 0 < numPad) {leftover : ℤ} (hnonneg : 0 ≤ leftover)
    (hleft : layout.deviceLens.sum + leftover = layout.graphNumTokens) :
    layout.PadsLens (layout.bs + numPad) (layout.deviceLens ++ (List.range numPad).map
      fun (i : ℕ) => Int.fdiv leftover numPad +
        if (i : ℤ) < leftover - Int.fdiv leftover numPad * numPad then 1 else 0) := by
  have hdiv : Int.fdiv leftover numPad = leftover / numPad :=
    Int.fdiv_eq_ediv_of_nonneg _ (by omega)
  have hbase : 0 ≤ leftover / numPad := Int.ediv_nonneg hnonneg (by omega)
  have hrem : leftover - leftover / numPad * numPad = leftover % numPad := by
    have := Int.mul_ediv_add_emod leftover numPad
    rw [mul_comm] at this
    omega
  have hrem_nonneg := Int.emod_nonneg leftover (show (numPad : ℤ) ≠ 0 by omega)
  have hrem_lt := Int.emod_lt_of_pos leftover (show (0 : ℤ) < numPad by omega)
  have hreal : ∀ r < layout.bs, ∀ block : List ℤ,
      (layout.deviceLens ++ block)[r]? = some (layout.lens r : ℤ) := by
    intro r hr block
    rw [List.getElem?_append_left (by rwa [length_deviceLens]), deviceLens_getElem? hr]
  refine ⟨?_, ?_, ?_, fun r hr _ => hreal r hr _, fun r hr => ⟨_, hreal r hr _, le_refl _⟩⟩
  · rw [List.length_append, length_deviceLens, List.length_map, List.length_range]
  · rw [hdiv, hrem, List.sum_append, sum_shares _ hrem_nonneg, min_eq_left hrem_lt.le,
      Int.mul_ediv_add_emod, hleft]
  · intro n hn
    rcases List.mem_append.mp hn with hn | hn
    · exact zero_le_one.trans (mem_deviceLens hn).1
    · obtain ⟨i, -, rfl⟩ := List.mem_map.mp hn
      rw [hdiv]
      split <;> omega

/-- **What padding returns**: the real lengths and then shares of the leftover, or, where no
request is missing, the real lengths with the leftover on the last. -/
theorem exists_padVerifyLensToBucket (hpos : 1 ≤ layout.bs) (hle : layout.bs ≤ paddedBs) :
    ∃ padded, padVerifyLensToBucket layout.deviceLens layout.graphNumTokens layout.bs paddedBs =
        some padded ∧ layout.PadsLens paddedBs padded := by
  have htotal : layout.deviceLens.sum ≤ layout.graphNumTokens := by
    rw [sum_deviceLens]
    exact_mod_cast layout.total_le
  obtain ⟨numPad, rfl⟩ := Nat.exists_eq_add_of_le hle
  unfold padVerifyLensToBucket
  rw [if_neg (Nat.not_lt.mpr hle), Nat.add_sub_cancel_left]
  rcases Nat.eq_zero_or_pos numPad with rfl | hpad
  · have hne : layout.deviceLens ≠ [] :=
      List.ne_nil_of_length_pos (length_deviceLens.symm ▸ hpos)
    rw [if_neg (Nat.lt_irrefl 0), if_neg hne]
    obtain ⟨init, last, hinit⟩ := (List.eq_nil_or_concat layout.deviceLens).resolve_left hne
    rw [List.concat_eq_append] at hinit
    refine ⟨_, rfl, ?_⟩
    rw [hinit, List.length_append, List.length_singleton, Nat.add_sub_cancel, modify_last,
      ← hinit]
    exact padsLens_last hinit (by omega) (by omega)
  · rw [if_pos hpad]
    exact ⟨_, rfl, padsLens_shares hpad (by omega) (by omega)⟩

end RaggedVerifyLayout

/-! ### Real tokens stay where they are -/

theorem qoIndptr_getElem? (verifyLens : List ℤ) {r : ℕ} (hr : r ≤ verifyLens.length) :
    (buildQoIndptr verifyLens).qoIndptr[r]? = some (verifyLens.take r).sum := by
  dsimp only [buildQoIndptr]
  rw [zero_cons_prefixSums, List.getElem?_map, List.getElem?_range (Nat.lt_succ_of_le hr)]
  rfl

theorem extendStartLoc_getElem? (verifyLens : List ℤ) {r : ℕ} (hr : r < verifyLens.length) :
    (buildQoIndptr verifyLens).extendStartLoc[r]? = some (verifyLens.take r).sum := by
  have hlt : r < (buildQoIndptr verifyLens).extendStartLoc.length := by
    simpa [buildQoIndptr] using hr
  rw [← qoIndptr_getElem? verifyLens hr.le]
  dsimp only [buildQoIndptr]
  rw [List.getElem?_dropLast, if_pos (by simpa using hr)]

/-- The row of token `w` of request `r`, where the layout has one. -/
def AssembledLayout.tokenRow (l : AssembledLayout) (r w : ℕ) : Option ℤ := do
  let start ← l.indptr.qoIndptr[r]?
  let n ← l.verifyLens[r]?
  if (w : ℤ) < n then some (start + w) else none

namespace RaggedVerifyLayout
variable {stride : ℕ} {layout : RaggedVerifyLayout stride} {paddedBs : ℕ} {padded : List ℤ}

/-- The clamps that callers ask for: none, or the window's width. -/
def Clamps (stride : ℕ) (cap : Option ℤ) : Prop := cap = none ∨ cap = some (stride : ℤ)

theorem clampLens_getElem? {cap : Option ℤ} (hcap : Clamps stride cap) {r : ℕ}
    (hr : r < layout.bs) {n : ℤ} (hn : padded[r]? = some n) (hle : (layout.lens r : ℤ) ≤ n) :
    ∃ m, (clampLens cap padded)[r]? = some m ∧ (layout.lens r : ℤ) ≤ m ∧
      (n = layout.lens r → m = layout.lens r) := by
  have hstride : (layout.lens r : ℤ) ≤ stride := by exact_mod_cast lens_le hr
  rcases hcap with rfl | rfl
  · exact ⟨n, hn, hle, id⟩
  · refine ⟨min n stride, ?_, le_min hle hstride, ?_⟩
    · rw [clampLens, List.getElem?_map, hn, Option.map_some]
    · rintro rfl
      exact min_eq_left hstride

/-- The real lengths before a request are those of the layout. -/
theorem take_eq_map_lens {xs : List ℤ} {r : ℕ}
    (h : ∀ i < r, xs[i]? = some (layout.lens i : ℤ)) :
    xs.take r = ((List.range r).map layout.lens).map (↑) := by
  refine List.ext_getElem? fun i => ?_
  rw [List.getElem?_take, List.getElem?_map, List.getElem?_map]
  by_cases hi : i < r
  · rw [if_pos hi, h i hi, List.getElem?_range hi]
    rfl
  · rw [if_neg hi, List.getElem?_eq_none (by simpa using hi)]
    rfl

theorem sum_take_eq_offset {xs : List ℤ} {r : ℕ}
    (h : ∀ i < r, xs[i]? = some (layout.lens i : ℤ)) :
    (xs.take r).sum = (offset layout.lens r : ℤ) := by
  rw [take_eq_map_lens h, ← Nat.cast_list_sum, offset]

/-- A vector that keeps the real lengths before the last request and does not shorten that one
starts its requests, and places their tokens, where the layout does. -/
theorem assembled_of_lens {xs : List ℤ} (graphNumTokens : ℤ) (total cap : Option ℤ)
    (hreal : ∀ r < layout.bs, r + 1 < layout.bs → xs[r]? = some (layout.lens r : ℤ))
    (hle : ∀ r < layout.bs, ∃ n, xs[r]? = some n ∧ (layout.lens r : ℤ) ≤ n) {r : ℕ}
    (hr : r < layout.bs) :
    (assembleDevice xs graphNumTokens total cap).indptr.qoIndptr[r]? =
        some (offset layout.lens r : ℤ) ∧
      (assembleDevice xs graphNumTokens total cap).indptr.extendStartLoc[r]? =
        some (offset layout.lens r : ℤ) ∧
      ∀ w < layout.lens r, (assembleDevice xs graphNumTokens total cap).tokenRow r w =
        some (offset layout.lens r + w : ℤ) := by
  obtain ⟨n, hn, hlen⟩ := hle r hr
  obtain ⟨hlt, -⟩ := List.getElem?_eq_some_iff.mp hn
  have hsum : (xs.take r).sum = (offset layout.lens r : ℤ) :=
    sum_take_eq_offset fun i hi => hreal i (by omega) (by omega)
  have hqo := (qoIndptr_getElem? xs hlt.le).trans (congrArg some hsum)
  refine ⟨hqo, (extendStartLoc_getElem? xs hlt).trans (congrArg some hsum), fun w hw => ?_⟩
  have hwn : (w : ℤ) < n := lt_of_lt_of_le (by exact_mod_cast hw) hlen
  show ((buildQoIndptr xs).qoIndptr[r]?.bind fun start => xs[r]?.bind fun n =>
    if (w : ℤ) < n then some (start + w) else none) = _
  rw [hqo, Option.bind_some, hn, Option.bind_some, if_pos hwn]

theorem assembled_start {r : ℕ} (hr : r < layout.bs) :
    layout.assembled.indptr.qoIndptr[r]? = some (offset layout.lens r : ℤ) ∧
      layout.assembled.indptr.extendStartLoc[r]? = some (offset layout.lens r : ℤ) ∧
      ∀ w < layout.lens r, layout.assembled.tokenRow r w = some (offset layout.lens r + w : ℤ) :=
  assembled_of_lens _ _ _ (fun _ hr _ => deviceLens_getElem? hr)
    (fun _ hr => ⟨_, deviceLens_getElem? hr, le_refl _⟩) hr

/-- **Padding preserves the real tokens.**  Both implementations return one vector of
`padded_bs` lengths that sum to the tokens of the graph; with and without the clamp every real
request starts, and every real token lies, where it does in the layout, the real lengths stay
but for that of the last request where none is missing, and a clamped layout has no row beyond
the window's width. -/
theorem paddedToBucket_preserves (layout : RaggedVerifyLayout stride) (hpos : 1 ≤ layout.bs)
    {paddedBs : ℕ} (hle : layout.bs ≤ paddedBs) :
    ∃ padded,
      padVerifyLensToBucket layout.deviceLens layout.graphNumTokens layout.bs paddedBs =
        some padded ∧
      (∀ out, padVerifyLensToBucketTriton out layout.deviceLens layout.graphNumTokens layout.bs
        paddedBs = some padded) ∧
      padded.length = paddedBs ∧ (∀ n ∈ padded, 0 ≤ n) ∧ padded.sum = layout.graphNumTokens ∧
      ∀ cap, Clamps stride cap → ∃ l, layout.paddedToBucket paddedBs cap = some l ∧
        l.verifyLens = clampLens cap padded ∧
        (∀ qoIndptr start, buildQoIndptrTriton qoIndptr start l.verifyLens = l.indptr) ∧
        (∀ r < layout.bs,
          l.indptr.qoIndptr[r]? = layout.assembled.indptr.qoIndptr[r]? ∧
          l.indptr.extendStartLoc[r]? = layout.assembled.indptr.extendStartLoc[r]? ∧
          (∀ w < layout.lens r, l.tokenRow r w = some (offset layout.lens r + w : ℤ) ∧
            layout.assembled.tokenRow r w = l.tokenRow r w) ∧
          (r + 1 < layout.bs ∨ layout.bs < paddedBs →
            l.verifyLens[r]? = layout.assembled.verifyLens[r]?) ∧
          ∃ n, l.verifyLens[r]? = some n ∧ (layout.lens r : ℤ) ≤ n) ∧
        (cap ≠ none → ∀ n ∈ l.verifyLens, n ≤ stride) := by
  have htotal : layout.deviceLens.sum ≤ layout.graphNumTokens := by
    rw [sum_deviceLens]
    exact_mod_cast layout.total_le
  obtain ⟨padded, hpadded, hpads⟩ := exists_padVerifyLensToBucket hpos hle
  refine ⟨padded, hpadded, fun out => ?_, hpads.length_eq, hpads.nonneg, hpads.sum_eq,
    fun cap hcap => ?_⟩
  · rw [padVerifyLensToBucketTriton_eq length_deviceLens htotal out hpos, hpadded]
  have hclamped : ∀ r < layout.bs, r + 1 < layout.bs ∨ layout.bs < paddedBs →
      (clampLens cap padded)[r]? = some (layout.lens r : ℤ) := by
    intro r hr hkeep
    obtain ⟨m, hm, -, heq⟩ := clampLens_getElem? hcap hr (hpads.kept r hr hkeep) (le_refl _)
    rw [hm, heq rfl]
  have hlonger : ∀ r < layout.bs, ∃ n, (clampLens cap padded)[r]? = some n ∧
      (layout.lens r : ℤ) ≤ n := by
    intro r hr
    obtain ⟨n, hn, hge⟩ := hpads.lens_le r hr
    obtain ⟨m, hm, hmle, -⟩ := clampLens_getElem? hcap hr hn hge
    exact ⟨m, hm, hmle⟩
  refine ⟨_, by rw [paddedToBucket, hpadded]; rfl, rfl,
    fun qoIndptr start => buildQoIndptrTriton_eq qoIndptr start _, fun r hr => ?_, ?_⟩
  · obtain ⟨hqo, hstart, hrow⟩ := assembled_start hr
    obtain ⟨hqo', hstart', hrow'⟩ := assembled_of_lens layout.graphNumTokens
      (if cap.isSome then none else some layout.graphNumTokens) cap
      (fun r hr h => hclamped r hr (.inl h)) hlonger hr
    exact ⟨hqo'.trans hqo.symm, hstart'.trans hstart.symm,
      fun w hw => ⟨hrow' w hw, (hrow w hw).trans (hrow' w hw).symm⟩,
      fun hkeep => (hclamped r hr hkeep).trans (deviceLens_getElem? hr).symm, hlonger r hr⟩
  · intro hsome n hn
    obtain rfl := hcap.resolve_left hsome
    obtain ⟨m, -, rfl⟩ := List.mem_map.mp hn
    exact min_le_right _ _

/-- Three requests of a window of three slots, in a graph of ten tokens. -/
def threeRequests : RaggedVerifyLayout 3 where
  verifyLens := [3, 1, 2]
  graphNumTokens := 10
  one_le := by decide
  le_stride := by decide
  total_le := by decide

theorem paddedToBucket_preserves_three :
    (1 ≤ threeRequests.bs ∧ threeRequests.bs ≤ 5) ∧
      ∃ l, threeRequests.paddedToBucket 5 (some 3) = some l ∧ l.verifyLens = [3, 1, 2, 2, 2] := by
  refine ⟨by decide, ?_⟩
  obtain ⟨padded, hpadded, -, -, -, -, hcap⟩ :=
    paddedToBucket_preserves threeRequests (by decide) (show 3 ≤ 5 by decide)
  obtain ⟨l, hl, hlens, -⟩ := hcap (some 3) (.inr rfl)
  obtain rfl := Option.some.inj (hpadded.symm.trans (show _ = some [3, 1, 2, 2, 2] by decide))
  exact ⟨l, hl, hlens⟩

end RaggedVerifyLayout

end LatentSpec
