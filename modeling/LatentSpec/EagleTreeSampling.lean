import LatentSpec.EagleTreeVerify
import LatentSpec.ReachSearch
import LatentSpec.TiledSearch

/-! # Sampling down the tree of an EAGLE draft

`TreeSpeculativeSamplingTargetOnly`, the kernel of `eagle_sample` for a batch that is not greedy.
One block walks down the tree of one request.  At a node it adds up the target's probabilities of
the children, one after the other, and goes on to the first one at which the sum reaches the coin of
the node.  A child that is passed over leaves its probability in `draft_probs`, so that where the
walk ends the target's row is left with the other tokens, and the last token is drawn from what is
left.

`program_eq_greedy` says what a block leaves in memory: what the greedy kernel does when at each
node of the path the target predicts the token that was sampled there.
-/
namespace LatentSpec.EagleTree
open SiblingLists TiledStores TiledSearch Categorical ReachSearch
open scoped Coins

/-- The tensors that the kernel reads, a row for each request, and its constants. -/
structure SampleArgs (V : ℕ) (K : Type) where
  candidates : ℕ → ℕ → Fin V
  retriveIndex : ℕ → ℕ → ℤ
  retriveNextToken : ℕ → ℕ → ℤ
  retriveNextSibling : ℕ → ℕ → ℤ
  uniformSamples : ℕ → ℕ → K
  uniformSamplesForFinalSampling : ℕ → K
  targetProbs : ℕ → ℕ → Fin V → K
  numSpeculativeTokens : ℕ
  numDraftTokens : ℕ
  thresholdSingle : K
  thresholdAcc : K

/-- The tensors that the kernel writes. -/
structure SampleMemory (V : ℕ) (K : Type) extends VerifyMemory where
  draftProbs : ℕ → ℕ → Fin V → K

/-- The variables of the walk; `curRow` is the node whose row `cur_prob_offset` points to. -/
structure SampleVars (V : ℕ) (K : Type) where
  mem : SampleMemory V K
  probAcc : K
  curRow : ℕ
  coin : K
  lastAcceptedRetriveIdx : ℤ
  numAcceptedTokens : ℕ
  curIndex : ℤ

/-- The variables of the last draw. -/
structure DrawVars (K : Type) where
  aggregate : K
  sampledId : ℕ
  lastValidId : ℤ

/-- `DeviceSamplingFromProb` of the sampling library, on the tile of a row that starts at a lane: it
takes the level and the lanes. -/
structure DeviceSampling (K : Type) where
  draw : ℕ → K → List K → DrawVars K → DrawVars K

section
variable {V : ℕ} {K : Type} [Field K] [LinearOrder K]

/-- What the library documents: a tile of weights adds to the aggregate, and the first lane at which
the aggregate exceeds the level is the one that is sampled. -/
structure DeviceSampling.Searches (D : DeviceSampling K) : Prop where
  aggregate : ∀ start level lanes w, (∀ x ∈ lanes, 0 ≤ x) →
    (D.draw start level lanes w).aggregate = w.aggregate + lanes.sum
  sampledId : ∀ start level lanes w, (∀ x ∈ lanes, 0 ≤ x) → w.aggregate ≤ level →
    (D.draw start level lanes w).sampledId =
      ((searchFrom w.aggregate lanes level).map fun lane => min w.sampledId (start + lane)).getD
        w.sampledId

/-- The search of one tile, lane after lane. -/
def DeviceSampling.sequential : DeviceSampling K where
  draw start level lanes w :=
    { aggregate := w.aggregate + lanes.sum
      sampledId := ((searchFrom w.aggregate lanes level).map fun lane =>
        min w.sampledId (start + lane)).getD w.sampledId
      lastValidId := ((lanes.zipIdx.filter fun x => decide (0 < x.1)).getLast?.map fun x =>
        ((start + x.2 : ℕ) : ℤ)).getD w.lastValidId }

theorem DeviceSampling.sequential_searches : (sequential : DeviceSampling K).Searches :=
  ⟨fun _ _ _ _ _ => rfl, fun _ _ _ _ _ _ => rfl⟩

namespace SampleArgs
variable (a : SampleArgs V K) (D : DeviceSampling K) (bx : ℕ)

/-! ### The walk -/

/-- The child at `cur_index` is accepted. -/
def acceptChild (v : SampleVars V K) : SampleVars V K :=
  let cur := v.curIndex.toNat
  let draftIndex := a.retriveIndex bx cur
  { mem := { v.mem with
      predicts := Function.update v.mem.predicts v.lastAcceptedRetriveIdx (a.candidates bx cur : ℕ)
      acceptIndex := storeRow v.mem.acceptIndex bx (v.numAcceptedTokens + 1) draftIndex }
    probAcc := 0
    curRow := cur
    coin := a.uniformSamples bx cur
    lastAcceptedRetriveIdx := draftIndex
    numAcceptedTokens := v.numAcceptedTokens + 1
    curIndex := v.curIndex }

/-- The child at `cur_index` is passed over. -/
def rejectChild (v : SampleVars V K) : SampleVars V K :=
  let cur := v.curIndex.toNat
  let token := a.candidates bx cur
  let p := a.targetProbs bx v.curRow token
  { v with
    mem := { v.mem with
      draftProbs := storeRow v.mem.draftProbs bx v.curRow
        (Function.update (v.mem.draftProbs bx v.curRow) token p) }
    probAcc := v.probAcc + p
    curIndex := a.retriveNextSibling bx cur }

/-- The test of a child, when `probAcc` is the sum over those before it. -/
def passes (row : Fin V → K) (coin probAcc : K) (token : Fin V) : Bool :=
  decide (coin ≤ (probAcc + row token) / a.thresholdAcc ∨ a.thresholdSingle ≤ row token)

/-- The loop over the siblings; `none` when the fuel runs out. -/
def siblings : ℕ → SampleVars V K → Option (SampleVars V K)
  | 0, v => if v.curIndex = -1 then some v else none
  | fuel + 1, v =>
    if v.curIndex = -1 then some v
    else if a.passes (a.targetProbs bx v.curRow) v.coin v.probAcc
        (a.candidates bx v.curIndex.toNat) then
      some (a.acceptChild bx v)
    else siblings fuel (a.rejectChild bx v)

/-- The loop over the levels. -/
def levels : ℕ → SampleVars V K → Option (SampleVars V K)
  | 0, v => some v
  | levels' + 1, v => do
    let w ← a.siblings bx a.numDraftTokens
      { v with curIndex := a.retriveNextToken bx v.curIndex.toNat }
    if w.curIndex = -1 then some w else levels levels' w

/-! ### The last draw -/

/-- `BLOCK_THREADS * VEC_SIZE`, for 32-bit floats. -/
def tileWidth (V : ℕ) : ℕ := 1024 * Nat.gcd (16 / 4) V

/-- `relu_q_minus_p`, and zero past the end of the row. -/
def reluQMinusP (v : SampleVars V K) (lane : ℕ) : K :=
  if h : lane < V then
    let q := a.targetProbs bx v.curRow ⟨lane, h⟩
    let p := if v.numAcceptedTokens ≠ a.numSpeculativeTokens - 1 then
      v.mem.draftProbs bx v.curRow ⟨lane, h⟩ else 0
    max (q - p) 0
  else 0

/-- One tile of the search; the flag is the `break`. -/
def drawTile (V : ℕ) (D : DeviceSampling K) (val : ℕ → K) (level : K) (s : DrawVars K × Bool)
    (start : ℕ) : DrawVars K × Bool :=
  if s.2 then s
  else
    let w := D.draw start level (lanes (tileWidth V) val start) s.1
    (w, decide (level < w.aggregate))

/-- The search of a row, and what becomes of a search that found nothing. -/
def drawRow (V : ℕ) (D : DeviceSampling K) (val : ℕ → K) (coin : K) : ℤ :=
  let level := coin * tiledSum V (tileWidth V) val
  let w := ((tileStarts V (tileWidth V)).foldl (drawTile V D val level) (⟨0, V, -1⟩, false)).1
  if w.sampledId = V then if w.lastValidId = -1 then V - 1 else w.lastValidId else w.sampledId

/-- The token that is drawn in the end. -/
def finalSample (v : SampleVars V K) : ℤ :=
  drawRow V D (a.reluQMinusP bx v) (a.uniformSamplesForFinalSampling bx)

/-- `TreeSpeculativeSamplingTargetOnly`, for one request. -/
def program (m : SampleMemory V K) : Option (SampleMemory V K) := do
  let root := a.retriveIndex bx 0
  let m := { m with acceptIndex := storeRow m.acceptIndex bx 0 root }
  let v ← a.levels bx (a.numSpeculativeTokens - 1) ⟨m, 0, 0, a.uniformSamples bx 0, root, 0, 0⟩
  some { v.mem with
    acceptTokenNum := Function.update v.mem.acceptTokenNum bx v.numAcceptedTokens
    predicts := Function.update v.mem.predicts v.lastAcceptedRetriveIdx (a.finalSample D bx v) }

/-- The launch: one block per request, and an accumulated threshold that is positive. -/
def launch (bs : ℕ) (m : SampleMemory V K) : Option (SampleMemory V K) :=
  let capped := { a with thresholdAcc := max a.thresholdAcc (1 / 10 ^ 9) }
  (List.range bs).foldlM (fun m bx => capped.program D bx m) m

/-! ### The search of a row -/

section Draw
variable {D} [IsStrictOrderedRing K]

/-- The search goes on as `TiledSearch` does. -/
structure Tracks (V : ℕ) (level : K) (s : DrawVars K × Bool) (scan : Scan K) : Prop where
  done : s.2 = scan.found
  sampledId : s.1.sampledId = min V scan.token
  fresh : scan.found = false → scan.token = V ∧ s.1.aggregate = scan.cumSum ∧
    s.1.aggregate ≤ level

theorem Tracks.tile (hD : D.Searches) {val : ℕ → K} (hval : ∀ i, 0 ≤ val i) {level : K}
    {s : DrawVars K × Bool} {scan : Scan K} (h : Tracks V level s scan) (start : ℕ) :
    Tracks V level (drawTile V D val level s start)
      (scanTile (tileWidth V) val level scan start) := by
  cases hfound : scan.found with
  | true =>
    rw [drawTile, if_pos (h.done.trans hfound), scanTile, if_pos hfound]
    exact h
  | false =>
    obtain ⟨htoken, hagg, hle⟩ := h.fresh hfound
    have hlanes : ∀ x ∈ lanes (tileWidth V) val start, 0 ≤ x := by
      intro x hx
      obtain ⟨i, -, rfl⟩ := List.mem_map.mp hx
      exact hval _
    have hdone : ¬ s.2 = true := by
      rw [h.done, hfound]
      exact Bool.false_ne_true
    have haggregate := hD.aggregate start level _ s.1 hlanes
    have hsampled := hD.sampledId start level _ s.1 hlanes hle
    rw [hagg, h.sampledId, htoken, min_self] at hsampled
    rw [hagg] at haggregate hle
    rw [drawTile, if_neg hdone, scanTile, if_neg (by rw [hfound]; exact Bool.false_ne_true)]
    dsimp only
    rw [findIdx?_runningTotals]
    cases ho : searchFrom scan.cumSum (lanes (tileWidth V) val start) level with
    | none =>
      have hrest : scan.cumSum + (lanes (tileWidth V) val start).sum ≤ level := by
        by_contra hlt
        obtain ⟨i, hi⟩ := searchFrom_isSome (not_le.mp hlt) hle
        rw [ho] at hi
        cases hi
      rw [ho] at hsampled
      refine ⟨?_, ?_, fun _ => ⟨htoken, haggregate, haggregate.trans_le hrest⟩⟩
      · rw [haggregate, hfound]
        exact decide_eq_false (not_lt.mpr hrest)
      · rw [hsampled, htoken, min_self]
        rfl
    | some i =>
      obtain ⟨hi, -, hlt⟩ := (searchFrom_eq_some_iff hlanes hle).mp ho
      have hsum : level < scan.cumSum + (lanes (tileWidth V) val start).sum := by
        refine hlt.trans_le (add_le_add_right ?_ _)
        rw [← List.sum_take_add_sum_drop (lanes (tileWidth V) val start) (i + 1)]
        exact le_add_of_nonneg_right
          (List.sum_nonneg fun x hx => hlanes x (List.mem_of_mem_drop hx))
      rw [ho] at hsampled
      refine ⟨?_, hsampled, fun h => absurd h (by simp)⟩
      rw [haggregate]
      exact decide_eq_true hsum

theorem Tracks.tiles (hD : D.Searches) {val : ℕ → K} (hval : ∀ i, 0 ≤ val i) {level : K}
    (starts : List ℕ) {s : DrawVars K × Bool} {scan : Scan K} (h : Tracks V level s scan) :
    Tracks V level (starts.foldl (drawTile V D val level) s)
      (starts.foldl (scanTile (tileWidth V) val level) scan) := by
  induction starts generalizing s scan with
  | nil => exact h
  | cons start starts ih => exact ih (h.tile hD hval start)

theorem tileWidth_pos (V : ℕ) : 0 < tileWidth V :=
  Nat.mul_pos (by decide) (Nat.gcd_pos_of_pos_left V (by decide))

/-- A row of weights, with zeros past its end. -/
def padded (w : Fin V → K) (lane : ℕ) : K := if h : lane < V then w ⟨lane, h⟩ else 0

/-- **The token that is drawn** from a row with weight is the one that the plain search finds. -/
theorem drawRow_eq (hD : D.Searches) {w : Fin V → K} (hw : ∀ t, 0 ≤ w t) (hpos : 0 < ∑ t, w t)
    {coin : K} (hcoin : 0 ≤ coin) (hlt : coin < 1) :
    ∃ t : Fin V, searchFrom 0 (List.ofFn w) (coin * ∑ s, w s) = some t.val ∧
      drawRow V D (padded w) coin = t.val := by
  have hrow : (List.range V).map (padded w) = List.ofFn w := by
    refine List.ext_getElem (by simp) fun i hi _ => ?_
    have hlane : i < V := by simpa using hi
    rw [List.getElem_map, List.getElem_range, List.getElem_ofFn, padded, dif_pos hlane]
  have hend : ∀ i, V ≤ i → padded w i = 0 := fun i hi => dif_neg (not_lt.mpr hi)
  have hval : ∀ i, 0 ≤ padded w i := by
    intro i
    unfold padded
    split
    · exact hw _
    · exact le_rfl
  have hsum : tiledSum V (tileWidth V) (padded w) = ∑ s, w s := by
    rw [tiledSum_eq (tileWidth_pos V) hend, hrow, List.sum_ofFn]
  have hlevel : 0 ≤ coin * ∑ s, w s := mul_nonneg hcoin hpos.le
  obtain ⟨i, hi⟩ : ∃ i, searchFrom 0 (List.ofFn w) (coin * ∑ s, w s) = some i := by
    refine searchFrom_isSome ?_ hlevel
    rw [zero_add, List.sum_ofFn]
    exact mul_lt_of_lt_one_left hpos hlt
  have hiV : i < V := by simpa using searchFrom_lt_length hi
  obtain ⟨htoken, -⟩ := tiledSearch_eq (tileWidth_pos V) hend hlevel V
  rw [hrow, hi] at htoken
  have htracks : Tracks V (coin * ∑ s, w s) _ (tiledSearch V (tileWidth V) (padded w) _ V) :=
    Tracks.tiles hD hval (tileStarts V (tileWidth V)) (s := (⟨0, V, -1⟩, false))
      ⟨rfl, (min_self V).symm, fun _ => ⟨rfl, rfl, hlevel⟩⟩
  have hsampled := htracks.sampledId
  rw [htoken, Option.getD_some, min_eq_right hiV.le] at hsampled
  refine ⟨⟨i, hiV⟩, hi, ?_⟩
  unfold drawRow
  dsimp only
  rw [hsum, hsampled, if_neg hiV.ne]

end Draw

/-! ### The loop over the siblings -/

/-- The child that the coin of a node goes on to, when `probAcc` is the sum so far. -/
def chooseFrom (row : Fin V → K) (coin : K) : K → List ℕ → Option ℕ
  | _, [] => none
  | probAcc, c :: cs =>
    if a.passes row coin probAcc (a.candidates bx c) then some c
    else chooseFrom row coin (probAcc + row (a.candidates bx c)) cs

/-- What the children that are passed over leave in the row of a node. -/
def passOver (row draft : Fin V → K) (xs : List ℕ) : Fin V → K :=
  xs.foldl (fun p c => Function.update p (a.candidates bx c) (row (a.candidates bx c))) draft

variable {a bx}

theorem mem_of_chooseFrom {row : Fin V → K} {coin probAcc : K} {xs : List ℕ} {c : ℕ}
    (h : a.chooseFrom bx row coin probAcc xs = some c) : c ∈ xs := by
  induction xs generalizing probAcc with
  | nil => cases h
  | cons x xs ih =>
    rw [chooseFrom] at h
    split at h
    · obtain rfl := Option.some.inj h
      exact List.mem_cons_self
    · exact List.mem_cons_of_mem x (ih h)

omit [Field K] [LinearOrder K] in
theorem passOver_apply (row draft : Fin V → K) (xs : List ℕ) (t : Fin V) :
    a.passOver bx row draft xs t =
      if ∃ c ∈ xs, a.candidates bx c = t then row t else draft t := by
  induction xs generalizing draft with
  | nil => simp [passOver]
  | cons x xs ih =>
    have hstep : a.passOver bx row draft (x :: xs) = a.passOver bx row
        (Function.update draft (a.candidates bx x) (row (a.candidates bx x))) xs := rfl
    rw [hstep, ih]
    by_cases hlater : ∃ c ∈ xs, a.candidates bx c = t
    · rw [if_pos hlater, if_pos]
      obtain ⟨c, hc, htoken⟩ := hlater
      exact ⟨c, List.mem_cons_of_mem x hc, htoken⟩
    · rw [if_neg hlater]
      by_cases hx : a.candidates bx x = t
      · subst hx
        rw [Function.update_self, if_pos ⟨x, List.mem_cons_self, rfl⟩]
      · rw [Function.update_of_ne (Ne.symm hx), if_neg]
        rintro ⟨c, hc, htoken⟩
        rcases List.mem_cons.mp hc with rfl | hc
        · exact hx htoken
        · exact hlater ⟨c, hc, htoken⟩

/-- The rows of `draft_probs` that stay as they were when a node is looked at. -/
def OtherRows (bx v : ℕ) (draft draft' : ℕ → ℕ → Fin V → K) : Prop :=
  ∀ b r, (b = bx → r ≠ v) → draft' b r = draft b r

omit [LinearOrder K] in
theorem otherRows_rejectChild (v : SampleVars V K) :
    OtherRows bx v.curRow v.mem.draftProbs (a.rejectChild bx v).mem.draftProbs := by
  intro b r hr
  show storeRow v.mem.draftProbs bx v.curRow _ b r = _
  by_cases hb : b = bx
  · subst hb
    rw [storeRow_self, Function.update_of_ne (hr rfl)]
  · rw [storeRow_of_ne _ hb]

/-- What a walk carries on with at a child. -/
def atChild (a : SampleArgs V K) (bx : ℕ) (v : SampleVars V K) (c : ℕ)
    (draft : ℕ → ℕ → Fin V → K) : SampleVars V K where
  mem :=
    { predicts := Function.update v.mem.predicts v.lastAcceptedRetriveIdx (a.candidates bx c : ℕ)
      acceptIndex := storeRow v.mem.acceptIndex bx (v.numAcceptedTokens + 1) (a.retriveIndex bx c)
      acceptTokenNum := v.mem.acceptTokenNum
      draftProbs := draft }
  probAcc := 0
  curRow := c
  coin := a.uniformSamples bx c
  lastAcceptedRetriveIdx := a.retriveIndex bx c
  numAcceptedTokens := v.numAcceptedTokens + 1
  curIndex := c

/-- **The loop over the siblings, with a child that is accepted.** -/
theorem siblings_some {xs : List ℕ} {c fuel : ℕ} (v : SampleVars V K)
    (hchain : SiblingLists.Chain (a.retriveNextSibling bx) v.curIndex xs)
    (hchoose : a.chooseFrom bx (a.targetProbs bx v.curRow) v.coin v.probAcc xs = some c)
    (hfuel : xs.length ≤ fuel) :
    ∃ draft, a.siblings bx fuel v = some (a.atChild bx v c draft) ∧
      OtherRows bx v.curRow v.mem.draftProbs draft := by
  induction xs generalizing v fuel with
  | nil => cases hchoose
  | cons x xs ih =>
    obtain ⟨f, rfl⟩ : ∃ f, fuel = f + 1 := ⟨fuel - 1, by rw [List.length_cons] at hfuel; omega⟩
    obtain ⟨hcur, hrest⟩ := hchain
    have hne : ¬ v.curIndex = -1 := by omega
    rw [siblings, if_neg hne, hcur, Int.toNat_natCast]
    rw [chooseFrom] at hchoose
    by_cases hpass :
        a.passes (a.targetProbs bx v.curRow) v.coin v.probAcc (a.candidates bx x) = true
    · rw [if_pos hpass] at hchoose
      obtain rfl := Option.some.inj hchoose
      refine ⟨v.mem.draftProbs, ?_, fun _ _ _ => rfl⟩
      rw [if_pos hpass]
      unfold acceptChild atChild
      rw [hcur, Int.toNat_natCast]
    · rw [if_neg hpass] at hchoose
      rw [if_neg hpass]
      obtain ⟨draft, hrun, hframe⟩ := ih (a.rejectChild bx v)
        (by unfold rejectChild; rw [hcur, Int.toNat_natCast]; exact hrest)
        (by unfold rejectChild; rw [hcur, Int.toNat_natCast]; exact hchoose)
        (Nat.le_of_succ_le_succ hfuel)
      refine ⟨draft, hrun, fun b r hr => ?_⟩
      rw [hframe b r hr, otherRows_rejectChild v b r hr]

/-- **The loop over the siblings, without one.** -/
theorem siblings_none {xs : List ℕ} {fuel : ℕ} (v : SampleVars V K)
    (hchain : SiblingLists.Chain (a.retriveNextSibling bx) v.curIndex xs)
    (hchoose : a.chooseFrom bx (a.targetProbs bx v.curRow) v.coin v.probAcc xs = none)
    (hfuel : xs.length ≤ fuel) :
    ∃ draft probAcc, a.siblings bx fuel v =
        some { v with mem := { v.mem with draftProbs := draft }, probAcc, curIndex := -1 } ∧
      OtherRows bx v.curRow v.mem.draftProbs draft ∧
      draft bx v.curRow =
        a.passOver bx (a.targetProbs bx v.curRow) (v.mem.draftProbs bx v.curRow) xs := by
  induction xs generalizing v fuel with
  | nil =>
    have hcur : v.curIndex = -1 := hchain
    refine ⟨v.mem.draftProbs, v.probAcc, ?_, fun _ _ _ => rfl, rfl⟩
    cases fuel <;> rw [siblings, if_pos hcur, ← hcur]
  | cons x xs ih =>
    obtain ⟨f, rfl⟩ : ∃ f, fuel = f + 1 := ⟨fuel - 1, by rw [List.length_cons] at hfuel; omega⟩
    obtain ⟨hcur, hrest⟩ := hchain
    have hne : ¬ v.curIndex = -1 := by omega
    rw [chooseFrom] at hchoose
    have hfail :
        ¬ a.passes (a.targetProbs bx v.curRow) v.coin v.probAcc (a.candidates bx x) = true := by
      intro hpass
      rw [if_pos hpass] at hchoose
      cases hchoose
    rw [if_neg hfail] at hchoose
    rw [siblings, if_neg hne, hcur, Int.toNat_natCast, if_neg hfail]
    obtain ⟨draft, probAcc, hrun, hframe, hrow⟩ := ih (a.rejectChild bx v)
      (by unfold rejectChild; rw [hcur, Int.toNat_natCast]; exact hrest)
      (by unfold rejectChild; rw [hcur, Int.toNat_natCast]; exact hchoose)
      (Nat.le_of_succ_le_succ hfuel)
    refine ⟨draft, probAcc, hrun, fun b r hr => ?_, hrow.trans ?_⟩
    · rw [hframe b r hr, otherRows_rejectChild v b r hr]
    · show a.passOver bx _ (storeRow v.mem.draftProbs bx v.curRow _ bx v.curRow) xs = _
      rw [storeRow_self, Function.update_self, hcur, Int.toNat_natCast]
      rfl

/-! ### The loop over the levels -/

/-- The greedy kernel on the same tree, with predictions of its own. -/
def greedy (a : SampleArgs V K) (pred : ℕ → ℕ → ℤ) : VerifyArgs where
  candidates b v := (a.candidates b v : ℕ)
  retrieveIndex := a.retriveIndex
  retrieveNextToken := a.retriveNextToken
  retrieveNextSibling := a.retriveNextSibling
  targetPredict := pred
  numSpeculativeTokens := a.numSpeculativeTokens
  numDraftTokens := a.numDraftTokens

/-- The child that the coin of a node goes on to. -/
def chosen (a : SampleArgs V K) (bx : ℕ) (kids : ℕ → List ℕ) (v : ℕ) : Option ℕ :=
  a.chooseFrom bx (a.targetProbs bx v) (a.uniformSamples bx v) 0 (kids v)

def goesTo (a : SampleArgs V K) (bx : ℕ) (kids : ℕ → List ℕ) (v c : ℕ) : Bool :=
  decide (a.chosen bx kids v = some c)

/-- The path that is walked, without the root. -/
def sampledPath (a : SampleArgs V K) (bx : ℕ) (kids : ℕ → List ℕ) : List ℕ :=
  descend kids (a.goesTo bx kids) (a.numSpeculativeTokens - 1) 0

/-- The walk at a node. -/
def atNode (a : SampleArgs V K) (bx : ℕ) (mem : SampleMemory V K) (num v : ℕ) : SampleVars V K :=
  ⟨mem, 0, v, a.uniformSamples bx v, a.retriveIndex bx v, num, v⟩

variable {kids : ℕ → List ℕ} {pred : ℕ → ℕ → ℤ}

theorem find?_goesTo (v : ℕ) : (kids v).find? (a.goesTo bx kids v) = a.chosen bx kids v := by
  cases hchosen : a.chosen bx kids v with
  | none =>
    refine List.find?_eq_none.mpr fun c _ => ?_
    rw [goesTo, hchosen]
    simp
  | some c =>
    have hgoes : ∀ x, a.goesTo bx kids v x = decide (x = c) := by
      intro x
      rw [goesTo, hchosen]
      simp [eq_comm]
    cases hfind : (kids v).find? (a.goesTo bx kids v) with
    | none =>
      have hc := List.find?_eq_none.mp hfind c (mem_of_chooseFrom hchosen)
      rw [hgoes] at hc
      simp at hc
    | some d =>
      have hd := List.find?_some hfind
      rw [hgoes, decide_eq_true_eq] at hd
      rw [hd]

/-- A level at which the walk goes on. -/
theorem levels_some (h : (a.greedy pred).Holds bx kids) {v c : ℕ} (num fuel : ℕ)
    (mem : SampleMemory V K) (hv : v < a.numDraftTokens) (hchosen : a.chosen bx kids v = some c)
    (hpred : pred bx v = (a.candidates bx c : ℕ)) :
    ∃ draft, a.levels bx (fuel + 1) (a.atNode bx mem num v) =
        a.levels bx fuel (a.atNode bx
          ⟨(a.greedy pred).storeNode bx mem.toVerifyMemory num v c, draft⟩
          (num + 1) c) ∧
      OtherRows bx v mem.draftProbs draft := by
  have hc := h.kids_mem v c (mem_of_chooseFrom hchosen)
  obtain ⟨draft, hrun, hframe⟩ := siblings_some
    { a.atNode bx mem num v with curIndex := a.retriveNextToken bx v } (h.chain v hv) hchosen
    (show (kids v).length ≤ a.numDraftTokens from (h.length_kids hv).le)
  refine ⟨draft, ?_, hframe⟩
  have hindex : a.retriveIndex bx v = (a.greedy pred).globalIdx bx v := h.index v hv
  have hindex' : a.retriveIndex bx c = (a.greedy pred).globalIdx bx c := h.index c hc.2
  have hne : ¬ ((c : ℕ) : ℤ) = -1 := by omega
  have hnext : a.atChild bx { a.atNode bx mem num v with curIndex := a.retriveNextToken bx v } c
      draft = a.atNode bx
        ⟨(a.greedy pred).storeNode bx mem.toVerifyMemory num v c, draft⟩
        (num + 1) c := by
    unfold atChild atNode VerifyArgs.storeNode
    dsimp only
    rw [hindex, hindex', ← hpred]
    rfl
  rw [levels]
  show (a.siblings bx a.numDraftTokens
    { a.atNode bx mem num v with curIndex := a.retriveNextToken bx (v : ℤ).toNat }).bind _ = _
  rw [Int.toNat_natCast, hrun, hnext, Option.bind_some]
  exact if_neg hne

/-- A level at which it stops. -/
theorem levels_none (h : (a.greedy pred).Holds bx kids) {v : ℕ} (num fuel : ℕ)
    (mem : SampleMemory V K) (hv : v < a.numDraftTokens) (hchosen : a.chosen bx kids v = none) :
    ∃ draft probAcc, a.levels bx (fuel + 1) (a.atNode bx mem num v) =
        some { a.atNode bx mem num v with
          mem := { mem with draftProbs := draft }, probAcc, curIndex := -1 } ∧
      OtherRows bx v mem.draftProbs draft ∧
      draft bx v = a.passOver bx (a.targetProbs bx v) (mem.draftProbs bx v) (kids v) := by
  obtain ⟨draft, probAcc, hrun, hframe, hrow⟩ := siblings_none
    { a.atNode bx mem num v with curIndex := a.retriveNextToken bx v } (h.chain v hv) hchosen
    (show (kids v).length ≤ a.numDraftTokens from (h.length_kids hv).le)
  refine ⟨draft, probAcc, ?_, hframe, hrow⟩
  rw [levels]
  show (a.siblings bx a.numDraftTokens
    { a.atNode bx mem num v with curIndex := a.retriveNextToken bx (v : ℤ).toNat }).bind _ = _
  rw [Int.toNat_natCast, hrun, Option.bind_some]
  exact if_pos rfl

/-- What the loop over the levels leaves, when it goes from `v` along a path. -/
structure Walked (a : SampleArgs V K) (pred : ℕ → ℕ → ℤ) (bx : ℕ) (kids : ℕ → List ℕ)
    (mem : SampleMemory V K) (num v fuel : ℕ) (path : List ℕ) (w : SampleVars V K) : Prop where
  memory : w.mem.toVerifyMemory = (a.greedy pred).storePath bx mem.toVerifyMemory num v path
  num : w.numAcceptedTokens = num + path.length
  last : w.lastAcceptedRetriveIdx = a.retriveIndex bx (path.getLastD v)
  row : w.curRow = path.getLastD v
  others : ∀ b, b ≠ bx → w.mem.draftProbs b = mem.draftProbs b
  stopped : path.length < fuel → w.mem.draftProbs bx (path.getLastD v) =
    a.passOver bx (a.targetProbs bx (path.getLastD v)) (mem.draftProbs bx (path.getLastD v))
      (kids (path.getLastD v))

/-- **The loop over the levels** goes down along the children that are chosen. -/
theorem levels_walked (h : (a.greedy pred).Holds bx kids) (num fuel : ℕ)
    (mem : SampleMemory V K) {v : ℕ} (hv : v < a.numDraftTokens)
    (hpred : ∀ u ∈ (v :: descend kids (a.goesTo bx kids) fuel v).dropLast, ∀ c,
      a.chosen bx kids u = some c → pred bx u = (a.candidates bx c : ℕ)) :
    ∃ w, a.levels bx fuel (a.atNode bx mem num v) = some w ∧
      Walked a pred bx kids mem num v fuel (descend kids (a.goesTo bx kids) fuel v) w := by
  induction fuel generalizing num mem v with
  | zero =>
    exact ⟨a.atNode bx mem num v, rfl, rfl, rfl, rfl, rfl, fun _ _ => rfl,
      fun hlt => absurd hlt (Nat.not_lt_zero _)⟩
  | succ fuel ih =>
    cases hchosen : a.chosen bx kids v with
    | none =>
      obtain ⟨draft, probAcc, hrun, hframe, hrow⟩ := levels_none h num fuel mem hv hchosen
      rw [descend_succ_of_none ((find?_goesTo v).trans hchosen)]
      refine ⟨_, hrun, rfl, rfl, rfl, rfl, fun b hb => ?_, fun _ => hrow⟩
      funext r
      exact hframe b r fun heq => absurd heq hb
    | some c =>
      have hc := h.kids_mem v c (mem_of_chooseFrom hchosen)
      have hpath := @descend_succ_of_some kids _ fuel v c ((find?_goesTo v).trans hchosen)
      rw [hpath, List.dropLast_cons_cons] at hpred
      obtain ⟨draft, hrun, hframe⟩ := levels_some h num fuel mem hv hchosen
        (hpred v List.mem_cons_self c hchosen)
      obtain ⟨w, hw, hwalked⟩ := ih (num + 1)
        ⟨(a.greedy pred).storeNode bx mem.toVerifyMemory num v c, draft⟩ hc.2
        fun u hu => hpred u (List.mem_cons_of_mem v hu)
      refine ⟨w, hrun.trans hw, ?_⟩
      rw [hpath]
      have hlast : c ≤ (descend kids (a.goesTo bx kids) fuel c).getLastD c :=
        (passing_descend fuel c).le_getLastD fun u x hx => (h.kids_mem u x hx).1
      -- the row of the last node was not touched at `v`
      have hrow : draft bx ((descend kids (a.goesTo bx kids) fuel c).getLastD c) =
          mem.draftProbs bx ((descend kids (a.goesTo bx kids) fuel c).getLastD c) :=
        hframe bx _ fun _ => (hc.1.trans_le hlast).ne'
      refine ⟨hwalked.memory, ?_, ?_, ?_, fun b hb => ?_, fun hlt => ?_⟩
      · rw [hwalked.num, List.length_cons]
        omega
      · rw [hwalked.last, List.getLastD_cons]
      · rw [hwalked.row, List.getLastD_cons]
      · rw [hwalked.others b hb]
        funext r
        exact hframe b r fun heq => absurd heq hb
      · rw [List.getLastD_cons, ← hrow]
        exact hwalked.stopped (Nat.lt_of_succ_lt_succ hlt)

/-! ### What is left for the last draw -/

/-- The row that the last token of a walk that ends at `v` is drawn from: what the children that
were passed over leave, or with no room for another node all of it. -/
def closeRow (a : SampleArgs V K) (bx : ℕ) (kids : ℕ → List ℕ) (v : ℕ) (full : Bool)
    (t : Fin V) : K :=
  if full = false ∧ ∃ c ∈ kids v, a.candidates bx c = t then 0 else a.targetProbs bx v t

/-- **What a request is sampled with**: rows of probabilities, coins of `[0, 1)`, children with
different tokens, and thresholds that leave the coins what they are. -/
structure Proper (a : SampleArgs V K) (bx : ℕ) (kids : ℕ → List ℕ) : Prop where
  single : 1 ≤ a.thresholdSingle
  acc : a.thresholdAcc = 1
  coin : ∀ v < a.numDraftTokens, 0 ≤ a.uniformSamples bx v ∧ a.uniformSamples bx v < 1
  coinFinal : 0 ≤ a.uniformSamplesForFinalSampling bx ∧ a.uniformSamplesForFinalSampling bx < 1
  nonneg : ∀ v < a.numDraftTokens, ∀ t, 0 ≤ a.targetProbs bx v t
  sum_one : ∀ v < a.numDraftTokens, ∑ t, a.targetProbs bx v t = 1
  distinct : ∀ v, ∀ c ∈ kids v, ∀ c' ∈ kids v, a.candidates bx c = a.candidates bx c' → c = c'

/-- Whether a walk has no room for another node. -/
def full (a : SampleArgs V K) (bx : ℕ) (kids : ℕ → List ℕ) : Bool :=
  decide ((a.sampledPath bx kids).length = a.numSpeculativeTokens - 1)

/-- The node at which a walk ends. -/
def lastNode (a : SampleArgs V K) (bx : ℕ) (kids : ℕ → List ℕ) : ℕ :=
  (a.sampledPath bx kids).getLastD 0

/-- The token that closes a walk. -/
def closing (a : SampleArgs V K) (D : DeviceSampling K) (bx : ℕ) (kids : ℕ → List ℕ) : ℤ :=
  drawRow V D (padded (a.closeRow bx kids (a.lastNode bx kids) (a.full bx kids)))
    (a.uniformSamplesForFinalSampling bx)

/-- What is sampled behind a node: at the last one the token that closes the walk, before it the
token of the child that is chosen. -/
def sampledAt (a : SampleArgs V K) (D : DeviceSampling K) (kids : ℕ → ℕ → List ℕ) (bx v : ℕ) : ℤ :=
  if v = a.lastNode bx (kids bx) then a.closing D bx (kids bx)
  else ((a.chosen bx (kids bx) v).map fun c => ((a.candidates bx c : ℕ) : ℤ)).getD 0

section Left
variable [IsStrictOrderedRing K]

/-- A coin that cannot be passed by the sum so far goes by the totals. -/
theorem passes_iff (hsingle : 1 ≤ a.thresholdSingle) (hacc : a.thresholdAcc = 1) (row : Fin V → K)
    {u probAcc : K} (hu : u < 1) (hprob : 0 ≤ probAcc) (t : Fin V) :
    a.passes row u probAcc t = true ↔ u ≤ probAcc + row t := by
  rw [passes, decide_eq_true_eq, hacc, div_one]
  constructor
  · rintro (hle | hle)
    · exact hle
    · have hone := hsingle.trans hle
      exact hu.le.trans (le_add_of_nonneg_of_le hprob hone)
  · exact .inl

/-- **The child that is chosen** is the first one whose total reaches the coin. -/
theorem chooseFrom_eq (hsingle : 1 ≤ a.thresholdSingle) (hacc : a.thresholdAcc = 1)
    {row : Fin V → K} (hrow : ∀ t, 0 ≤ row t) {u probAcc : K} (hu : u < 1) (hprob : 0 ≤ probAcc)
    (xs : List ℕ) : a.chooseFrom bx row u probAcc xs =
      (reachFrom probAcc (xs.map fun c => row (a.candidates bx c)) u).bind (xs[·]?) := by
  induction xs generalizing probAcc with
  | nil => rfl
  | cons x xs ih =>
    have hpasses := passes_iff hsingle hacc row hu hprob (a.candidates bx x)
    rw [chooseFrom, List.map_cons, reachFrom]
    by_cases hle : u ≤ probAcc + row (a.candidates bx x)
    · rw [if_pos hle, if_pos (hpasses.mpr hle)]
      rfl
    · rw [if_neg hle, if_neg fun hpass => hle (hpasses.mp hpass),
        ih (add_nonneg hprob (hrow _))]
      cases reachFrom (probAcc + row (a.candidates bx x))
        (xs.map fun c => row (a.candidates bx c)) u with
      | none => rfl
      | some i => rfl

omit [LinearOrder K] [IsStrictOrderedRing K] in
theorem closeRow_full (v : ℕ) : a.closeRow bx kids v true = a.targetProbs bx v := by
  funext t
  exact if_neg fun h => absurd h.1 (by simp)

omit [LinearOrder K] [IsStrictOrderedRing K] in
/-- What the children leave, and what is theirs. -/
theorem sum_closeRow {v : ℕ} (hnodup : (kids v).Nodup)
    (hdistinct : ∀ c ∈ kids v, ∀ c' ∈ kids v, a.candidates bx c = a.candidates bx c' → c = c') :
    ∑ t, a.closeRow bx kids v false t +
        ((kids v).map fun c => a.targetProbs bx v (a.candidates bx c)).sum =
      ∑ t, a.targetProbs bx v t := by
  have htokens : ((kids v).map (a.candidates bx)).Nodup :=
    (List.nodup_map_iff_inj_on hnodup).mpr hdistinct
  have htheirs : ((kids v).map fun c => a.targetProbs bx v (a.candidates bx c)).sum =
      ∑ t ∈ ((kids v).map (a.candidates bx)).toFinset, a.targetProbs bx v t := by
    rw [List.sum_toFinset _ htokens, List.map_map]
    rfl
  have hleft : ∑ t, a.closeRow bx kids v false t =
      ∑ t ∈ (((kids v).map (a.candidates bx)).toFinset)ᶜ, a.targetProbs bx v t := by
    rw [← Finset.sum_subset (Finset.subset_univ _) fun t _ ht => ?_]
    · refine Finset.sum_congr rfl fun t ht => if_neg ?_
      rintro ⟨-, c, hc, htoken⟩
      rw [Finset.mem_compl, List.mem_toFinset] at ht
      exact ht (List.mem_map.mpr ⟨c, hc, htoken⟩)
    · rw [Finset.notMem_compl, List.mem_toFinset] at ht
      obtain ⟨c, hc, htoken⟩ := List.mem_map.mp ht
      exact if_pos ⟨rfl, c, hc, htoken⟩
  rw [hleft, htheirs]
  exact Finset.sum_compl_add_sum _ _

/-! ### The walk and what closes it -/

variable {D} {kids : ℕ → ℕ → List ℕ}

omit [IsStrictOrderedRing K] in
theorem lastNode_lt (h : (a.greedy pred).Holds bx (kids bx)) (hn : 0 < a.numDraftTokens) :
    a.lastNode bx (kids bx) < a.numDraftTokens :=
  (passing_descend _ 0).mem_lt (fun v c hc => (h.kids_mem v c hc).2) hn _
    (VerifyArgs.getLastD_mem 0 _)

omit [IsStrictOrderedRing K] in
/-- A walk with room left has chosen nothing at its end. -/
theorem chosen_lastNode (hfull : a.full bx (kids bx) = false) :
    a.chosen bx (kids bx) (a.lastNode bx (kids bx)) = none := by
  have hle : (a.sampledPath bx (kids bx)).length ≤ a.numSpeculativeTokens - 1 :=
    length_descend_le _ 0
  have hne := of_decide_eq_false hfull
  rw [← find?_goesTo]
  exact find?_getLastD_descend (lt_of_le_of_ne hle hne)

section Closing
variable (h : (a.greedy pred).Holds bx (kids bx)) (hn : 0 < a.numDraftTokens)
variable (hp : a.Proper bx (kids bx))
include h hn hp

omit [IsStrictOrderedRing K] in
theorem closeRow_nonneg (full : Bool) (t : Fin V) :
    0 ≤ a.closeRow bx (kids bx) (a.lastNode bx (kids bx)) full t := by
  unfold closeRow
  split
  · exact le_rfl
  · exact hp.nonneg _ (lastNode_lt h hn) t

/-- **Something is left for the last draw.** -/
theorem sum_closeRow_pos :
    0 < ∑ t, a.closeRow bx (kids bx) (a.lastNode bx (kids bx)) (a.full bx (kids bx)) t := by
  have hv := lastNode_lt h hn
  cases hfull : a.full bx (kids bx) with
  | true =>
    rw [closeRow_full, hp.sum_one _ hv]
    exact one_pos
  | false =>
    have hchosen := chosen_lastNode hfull
    have hnodup : (kids bx (a.lastNode bx (kids bx))).Nodup :=
      (h.kids_sorted _).imp fun hlt => hlt.ne
    have hsum := sum_closeRow hnodup (hp.distinct (a.lastNode bx (kids bx)))
    obtain ⟨hu, hu1⟩ := hp.coin _ hv
    rw [chosen, chooseFrom_eq hp.single hp.acc (hp.nonneg _ hv) hu1 le_rfl] at hchosen
    -- no total reaches the coin
    have hnone : reachFrom 0 ((kids bx (a.lastNode bx (kids bx))).map fun c =>
        a.targetProbs bx (a.lastNode bx (kids bx)) (a.candidates bx c))
          (a.uniformSamples bx (a.lastNode bx (kids bx))) = none := by
      cases hreach : reachFrom 0 ((kids bx (a.lastNode bx (kids bx))).map fun c =>
        a.targetProbs bx (a.lastNode bx (kids bx)) (a.candidates bx c))
          (a.uniformSamples bx (a.lastNode bx (kids bx))) with
      | none => rfl
      | some i =>
        have hi := (le_of_reachFrom hu hreach).1
        rw [List.length_map] at hi
        rw [hreach, Option.bind_some, List.getElem?_eq_getElem hi] at hchosen
        cases hchosen
    have hle := le_of_reachFrom_none hu hnone
    rw [hp.sum_one _ hv] at hsum
    linarith

/-- **The token that closes a walk** is found by the search, and there is weight on it. -/
theorem exists_closing (hD : D.Searches) : ∃ t : Fin V, a.closing D bx (kids bx) = t.val ∧
    0 < a.closeRow bx (kids bx) (a.lastNode bx (kids bx)) (a.full bx (kids bx)) t ∧
    searchFrom 0
      (List.ofFn (a.closeRow bx (kids bx) (a.lastNode bx (kids bx)) (a.full bx (kids bx))))
      (a.uniformSamplesForFinalSampling bx *
        ∑ s, a.closeRow bx (kids bx) (a.lastNode bx (kids bx)) (a.full bx (kids bx)) s) =
      some t.val := by
  have hnonneg := closeRow_nonneg h hn hp (a.full bx (kids bx))
  have hpos := sum_closeRow_pos h hn hp
  obtain ⟨t, hsearch, hrow⟩ := drawRow_eq hD hnonneg hpos hp.coinFinal.1 hp.coinFinal.2
  refine ⟨t, hrow, ?_, hsearch⟩
  have hws : ∀ w ∈ List.ofFn (a.closeRow bx (kids bx) (a.lastNode bx (kids bx))
      (a.full bx (kids bx))), 0 ≤ w := by
    intro w hw
    obtain ⟨s, rfl⟩ := List.mem_ofFn.mp hw
    exact hnonneg s
  have hweight := searchFrom_pos hws (mul_nonneg hp.coinFinal.1 hpos.le) hsearch (by simp)
  rwa [List.getElem_ofFn] at hweight

/-- **The greedy kernel goes the same way**, when the target predicts what was sampled. -/
theorem acceptedPath_eq (hD : D.Searches) :
    (a.greedy (a.sampledAt D kids)).acceptedPath bx (kids bx) = a.sampledPath bx (kids bx) := by
  refine descend_congr (fun u hu => ?_) fun hlt => ?_
  · obtain ⟨c, hc⟩ := exists_find?_of_mem_dropLast hu
    have hlast : u < a.lastNode bx (kids bx) :=
      (passing_descend _ 0).lt_getLastD (fun v x hx => (h.kids_mem v x hx).1) hu
    have hchosen := (find?_goesTo u).symm.trans hc
    have hmem := mem_of_chooseFrom hchosen
    refine List.find?_congr fun x hx => ?_
    rw [VerifyArgs.matchesAt, goesTo, hchosen]
    refine decide_eq_decide.mpr ?_
    show ((a.candidates bx x : ℕ) : ℤ) = a.sampledAt D kids bx u ↔ _
    rw [sampledAt, if_neg hlast.ne, hchosen, Option.map_some, Option.getD_some, Nat.cast_inj,
      Fin.val_inj, Option.some.injEq]
    constructor
    · exact fun htoken => (hp.distinct u x hx c hmem htoken).symm
    · exact fun hcx => hcx ▸ rfl
  · have hfull : a.full bx (kids bx) = false := decide_eq_false hlt.ne
    obtain ⟨t, hclosing, hweight, -⟩ := exists_closing h hn hp hD
    rw [hfull] at hweight
    refine List.find?_eq_none.mpr fun x hx => ?_
    rw [VerifyArgs.matchesAt, decide_eq_true_eq]
    show ¬ ((a.candidates bx x : ℕ) : ℤ) = a.sampledAt D kids bx (a.lastNode bx (kids bx))
    rw [sampledAt, if_pos rfl, hclosing, Nat.cast_inj, Fin.val_inj]
    -- a token of a child has no weight left
    intro htoken
    rw [closeRow, if_pos ⟨rfl, x, hx, htoken⟩] at hweight
    exact lt_irrefl 0 hweight

omit [Field K] [LinearOrder K] [IsStrictOrderedRing K] h hn hp in
theorem Links.congr {pred' : ℕ → ℕ → ℤ} (h : (a.greedy pred).Holds bx (kids bx)) :
    (a.greedy pred').Holds bx (kids bx) := ⟨h.index, h.chain, h.kids_mem, h.kids_sorted⟩

omit [IsStrictOrderedRing K] in
/-- What is left when the walk has ended, in the order of the tokens. -/
theorem reluQMinusP_eq {m : SampleMemory V K} {w : SampleVars V K}
    (hzero : ∀ v < a.numDraftTokens, ∀ t, m.draftProbs bx v t = 0)
    (hw : a.Walked pred bx (kids bx) m 0 0 (a.numSpeculativeTokens - 1)
      (a.sampledPath bx (kids bx)) w) : a.reluQMinusP bx w =
      padded (a.closeRow bx (kids bx) (a.lastNode bx (kids bx)) (a.full bx (kids bx))) := by
  have hv := lastNode_lt h hn
  have hrow : w.curRow = a.lastNode bx (kids bx) := hw.row
  have hnum : w.numAcceptedTokens = (a.sampledPath bx (kids bx)).length := by
    rw [hw.num, Nat.zero_add]
  funext lane
  rw [reluQMinusP, padded]
  by_cases hlane : lane < V
  · have hq := hp.nonneg _ hv ⟨lane, hlane⟩
    rw [dif_pos hlane, dif_pos hlane, hrow, hnum]
    dsimp only
    by_cases hfull : (a.sampledPath bx (kids bx)).length = a.numSpeculativeTokens - 1
    · have hf : a.full bx (kids bx) = true := decide_eq_true hfull
      rw [if_neg (not_not.mpr hfull), hf, closeRow_full, sub_zero, max_eq_left hq]
    · have hf : a.full bx (kids bx) = false := decide_eq_false hfull
      have hle : (a.sampledPath bx (kids bx)).length ≤ a.numSpeculativeTokens - 1 :=
        length_descend_le _ 0
      have hdraft : w.mem.draftProbs bx (a.lastNode bx (kids bx)) =
          a.passOver bx (a.targetProbs bx (a.lastNode bx (kids bx)))
            (m.draftProbs bx (a.lastNode bx (kids bx))) (kids bx (a.lastNode bx (kids bx))) :=
        hw.stopped (lt_of_le_of_ne hle hfull)
      rw [if_pos hfull, hf, hdraft, passOver_apply, hzero _ hv, closeRow]
      by_cases hkid : ∃ c ∈ kids bx (a.lastNode bx (kids bx)), a.candidates bx c = ⟨lane, hlane⟩
      · rw [if_pos hkid, if_pos ⟨rfl, hkid⟩, sub_self, max_self]
      · rw [if_neg hkid, if_neg fun h => hkid h.2, sub_zero, max_eq_left hq]
  · rw [dif_neg hlane, dif_neg hlane]

/-- **One program** of the sampling kernel leaves what the greedy kernel leaves when the target
predicts what was sampled. -/
theorem program_eq_greedy (hD : D.Searches) (m : SampleMemory V K)
    (hzero : ∀ v < a.numDraftTokens, ∀ t, m.draftProbs bx v t = 0) :
    ∃ draft, a.program D bx m =
        some ⟨(a.greedy (a.sampledAt D kids)).program bx m.toVerifyMemory, draft⟩ ∧
      ∀ b, b ≠ bx → draft b = m.draftProbs b := by
  have h' : (a.greedy (a.sampledAt D kids)).Holds bx (kids bx) := Links.congr h
  have hroot : a.retriveIndex bx 0 = (a.greedy (a.sampledAt D kids)).globalIdx bx 0 := h.index 0 hn
  let m₁ : SampleMemory V K :=
    ⟨(a.greedy (a.sampledAt D kids)).storeRoot bx m.toVerifyMemory, m.draftProbs⟩
  obtain ⟨w, hrun, hw⟩ := levels_walked h' 0 (a.numSpeculativeTokens - 1) m₁ hn
    fun u hu c hchosen => by
      have hlast : u < a.lastNode bx (kids bx) :=
        (passing_descend _ 0).lt_getLastD (fun v x hx => (h.kids_mem v x hx).1) hu
      rw [sampledAt, if_neg hlast.ne, hchosen]
      rfl
  have hfinal : a.finalSample D bx w = a.closing D bx (kids bx) := by
    have hzero₁ : ∀ v < a.numDraftTokens, ∀ t, m₁.draftProbs bx v t = 0 := hzero
    unfold finalSample closing
    rw [reluQMinusP_eq h' hn hp hzero₁ hw]
  have hlast : w.lastAcceptedRetriveIdx =
      (a.greedy (a.sampledAt D kids)).globalIdx bx (a.lastNode bx (kids bx)) :=
    hw.last.trans (h.index _ (lastNode_lt h hn))
  have hat : a.sampledAt D kids bx (a.lastNode bx (kids bx)) = a.closing D bx (kids bx) :=
    if_pos rfl
  refine ⟨w.mem.draftProbs, ?_, hw.others⟩
  have hprogram : a.program D bx m = some { w.mem with
      acceptTokenNum := Function.update w.mem.acceptTokenNum bx w.numAcceptedTokens
      predicts :=
        Function.update w.mem.predicts w.lastAcceptedRetriveIdx (a.finalSample D bx w) } := by
    have hm₁ : ({ m with acceptIndex := storeRow m.acceptIndex bx 0 (a.retriveIndex bx 0) } :
        SampleMemory V K) = m₁ := by
      rw [hroot]
      rfl
    unfold program
    show (a.levels bx (a.numSpeculativeTokens - 1) (a.atNode bx
      { m with acceptIndex := storeRow m.acceptIndex bx 0 (a.retriveIndex bx 0) } 0 0)).bind _ = _
    rw [hm₁, hrun]
    rfl
  rw [hprogram, VerifyArgs.program_eq hn h', acceptedPath_eq h hn hp hD, hfinal, hlast, hw.num,
    Nat.zero_add, ← hat]
  have hstored : (a.greedy (a.sampledAt D kids)).storePath bx
      ((a.greedy (a.sampledAt D kids)).storeRoot bx m.toVerifyMemory) 0 0
      (a.sampledPath bx (kids bx)) = w.mem.toVerifyMemory := hw.memory.symm
  rw [hstored]
  rfl

end Closing

omit [IsStrictOrderedRing K] in
/-- What is sampled along a walk. -/
theorem map_sampledAt (h : (a.greedy pred).Holds bx (kids bx)) :
    (0 :: a.sampledPath bx (kids bx)).map (a.sampledAt D kids bx) =
      (a.sampledPath bx (kids bx)).map (fun c => ((a.candidates bx c : ℕ) : ℤ)) ++
        [a.closing D bx (kids bx)] := by
  have hlast : (0 :: a.sampledPath bx (kids bx)).getLast (List.cons_ne_nil 0 _) =
      a.lastNode bx (kids bx) := by
    rw [lastNode, ← List.getLastD_cons (a := 0), List.getLastD_eq_getLast?,
      List.getLast?_eq_getLast_of_ne_nil (List.cons_ne_nil 0 _), Option.getD_some]
  have hwalk : (0 :: a.sampledPath bx (kids bx)).dropLast.map (a.sampledAt D kids bx) =
      (a.sampledPath bx (kids bx)).map fun c => ((a.candidates bx c : ℕ) : ℤ) := by
    refine map_dropLast_descend fun u hu c hc => ?_
    have hlt : u < a.lastNode bx (kids bx) :=
      (passing_descend _ 0).lt_getLastD (fun v x hx => (h.kids_mem v x hx).1) hu
    rw [sampledAt, if_neg hlt.ne, (find?_goesTo u).symm.trans hc]
    rfl
  conv_lhs => rw [← List.dropLast_append_getLast (List.cons_ne_nil 0 (a.sampledPath bx (kids bx)))]
  rw [List.map_append, hwalk, hlast, List.map_singleton, sampledAt, if_pos rfl]

/-! ### The batch -/

/-- The programs run one after the other. -/
theorem launch_succ (hacc : a.thresholdAcc = 1) (k : ℕ) (m : SampleMemory V K) :
    a.launch D (k + 1) m = (a.launch D k m).bind (a.program D k) := by
  have hcap : ({ a with thresholdAcc := max a.thresholdAcc (1 / 10 ^ 9) } : SampleArgs V K) =
      a := by
    rw [show max a.thresholdAcc (1 / 10 ^ 9) = a.thresholdAcc by
      rw [hacc]
      exact max_eq_left (by norm_num)]
  unfold launch
  dsimp only
  rw [hcap, List.range_succ, List.foldlM_append]
  refine congrArg _ (funext fun m' => ?_)
  exact bind_pure (a.program D k m')

section Batch
variable (hD : D.Searches) (hn : 0 < a.numDraftTokens)
include hD hn

/-- **The launch** leaves what the greedy launch leaves when the target predicts what was
sampled. -/
theorem launch_eq_greedy {bs : ℕ} (h : ∀ b < bs, (a.greedy pred).Holds b (kids b))
    (hp : ∀ b < bs, a.Proper b (kids b)) (hacc : a.thresholdAcc = 1) (m : SampleMemory V K)
    (hzero : ∀ b < bs, ∀ v < a.numDraftTokens, ∀ t, m.draftProbs b v t = 0) :
    ∃ draft, a.launch D bs m =
      some ⟨(a.greedy (a.sampledAt D kids)).launch bs m.toVerifyMemory, draft⟩ := by
  have hrun : ∀ k ≤ bs, ∃ draft, a.launch D k m =
      some ⟨(a.greedy (a.sampledAt D kids)).launch k m.toVerifyMemory, draft⟩ ∧
        ∀ b, k ≤ b → draft b = m.draftProbs b := by
    intro k
    induction k with
    | zero => exact fun _ => ⟨m.draftProbs, rfl, fun _ _ => rfl⟩
    | succ k ih =>
      intro hk
      obtain ⟨draft, hdone, hrest⟩ := ih (by omega)
      obtain ⟨draft', hprogram, hothers⟩ := program_eq_greedy (h k hk) hn (hp k hk) hD
        ⟨(a.greedy (a.sampledAt D kids)).launch k m.toVerifyMemory, draft⟩ fun v hv t => by
          show draft k v t = 0
          rw [hrest k le_rfl]
          exact hzero k hk v hv t
      refine ⟨draft', ?_, fun b hb => ?_⟩
      · rw [launch_succ hacc, hdone, Option.bind_some, hprogram, VerifyArgs.launch_succ]
      · rw [hothers b (by omega)]
        exact hrest b (by omega)
  obtain ⟨draft, hlaunch, -⟩ := hrun bs le_rfl
  exact ⟨draft, hlaunch⟩

/-- **Every request of the batch** is served the tokens of its walk. -/
theorem launch_emitted {bs : ℕ} (h : ∀ b < bs, (a.greedy pred).Holds b (kids b))
    (hp : ∀ b < bs, a.Proper b (kids b)) (hacc : a.thresholdAcc = 1) (m : SampleMemory V K)
    (hzero : ∀ b < bs, ∀ v < a.numDraftTokens, ∀ t, m.draftProbs b v t = 0) :
    ∃ m', a.launch D bs m = some m' ∧ ∀ b < bs, m'.emitted b =
      (a.sampledPath b (kids b)).map (fun c => ((a.candidates b c : ℕ) : ℤ)) ++
        [a.closing D b (kids b)] := by
  obtain ⟨draft, hlaunch⟩ := launch_eq_greedy hD hn h hp hacc m hzero
  refine ⟨_, hlaunch, fun b hb => ?_⟩
  obtain ⟨hverified, -⟩ := VerifyArgs.launch_verified (a.greedy (a.sampledAt D kids)) bs hn kids
    (fun b hb => Links.congr (h b hb)) m.toVerifyMemory b hb
  rw [acceptedPath_eq (h b hb) hn (hp b hb) hD] at hverified
  exact hverified.emitted_eq.trans (map_sampledAt (h b hb))

end Batch

end Left

end SampleArgs

end

end LatentSpec.EagleTree
