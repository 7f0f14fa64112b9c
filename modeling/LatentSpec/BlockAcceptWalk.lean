import LatentSpec.BlockAcceptBundle
import LatentSpec.RunningProducts

/-! # Walking the pending blocks

What a pending block holds (`BlockTrace`): its tokens and their draft logprobs come from the step
that opened it, the target logprobs of the walked ones from steps of its request at the positions
of the tokens, and its running product and its total are those of the factors walked so far.
`exists_walk` says that the walk of a row reads nothing that is not there and keeps the trace, and
`exists_settlePending` that a row leaves blocks that the next row of the request can go on with and
reports whose bounds are those of a trace.
-/
namespace LatentSpec.BlockAccept
open RunningProducts

section
variable {V : ℕ} {K R : Type} [Field K] [LinearOrder K]

/-- The factor of the token at an offset, from the logprobs of target and draft. -/
def factor (math : TorchMath V K) (p q : ℤ → K) (offset : ℤ) : K :=
  min 1 (math.exp (p offset - q offset))

/-- `x` is the target's logprob of a token at a position of a request, in one of the steps. -/
def TargetRead (cfg : Config V K) (steps : VerifyStep V K R → Prop) (rid : R) (pos : ℤ)
    (token : Fin V) (x : K) : Prop :=
  ∃ s, steps s ∧ ∃ (b row : ℕ) (seqLen : ℤ), s.rids[b]? = some rid ∧
    s.prefixLens[b]? = some seqLen ∧ pos = seqLen + row ∧ row ≤ cfg.gamma ∧
    s.targetLogprob cfg.math cfg.gamma b row token = some x

/-- The tokens of a block and their draft logprobs are those that a step drafted behind its
anchor. -/
def OpenedIn (cfg : Config V K) (steps : VerifyStep V K R → Prop) (rid : R)
    (block : PendingBlock V K) (tok : ℤ → Fin V) (q : ℤ → K) : Prop :=
  ∃ s, steps s ∧ ∃ b : ℕ, s.rids[b]? = some rid ∧
    s.prefixLens[b]? = some (block.anchorPos + 1) ∧
    ∀ offset ∈ Finset.Ioc block.window cfg.gamma,
      (s.draftTokens[b]?.bind fun drafts => drafts[(offset - 1).toNat]?) = some (tok offset) ∧
      s.draftLogprob cfg.math b (offset - 1).toNat (tok offset) = some (q offset)

/-- What a block holds. -/
structure BlockTrace (cfg : Config V K) (steps : VerifyStep V K R → Prop) (rid : R)
    (block : PendingBlock V K) (tok : ℤ → Fin V) (p q : ℤ → K) : Prop where
  window_nonneg : 0 ≤ block.window
  window_lt : block.window < block.nextOffset
  next_le : block.nextOffset ≤ cfg.gamma + 1
  tokens_length : block.trimmedTokens.length = (cfg.gamma - block.window).toNat
  opened : OpenedIn cfg steps rid block tok q
  token : ∀ offset ∈ Finset.Ioc block.window cfg.gamma,
    item block.trimmedTokens (offset - block.window - 1) = .ok (tok offset)
  qLp : ∀ offset ∈ Finset.Ioc block.window cfg.gamma,
    item block.qLps (offset - block.window - 1) = .ok (q offset)
  walked : ∀ offset ∈ Finset.Ioc block.window (block.nextOffset - 1),
    TargetRead cfg steps rid (block.anchorPos + offset) (tok offset) (p offset)
  prod : block.estProd = runProduct (factor cfg.math p q) block.window (block.nextOffset - 1)
  extra : block.estLoExtra = runTotal (factor cfg.math p q) block.window (block.nextOffset - 1)

variable {cfg : Config V K} {steps : VerifyStep V K R → Prop} {rid : R}
  {block : PendingBlock V K} {tok : ℤ → Fin V} {p q : ℤ → K}

theorem factor_update_of_ne {math : TorchMath V K} {p q : ℤ → K} {n i : ℤ} (x : K) (h : i ≠ n) :
    factor math (Function.update p n x) q i = factor math p q i := by
  rw [factor, Function.update_of_ne h, factor]

/-- The block with one more token walked, whose target logprob is `x`. -/
def PendingBlock.advance (block : PendingBlock V K) (math : TorchMath V K) (x qLp : K) :
    PendingBlock V K :=
  let a := min 1 (math.exp (x - qLp))
  { block with
    estProd := block.estProd * a
    estLoExtra := block.estLoExtra + block.estProd * a
    nextOffset := block.nextOffset + 1 }

/-- **One more token of a block.** -/
theorem BlockTrace.advance (h : BlockTrace cfg steps rid block tok p q)
    (hle : block.nextOffset ≤ cfg.gamma) {x : K}
    (hread : TargetRead cfg steps rid (block.anchorPos + block.nextOffset) (tok block.nextOffset)
      x) :
    BlockTrace cfg steps rid (block.advance cfg.math x (q block.nextOffset)) tok
      (Function.update p block.nextOffset x) q := by
  let n := block.nextOffset
  have hwin := h.window_lt
  have hn : n - 1 + 1 = n := by omega
  have hwn : block.window ≤ n - 1 := by omega
  -- the factors walked before are the same
  have hsame : ∀ i ∈ Finset.Ioc block.window (n - 1),
      factor cfg.math (Function.update p n x) q i = factor cfg.math p q i := by
    intro i hi
    rw [Finset.mem_Ioc] at hi
    exact factor_update_of_ne x (by omega)
  have hlast : factor cfg.math (Function.update p n x) q n = min 1 (cfg.math.exp (x - q n)) := by
    rw [factor, Function.update_self]
  have hprod : runProduct (factor cfg.math (Function.update p n x) q) block.window n =
      block.estProd * min 1 (cfg.math.exp (x - q n)) := by
    have hadd := runProduct_add_one (factor cfg.math (Function.update p n x) q) hwn
    rwa [hn, runProduct_congr hsame, hlast, ← h.prod] at hadd
  have htotal : runTotal (factor cfg.math (Function.update p n x) q) block.window n =
      block.estLoExtra + block.estProd * min 1 (cfg.math.exp (x - q n)) := by
    have hadd := runTotal_add_one (factor cfg.math (Function.update p n x) q) hwn
    rwa [hn, runTotal_congr hsame, hprod, ← h.extra] at hadd
  have hback : block.nextOffset + 1 - 1 = n := Int.add_sub_cancel _ _
  have hwin' : block.window < block.nextOffset + 1 := by omega
  have hle' : block.nextOffset + 1 ≤ cfg.gamma + 1 := by omega
  refine ⟨h.window_nonneg, hwin', hle', h.tokens_length, h.opened, h.token, h.qLp,
    fun offset hoffset => ?_, ?_, ?_⟩
  · rw [PendingBlock.advance, Finset.mem_Ioc] at hoffset
    obtain ⟨hlo, hhi⟩ := hoffset
    have hhi : offset ≤ n := hback ▸ hhi
    rcases eq_or_lt_of_le hhi with rfl | hlt
    · rw [Function.update_self]
      exact hread
    · rw [Function.update_of_ne (by omega)]
      exact h.walked offset (Finset.mem_Ioc.mpr ⟨hlo, by omega⟩)
  · show _ = runProduct _ block.window (block.nextOffset + 1 - 1)
    rw [hback, hprod]
    rfl
  · show _ = runTotal _ block.window (block.nextOffset + 1 - 1)
    rw [hback, htotal]
    rfl

theorem accumulateOnline_eq (h : BlockTrace cfg steps rid block tok p q)
    (hle : block.nextOffset ≤ cfg.gamma) (x : K) :
    ∃ block', accumulateOnline cfg.math block x = .ok block' ∧
      { block' with nextOffset := block'.nextOffset + 1 } =
        block.advance cfg.math x (q block.nextOffset) := by
  have hq := h.qLp block.nextOffset (Finset.mem_Ioc.mpr ⟨h.window_lt, hle⟩)
  let a := min 1 (cfg.math.exp (x - q block.nextOffset))
  refine ⟨{ block with
    estProd := block.estProd * a
    estLoExtra := block.estLoExtra + block.estProd * a }, ?_, rfl⟩
  rw [accumulateOnline, hq]
  rfl

/-! ### The walk of a row along a block -/

/-- What the walk of a row along a block needs: the row of its next offset is not behind the
sequence, and the logprobs of the offsets that the row decides can be read. -/
structure WalkReady (cfg : Config V K) (steps : VerifyStep V K R → Prop) (rid : R)
    (ctx : RowContext V K R) (i : ℕ) (block : PendingBlock V K) (tok : ℤ → Fin V) : Prop where
  cl_nonneg : 0 ≤ ctx.cl
  realized_length : ctx.realized.length = ctx.cl.toNat + 1
  row_nonneg : ctx.seqLen ≤ block.anchorPos + block.nextOffset
  row_le : block.anchorPos + block.nextOffset ≤ ctx.seqLen + ctx.cl + 1
  reads : ∀ offset : ℤ, block.nextOffset ≤ offset → offset ≤ cfg.gamma →
    block.anchorPos + offset - ctx.seqLen ≤ ctx.cl →
      ∃ x, ctx.pLp i offset (block.anchorPos + offset - ctx.seqLen) = .ok x ∧
        TargetRead cfg steps rid (block.anchorPos + offset) (tok offset) x

/-- The walk so far: the block moved on and kept its trace. -/
structure WalkInv (cfg : Config V K) (steps : VerifyStep V K R → Prop) (rid : R)
    (ctx : RowContext V K R) (block : PendingBlock V K) (tok : ℤ → Fin V) (q : ℤ → K)
    (w : Walk V K) : Prop where
  anchor_eq : w.block.anchorPos = block.anchorPos
  next_ge : block.nextOffset ≤ w.block.nextOffset
  row_le : w.block.anchorPos + w.block.nextOffset ≤ ctx.seqLen + ctx.cl + 1
  trace : ∃ p, BlockTrace cfg steps rid w.block tok p q

/-- One turn of the walk. -/
theorem walkBody_step {ctx : RowContext V K R} {i : ℕ}
    (hready : WalkReady cfg steps rid ctx i block tok)
    {w : Walk V K} (h : WalkInv cfg steps rid ctx block tok q w) (hdiv : w.diverged = false)
    (hle : w.block.nextOffset ≤ cfg.gamma) :
    (∃ w', walkBody cfg.math ctx i w = .ok (w', false) ∧ WalkInv cfg steps rid ctx block tok q w' ∧
      w'.diverged = false ∧ w'.block.nextOffset = w.block.nextOffset + 1) ∨
    ∃ w', walkBody cfg.math ctx i w = .ok (w', true) ∧ WalkInv cfg steps rid ctx block tok q w' ∧
      (w'.diverged = false →
        w'.block.anchorPos + w'.block.nextOffset = ctx.seqLen + ctx.cl + 1) := by
  obtain ⟨hanchor, hnext, hrow, p, htrace⟩ := h
  have hready₀ := hready.row_nonneg
  have hrow₀ : 0 ≤ w.block.anchorPos + w.block.nextOffset - ctx.seqLen := by omega
  by_cases hbreak : ctx.cl < w.block.anchorPos + w.block.nextOffset - ctx.seqLen
  · -- the rows that were accepted are used up
    refine .inr ⟨w, ?_, ⟨hanchor, hnext, hrow, p, htrace⟩, fun _ => by omega⟩
    rw [walkBody, require_ok hrow₀]
    show (if _ then _ else _) = _
    rw [if_pos hbreak]
    rfl
  have hmem : w.block.nextOffset ∈ Finset.Ioc w.block.window cfg.gamma :=
    Finset.mem_Ioc.mpr ⟨htrace.window_lt, hle⟩
  have htoken := htrace.token _ hmem
  obtain ⟨x, hx, hread⟩ := hready.reads w.block.nextOffset hnext hle (by rw [← hanchor]; omega)
  rw [← hanchor] at hx hread
  -- the token that was realized at the offset
  have hlt : (w.block.anchorPos + w.block.nextOffset - ctx.seqLen).toNat < ctx.realized.length := by
    rw [hready.realized_length]
    have := hready.cl_nonneg
    omega
  have hrealized := item_of_getElem? hrow₀ (List.getElem?_eq_getElem hlt)
  obtain ⟨block', hacc, hadvance⟩ := accumulateOnline_eq htrace hle x
  have htrace' := htrace.advance hle hread
  rw [← hadvance] at htrace'
  have hfields : block'.anchorPos = w.block.anchorPos ∧
      block'.nextOffset = w.block.nextOffset := by
    have hanchor' := congrArg PendingBlock.anchorPos hadvance
    have hnext' := congrArg PendingBlock.nextOffset hadvance
    exact ⟨hanchor', add_right_cancel hnext'⟩
  have hinv : ∀ d gathers, WalkInv cfg steps rid ctx block tok q
      ⟨{ block' with nextOffset := block'.nextOffset + 1 }, d, gathers⟩ := by
    intro d gathers
    refine ⟨hfields.1.trans hanchor, ?_, ?_, _, htrace'⟩
    · show block.nextOffset ≤ block'.nextOffset + 1
      omega
    · show block'.anchorPos + (block'.nextOffset + 1) ≤ _
      omega
  have hbody : walkBody cfg.math ctx i w =
      if ctx.realized[(w.block.anchorPos + w.block.nextOffset - ctx.seqLen).toNat] ≠
          tok w.block.nextOffset then
        .ok (⟨{ block' with nextOffset := block'.nextOffset + 1 }, true, w.gathers ++
          [⟨w.block.forwardCt, w.block.nextOffset, x, tok w.block.nextOffset,
            ctx.realized[(w.block.anchorPos + w.block.nextOffset - ctx.seqLen).toNat]⟩]⟩, true)
      else
        .ok (⟨{ block' with nextOffset := block'.nextOffset + 1 }, w.diverged, w.gathers ++
          [⟨w.block.forwardCt, w.block.nextOffset, x, tok w.block.nextOffset,
            ctx.realized[(w.block.anchorPos + w.block.nextOffset - ctx.seqLen).toNat]⟩]⟩,
          false) := by
    rw [walkBody, require_ok hrow₀]
    show (if _ then _ else _) = _
    rw [if_neg hbreak, htoken, hx, hrealized]
    show (accumulateOnline cfg.math w.block x >>= _) = _
    rw [hacc]
    rfl
  rw [hbody]
  by_cases hne : ctx.realized[(w.block.anchorPos + w.block.nextOffset - ctx.seqLen).toNat] ≠
      tok w.block.nextOffset
  · rw [if_pos hne]
    exact .inr ⟨_, rfl, hinv _ _, fun hfalse => by cases hfalse⟩
  · rw [if_neg hne]
    exact .inl ⟨_, rfl, hinv _ _, hdiv, congrArg (· + 1) hfields.2⟩

/-- **The walk of a row along a block** succeeds, keeps the trace, and stops with a divergence, at
the end of the block or at the position of the next row. -/
theorem exists_walk {ctx : RowContext V K R} {i : ℕ}
    (hready : WalkReady cfg steps rid ctx i block tok)
    (htrace : BlockTrace cfg steps rid block tok p q) (gathers : List (Gather V K)) :
    ∃ w, WhileLoop.run (walkCond cfg.gamma) (walkBody cfg.math ctx i) EstimatorError.outOfFuel
        (cfg.gamma + 1 - block.nextOffset).toNat ⟨block, false, gathers⟩ = .ok w ∧
      (∃ p', BlockTrace cfg steps rid w.block tok p' q) ∧
      (w.diverged = false → w.block.nextOffset ≤ cfg.gamma →
        w.block.anchorPos + w.block.nextOffset = ctx.seqLen + ctx.cl + 1) := by
  let inv : Walk V K → Prop := fun w =>
    WalkInv cfg steps rid ctx block tok q w ∧ w.diverged = false
  let post : Walk V K → Prop := fun w => WalkInv cfg steps rid ctx block tok q w ∧
    (w.diverged = false → w.block.nextOffset ≤ cfg.gamma →
      w.block.anchorPos + w.block.nextOffset = ctx.seqLen + ctx.cl + 1)
  let rank : Walk V K → ℕ := fun w => (cfg.gamma + 1 - w.block.nextOffset).toNat
  have hinit : inv ⟨block, false, gathers⟩ := ⟨⟨rfl, le_rfl, hready.row_le, p, htrace⟩, rfl⟩
  have hrank : ∀ w, inv w → walkCond cfg.gamma w = true → 0 < rank w := by
    intro w _ hcond
    have := of_decide_eq_true hcond
    show 0 < (cfg.gamma + 1 - w.block.nextOffset).toNat
    omega
  have hstep : ∀ w, inv w → walkCond cfg.gamma w = true →
      (∃ w', walkBody cfg.math ctx i w = .ok (w', false) ∧ inv w' ∧ rank w' < rank w) ∨
        ∃ w', walkBody cfg.math ctx i w = .ok (w', true) ∧ post w' := by
    intro w ⟨hinv, hdiv⟩ hcond
    have hle : w.block.nextOffset ≤ cfg.gamma := of_decide_eq_true hcond
    rcases walkBody_step hready hinv hdiv hle with ⟨w', hw', hinv', hdiv', hnext⟩ |
      ⟨w', hw', hinv', hpos⟩
    · refine .inl ⟨w', hw', ⟨hinv', hdiv'⟩, ?_⟩
      show (cfg.gamma + 1 - w'.block.nextOffset).toNat < (cfg.gamma + 1 - w.block.nextOffset).toNat
      omega
    · exact .inr ⟨w', hw', hinv', fun hfalse _ => hpos hfalse⟩
  have hexit : ∀ w, inv w → walkCond cfg.gamma w = false → post w := by
    intro w ⟨hinv, _⟩ hcond
    exact ⟨hinv, fun _ hle => absurd hle (of_decide_eq_false hcond)⟩
  obtain ⟨w, hw, hinv, hpos⟩ :=
    WhileLoop.run_ok EstimatorError.outOfFuel hrank hstep hexit hinit le_rfl
  exact ⟨w, hw, hinv.trace, hpos⟩

/-! ### Reports -/

/-- The block that an interval is about: the end of a request by its own stop is not followed. -/
def ReportSource.followed : ReportSource V K → Option (PendingBlock V K)
  | .row | .eos _ => none
  | .walk block _ | .atEnd block => some block

/-- The bounds of a report about a block are those of its trace. -/
def ReportOk (cfg : Config V K) (steps : VerifyStep V K R → Prop) (report : Report V K) : Prop :=
  ∀ block, report.source.followed = some block →
    (∃ rid tok p q, BlockTrace cfg steps rid block tok p q) ∧
    report.lo = (block.window : K) + 1 + block.estLoExtra ∧
    report.hi = report.lo + block.estProd * ((cfg.gamma - (block.nextOffset - 1) : ℤ) : K) ∧
    (report.source = .walk block false → cfg.gamma < block.nextOffset)

theorem reportOk_row (cl forwardCt : ℤ) : ReportOk cfg steps (rowReport cl forwardCt) :=
  fun block h => by cases h

theorem reportOk_eos (block : PendingBlock V K) (forwardCt : ℤ) :
    ReportOk cfg steps (finalizeEosOnline block forwardCt) := fun block h => by cases h

theorem BlockTrace.reportOk_atEnd (h : BlockTrace cfg steps rid block tok p q) (forwardCt : ℤ) :
    ReportOk cfg steps (finalizeAtEndOnline cfg.gamma block forwardCt) := by
  intro block' hblock'
  obtain rfl := Option.some.inj hblock'
  refine ⟨⟨rid, tok, p, q, h⟩, rfl, ?_, fun hwalk => by cases hwalk⟩
  rw [finalizeAtEndOnline, show (cfg.gamma : ℤ) - (block.nextOffset - 1) =
    cfg.gamma - block.nextOffset + 1 by omega]

theorem BlockTrace.reportOk_walk (h : BlockTrace cfg steps rid block tok p q) {diverged : Bool}
    (hend : diverged = false → cfg.gamma < block.nextOffset) (forwardCt : ℤ) :
    ReportOk cfg steps (finalizeWalkOnline cfg.gamma block diverged forwardCt) := by
  intro block' hblock'
  obtain rfl := Option.some.inj hblock'
  refine ⟨⟨rid, tok, p, q, h⟩, rfl, ?_, fun hwalk => ?_⟩
  · -- without a tail nothing of the block is left
    have hzero : (cfg.gamma : ℤ) < block.nextOffset →
        ((cfg.gamma - (block.nextOffset - 1) : ℤ) : K) = 0 := by
      intro hlt
      have := h.next_le
      rw [show (cfg.gamma : ℤ) - (block.nextOffset - 1) = 0 by omega, Int.cast_zero]
    cases diverged with
    | false => simp [finalizeWalkOnline, hzero (hend rfl)]
    | true =>
      by_cases hlt : block.nextOffset - 1 < cfg.gamma
      · simp [finalizeWalkOnline, hlt]
      · simp [finalizeWalkOnline, hlt, hzero (by omega)]
  · injection hwalk with _ hdiv
    exact hend hdiv

/-! ### The pending blocks of a row -/

/-- A block that waits for the row at a position. -/
def WaitsAt (cfg : Config V K) (steps : VerifyStep V K R → Prop) (rid : R) (pos : ℤ)
    (block : PendingBlock V K) : Prop :=
  (∃ tok p q, BlockTrace cfg steps rid block tok p q) ∧ block.nextOffset ≤ cfg.gamma ∧
    block.anchorPos + block.nextOffset = pos

theorem WaitsAt.follows {pos : ℤ} (h : WaitsAt cfg steps rid pos block) :
    block.Follows cfg.gamma pos := by
  obtain ⟨⟨tok, p, q, htrace⟩, hle, hpos⟩ := h
  exact ⟨htrace.window_nonneg, htrace.window_lt, hle, hpos, htrace.tokens_length⟩

/-- What the loop over the blocks has kept and reported. -/
structure SettledOk (cfg : Config V K) (steps : VerifyStep V K R → Prop) (rid : R) (pos : ℤ)
    (settled : Settled V K) : Prop where
  kept : ∀ block ∈ settled.keptPending, WaitsAt cfg steps rid pos block
  reports : ∀ report ∈ settled.reports, ReportOk cfg steps report

theorem exists_settleBlock {ctx : RowContext V K R} {i : ℕ} {acc : Settled V K}
    (hacc : SettledOk cfg steps rid (ctx.seqLen + ctx.cl + 1) acc)
    (htrace : BlockTrace cfg steps rid block tok p q)
    (hready : WalkReady cfg steps rid ctx i block tok) :
    ∃ acc', settleBlock cfg ctx acc (block, i) = .ok acc' ∧
      SettledOk cfg steps rid (ctx.seqLen + ctx.cl + 1) acc' := by
  obtain ⟨w, hw, ⟨p', htrace'⟩, hpos⟩ := exists_walk hready htrace acc.pendingGathers
  have heq : settleBlock cfg ctx acc (block, i) =
      if !w.diverged && decide (w.block.nextOffset ≤ cfg.gamma) then
        .ok { acc with keptPending := acc.keptPending ++ [w.block], pendingGathers := w.gathers }
      else .ok { acc with
        reports := acc.reports ++
          [finalizeWalkOnline cfg.gamma w.block w.diverged ctx.batch.forwardCt]
        pendingGathers := w.gathers } := by
    rw [settleBlock]
    show (WhileLoop.run _ _ _ _ _ >>= _) = _
    rw [hw]
    rfl
  rw [heq]
  by_cases hkeep : (!w.diverged && decide (w.block.nextOffset ≤ cfg.gamma)) = true
  · rw [if_pos hkeep]
    obtain ⟨hdiv, hle⟩ := (Bool.and_eq_true _ _).mp hkeep
    have hdiv : w.diverged = false := by simpa using hdiv
    have hle : w.block.nextOffset ≤ cfg.gamma := of_decide_eq_true hle
    refine ⟨_, rfl, fun block' hmem => ?_, hacc.reports⟩
    rcases List.mem_append.mp hmem with hmem | hmem
    · exact hacc.kept block' hmem
    · obtain rfl := List.mem_singleton.mp hmem
      exact ⟨⟨tok, p', q, htrace'⟩, hle, hpos hdiv hle⟩
  · rw [if_neg hkeep]
    have hend : w.diverged = false → cfg.gamma < w.block.nextOffset := by
      intro hdiv
      by_contra hle
      exact hkeep (by rw [hdiv, decide_eq_true (not_lt.mp hle)]; rfl)
    refine ⟨_, rfl, hacc.kept, fun report hmem => ?_⟩
    rcases List.mem_append.mp hmem with hmem | hmem
    · exact hacc.reports report hmem
    · obtain rfl := List.mem_singleton.mp hmem
      exact htrace'.reportOk_walk hend _

/-- **Settling the blocks of a row.** -/
theorem exists_settlePending {ctx : RowContext V K R} {pending : List (PendingBlock V K)}
    (h : ∀ (i : ℕ) block, pending[i]? = some block → ∃ tok p q,
      BlockTrace cfg steps rid block tok p q ∧ WalkReady cfg steps rid ctx i block tok) :
    ∃ settled, settlePending cfg ctx pending = .ok settled ∧
      SettledOk cfg steps rid (ctx.seqLen + ctx.cl + 1) settled := by
  let inv : ℕ → Settled V K → Prop := fun _ acc =>
    SettledOk cfg steps rid (ctx.seqLen + ctx.cl + 1) acc
  have hturn : ∀ k block, pending[k]? = some block → ∀ acc, inv k acc →
      ∃ acc', settleBlock cfg ctx acc (block, k) = .ok acc' ∧ inv (k + 1) acc' := by
    intro k block hblock acc hacc
    obtain ⟨tok, p, q, htrace, hready⟩ := h k block hblock
    exact exists_settleBlock hacc htrace hready
  have hinit : inv 0 ⟨[], [], []⟩ :=
    ⟨fun block hmem => (by cases hmem), fun r hmem => (by cases hmem)⟩
  exact WhileLoop.foldlM_zipIdx_ok hturn hinit

/-! ### The block that a row opens -/

/-- A slice of a row from the window on, read at an offset. -/
theorem item_slice {α : Type} {xs : List α} {gamma : ℕ} {window offset : ℤ} {x : α}
    (hwindow : 0 ≤ window) (hlo : window < offset) (hhi : offset ≤ gamma)
    (h : xs[(offset - 1).toNat]? = some x) :
    item ((xs.take gamma).drop window.toNat) (offset - window - 1) = .ok x := by
  refine item_of_getElem? (by omega) ?_
  rw [List.getElem?_drop, show window.toNat + (offset - window - 1).toNat = (offset - 1).toNat by
    omega, List.getElem?_take, if_pos (by omega), h]

/-- **A block that was opened** has walked nothing. -/
theorem BlockTrace.openBlock {s : VerifyStep V K R} {batch : SettleBatch V K R} {b : ℕ}
    {state : RequestState V K} {m : RowMeta V} {drafts : List (Fin V)} {qs diag : List K}
    (hsteps : steps s) (hrid : s.rids[b]? = some rid)
    (hready : RowReady cfg s batch b state m drafts qs diag) {window forwardCt : ℤ}
    (hwindow : 0 ≤ window) (hlt : window < cfg.gamma) :
    BlockTrace cfg steps rid (openBlock cfg.gamma drafts qs window m.prefixLen forwardCt)
      (fun offset => drafts[(offset - 1).toNat]?.getD m.bonus) p
      (fun offset => qs[(offset - 1).toNat]?.getD 0) := by
  -- the tokens behind the window were drafted
  have hdrafted : ∀ offset ∈ Finset.Ioc window (cfg.gamma : ℤ), ∃ token x,
      drafts[(offset - 1).toNat]? = some token ∧ qs[(offset - 1).toNat]? = some x ∧
        s.draftLogprob cfg.math b (offset - 1).toNat token = some x := by
    intro offset hoffset
    obtain ⟨hlo, hhi⟩ := Finset.mem_Ioc.mp hoffset
    have hj : (offset - 1).toNat < drafts.length := by
      rw [hready.drafts_length]
      omega
    have htoken := List.getElem?_eq_getElem hj
    obtain ⟨x, hx, hread⟩ := hready.draftRead _ _ htoken
    exact ⟨_, x, htoken, hx, hread⟩
  have hempty : Finset.Ioc window (window + 1 - 1) = ∅ := by simp
  have hseq : m.prefixLen - 1 + 1 = m.prefixLen := by omega
  refine ⟨hwindow, ?_, ?_, ?_, ⟨s, hsteps, b, hrid, ?_, fun offset hoffset => ?_⟩,
    fun offset hoffset => ?_, fun offset hoffset => ?_, fun offset hoffset => ?_, ?_, ?_⟩
  · show window < window + 1
    omega
  · show window + 1 ≤ cfg.gamma + 1
    omega
  · show ((drafts.take cfg.gamma).drop window.toNat).length = _
    rw [List.length_drop, List.length_take, hready.drafts_length]
    show _ = (cfg.gamma - window).toNat
    omega
  · show s.prefixLens[b]? = some (m.prefixLen - 1 + 1)
    rw [hseq, hready.seqLen]
  · obtain ⟨token, x, htoken, hx, hread⟩ := hdrafted offset hoffset
    rw [hready.drafted, Option.bind_some]
    dsimp only
    rw [htoken, hx, Option.getD_some, Option.getD_some]
    exact ⟨rfl, hread⟩
  · obtain ⟨token, x, htoken, hx, hread⟩ := hdrafted offset hoffset
    obtain ⟨hlo, hhi⟩ := Finset.mem_Ioc.mp hoffset
    rw [htoken, Option.getD_some]
    exact item_slice hwindow hlo hhi htoken
  · obtain ⟨token, x, htoken, hx, hread⟩ := hdrafted offset hoffset
    obtain ⟨hlo, hhi⟩ := Finset.mem_Ioc.mp hoffset
    rw [hx, Option.getD_some]
    exact item_slice hwindow hlo hhi hx
  · have hmem : offset ∈ Finset.Ioc window (window + 1 - 1) := hoffset
    rw [hempty] at hmem
    cases hmem
  · show 1 = runProduct _ window (window + 1 - 1)
    rw [Int.add_sub_cancel, runProduct_self]
  · show 0 = runTotal _ window (window + 1 - 1)
    rw [Int.add_sub_cancel, runTotal_self]

/-! ### What a row reads -/

variable {s : VerifyStep V K R} {batch : SettleBatch V K R} {b : ℕ} {state : RequestState V K}
  {m : RowMeta V} {drafts : List (Fin V)} {qs diag : List K}

/-- The context in which a row walks the blocks that it found. -/
def rowContext (batch : SettleBatch V K R) (b : ℕ) (m : RowMeta V) (drafts : List (Fin V))
    (numOldPending : ℕ) : RowContext V K R where
  b
  batch
  realized := drafts.take m.correctLen.toNat ++ [m.bonus]
  cl := m.correctLen
  seqLen := m.prefixLen
  numOldPending

theorem length_realized (hready : RowReady cfg s batch b state m drafts qs diag) (n : ℕ) :
    (rowContext batch b m drafts n).realized.length =
      (rowContext batch b m drafts n).cl.toNat + 1 := by
  obtain ⟨hcl, hwindow, hgamma⟩ := hready.bounds
  show (drafts.take m.correctLen.toNat ++ [m.bonus]).length = m.correctLen.toNat + 1
  rw [List.length_append, List.length_take, hready.drafts_length, List.length_singleton]
  omega

/-- **An old block** reads what was planned for it, when the sequence went on where the last row of
the request left it. -/
theorem RowReady.walkReady_old (hready : RowReady cfg s batch b state m drafts qs diag)
    (hsteps : steps s) (hrid : s.rids[b]? = some rid) {i : ℕ}
    (hblock : state.pending[i]? = some block) (htrace : BlockTrace cfg steps rid block tok p q)
    (hpos : block.anchorPos + block.nextOffset = state.expectedSeqLen)
    (hseq : m.prefixLen = state.expectedSeqLen) {n : ℕ} (hi : i < n) :
    WalkReady cfg steps rid (rowContext batch b m drafts n) i block tok := by
  have hcl := hready.bounds.1
  refine ⟨hcl, length_realized hready n, ?_, ?_, fun offset hge hle _ => ?_⟩
  · show m.prefixLen ≤ _
    omega
  · show _ ≤ m.prefixLen + m.correctLen + 1
    omega
  · obtain ⟨token, slot, x, row, htoken, hslot, hx, hrow, hrowLe, hread⟩ :=
      hready.planned i block hblock offset hge hle
    have hwin := htrace.window_lt
    have hmem : offset ∈ Finset.Ioc block.window (cfg.gamma : ℤ) :=
      Finset.mem_Ioc.mpr ⟨by omega, hle⟩
    obtain rfl : token = tok offset := Except.ok.inj (htoken.symm.trans (htrace.token _ hmem))
    refine ⟨x, ?_, s, hsteps, b, row, m.prefixLen, hrid, hready.seqLen, by omega, hrowLe, hread⟩
    show (if i < n then _ else _) = _
    rw [if_pos hi]
    show (lookup batch.slotLookup (b, i, offset) >>= _) = _
    rw [hslot]
    exact hx

/-- **The block that a row opens** reads the row's own drafts. -/
theorem RowReady.walkReady_new (hready : RowReady cfg s batch b state m drafts qs diag)
    (hsteps : steps s) (hrid : s.rids[b]? = some rid) {window forwardCt : ℤ}
    (hwindow : window = m.correctLen) {i n : ℕ} (hi : n ≤ i) :
    WalkReady cfg steps rid (rowContext batch b m drafts n) i
      (openBlock cfg.gamma drafts qs window m.prefixLen forwardCt)
      (fun offset => drafts[(offset - 1).toNat]?.getD m.bonus) := by
  have hcl := hready.bounds.1
  refine ⟨hcl, length_realized hready n, ?_, ?_, fun offset hge hle _ => ?_⟩
  · show m.prefixLen ≤ m.prefixLen - 1 + (window + 1)
    omega
  · show m.prefixLen - 1 + (window + 1) ≤ m.prefixLen + m.correctLen + 1
    omega
  · have hge : window + 1 ≤ offset := hge
    have hj : (offset - 1).toNat < drafts.length := by
      rw [hready.drafts_length]
      omega
    have htoken := List.getElem?_eq_getElem hj
    obtain ⟨x, hx, hread⟩ := hready.diagRead _ _ htoken
    have hrow : m.prefixLen - 1 + offset - m.prefixLen = ((offset - 1).toNat : ℤ) := by omega
    refine ⟨x, ?_, s, hsteps, b, (offset - 1).toNat, m.prefixLen, hrid, hready.seqLen, ?_, by omega,
      ?_⟩
    · show (if i < n then _ else _) = _
      rw [if_neg (by omega)]
      show (item batch.targetDiag b >>= _) = _
      rw [item_natCast hready.diag_eq]
      show item diag (m.prefixLen - 1 + offset - m.prefixLen) = _
      rw [hrow]
      exact item_natCast hx
    · show m.prefixLen - 1 + offset = m.prefixLen + _
      omega
    · rw [htoken, Option.getD_some]
      exact hread

/-- The block that a row opens, if it opens one. -/
theorem exists_openedBlock (hready : RowReady cfg s batch b state m drafts qs diag) :
    ∃ opened, openedBlock cfg.gamma batch b m = .ok opened ∧
      ∀ block ∈ opened, block =
        openBlock cfg.gamma drafts qs (m.verifyLen - 1) m.prefixLen batch.forwardCt ∧
        m.verifyLen - 1 = m.correctLen ∧ m.verifyLen - 1 < cfg.gamma := by
  unfold openedBlock
  by_cases hopen : m.correctLen = m.verifyLen - 1 ∧ m.verifyLen - 1 < cfg.gamma
  · refine ⟨some (openBlock cfg.gamma drafts qs (m.verifyLen - 1) m.prefixLen batch.forwardCt), ?_,
      fun block hblock => ⟨(Option.some.inj hblock).symm, hopen.1.symm, hopen.2⟩⟩
    show (if _ then _ else _) = _
    rw [if_pos hopen, item_natCast hready.drafts_eq, item_natCast hready.qAll_eq]
    rfl
  · refine ⟨none, ?_, fun block hblock => by cases hblock⟩
    show (if _ then _ else _) = _
    rw [if_neg hopen]
    rfl

end

end LatentSpec.BlockAccept
