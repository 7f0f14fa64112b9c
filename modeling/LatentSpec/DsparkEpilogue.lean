import Mathlib.Data.List.GetD
import LatentSpec.DsparkAcceptLaw

/-! # The folded accept of DSpark

In compact mode the target verify runs as a captured graph whose tail,
`DsparkVerifyEpilogue`, scatters the packed rows and accepts them inside the graph.  The
graph works on static buffers: it is captured for more requests than the batch has, the
verify lengths of the missing ones are zero (`begin_step`), and every other row of its inputs
and outputs holds whatever an earlier step left there.  Its candidates are scattered back
from the packed input ids, so those past a request's verify length are zeros, where the eager
path has the real drafts.

The accept of the epilogue is greedy.  The worker therefore folds a step only when every
request is greedy (`foldEligible`), and then what the epilogue hands on is what the eager
path hands on (`foldedAccept_observed`).
-/
namespace LatentSpec
open TiledStores
open scoped Coins

variable {V : ℕ} {K : Type}

/-- `RaggedVerifyLayout`: verify lengths from one to the window's width, whose sum the graph
has rows for. -/
structure RaggedVerifyLayout (stride : ℕ) where
  verifyLens : List ℕ
  graphNumTokens : ℕ
  one_le : ∀ n ∈ verifyLens, 1 ≤ n
  le_stride : ∀ n ∈ verifyLens, n ≤ stride
  total_le : verifyLens.sum ≤ graphNumTokens

namespace RaggedVerifyLayout
variable {stride : ℕ} (layout : RaggedVerifyLayout stride)

def bs : ℕ := layout.verifyLens.length

/-- The verify length of request `b`. -/
def lens (b : ℕ) : ℕ := layout.verifyLens.getD b 0

variable {layout} in
theorem lens_mem {b : ℕ} (hb : b < layout.bs) : layout.lens b ∈ layout.verifyLens := by
  have hb' : b < layout.verifyLens.length := hb
  rw [lens, List.getD_eq_getElem _ _ hb']
  exact List.getElem_mem hb'

variable {layout} in
theorem lens_of_le {b : ℕ} (hb : layout.bs ≤ b) : layout.lens b = 0 :=
  List.getD_eq_default _ _ hb

theorem offset_bs : offset layout.lens layout.bs = layout.verifyLens.sum := by
  refine congrArg List.sum (List.ext_getElem (by simp [bs]) fun i hi hi' => ?_)
  simp [lens, hi']

end RaggedVerifyLayout

/-! ### Packing the window -/

/-- One round of the search in `_compact_row_index_kernel`. -/
def rowSearchStep (incl : ℕ → ℕ) (bs row : ℕ) (s : ℕ × ℕ) : ℕ × ℕ :=
  let mid := (s.1 + s.2) / 2
  let active := decide (s.1 < s.2)
  let goRight := decide (incl (min mid (bs - 1)) ≤ row)
  (if active && goRight then mid + 1 else s.1, if active && !goRight then mid else s.2)

/-- `_SEARCH_NBITS`. -/
def searchNbits : ℕ := 11

/-- `_compact_row_index_kernel`: the request a packed row belongs to, and its slot. -/
def compactRowIndex (verifyLens : ℕ → ℕ) (bs row : ℕ) : ℕ × ℕ :=
  let incl := fun b => offset verifyLens (b + 1)
  let req := ((rowSearchStep incl bs row)^[searchNbits] (0, bs)).1
  let start := if 0 < req then incl (req - 1) else 0
  let valid := decide (row < incl (bs - 1))
  (if valid then req else bs, if valid then row - start else 0)

/-- `_compact_verify_ids_gather_kernel`: the token of a packed row. -/
def compactVerifyIds [NeZero V] (anchors : ℕ → Fin V) (draftTokens : ℕ → ℕ → Fin V)
    (verifyLens : ℕ → ℕ) (bs row : ℕ) : Fin V :=
  let (req, within) := compactRowIndex verifyLens bs row
  let valid := decide (req < bs)
  let safeReq := min req (bs - 1)
  let v := if within = 0 then anchors safeReq else draftTokens safeReq (within - 1)
  if valid then v else 0

/-- A round of the search keeps the least prefix sum above the row between its bounds, and
halves their distance. -/
theorem rowSearchStep_spec {incl : ℕ → ℕ} {bs row b m : ℕ} {s : ℕ × ℕ}
    (hincl : ∀ i < bs, incl i ≤ row ↔ i < b) (hlo : s.1 ≤ b) (hhi : b ≤ s.2) (hbs : s.2 ≤ bs)
    (hm : s.2 - s.1 ≤ m) :
    (rowSearchStep incl bs row s).1 ≤ b ∧ b ≤ (rowSearchStep incl bs row s).2 ∧
      (rowSearchStep incl bs row s).2 ≤ bs ∧
      (rowSearchStep incl bs row s).2 - (rowSearchStep incl bs row s).1 ≤ m / 2 := by
  unfold rowSearchStep
  by_cases hactive : s.1 < s.2
  · have hmin : min ((s.1 + s.2) / 2) (bs - 1) = (s.1 + s.2) / 2 := by omega
    have hmid := hincl ((s.1 + s.2) / 2) (by omega)
    by_cases hright : incl ((s.1 + s.2) / 2) ≤ row
    · have hlt := hmid.mp hright
      simp only [hmin, hactive, hright, decide_true, Bool.and_self, Bool.not_true, Bool.and_false,
        if_true, Bool.false_eq_true, if_false]
      omega
    · have hge : b ≤ (s.1 + s.2) / 2 := Nat.not_lt.mp fun h => hright (hmid.mpr h)
      simp only [hmin, hactive, hright, decide_true, decide_false, Bool.and_false, Bool.not_false,
        Bool.and_self, if_true, Bool.false_eq_true, if_false]
      omega
  · simp only [hactive, decide_false, Bool.false_and, Bool.false_eq_true, if_false]
    omega

/-- **The search finds the request**: after `k` rounds from `[0, bs]` the bounds are at most
`bs / 2 ^ k` apart. -/
theorem rowSearch_eq {incl : ℕ → ℕ} {bs row b : ℕ} (hincl : ∀ i < bs, incl i ≤ row ↔ i < b)
    (hb : b ≤ bs) (hbs : bs < 2 ^ searchNbits) :
    ((rowSearchStep incl bs row)^[searchNbits] (0, bs)).1 = b := by
  have hrun : ∀ k, ((rowSearchStep incl bs row)^[k] (0, bs)).1 ≤ b ∧
      b ≤ ((rowSearchStep incl bs row)^[k] (0, bs)).2 ∧
      ((rowSearchStep incl bs row)^[k] (0, bs)).2 ≤ bs ∧
      ((rowSearchStep incl bs row)^[k] (0, bs)).2 - ((rowSearchStep incl bs row)^[k] (0, bs)).1 ≤
        bs / 2 ^ k := by
    intro k
    induction k with
    | zero => exact ⟨Nat.zero_le b, hb, Nat.le_refl bs, by simp⟩
    | succ k ih =>
      obtain ⟨hlo, hhi, hle, hm⟩ := ih
      rw [Function.iterate_succ_apply', Nat.pow_succ, ← Nat.div_div_eq_div_mul]
      exact rowSearchStep_spec hincl hlo hhi hle hm
  obtain ⟨hlo, hhi, -, hm⟩ := hrun searchNbits
  rw [Nat.div_eq_of_lt hbs] at hm
  omega

/-- **A packed row is found in its request and slot.** -/
theorem compactRowIndex_eq {verifyLens : ℕ → ℕ} {bs b j : ℕ} (hbs : bs < 2 ^ searchNbits)
    (hb : b < bs) (hj : j < verifyLens b) :
    compactRowIndex verifyLens bs (offset verifyLens b + j) = (b, j) := by
  have hincl : ∀ i < bs, offset verifyLens (i + 1) ≤ offset verifyLens b + j ↔ i < b := by
    intro i _
    constructor
    · intro hle
      by_contra hge
      have hmono : offset verifyLens (b + 1) ≤ offset verifyLens (i + 1) :=
        offset_mono verifyLens (by omega)
      rw [offset_succ] at hmono
      omega
    · intro hlt
      exact (offset_mono verifyLens hlt).trans (Nat.le_add_right _ _)
  have hvalid : offset verifyLens b + j < offset verifyLens (bs - 1 + 1) := by
    have hmono := offset_mono verifyLens (show b + 1 ≤ bs - 1 + 1 by omega)
    rw [offset_succ] at hmono
    omega
  have hstart : (if 0 < b then offset verifyLens (b - 1 + 1) else 0) = offset verifyLens b := by
    cases b with
    | zero => rfl
    | succ b => exact if_pos (Nat.succ_pos b)
  simp only [compactRowIndex, rowSearch_eq hincl hb.le hbs, hvalid, decide_true, if_true, hstart,
    Nat.add_sub_cancel_left]

theorem compactVerifyIds_eq [NeZero V] (anchors : ℕ → Fin V) (draftTokens : ℕ → ℕ → Fin V)
    {verifyLens : ℕ → ℕ} {bs b j : ℕ} (hbs : bs < 2 ^ searchNbits) (hb : b < bs)
    (hj : j < verifyLens b) :
    compactVerifyIds anchors draftTokens verifyLens bs (offset verifyLens b + j) =
      if j = 0 then anchors b else draftTokens b (j - 1) := by
  have hsafe : min b (bs - 1) = b := by omega
  simp only [compactVerifyIds, compactRowIndex_eq hbs hb hj, hb, hsafe, decide_true, if_true]

/-! ### Signed rows -/

/-- `cap_correct_len`, on the signed integers it computes with. -/
def capCorrectLenSigned (correctLen verifyLens : ℤ) : ℤ × ℤ :=
  let ell := verifyLens - 1
  let capped := min correctLen ell
  (capped, correctLen - capped)

theorem capCorrectLenSigned_eq (correctLen : ℕ) {verifyLen : ℕ} (h : 1 ≤ verifyLen) :
    capCorrectLenSigned correctLen verifyLen =
      (((capCorrectLen correctLen verifyLen).1 : ℤ),
        ((capCorrectLen correctLen verifyLen).2 : ℤ)) := by
  have hell : (verifyLen : ℤ) - 1 = (verifyLen - 1 : ℕ) := by omega
  have hle : min correctLen (verifyLen - 1) ≤ correctLen := Nat.min_le_left _ _
  simp only [capCorrectLenSigned, capCorrectLen, hell, Nat.cast_sub hle, Nat.cast_min]

/-- `_gather_row_bonus_kernel`, lane `offs`, over a flat table of `rows` rows: a load outside
of it finds what is `outside`. -/
def gatherRowBonus (table : ℕ → ℕ → ℤ) (outside : ℤ → ℤ) (rows cols : ℕ) (idx : ℕ → ℤ) (offs : ℕ) :
    ℤ :=
  let addr := (offs : ℤ) * cols + idx offs
  if 0 ≤ addr ∧ addr < rows * cols then table (addr.toNat / cols) (addr.toNat % cols)
  else outside addr

/-- A gather within the row reads the row. -/
theorem gatherRowBonus_eq (table : ℕ → ℕ → ℤ) (outside : ℤ → ℤ) {rows cols offs i : ℕ}
    {idx : ℕ → ℤ} (hoffs : offs < rows) (hi : i < cols) (hidx : idx offs = i) :
    gatherRowBonus table outside rows cols idx offs = table offs i := by
  have haddr : (offs : ℤ) * cols + idx offs = (offs * cols + i : ℕ) := by
    rw [hidx]
    push_cast
    rfl
  have hlt : ((offs * cols + i : ℕ) : ℤ) < rows * cols := by exact_mod_cast block_lt hoffs hi
  unfold gatherRowBonus
  rw [haddr, if_pos ⟨Int.natCast_nonneg _, hlt⟩, Int.toNat_natCast, block_div hi, block_mod hi]

/-- A row of the output buffers. -/
structure EpilogueRow where
  correctLen : ℤ
  bonus : ℤ
  capTrimLens : ℤ
  commitLens : ℤ
  newSeqLens : ℤ
  outTokens : List ℤ
  deriving DecidableEq, Repr

/-- What a row hands on: everything but the trimmed length. -/
def EpilogueRow.observed (r : EpilogueRow) : ℤ × ℤ × ℤ × ℤ × List ℤ :=
  (r.correctLen, r.bonus, r.commitLens, r.newSeqLens, r.outTokens.take r.commitLens.toNat)

/-- The row of an accept within its window. -/
def AcceptOuts.toRow (o : AcceptOuts) : EpilogueRow :=
  ⟨o.correctLen, o.bonus, o.capTrimLens, o.commitLens, o.newSeqLens, o.outTokens⟩

theorem AcceptOuts.observed_toRow {o o' : AcceptOuts} (h : o.observed = o'.observed) :
    o.toRow.observed = o'.toRow.observed := by
  simp only [AcceptOuts.observed, AcceptOuts.committed, Prod.mk.injEq] at h
  obtain ⟨hcorrect, hbonus, hcommit, hnew, htokens⟩ := h
  simp only [EpilogueRow.observed, AcceptOuts.toRow, Int.toNat_natCast, hcorrect, hbonus, hcommit,
    hnew]
  rw [← htokens, hcommit]

/-! ### The epilogue -/

/-- The static buffers of `DsparkVerifyEpilogue`; `outs` are the rows of its output
buffers. -/
structure EpilogueBuffers (V : ℕ) (K : Type) where
  injectGateBuf : ℕ
  verifyLensBuf : ℕ → ℕ
  draftTokensBuf : ℕ → Fin V
  stridedLogits : ℕ → Fin V → K
  outs : ℕ → EpilogueRow

namespace EpilogueBuffers
variable {stride : ℕ} (e : EpilogueBuffers V K)

/-- `begin_step`. -/
def beginStep (layout : Option (RaggedVerifyLayout stride)) (armed : Bool) : EpilogueBuffers V K :=
  { e with
    verifyLensBuf := match layout with
      | none => fun _ => 0
      | some layout => fun b => if b < layout.bs then layout.lens b else 0
    injectGateBuf := if armed then 1 else 0 }

/-- `_build_out_tokens_kernel`, row `b`. -/
def outRow (draftTokens : ℕ → ℕ → Fin V) (stride : ℕ) (correctLen bonus : ℤ) (b : ℕ) : List ℤ :=
  (List.range stride).map fun (k : ℕ) =>
    if (k : ℤ) = correctLen then bonus
    else if k < stride - 1 then ((draftTokens b k).val : ℤ) else 0

variable [Field K] [LinearOrder K] [NeZero V]

/-- `_scatter`, the logits. -/
def scatter (stride bs : ℕ) (compactLogits : ℕ → Fin V → K) : EpilogueBuffers V K :=
  { e with
    stridedLogits := fun o =>
      if o < bs * stride then
        scatterCompactToStrided compactLogits e.verifyLensBuf (fun _ => 0) stride o
      else e.stridedLogits o }

/-- The window `_accept` hands to `accept_greedy_triton`. -/
def window (stride bs : ℕ) (inputIds : ℕ → Fin V) (seqLens : ℕ → ℕ) : VerifyBatch V K where
  bs := bs
  stride := stride
  candidates b j := scatterCompactToStrided inputIds e.verifyLensBuf 0 stride (b * stride + j)
  draftTokens b k := e.draftTokensBuf (b * (stride - 1) + k)
  targetLogits b j := e.stridedLogits (b * stride + j)
  prefixLens := seqLens
  cutoffVerifyLens := some e.verifyLensBuf

/-- `CapCorrectLen` in `accept_greedy_triton`.  A row past the batch has verify length zero. -/
def capped (stride bs : ℕ) (inputIds : ℕ → Fin V) (seqLens : ℕ → ℕ) (b : ℕ) : ℤ × ℤ :=
  capCorrectLenSigned ((e.window stride bs inputIds seqLens).greedyBlock.correctLenFused b)
    (e.verifyLensBuf b)

/-- `_accept`, with `finalize_accept_lens_triton`; `uninit` is what the gathered bonus
tensor holds before it is written, and `outside` the memory around the table. -/
def accept (stride bs : ℕ) (inputIds : ℕ → Fin V) (seqLens : ℕ → ℕ) (uninit : ℕ → ℤ)
    (outside : ℤ → ℤ) : EpilogueBuffers V K :=
  let w := e.window stride bs inputIds seqLens
  let correctLen := fun b => (e.capped stride bs inputIds seqLens b).1
  let bonus := writeAll uninit ((tiles 256 bs).map fun offs =>
    (offs, gatherRowBonus w.greedyBlock.targetPredict outside bs stride correctLen offs))
  { e with
    outs := fun b =>
      if b < bs then
        { correctLen := correctLen b
          bonus := bonus b
          capTrimLens := (e.capped stride bs inputIds seqLens b).2
          commitLens := correctLen b + 1
          newSeqLens := seqLens b + (correctLen b + 1)
          outTokens := outRow w.draftTokens stride (correctLen b) (bonus b) b }
      else e.outs b }

end EpilogueBuffers

/-- The kernel builds the row `build_out_tokens` builds. -/
theorem VerifyBatch.buildOutTokens_eq_outRow (w : VerifyBatch V K) (h : 0 < w.stride)
    (correctLen : ℕ) (bonus : ℤ) (b : ℕ) :
    w.buildOutTokens correctLen bonus b =
      EpilogueBuffers.outRow w.draftTokens w.stride correctLen bonus b := by
  unfold buildOutTokens EpilogueBuffers.outRow
  refine List.ext_getElem (by simp; omega) fun k hk hk' => ?_
  have hlt : k < w.stride := by simpa using hk'
  rw [List.getElem_set, List.getElem_map, List.getElem_range]
  by_cases hk : correctLen = k
  · rw [if_pos hk, if_pos (Nat.cast_inj.mpr hk.symm)]
  · rw [if_neg hk, if_neg fun heq => hk (Nat.cast_inj.mp heq).symm]
    by_cases hdraft : k < w.stride - 1
    · rw [if_pos hdraft, List.getElem_append_left (by simpa using hdraft)]
      simp
    · rw [if_neg hdraft, List.getElem_append_right (by simpa using hdraft)]
      simp

/-- On a row with a window the epilogue stores a greedy acceptance of it. -/
theorem EpilogueBuffers.accept_outs [Field K] [LinearOrder K] [NeZero V] (e : EpilogueBuffers V K)
    {stride bs b : ℕ} (inputIds : ℕ → Fin V) (seqLens : ℕ → ℕ) (uninit : ℕ → ℤ)
    (outside : ℤ → ℤ) (hb : b < bs) (hpos : 1 ≤ e.verifyLensBuf b)
    (hle : e.verifyLensBuf b ≤ stride)
    (σ : SamplingInputs V K) :
    (e.accept stride bs inputIds seqLens uninit outside).outs b =
      ((e.window stride bs inputIds seqLens).acceptAndFinalize
        { σ with greedyMask := fun _ => true } b).toRow := by
  let w := e.window stride bs inputIds seqLens
  have hcapped : e.capped stride bs inputIds seqLens b =
      (((w.cap (w.greedyBlock.correctLenFused b) b).1 : ℤ),
        ((w.cap (w.greedyBlock.correctLenFused b) b).2 : ℤ)) := capCorrectLenSigned_eq _ hpos
  have hlt : (w.cap (w.greedyBlock.correctLenFused b) b).1 < stride := by
    have hmin : (w.cap (w.greedyBlock.correctLenFused b) b).1 ≤ e.verifyLensBuf b - 1 :=
      Nat.min_le_right _ _
    omega
  have hbonus : writeAll uninit ((tiles 256 bs).map fun offs =>
      (offs, gatherRowBonus w.greedyBlock.targetPredict outside bs stride
        (fun b => (e.capped stride bs inputIds seqLens b).1) offs)) b =
          (w.acceptGreedyTriton uninit b).bonus := by
    rw [writeAll_tiles _ _ (by decide) hb, gatherRowBonus_eq _ _ hb hlt
      (show (e.capped stride bs inputIds seqLens b).1 = _ by rw [hcapped])]
    exact (writeAll_tiles uninit (fun offs => w.greedyBlock.targetPredict offs
      (w.cap (w.greedyBlock.correctLenFused offs) offs).1) (by decide) hb).symm
  have haccept : w.acceptDraftTokens { σ with greedyMask := fun _ => true } b =
      w.acceptGreedyTriton uninit b := by
    rw [VerifyBatch.acceptDraftTokens_eq _ _ hb, VerifyBatch.acceptGreedyTriton_eq hb]
    rfl
  have hnew : (e.accept stride bs inputIds seqLens uninit outside).outs b = _ := if_pos hb
  have hcorrect : (e.capped stride bs inputIds seqLens b).1 =
      ((w.acceptGreedyTriton uninit b).correctLen : ℤ) := by
    rw [hcapped]
    rfl
  have htrim : (e.capped stride bs inputIds seqLens b).2 =
      ((w.acceptGreedyTriton uninit b).capTrimLens : ℤ) := by
    rw [hcapped]
    rfl
  unfold VerifyBatch.acceptAndFinalize
  rw [hnew]
  dsimp only
  rw [hbonus, haccept, VerifyBatch.buildOutTokens_eq_outRow _ (hpos.trans hle)]
  simp only [hcorrect, htrim, AcceptOuts.toRow, Nat.cast_add, Nat.cast_one]
  rfl

/-! ### One step, folded and eager -/

/-- A compact verify step whose draft was folded too: the draft tokens are a view of the
epilogue's buffer.  The graph runs over `captureBs` requests on its static inputs, whose
rows past the batch and past the packed tokens are left from earlier steps. -/
structure CompactStep (V : ℕ) (K : Type) [NeZero V] where
  stride : ℕ
  layout : RaggedVerifyLayout stride
  anchors : ℕ → Fin V
  prefixLens : ℕ → ℕ
  compactLogits : ℕ → Fin V → K
  buffers : EpilogueBuffers V K
  captureBs : ℕ
  inputIds : ℕ → Fin V
  seqLens : ℕ → ℕ
  uninit : ℕ → ℤ
  outside : ℤ → ℤ
  bs_le_capture : layout.bs ≤ captureBs
  bs_lt_search : layout.bs < 2 ^ searchNbits
  inputIds_eq : ∀ row < layout.graphNumTokens, inputIds row =
    compactVerifyIds anchors (fun b k => buffers.draftTokensBuf (b * (stride - 1) + k)) layout.lens
      layout.bs row
  seqLens_eq : ∀ b < layout.bs, seqLens b = prefixLens b

namespace CompactStep
variable [NeZero V] (x : CompactStep V K)

/-- The draft tokens of the step. -/
def draftTokens (b k : ℕ) : Fin V := x.buffers.draftTokensBuf (b * (x.stride - 1) + k)

variable [Field K] [LinearOrder K]

/-- The window of the eager path: `verify_ids_2d` against the scattered logits. -/
def eagerWindow : VerifyBatch V K :=
  VerifyBatch.runCompact
    { bs := x.layout.bs
      stride := x.stride
      candidates := fun b j => if j = 0 then x.anchors b else x.draftTokens b (j - 1)
      draftTokens := x.draftTokens
      targetLogits := fun _ _ _ => 0
      prefixLens := x.prefixLens
      cutoffVerifyLens := none }
    x.compactLogits x.layout.lens fun _ => 0

/-- The buffers after `begin_step` and a replay of the graph. -/
def replay (armed : Bool) : EpilogueBuffers V K :=
  let e := (x.buffers.beginStep (some x.layout) armed).scatter x.stride x.captureBs x.compactLogits
  e.accept x.stride x.captureBs x.inputIds x.seqLens x.uninit x.outside

/-- `fold_eligible`: the epilogue is there, the draft was folded, every request is greedy,
the logits need no adjustment, no acceptance is simulated and no request has a grammar. -/
def foldEligible (σ : SamplingInputs V K)
    (hasEpilogue proposalFolded adjustmentsNoop simulated hasGrammar : Bool) : Bool :=
  hasEpilogue && proposalFolded && (List.range x.layout.bs).all σ.greedyMask && adjustmentsNoop &&
    !simulated && !hasGrammar

/-- `accept_and_finalize`: the folded results are read from the buffers. -/
def acceptAndFinalize (σ : SamplingInputs V K) (foldedAccept : Bool) (b : ℕ) : EpilogueRow :=
  if foldedAccept then (x.replay foldedAccept).outs b
  else (x.eagerWindow.acceptAndFinalize σ b).toRow

variable {x} {b : ℕ}

/-- The window the graph accepts. -/
def foldedWindow (x : CompactStep V K) (armed : Bool) : VerifyBatch V K :=
  ((x.buffers.beginStep (some x.layout) armed).scatter x.stride x.captureBs x.compactLogits).window
    x.stride x.captureBs x.inputIds x.seqLens

omit [Field K] [LinearOrder K] in
/-- `begin_step` leaves the layout's lengths, and zeros for the missing requests. -/
theorem beginStep_verifyLensBuf (x : CompactStep V K) (armed : Bool) :
    (x.buffers.beginStep (some x.layout) armed).verifyLensBuf = x.layout.lens := by
  funext b
  show (if b < x.layout.bs then x.layout.lens b else 0) = x.layout.lens b
  by_cases hb : b < x.layout.bs
  · rw [if_pos hb]
  · rw [if_neg hb, RaggedVerifyLayout.lens_of_le (Nat.not_lt.mp hb)]

omit [Field K] [LinearOrder K] in
/-- A packed input id is the token of the request's window. -/
theorem inputIds_offset (hb : b < x.layout.bs) {j : ℕ} (hj : j < x.layout.lens b) :
    x.inputIds (offset x.layout.lens b + j) =
      if j = 0 then x.anchors b else x.draftTokens b (j - 1) := by
  have htotal : offset x.layout.lens b + j < x.layout.graphNumTokens := by
    have hmono := offset_mono x.layout.lens (Nat.succ_le_of_lt hb)
    have hsum := x.layout.total_le
    rw [offset_succ, x.layout.offset_bs] at hmono
    omega
  rw [x.inputIds_eq _ htotal]
  exact compactVerifyIds_eq _ _ x.bs_lt_search hb hj

omit [LinearOrder K] in
theorem eagerWindow_capped (hb : b < x.layout.bs) : x.eagerWindow.Capped x.layout.lens b where
  mem := hb
  cutoff := rfl
  pos := x.layout.one_le _ (RaggedVerifyLayout.lens_mem hb)
  le := x.layout.le_stride _ (RaggedVerifyLayout.lens_mem hb)
  drafts _ _ := rfl

omit [LinearOrder K] in
/-- A scattered candidate of the graph. -/
theorem foldedWindow_candidates (armed : Bool) (hb : b < x.layout.bs) {j : ℕ}
    (hj : j < x.layout.lens b) :
    (x.foldedWindow armed).candidates b j =
      if j = 0 then x.anchors b else x.draftTokens b (j - 1) := by
  have hstride : j < x.stride := hj.trans_le (x.layout.le_stride _ (RaggedVerifyLayout.lens_mem hb))
  show scatterCompactToStrided x.inputIds
    (x.buffers.beginStep (some x.layout) armed).verifyLensBuf 0 x.stride (b * x.stride + j) = _
  rw [beginStep_verifyLensBuf, scatterCompactToStrided_row _ _ _ hstride, if_pos hj]
  exact inputIds_offset hb hj

omit [LinearOrder K] in
theorem foldedWindow_capped (armed : Bool) (hb : b < x.layout.bs) :
    (x.foldedWindow armed).Capped x.layout.lens b where
  mem := hb.trans_le x.bs_le_capture
  cutoff := congrArg some (x.beginStep_verifyLensBuf armed)
  pos := x.layout.one_le _ (RaggedVerifyLayout.lens_mem hb)
  le := x.layout.le_stride _ (RaggedVerifyLayout.lens_mem hb)
  drafts _ hi := foldedWindow_candidates armed hb hi

omit [LinearOrder K] in
/-- **The graph sees the verified rows of the eager path**, whatever its buffers held. -/
theorem foldedWindow_same (armed : Bool) (hb : b < x.layout.bs) :
    VerifyBatch.SameVerified x.layout.lens b x.eagerWindow (x.foldedWindow armed) where
  stride := rfl
  prefixLens := x.seqLens_eq b hb
  logits i hi := by
    have hstride : i < x.stride :=
      hi.trans_le (x.layout.le_stride _ (RaggedVerifyLayout.lens_mem hb))
    have hrow : b * x.stride + i < x.captureBs * x.stride :=
      block_lt (hb.trans_le x.bs_le_capture) hstride
    refine (if_pos hrow).trans ?_
    rw [beginStep_verifyLensBuf]
    rfl
  candidates i hi := foldedWindow_candidates armed hb hi
  drafts _ _ := rfl

/-- What the graph stores for a request of the batch is a greedy acceptance of its window. -/
theorem replay_outs (σ : SamplingInputs V K) (armed : Bool) (hb : b < x.layout.bs) :
    (x.replay armed).outs b =
      ((x.foldedWindow armed).acceptAndFinalize
        { σ with greedyMask := fun _ => true } b).toRow := by
  have hcapped := foldedWindow_capped (x := x) armed hb
  have hlens : ((x.buffers.beginStep (some x.layout) armed).scatter x.stride x.captureBs
      x.compactLogits).verifyLensBuf b = x.layout.lens b :=
    congrFun (x.beginStep_verifyLensBuf armed) b
  exact EpilogueBuffers.accept_outs _ _ _ _ _ hcapped.mem (hcapped.pos.trans_eq hlens.symm)
    (hlens.trans_le hcapped.le) σ

/-- **A folded step hands on what the eager step hands on**: the accepted length, the bonus,
the commit length, the new sequence length and the committed tokens of every request. -/
theorem foldedAccept_observed (x : CompactStep V K) (σ : SamplingInputs V K)
    {hasEpilogue proposalFolded adjustmentsNoop simulated hasGrammar : Bool}
    (h : x.foldEligible σ hasEpilogue proposalFolded adjustmentsNoop simulated hasGrammar = true)
    (hb : b < x.layout.bs) :
    (x.acceptAndFinalize σ true b).observed = (x.acceptAndFinalize σ false b).observed := by
  have hgreedy : σ.greedyMask b := by
    simp only [foldEligible, Bool.and_eq_true, List.all_eq_true, List.mem_range] at h
    exact h.1.1.1.2 b hb
  show ((x.replay true).outs b).observed = (x.eagerWindow.acceptAndFinalize σ b).toRow.observed
  rw [replay_outs σ true hb]
  refine AcceptOuts.observed_toRow ?_
  exact (eagerWindow_capped hb).observed_greedy (foldedWindow_capped true hb)
    (foldedWindow_same true hb) hgreedy rfl

end CompactStep

/-! ### Two steps -/

/-- One request that verifies its first slot of two, over even logits. -/
def oneSlotStep : CompactStep 2 ℚ where
  stride := 2
  layout :=
    { verifyLens := [1]
      graphNumTokens := 2
      one_le := by decide
      le_stride := by decide
      total_le := by decide }
  anchors _ := 1
  prefixLens _ := 5
  compactLogits _ _ := 0
  buffers := ⟨0, fun _ => 7, fun _ => 1, fun _ _ => 3, fun _ => ⟨9, 9, 9, 9, 9, []⟩⟩
  captureBs := 4
  inputIds row := if row = 0 then 1 else 0
  seqLens b := if b = 0 then 5 else 8
  uninit _ := 9
  outside _ := 9
  bs_le_capture := by decide
  bs_lt_search := by decide
  inputIds_eq := by decide
  seqLens_eq := by decide

theorem foldedAccept_observed_oneSlot :
    (oneSlotStep.acceptAndFinalize (evenInputs true) true 0).observed =
      (oneSlotStep.acceptAndFinalize (evenInputs true) false 0).observed :=
  @CompactStep.foldedAccept_observed _ _ _ _ _ _ oneSlotStep (evenInputs true)
    true true true false false (by decide) (by decide)

/-- **The epilogue accepts a sampled request greedily**: its bonus is the argmax, and the
eager path's is the accepted draft. -/
theorem folded_bonus_of_sampled :
    (∀ logits, ∑ t, (evenInputs false).rowProbs 0 logits t = 1) ∧
      (∀ i, ∑ t, (evenInputs false).draftProbs 0 i t = 1) ∧
      (oneSlotStep.acceptAndFinalize (evenInputs false) true 0).bonus = 0 ∧
      (oneSlotStep.acceptAndFinalize (evenInputs false) false 0).bonus = 1 := by
  refine ⟨?_, ?_, ?_, ?_⟩
  · intro logits
    simp only [evenInputs, Fin.sum_univ_two]
    norm_num
  · intro i
    simp only [evenInputs, Fin.sum_univ_two]
    norm_num
  · decide +kernel
  · decide +kernel

end LatentSpec
