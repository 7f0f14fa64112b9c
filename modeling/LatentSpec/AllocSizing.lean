import LatentSpec.TiledStores

/-! # Sizing the decode over-allocation

Speculative decoding reserves cache slots ahead of the device: every decode step extends
the allocation of a request to `page_aligned_decode_alloc_lens` and writes the new slots
into the request's row of `req_to_token`.  The width of a row is fixed at start-up, as
the context length plus `get_req_to_token_extra_context_len`.

`Config` holds the configuration leaves both formulas read.  `ReqKv.Live` are the
lengths a request can have between its prefill and its last step.
-/
namespace LatentSpec
open TiledStores

/-- `speculative_algorithm`: a builtin or a registered plugin.  What the sizing code asks
of it is whether the draft phase writes cache entries. -/
inductive SpecAlgorithm
  | dflash | dspark | eagle | eagle3 | frozenKvMtp | latentspec | standalone | ngram
  | custom (draftKv : Bool)
  deriving DecidableEq, Repr

/-- `has_draft_kv`. -/
def SpecAlgorithm.hasDraftKv : SpecAlgorithm → Bool
  | .ngram => false
  | .custom draftKv => draftKv
  | _ => true

/-- `x or default`, for an optional integer. -/
def orDefault (x : Option ℕ) (d : ℕ) : ℕ :=
  match x with
  | none => d
  | some 0 => d
  | some (n + 1) => n + 1

/-- The configuration leaves the sizing formulas read. -/
structure Config where
  contextLen : ℕ
  pageSize : ℕ
  attnDcpSize : ℕ
  speculativeAlgorithm : Option SpecAlgorithm
  speculativeNumSteps : Option ℕ
  speculativeEagleTopk : Option ℕ
  speculativeNumDraftTokens : Option ℕ
  maxSpeculativeNumDraftTokens : Option ℕ

namespace Config
variable (cfg : Config)

/-- `max_speculative_num_draft_tokens`: the larger of the two bounds that are set. -/
def maxDraftTokens : Option ℕ :=
  match cfg.speculativeNumDraftTokens, cfg.maxSpeculativeNumDraftTokens with
  | none, none => none
  | some a, none => some a
  | none, some b => some b
  | some a, some b => some (max a b)

/-- `get_alloc_page_size`, the page size of the allocator. -/
def allocPageSize : ℕ := cfg.pageSize * cfg.attnDcpSize

/-- `get_alloc_len_per_decode`; `none` is the `TypeError` of a missing draft-token
count. -/
def allocLenPerDecode : Option ℕ :=
  match cfg.speculativeAlgorithm with
  | none => some 1
  | some algo =>
    let specSteps := orDefault cfg.speculativeNumSteps 1
    let specTopk := orDefault cfg.speculativeEagleTopk 1
    let pageSize := cfg.allocPageSize
    cfg.maxDraftTokens.map fun specTokens =>
      if pageSize = 1 ∨ specTopk = 1 ∨ ¬ algo.hasDraftKv then
        max (specSteps * specTopk) specTokens
      else
        let numNewPagesPerTopk := ((pageSize - 1) + specSteps + pageSize - 1) / pageSize
        max (numNewPagesPerTopk * pageSize * specTopk) specTokens

/-- `get_alloc_reserve_per_decode`. -/
def allocReservePerDecode : Option ℕ := cfg.allocLenPerDecode.map (2 * ·)

/-- `get_req_to_token_extra_context_len`. -/
def reqToTokenExtraContextLen : Option ℕ :=
  let extra := 4 + orDefault cfg.maxDraftTokens 0
  let pageSize := cfg.allocPageSize
  if cfg.speculativeAlgorithm ≠ none ∧ 1 < pageSize then
    cfg.allocReservePerDecode.map fun reserve => max extra (reserve + pageSize - 1)
  else some extra

/-- The width of a `req_to_token` row, `max_context_len` of the pool. -/
def rowWidth : Option ℕ := cfg.reqToTokenExtraContextLen.map (cfg.contextLen + ·)

end Config

/-! ### Reserving -/

/-- The two lengths the host keeps for a request. -/
structure ReqKv where
  kvCommittedLen : ℕ
  kvAllocatedLen : ℕ
  deriving DecidableEq, Repr

/-- Rounding up to whole pages, `(n + page_size - 1) // page_size * page_size`. -/
def ceilPage (page n : ℕ) : ℕ := (n + page - 1) / page * page

/-- `nxt` of one request in `page_aligned_decode_alloc_lens`. -/
def nxtKvLen (reserve page : ℕ) (kv : ReqKv) : ℕ :=
  max kv.kvAllocatedLen (ceilPage page (kv.kvCommittedLen + reserve))

/-- The stores of `assign_req_to_token_pool` for one request: a masked loop over tiles
of 32 that copies `kv_end - kv_start` slots, taken from `out_offset` on, behind
`kv_start` of the request's row. -/
def assignStores (poolLen row kvStart kvEnd outOffset : ℕ) (outCacheLoc : ℕ → ℕ) :
    List (ℕ × ℕ) :=
  (tiles 32 (kvEnd - kvStart)).map fun j =>
    (row * poolLen + (kvStart + j), outCacheLoc (outOffset + j))

theorem assignStores_eq (poolLen row kvStart kvEnd outOffset : ℕ) (outCacheLoc : ℕ → ℕ) :
    assignStores poolLen row kvStart kvEnd outOffset outCacheLoc =
      stretch (row * poolLen + kvStart) (kvEnd - kvStart) fun j => outCacheLoc (outOffset + j) := by
  rw [assignStores, tiles_eq_range (by decide), stretch]
  refine List.map_congr_left fun j _ => ?_
  rw [Nat.add_assoc]

theorem le_ceilPage {page : ℕ} (h : 0 < page) (n : ℕ) : n ≤ ceilPage page n := by
  have hdiv := Nat.div_add_mod (n + page - 1) page
  have hmod := Nat.mod_lt (n + page - 1) h
  rw [ceilPage, Nat.mul_comm]
  omega

theorem ceilPage_le (page n : ℕ) : ceilPage page n ≤ n + page - 1 :=
  Nat.div_mul_le_self _ _

theorem ceilPage_mono {page n m : ℕ} (h : n ≤ m) : ceilPage page n ≤ ceilPage page m := by
  unfold ceilPage
  gcongr

@[simp] theorem ceilPage_one (n : ℕ) : ceilPage 1 n = n := by
  rw [ceilPage, Nat.div_one, Nat.mul_one]
  omega

/-! ### The lengths of a live request -/

/-- **The host lengths of a live request.**  A prefill sets both to the prompt length,
a decode step extends the allocation, and a resolved result adds its accepted tokens. -/
inductive ReqKv.Live (reserve page : ℕ) : ReqKv → Prop
  | prefill (seqLen : ℕ) : Live reserve page ⟨seqLen, seqLen⟩
  | prepare {kv : ReqKv} : Live reserve page kv →
      Live reserve page { kv with kvAllocatedLen := nxtKvLen reserve page kv }
  | resolve {kv : ReqKv} (commitLen : ℕ) : Live reserve page kv →
      Live reserve page { kv with kvCommittedLen := kv.kvCommittedLen + commitLen }

/-- The allocation never runs ahead of the reservation of the committed length. -/
theorem ReqKv.Live.allocated_le {reserve page : ℕ} (hpage : 0 < page) {kv : ReqKv}
    (h : kv.Live reserve page) :
    kv.kvAllocatedLen ≤ ceilPage page (kv.kvCommittedLen + reserve) := by
  induction h with
  | prefill seqLen => exact (Nat.le_add_right _ _).trans (le_ceilPage hpage _)
  | prepare _ ih => exact max_le ih le_rfl
  | resolve commitLen _ ih => exact ih.trans (ceilPage_mono (by simp only; omega))

theorem ReqKv.Live.nxtKvLen_eq {reserve page : ℕ} (hpage : 0 < page) {kv : ReqKv}
    (h : kv.Live reserve page) :
    nxtKvLen reserve page kv = ceilPage page (kv.kvCommittedLen + reserve) :=
  max_eq_right (h.allocated_le hpage)

/-! ### Headroom -/

/-- A speculative configuration that can run: an algorithm is set, its verify block has
`block` tokens, a draft tree has one branch, and pages are not empty. -/
structure Config.Speculative (cfg : Config) (block : ℕ) : Prop where
  algorithm : cfg.speculativeAlgorithm ≠ none
  numDraftTokens : cfg.speculativeNumDraftTokens = some block
  block_pos : 0 < block
  topk : orDefault cfg.speculativeEagleTopk 1 = 1
  page_pos : 0 < cfg.allocPageSize

/-- The draft-token bound of a configuration: its block, or the larger adaptive bound. -/
def Config.draftBound (cfg : Config) (block : ℕ) : ℕ :=
  max block (cfg.maxSpeculativeNumDraftTokens.getD 0)

/-- **The reserved length fits a row**: every cell the row write stores to belongs to
the row it is meant for. -/
def RowFits (cfg : Config) (block : ℕ) (kv : ReqKv) : Prop :=
  ∃ width, cfg.rowWidth = some width ∧
    nxtKvLen (2 * block) cfg.allocPageSize kv ≤ width ∧
    ∀ row outOffset outCacheLoc, ∀ w ∈ assignStores width row kv.kvAllocatedLen
      (nxtKvLen (2 * block) cfg.allocPageSize kv) outOffset outCacheLoc, w.1 / width = row

section
variable {cfg : Config} {block : ℕ} (h : cfg.Speculative block)
include h

theorem Config.Speculative.maxDraftTokens_eq :
    cfg.maxDraftTokens = some (cfg.draftBound block) := by
  rw [Config.maxDraftTokens, h.numDraftTokens, Config.draftBound]
  cases cfg.maxSpeculativeNumDraftTokens <;> simp

theorem Config.Speculative.draftBound_pos : 0 < cfg.draftBound block :=
  h.block_pos.trans_le (le_max_left _ _)

theorem Config.Speculative.orDefault_maxDraftTokens :
    orDefault cfg.maxDraftTokens 0 = cfg.draftBound block := by
  have hpos := h.draftBound_pos
  rw [h.maxDraftTokens_eq]
  cases hbound : cfg.draftBound block <;> simp [orDefault]

/-- A chain reserves twice the larger of its steps and its draft-token bound. -/
theorem Config.Speculative.allocReservePerDecode_eq :
    cfg.allocReservePerDecode =
      some (2 * max (orDefault cfg.speculativeNumSteps 1) (cfg.draftBound block)) := by
  obtain ⟨algo, halgo⟩ := Option.ne_none_iff_exists'.mp h.algorithm
  rw [Config.allocReservePerDecode, Config.allocLenPerDecode, halgo, h.maxDraftTokens_eq]
  simp [h.topk]

/-- The row of an unpaged pool has the default headroom only. -/
theorem Config.Speculative.rowWidth_of_unpaged (hpage : cfg.allocPageSize = 1) :
    cfg.rowWidth = some (cfg.contextLen + (4 + cfg.draftBound block)) := by
  rw [Config.rowWidth, Config.reqToTokenExtraContextLen, h.orDefault_maxDraftTokens, hpage]
  simp

/-- The row of a paged pool holds the reserve and a page less one. -/
theorem Config.Speculative.rowWidth_of_paged (hpage : 1 < cfg.allocPageSize) :
    ∃ width, cfg.rowWidth = some width ∧
      cfg.contextLen + (2 * block + cfg.allocPageSize - 1) ≤ width := by
  refine ⟨cfg.contextLen + max (4 + cfg.draftBound block)
    (2 * max (orDefault cfg.speculativeNumSteps 1) (cfg.draftBound block) +
      cfg.allocPageSize - 1), ?_, ?_⟩
  · rw [Config.rowWidth, Config.reqToTokenExtraContextLen, h.orDefault_maxDraftTokens,
      if_pos ⟨h.algorithm, hpage⟩, h.allocReservePerDecode_eq]
    rfl
  · have hbound : block ≤ cfg.draftBound block := le_max_left _ _
    omega

end

/-- A reserved length inside the width keeps the row write inside the row. -/
theorem assignStores_row {width row kvStart kvEnd outOffset : ℕ} {outCacheLoc : ℕ → ℕ}
    (hend : kvEnd ≤ width) {w : ℕ × ℕ}
    (hw : w ∈ assignStores width row kvStart kvEnd outOffset outCacheLoc) :
    w.1 / width = row := by
  rw [assignStores_eq] at hw
  obtain ⟨hlo, hhi⟩ := mem_map_fst_stretch.mp (List.mem_map_of_mem (f := Prod.fst) hw)
  have hle : row * width ≤ w.1 := by omega
  have hlt : w.1 < (row + 1) * width := by
    rw [Nat.succ_mul]
    omega
  exact Nat.div_eq_of_lt_le hle hlt

/-- The length reserved for a live request within the context limit fits its row exactly
when the pool is paged or the request is far enough from the end of an unpaged row. -/
theorem rowFits_iff (cfg : Config) (block : ℕ) (h : cfg.Speculative block) (kv : ReqKv)
    (hlive : kv.Live (2 * block) cfg.allocPageSize)
    (hctx : kv.kvCommittedLen + 2 ≤ cfg.contextLen) :
    RowFits cfg block kv ↔ 1 < cfg.allocPageSize ∨
      kv.kvCommittedLen + 2 * block ≤ cfg.contextLen + 4 + cfg.draftBound block := by
  have hnxt := hlive.nxtKvLen_eq h.page_pos
  have hfits : ∀ width, cfg.rowWidth = some width →
      nxtKvLen (2 * block) cfg.allocPageSize kv ≤ width → RowFits cfg block kv :=
    fun width hwidth hle => ⟨width, hwidth, hle, fun _ _ _ _ hw => assignStores_row hle hw⟩
  rcases Nat.lt_or_ge 1 cfg.allocPageSize with hpage | hpage
  · obtain ⟨width, hwidth, hle⟩ := h.rowWidth_of_paged hpage
    have hceil := ceilPage_le cfg.allocPageSize (kv.kvCommittedLen + 2 * block)
    exact ⟨fun _ => .inl hpage, fun _ => hfits width hwidth (by omega)⟩
  · have hone : cfg.allocPageSize = 1 := by
      have := h.page_pos
      omega
    have hwidth := h.rowWidth_of_unpaged hone
    rw [hone, ceilPage_one] at hnxt
    constructor
    · rintro ⟨width, hwidth', hle, -⟩
      rw [hwidth, Option.some.injEq] at hwidth'
      rw [hone] at hle
      right
      omega
    · rintro (hlt | hle)
      · omega
      · refine hfits _ hwidth ?_
        rw [hone]
        omega

/-- **Row headroom.**  A configuration reserves within the rows of all its live requests
exactly when its pool is paged or its block exceeds half its draft-token bound by at
most three (without an adaptive bound, a block of at most six).  Request by request, an
unpaged reservation fits as long as the request is far enough from the row's end. -/
theorem rowHeadroom_iff (cfg : Config) (block : ℕ) (h : cfg.Speculative block)
    (hctx : 2 ≤ cfg.contextLen) :
    ((∀ kv : ReqKv, kv.Live (2 * block) cfg.allocPageSize →
        kv.kvCommittedLen + 2 ≤ cfg.contextLen → RowFits cfg block kv) ↔
      1 < cfg.allocPageSize ∨ 2 * block ≤ 6 + cfg.draftBound block) ∧
    ∀ kv : ReqKv, kv.Live (2 * block) cfg.allocPageSize →
      kv.kvCommittedLen + 2 ≤ cfg.contextLen →
      (RowFits cfg block kv ↔ 1 < cfg.allocPageSize ∨
        kv.kvCommittedLen + 2 * block ≤ cfg.contextLen + 4 + cfg.draftBound block) := by
  refine ⟨⟨fun hall => ?_, fun hcond kv hlive hkv => ?_⟩, rowFits_iff cfg block h⟩
  · -- the longest admissible prompt decides
    have hlast := hall ⟨cfg.contextLen - 2, cfg.contextLen - 2⟩ (.prefill _) (by simp only; omega)
    rw [rowFits_iff cfg block h _ (.prefill _) (by simp only; omega)] at hlast
    refine hlast.imp_right fun hle => ?_
    simp only at hle
    omega
  · rw [rowFits_iff cfg block h kv hlive hkv]
    exact hcond.imp_right fun hle => by omega

/-- LatentSpec with the given page size and a context of 40960 tokens. -/
def latentspecConfig (pageSize block : ℕ) : Config where
  contextLen := 40960
  pageSize := pageSize
  attnDcpSize := 1
  speculativeAlgorithm := some .latentspec
  speculativeNumSteps := none
  speculativeEagleTopk := some 1
  speculativeNumDraftTokens := some block
  maxSpeculativeNumDraftTokens := none

/-- Pages of 64 hold a block of 16 up to the last admissible token. -/
theorem rowHeadroom_latentspec_paged : RowFits (latentspecConfig 64 16) 16 ⟨40958, 40958⟩ :=
  (rowHeadroom_iff (latentspecConfig 64 16) 16
    ⟨by decide, rfl, by decide, rfl, by decide⟩ (by decide)).1.mpr (.inl (by decide))
    ⟨40958, 40958⟩ (.prefill 40958) (by decide)

/-- **Without pages a block of 16 overruns the row**: a live request two tokens short of
the context limit reserves ten cells past its row, and the row write stores to its
neighbour's. -/
theorem not_rowFits_latentspec_unpaged :
    (latentspecConfig 1 16).Speculative 16 ∧ ReqKv.Live (2 * 16) 1 ⟨40958, 40958⟩ ∧
      40958 + 2 ≤ (latentspecConfig 1 16).contextLen ∧
      ¬ RowFits (latentspecConfig 1 16) 16 ⟨40958, 40958⟩ ∧
      (latentspecConfig 1 16).rowWidth = some 40980 ∧
      nxtKvLen (2 * 16) 1 ⟨40958, 40958⟩ = 40990 ∧
      ∃ w ∈ assignStores 40980 3 40958 40990 0 id, w.1 / 40980 = 4 := by
  refine ⟨⟨by decide, rfl, by decide, rfl, by decide⟩, .prefill 40958, by decide, ?_, rfl, rfl,
    (3 * 40980 + 40980, 22), by decide +kernel, rfl⟩
  rintro ⟨width, hwidth, hle, -⟩
  have hw : some 40980 = some width := hwidth
  have hn : 40990 ≤ width := hle
  injection hw
  omega

end LatentSpec
