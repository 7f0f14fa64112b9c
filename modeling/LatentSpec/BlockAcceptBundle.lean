import LatentSpec.BlockAcceptEstimator
import LatentSpec.RowMaxima
import LatentSpec.TiledStores

/-! # What the block-accept estimator gathers

The logprobs that a step hands to the host, as values of the step: `exists_gatherLogprobs` reads
one gather back entry by entry, whatever the chunks, and `exists_planPending` says that the plan
has an entry for every offset still to be walked of every block that is pending, and that each
entry is for the token at the row of that offset (`Planned`).  `exists_buildDeviceBundle` puts them
together: on a step of the right shapes no lookup of the bundle fails, and every row of it is ready
to be settled (`RowReady`) in the state it was planned from.
-/
namespace LatentSpec.BlockAccept
open TiledSearch TiledStores RowMaxima

/-! ### Lookups that succeed -/

section
variable {α : Type}

@[simp] theorem require_ok {p : Prop} [Decidable p] (h : p) (e : EstimatorError) :
    require p e = .ok () := if_pos h

theorem item_of_getElem? {xs : List α} {i : ℤ} {x : α} (h₀ : 0 ≤ i) (h : xs[i.toNat]? = some x) :
    item xs i = .ok x := by
  have hneg : ¬ i < 0 := by omega
  unfold item
  rw [if_neg hneg]
  dsimp only
  rw [if_neg hneg, h]

theorem item_natCast {xs : List α} {i : ℕ} {x : α} (h : xs[i]? = some x) :
    item xs (i : ℤ) = .ok x := item_of_getElem? (Int.natCast_nonneg i) h

theorem exists_item {xs : List α} {i : ℕ} (h : i < xs.length) :
    ∃ x, xs[i]? = some x ∧ item xs (i : ℤ) = .ok x :=
  ⟨_, List.getElem?_eq_getElem h, item_natCast (List.getElem?_eq_getElem h)⟩

theorem lookup_of_get? {κ : Type} [DecidableEq κ] {d : OrderedDict κ α} {k : κ} {v : α}
    (h : d.get? k = some v) : lookup d k = .ok v := by
  rw [lookup, h]

theorem repeatInterleave_getElem? {xs : List α} {n b j : ℕ} (hb : b < xs.length) (hj : j < n) :
    (repeatInterleave xs n)[b * n + j]? = xs[b]? := by
  have hrow : (xs.map (List.replicate n))[b]? = some (List.replicate n xs[b]) := by
    rw [List.getElem?_map, List.getElem?_eq_getElem hb, Option.map_some]
  have hw : ∀ row ∈ xs.map (List.replicate n), row.length = n := by
    intro row hrow
    obtain ⟨x, -, rfl⟩ := List.mem_map.mp hrow
    exact List.length_replicate
  rw [repeatInterleave, List.flatMap_def, flatten_getElem? hw hrow hj,
    List.getElem?_replicate, if_pos hj, List.getElem?_eq_getElem hb]

theorem length_repeatInterleave (xs : List α) (n : ℕ) :
    (repeatInterleave xs n).length = xs.length * n := by
  simp [repeatInterleave, List.length_flatMap, List.map_const']

theorem exists_reshapeRows {xs : List α} {bs width : ℕ} (h : xs.length = bs * width) :
    ∃ rows, reshapeRows xs bs width = .ok rows ∧ rows.length = bs ∧
      ∀ b < bs, ∃ row, rows[b]? = some row ∧ row.length = width ∧
        ∀ j < width, row[j]? = xs[b * width + j]? := by
  refine ⟨(List.range bs).map fun b => (xs.drop (b * width)).take width, ?_, by simp, ?_⟩
  · rw [reshapeRows, require_ok h]
    rfl
  · intro b hb
    have hrow : (b + 1) * width ≤ bs * width := Nat.mul_le_mul_right width hb
    rw [Nat.succ_mul] at hrow
    refine ⟨(xs.drop (b * width)).take width, ?_, ?_, fun j hj => ?_⟩
    · rw [List.getElem?_map, List.getElem?_range hb, Option.map_some]
    · rw [List.length_take, List.length_drop]
      omega
    · rw [List.getElem?_take, if_pos hj, List.getElem?_drop]

end

/-- The loop over the buckets ends, and only an empty lookup has an empty bucket. -/
theorem exists_pendingBucket (count : ℕ) :
    ∃ bucket, pendingBucket count = .ok bucket ∧ count ≤ bucket ∧ (count = 0 → bucket = 0) := by
  unfold pendingBucket
  by_cases hzero : count = 0
  · exact ⟨0, if_pos hzero, hzero.le, fun _ => rfl⟩
  rw [if_neg hzero]
  have hrank : ∀ bucket, 0 < bucket → decide (bucket < count) = true → 0 < count - bucket :=
    fun bucket _ hcond => Nat.sub_pos_of_lt (of_decide_eq_true hcond)
  have hexit : ∀ bucket, 0 < bucket → decide (bucket < count) = false → count ≤ bucket :=
    fun bucket _ hcond => Nat.not_lt.mp (of_decide_eq_false hcond)
  have hmin : 0 < pendingBucketMin := by decide
  obtain ⟨bucket, hrun, hle⟩ := WhileLoop.run_ok EstimatorError.outOfFuel hrank
    (fun bucket hpos hcond => .inl ⟨bucket * 2, rfl, Nat.mul_pos hpos Nat.two_pos, by
      -- a bucket that is too small grows by at least one
      have hlt : bucket < count := of_decide_eq_true hcond
      omega⟩) hexit hmin (Nat.sub_le count pendingBucketMin)
  exact ⟨bucket, hrun, hle, fun h => absurd h hzero⟩

/-! ### One gather -/

section
variable {V : ℕ} {K : Type} [Field K] [LinearOrder K] {math : TorchMath V K}
variable {logits : List (Fin V → K)} {rows : List ℕ} {tokens : List (Fin V)}

omit [LinearOrder K] in
/-- The entries of a gather in chunks, whatever their length. -/
theorem exists_gatherChunked {temps : List K} {chunkSize : ℕ} (hchunk : 0 < chunkSize)
    (htokens : tokens.length = rows.length) (htemps : temps.length = rows.length)
    (hrows : ∀ row ∈ rows, row < logits.length) :
    ∃ xs, gatherChunkedTokenLogprobs math logits rows tokens temps chunkSize = .ok xs ∧
      List.Forall₂ (fun (entry : ℕ × Fin V × K) x => ∃ row, logits[entry.1]? = some row ∧
        x = tokenLogprob math row entry.2.2 entry.2.1) (rows.zip (tokens.zip temps)) xs := by
  let entries := rows.zip (tokens.zip temps)
  have hlen : entries.length = rows.length := by
    simp only [entries, List.length_zip]
    omega
  -- one entry
  have hentry : ∀ e ∈ entries, ∃ x, (do
      let row ← item logits e.1
      return tokenLogprob math row e.2.2 e.2.1 : Except EstimatorError K) = .ok x ∧
      ∃ row, logits[e.1]? = some row ∧ x = tokenLogprob math row e.2.2 e.2.1 := by
    intro e he
    obtain ⟨e₁, e₂⟩ := e
    have hrow := hrows e₁ (List.of_mem_zip he).1
    refine ⟨_, ?_, logits[e₁], List.getElem?_eq_getElem hrow, rfl⟩
    rw [item_natCast (List.getElem?_eq_getElem hrow)]
    rfl
  -- one chunk, then all of them
  obtain ⟨results, hresults, hforall⟩ := exists_mapM
    (tileStarts rows.length chunkSize) (fun start _ => exists_mapM
      ((entries.drop start).take chunkSize) fun e he =>
        hentry e (List.mem_of_mem_drop (List.mem_of_mem_take he)))
  refine ⟨results.flatten, ?_, ?_⟩
  · rw [gatherChunkedTokenLogprobs]
    show ((tileStarts rows.length chunkSize).mapM _ >>= _) = _
    rw [hresults]
    rfl
  · have hcover : ((tileStarts rows.length chunkSize).map fun start =>
        (entries.drop start).take chunkSize).flatten = entries := by
      have hle : rows.length ≤ (rows.length + chunkSize - 1) / chunkSize * chunkSize := by
        have := Nat.div_add_mod (rows.length + chunkSize - 1) chunkSize
        have := Nat.mod_lt (rows.length + chunkSize - 1) hchunk
        rw [Nat.mul_comm]
        omega
      rw [tileStarts, List.map_map, ← List.flatMap_def]
      exact (flatMap_slices entries chunkSize _).trans (List.take_of_length_le (hlen ▸ hle))
    have hflat := List.rel_flatten (List.forall₂_map_left_iff.mpr hforall)
    rwa [hcover] at hflat

/-- **A gather, entry by entry.** -/
theorem exists_gatherLogprobs {temps : List K} (htokens : tokens.length = rows.length)
    (hrows : ∀ row ∈ rows, row < logits.length ∧ row < temps.length) :
    ∃ xs : List K, gatherLogprobs math logits rows tokens temps = .ok xs ∧
      xs.length = rows.length ∧ ∀ (k row : ℕ) (token : Fin V), rows[k]? = some row →
        tokens[k]? = some token → ∃ lg temp, logits[row]? = some lg ∧ temps[row]? = some temp ∧
          xs[k]? = some (tokenLogprob math lg (max temp minTemperature) token) := by
  by_cases hempty : rows = []
  · subst hempty
    exact ⟨[], rfl, rfl, fun k row token hrow => by cases hrow⟩
  · obtain ⟨perRow, hperRow, htemps⟩ := exists_mapM
      (P := fun row t => ∃ temp, temps[row]? = some temp ∧ t = max temp minTemperature)
      (f := fun row : ℕ => do
        let temp ← item temps row
        return max temp minTemperature) rows fun row hrow => by
          have hlt := (hrows row hrow).2
          refine ⟨_, ?_, temps[row], List.getElem?_eq_getElem hlt, rfl⟩
          rw [item_natCast (List.getElem?_eq_getElem hlt)]
          rfl
    have hchunk : 0 < gatherRowChunk := by decide
    obtain ⟨xs, hxs, hforall⟩ := exists_gatherChunked hchunk htokens htemps.length_eq.symm
      fun row hrow => (hrows row hrow).1
    have hlen : xs.length = rows.length := by
      rw [← hforall.length_eq, List.length_zip, List.length_zip, ← htemps.length_eq, htokens]
      omega
    refine ⟨xs, ?_, hlen, ?_⟩
    · have hne : rows.isEmpty = false := by simpa using hempty
      rw [gatherLogprobs, hne, hperRow]
      exact hxs
    · intro k row token hrow htoken
      have hk : k < rows.length := (List.getElem?_eq_some_iff.mp hrow).1
      have hkp : k < perRow.length := htemps.length_eq ▸ hk
      have hperk : perRow[k]? = some perRow[k] := List.getElem?_eq_getElem hkp
      obtain ⟨temp, htemp, heq⟩ := forall₂_getElem? htemps hrow hperk
      have hzip : (rows.zip (tokens.zip perRow))[k]? = some (row, token, perRow[k]) := by
        rw [List.getElem?_zip_eq_some, List.getElem?_zip_eq_some]
        exact ⟨hrow, htoken, hperk⟩
      have hxk : xs[k]? = some xs[k] := List.getElem?_eq_getElem (hlen ▸ hk)
      obtain ⟨lg, hlg, hx⟩ := forall₂_getElem? hforall hzip hxk
      exact ⟨lg, temp, hlg, htemp, by rw [hxk, hx, heq]⟩

end

/-! ### The plan of the pending lookups -/

/-- A block that the next step of its request can go on with: its next token is the one that the
next row of the request decides. -/
structure PendingBlock.Follows {V : ℕ} {K : Type} (block : PendingBlock V K) (gamma : ℕ)
    (expectedSeqLen : ℤ) : Prop where
  window_nonneg : 0 ≤ block.window
  window_lt : block.window < block.nextOffset
  next_le : block.nextOffset ≤ gamma
  next_pos : block.anchorPos + block.nextOffset = expectedSeqLen
  tokens_length : block.trimmedTokens.length = (gamma - block.window).toNat

section
variable {V : ℕ} {K R : Type} [DecidableEq R]

/-- The state of a request, and what its blocks need. -/
structure RequestState.Follows (state : RequestState V K) (gamma : ℕ) : Prop where
  expected_nonneg : state.pending ≠ [] → 0 ≤ state.expectedSeqLen
  blocks : ∀ block ∈ state.pending, block.Follows gamma state.expectedSeqLen

/-- What the entry of an offset is for: the token of the block at the offset, in the row that
decides it. -/
structure PlannedAt (gamma : ℕ) (states : OrderedDict R (RequestState V K)) (rids : List R)
    (plan : PendingPlan V) (b i : ℕ) (offset : ℤ) (slot : ℕ) (rid : R) (state : RequestState V K)
    (block : PendingBlock V K) (row : ℕ) (token : Fin V) : Prop where
  rid_eq : rids[b]? = some rid
  state_eq : states.get? rid = some state
  block_eq : state.pending[i]? = some block
  token_eq : item block.trimmedTokens (offset - block.window - 1) = .ok token
  row_eq : (row : ℤ) = block.anchorPos + offset - state.expectedSeqLen
  row_le : row ≤ gamma
  rows_eq : plan.rows[slot]? = some (b * (gamma + 1) + row)
  tokens_eq : plan.tokens[slot]? = some token

/-- The plan is sound. -/
structure Planned (gamma : ℕ) (states : OrderedDict R (RequestState V K)) (rids : List R)
    (plan : PendingPlan V) : Prop where
  length_eq : plan.tokens.length = plan.rows.length
  rows_lt : ∀ row ∈ plan.rows, row < rids.length * (gamma + 1)
  lookups : ∀ b i offset slot, plan.slotLookup.get? (b, i, offset) = some slot →
    ∃ rid state block row token,
      PlannedAt gamma states rids plan b i offset slot rid state block row token

/-- The plan has an entry for an offset. -/
def PendingPlan.Covers (plan : PendingPlan V) (key : ℕ × ℕ × ℤ) : Prop :=
  ∃ slot, plan.slotLookup.get? key = some slot

/-- Entries are only added. -/
def PendingPlan.Grows (plan plan' : PendingPlan V) : Prop :=
  ∀ key, plan.Covers key → plan'.Covers key

omit [DecidableEq R] in
theorem PendingPlan.Grows.trans {plan₁ plan₂ plan₃ : PendingPlan V} (h : plan₁.Grows plan₂)
    (h' : plan₂.Grows plan₃) : plan₁.Grows plan₃ := fun key hkey => h' key (h key hkey)

variable {gamma : ℕ} {states : OrderedDict R (RequestState V K)} {rids : List R}
  {plan : PendingPlan V} {b i : ℕ} {rid : R} {state : RequestState V K} {block : PendingBlock V K}

/-- The plan with an entry for one more token. -/
def PendingPlan.push (plan : PendingPlan V) (row : ℕ) (token : Fin V) (key : ℕ × ℕ × ℤ) :
    PendingPlan V where
  rows := plan.rows ++ [row]
  tokens := plan.tokens ++ [token]
  slotLookup := plan.slotLookup.set key plan.rows.length

omit [DecidableEq R] in
theorem PendingPlan.covers_push (row : ℕ) (token : Fin V) (key : ℕ × ℕ × ℤ) :
    (plan.push row token key).Covers key :=
  ⟨plan.rows.length, by rw [PendingPlan.push, OrderedDict.get?_set, if_pos rfl]⟩

omit [DecidableEq R] in
theorem PendingPlan.grows_push (row : ℕ) (token : Fin V) (key : ℕ × ℕ × ℤ) :
    plan.Grows (plan.push row token key) := by
  intro key' ⟨slot, hslot⟩
  by_cases hkey : key' = key
  · rw [hkey]
    exact PendingPlan.covers_push row token key
  · exact ⟨slot, by rw [PendingPlan.push, OrderedDict.get?_set, if_neg hkey, hslot]⟩

/-- An entry for the row that decides an offset keeps the plan sound. -/
theorem Planned.push (h : Planned gamma states rids plan) {offset : ℤ} {row : ℕ} {token : Fin V}
    (hrid : rids[b]? = some rid) (hstate : states.get? rid = some state)
    (hblock : state.pending[i]? = some block)
    (htoken : item block.trimmedTokens (offset - block.window - 1) = .ok token)
    (hrow : (row : ℤ) = block.anchorPos + offset - state.expectedSeqLen) (hle : row ≤ gamma) :
    Planned gamma states rids (plan.push (b * (gamma + 1) + row) token (b, i, offset)) where
  length_eq := by simp [PendingPlan.push, h.length_eq]
  rows_lt := by
    intro r hr
    rcases List.mem_append.mp hr with hr | hr
    · exact h.rows_lt r hr
    · obtain rfl := List.mem_singleton.mp hr
      exact block_lt (List.getElem?_eq_some_iff.mp hrid).1 (by omega)
  lookups := by
    intro b' i' offset' slot hslot
    rw [PendingPlan.push, OrderedDict.get?_set] at hslot
    split at hslot
    · -- the entry that was added
      rename_i hkey
      obtain ⟨rfl, rfl, rfl⟩ : b' = b ∧ i' = i ∧ offset' = offset := by simpa using hkey
      obtain rfl := Option.some.inj hslot
      refine ⟨rid, state, block, row, token, hrid, hstate, hblock, htoken, hrow, hle, ?_, ?_⟩
      · simp [PendingPlan.push]
      · simp [PendingPlan.push, ← h.length_eq]
    · -- an earlier one stays where it is
      obtain ⟨rid', state', block', row', token', hat⟩ := h.lookups b' i' offset' slot hslot
      have hrows := (List.getElem?_eq_some_iff.mp hat.rows_eq).1
      have htokens := (List.getElem?_eq_some_iff.mp hat.tokens_eq).1
      refine ⟨rid', state', block', row', token', { hat with rows_eq := ?_, tokens_eq := ?_ }⟩
      · rw [PendingPlan.push, List.getElem?_append_left hrows, hat.rows_eq]
      · rw [PendingPlan.push, List.getElem?_append_left htokens, hat.tokens_eq]

omit [DecidableEq R] in
/-- The token of a block at an offset that is still to be walked. -/
theorem PendingBlock.Follows.exists_token {expectedSeqLen : ℤ}
    (h : block.Follows gamma expectedSeqLen) {offset : ℤ} (hlo : block.window < offset)
    (hhi : offset ≤ gamma) :
    ∃ token, block.trimmedTokens[(offset - block.window - 1).toNat]? = some token ∧
      item block.trimmedTokens (offset - block.window - 1) = .ok token := by
  have hlt : (offset - block.window - 1).toNat < block.trimmedTokens.length := by
    rw [h.tokens_length]
    omega
  refine ⟨_, List.getElem?_eq_getElem hlt, ?_⟩
  exact item_of_getElem? (by omega) (List.getElem?_eq_getElem hlt)

/-- The loop over the offsets of a block plans all that are left. -/
theorem exists_planBlock (h : Planned gamma states rids plan) (hrid : rids[b]? = some rid)
    (hstate : states.get? rid = some state) (hblock : state.pending[i]? = some block)
    (hfollows : block.Follows gamma state.expectedSeqLen) :
    ∃ plan', planBlock gamma b state.expectedSeqLen plan (block, i) = .ok plan' ∧
      Planned gamma states rids plan' ∧ plan.Grows plan' ∧
      ∀ offset, block.nextOffset ≤ offset → offset ≤ gamma → plan'.Covers (b, i, offset) := by
  have hpos := hfollows.next_pos
  have hwin := hfollows.window_nonneg
  have hlt := hfollows.window_lt
  -- the offsets below the one the loop is at are planned
  let inv : ℤ × PendingPlan V → Prop := fun p => block.nextOffset ≤ p.1 ∧
    Planned gamma states rids p.2 ∧ plan.Grows p.2 ∧
    ∀ offset, block.nextOffset ≤ offset → offset < p.1 → p.2.Covers (b, i, offset)
  let post : ℤ × PendingPlan V → Prop := fun p => Planned gamma states rids p.2 ∧
    plan.Grows p.2 ∧
    ∀ offset, block.nextOffset ≤ offset → offset ≤ gamma → p.2.Covers (b, i, offset)
  let rank : ℤ × PendingPlan V → ℕ := fun p => (gamma + 1 - p.1).toNat
  let body := planBody gamma b state.expectedSeqLen i block
  have hinit : inv (block.nextOffset, plan) :=
    ⟨le_rfl, h, fun key hkey => hkey, fun offset hge hlt => absurd hlt (by dsimp only; omega)⟩
  have hrank : ∀ p, inv p → planCond gamma p = true → 0 < rank p := by
    intro p _ hcond
    have := of_decide_eq_true hcond
    show 0 < (gamma + 1 - p.1).toNat
    omega
  have hstep : ∀ p, inv p → planCond gamma p = true →
      (∃ p', body p = .ok (p', false) ∧ inv p' ∧ rank p' < rank p) ∨
        ∃ p', body p = .ok (p', true) ∧ post p' := by
    intro p hinv hcond
    obtain ⟨offset, plan₁⟩ := p
    obtain ⟨hge, hplanned, hgrows, hcovers⟩ := hinv
    have hle : offset ≤ gamma := of_decide_eq_true hcond
    dsimp only at hge hplanned hgrows hcovers
    obtain ⟨token, -, htoken⟩ := hfollows.exists_token (show block.window < offset by omega) hle
    have hrow₀ : 0 ≤ block.anchorPos + offset - state.expectedSeqLen := by omega
    have hin : ¬ (block.anchorPos + offset - state.expectedSeqLen < 0 ∨
        (gamma : ℤ) + 1 ≤ block.anchorPos + offset - state.expectedSeqLen) := by omega
    let row := (block.anchorPos + offset - state.expectedSeqLen).toNat
    have hrow : (row : ℤ) = block.anchorPos + offset - state.expectedSeqLen :=
      Int.toNat_of_nonneg hrow₀
    refine .inl ⟨(offset + 1, plan₁.push (b * (gamma + 1) + row) token (b, i, offset)), ?_, ?_, ?_⟩
    · show planBody gamma b state.expectedSeqLen i block (offset, plan₁) = _
      rw [planBody, if_neg hin, htoken]
      rfl
    · refine ⟨by dsimp only; omega, ?_, hgrows.trans (PendingPlan.grows_push _ _ _), ?_⟩
      · exact hplanned.push hrid hstate hblock htoken hrow (by omega)
      · intro o hge' hlt'
        dsimp only at hlt'
        rcases lt_or_eq_of_le (Int.lt_add_one_iff.mp hlt') with hlt' | rfl
        · exact PendingPlan.grows_push _ _ _ _ (hcovers o hge' hlt')
        · exact PendingPlan.covers_push _ _ _
    · show (gamma + 1 - (offset + 1)).toNat < (gamma + 1 - offset).toNat
      omega
  have hexit : ∀ p, inv p → planCond gamma p = false → post p := by
    intro p hinv hcond
    obtain ⟨hge, hplanned, hgrows, hcovers⟩ := hinv
    have hout : ¬ p.1 ≤ gamma := of_decide_eq_false hcond
    exact ⟨hplanned, hgrows, fun o hge' hle => hcovers o hge' (by omega)⟩
  obtain ⟨p, hp, hplanned, hgrows, hcovers⟩ :=
    WhileLoop.run_ok EstimatorError.outOfFuel hrank hstep hexit hinit le_rfl
  refine ⟨p.2, ?_, hplanned, hgrows, hcovers⟩
  rw [planBlock]
  show (WhileLoop.run (planCond gamma) body _ (rank (block.nextOffset, plan)) _ >>= _) = _
  rw [hp]
  rfl

/-- The entries that the blocks of a row need. -/
def RowCovered (gamma : ℕ) (states : OrderedDict R (RequestState V K)) (rids : List R)
    (plan : PendingPlan V) (b : ℕ) : Prop :=
  ∀ rid state, rids[b]? = some rid → states.get? rid = some state →
    ∀ (i : ℕ) block, state.pending[i]? = some block →
      ∀ offset : ℤ, block.nextOffset ≤ offset → offset ≤ gamma → plan.Covers (b, i, offset)

theorem planRow_of_getElem? {rid : R} (hrid : rids[b]? = some rid) :
    planRow gamma states rids plan b = match states.get? rid with
      | none => .ok plan
      | some state => if state.pending.isEmpty ∨ state.expectedSeqLen < 0 then .ok plan
        else state.pending.zipIdx.foldlM (planBlock gamma b state.expectedSeqLen) plan := by
  rw [planRow, item_natCast hrid]
  rfl

theorem exists_planRow (h : Planned gamma states rids plan)
    (hstates : ∀ rid state, states.get? rid = some state → state.Follows gamma)
    (hb : b < rids.length) :
    ∃ plan', planRow gamma states rids plan b = .ok plan' ∧ Planned gamma states rids plan' ∧
      plan.Grows plan' ∧ RowCovered gamma states rids plan' b := by
  have hrid : rids[b]? = some rids[b] := List.getElem?_eq_getElem hb
  rw [planRow_of_getElem? hrid]
  cases hstate : states.get? rids[b] with
  | none =>
    refine ⟨plan, rfl, h, fun key hkey => hkey, ?_⟩
    intro rid state hrid' hstate'
    obtain rfl := Option.some.inj (hrid.symm.trans hrid')
    exact absurd hstate' (by rw [hstate]; exact Option.some_ne_none state ∘ Eq.symm)
  | some state =>
    have hfollows := hstates _ _ hstate
    -- whatever covers the blocks of this state covers the row
    have hrow : ∀ plan' : PendingPlan V, (∀ (i : ℕ) block, state.pending[i]? = some block →
        ∀ offset : ℤ, block.nextOffset ≤ offset → offset ≤ gamma → plan'.Covers (b, i, offset)) →
        RowCovered gamma states rids plan' b := by
      intro plan' hcovers rid' state' hrid' hstate'
      obtain rfl := Option.some.inj (hrid.symm.trans hrid')
      obtain rfl := Option.some.inj (hstate.symm.trans hstate')
      exact hcovers
    dsimp only
    by_cases hskip : state.pending.isEmpty ∨ state.expectedSeqLen < 0
    · rw [if_pos hskip]
      have hempty : state.pending = [] := by
        by_contra hne
        have hnonneg := hfollows.expected_nonneg hne
        rcases hskip with hskip | hskip
        · exact hne (List.isEmpty_iff.mp hskip)
        · omega
      refine ⟨plan, rfl, h, fun key hkey => hkey, hrow plan fun i block hblock => ?_⟩
      rw [hempty] at hblock
      cases hblock
    · rw [if_neg hskip]
      let inv : ℕ → PendingPlan V → Prop := fun n plan₁ => Planned gamma states rids plan₁ ∧
        plan.Grows plan₁ ∧ ∀ i < n, ∀ block, state.pending[i]? = some block →
          ∀ offset : ℤ, block.nextOffset ≤ offset → offset ≤ gamma → plan₁.Covers (b, i, offset)
      have hturn : ∀ k block, state.pending[k]? = some block → ∀ plan₁, inv k plan₁ →
          ∃ plan₂, planBlock gamma b state.expectedSeqLen plan₁ (block, k) = .ok plan₂ ∧
            inv (k + 1) plan₂ := by
        intro k block hblock plan₁ ⟨hplanned, hgrows, hcovers⟩
        obtain ⟨plan₂, hplan₂, hplanned₂, hgrows₂, hcovers₂⟩ := exists_planBlock hplanned hrid
          hstate hblock (hfollows.blocks block (List.mem_of_getElem? hblock))
        refine ⟨plan₂, hplan₂, hplanned₂, hgrows.trans hgrows₂, fun i hi block' hblock' => ?_⟩
        rcases Nat.lt_succ_iff_lt_or_eq.mp hi with hlt | rfl
        · exact fun offset hge hle => hgrows₂ _ (hcovers i hlt block' hblock' offset hge hle)
        · obtain rfl := Option.some.inj (hblock.symm.trans hblock')
          exact hcovers₂
      have hinit : inv 0 plan :=
        ⟨h, fun key hkey => hkey, fun i hi => absurd hi (Nat.not_lt_zero i)⟩
      obtain ⟨plan', hplan', hplanned, hgrows, hcovers⟩ := WhileLoop.foldlM_zipIdx_ok hturn hinit
      refine ⟨plan', hplan', hplanned, hgrows, hrow plan' fun i block hblock => ?_⟩
      exact hcovers i (List.getElem?_eq_some_iff.mp hblock).1 block hblock

variable (rids) in
/-- **The plan of a step is sound and covers every offset still to be walked.** -/
theorem exists_planPending
    (hstates : ∀ rid state, states.get? rid = some state → state.Follows gamma) :
    ∃ plan, planPending gamma states rids.length rids = .ok plan ∧
      Planned gamma states rids plan ∧ ∀ b < rids.length, RowCovered gamma states rids plan b := by
  let inv : ℕ → PendingPlan V → Prop := fun n plan => Planned gamma states rids plan ∧
    ∀ b < n, RowCovered gamma states rids plan b
  have hinit : inv 0 ⟨[], [], .empty⟩ := by
    refine ⟨⟨rfl, fun row hrow => (by cases hrow), ?_⟩, fun b hb => absurd hb (Nat.not_lt_zero b)⟩
    intro b i offset slot hslot
    cases hslot
  have hturn : ∀ b < rids.length, ∀ plan, inv b plan →
      ∃ plan', planRow gamma states rids plan b = .ok plan' ∧ inv (b + 1) plan' := by
    intro b hb plan ⟨hplanned, hcovered⟩
    obtain ⟨plan', hplan', hplanned', hgrows, hrow⟩ := exists_planRow hplanned hstates hb
    refine ⟨plan', hplan', hplanned', fun b' hb' => ?_⟩
    rcases Nat.lt_succ_iff_lt_or_eq.mp hb' with hlt | rfl
    · intro rid state hrid hstate i block hblock offset hge hle
      exact hgrows _ (hcovered b' hlt rid state hrid hstate i block hblock offset hge hle)
    · exact hrow
  obtain ⟨plan, hplan, hplanned, hcovered⟩ := WhileLoop.foldlM_range_ok hturn hinit
  exact ⟨plan, hplan, hplanned, hcovered⟩

end

/-! ### Tables of logprobs -/

section
variable {V : ℕ} {K : Type} [Field K] [LinearOrder K] (math : TorchMath V K)

/-- A gather for the tokens of a table, shaped as the table. -/
theorem exists_gatherTable {logits : List (Fin V → K)} {rows : List ℕ} {temps : List K}
    {tokens : List (List (Fin V))} {bs w : ℕ} (hbs : tokens.length = bs)
    (hw : ∀ row ∈ tokens, row.length = w) (hlen : rows.length = bs * w)
    (hrows : ∀ row ∈ rows, row < logits.length ∧ row < temps.length) :
    ∃ xs table, gatherLogprobs math logits rows tokens.flatten temps = .ok xs ∧
      reshapeRows xs bs w = .ok table ∧
      ∀ b drafts, tokens[b]? = some drafts → ∃ out : List K, table[b]? = some out ∧
        out.length = w ∧ ∀ (j row : ℕ) (token : Fin V), drafts[j]? = some token →
          rows[b * w + j]? = some row → ∃ lg temp, logits[row]? = some lg ∧
            temps[row]? = some temp ∧
            out[j]? = some (tokenLogprob math lg (max temp minTemperature) token) := by
  have hflat : tokens.flatten.length = rows.length := by
    rw [length_flatten_rows hw, hbs, hlen]
  obtain ⟨xs, hxs, hxslen, hreads⟩ := exists_gatherLogprobs hflat hrows
  obtain ⟨table, htable, -, hlines⟩ := exists_reshapeRows (hxslen.trans hlen)
  refine ⟨xs, table, hxs, htable, fun b drafts hdrafts => ?_⟩
  have hb : b < bs := hbs ▸ (List.getElem?_eq_some_iff.mp hdrafts).1
  obtain ⟨out, hout, hlength, hentry⟩ := hlines b hb
  refine ⟨out, hout, hlength, fun j row token htoken hrow => ?_⟩
  have hj : j < w := hw drafts (List.mem_of_getElem? hdrafts) ▸
    (List.getElem?_eq_some_iff.mp htoken).1
  have hflatj : tokens.flatten[b * w + j]? = some token := by
    rw [flatten_getElem? hw hdrafts hj, htoken]
  obtain ⟨lg, temp, hlg, htemp, hx⟩ := hreads (b * w + j) row token hrow hflatj
  exact ⟨lg, temp, hlg, htemp, by rw [hentry j hj, hx]⟩

variable [NeZero V]

/-- The lookups that were planned are read at the front of the padded gather. -/
theorem exists_gatherPending {plan : PendingPlan V} {targetLogits : List (Fin V → K)}
    {temps : List K} (hlen : plan.tokens.length = plan.rows.length)
    (hrows : ∀ row ∈ plan.rows, row < targetLogits.length ∧ row < temps.length) :
    ∃ xs : List K, gatherPending math plan targetLogits temps = .ok xs ∧
      ∀ (slot row : ℕ) (token : Fin V), plan.rows[slot]? = some row →
        plan.tokens[slot]? = some token → ∃ lg temp, targetLogits[row]? = some lg ∧
          temps[row]? = some temp ∧
          xs[slot]? = some (tokenLogprob math lg (max temp minTemperature) token) := by
  obtain ⟨bucket, hbucket, hle, hempty⟩ := exists_pendingBucket plan.rows.length
  let pad := bucket - plan.rows.length
  have hpadded : ∀ row ∈ plan.rows ++ List.replicate pad 0,
      row < targetLogits.length ∧ row < temps.length := by
    intro row hrow
    rcases List.mem_append.mp hrow with hrow | hrow
    · exact hrows row hrow
    · -- there is padding only where something was planned
      obtain ⟨hpad, rfl⟩ := List.mem_replicate.mp hrow
      cases hplan : plan.rows with
      | nil =>
        have hzero := hempty (by rw [hplan, List.length_nil])
        omega
      | cons first rest =>
        have := hrows first (hplan ▸ List.mem_cons_self)
        omega
  have hsame : (plan.tokens ++ List.replicate (bucket - plan.tokens.length) 0).length =
      (plan.rows ++ List.replicate pad 0).length := by
    simp [hlen, pad]
  obtain ⟨xs, hxs, -, hreads⟩ := exists_gatherLogprobs hsame hpadded
  refine ⟨xs, ?_, fun slot row token hrow htoken => hreads slot row token ?_ ?_⟩
  · rw [gatherPending, WhileLoop.bind_of_ok hbucket]
    exact hxs
  · rw [List.getElem?_append_left (List.getElem?_eq_some_iff.mp hrow).1, hrow]
  · rw [List.getElem?_append_left (List.getElem?_eq_some_iff.mp htoken).1, htoken]

end

/-! ### Steps of the right shapes -/

section
variable {V : ℕ} {K R : Type}

/-- `verify_lens`: without a layout every request has all its rows verified. -/
def VerifyStep.verifyLens (s : VerifyStep V K R) (gamma : ℕ) : List ℤ :=
  s.layout.getD (List.replicate s.rids.length ((gamma + 1 : ℕ) : ℤ))

/-- What the callers pass: distinct requests, one entry per request in every column, `gamma` drafts
and `gamma + 1` rows of target logits per request, and a length that was accepted within the
window. -/
structure VerifyStep.WellFormed (s : VerifyStep V K R) (gamma : ℕ) : Prop where
  nodup : s.rids.Nodup
  drafts_length : s.draftTokens.length = s.rids.length
  drafts_row : ∀ row ∈ s.draftTokens, row.length = gamma
  corrected_length : ∀ logits, s.correctedLogits = some logits → logits.length = s.rids.length
  corrected_row : ∀ logits, s.correctedLogits = some logits → ∀ row ∈ logits, row.length = gamma
  target_length : s.targetLogits.length = s.rids.length * (gamma + 1)
  draftTemperatures_length : s.draftTemperatures.length = s.rids.length
  targetTemperatures_length : s.targetTemperatures.length = s.rids.length
  greedyMask_length : s.greedyMask.length = s.rids.length
  truncatedMask_length : ∀ mask, s.truncatedSamplingMask = some mask →
    mask.length = s.rids.length
  correctLen_length : s.correctLen.length = s.rids.length
  capTrimLens_length : s.capTrimLens.length = s.rids.length
  bonus_length : s.bonus.length = s.rids.length
  prefixLens_length : s.prefixLens.length = s.rids.length
  layout_length : ∀ lens, s.layout = some lens → lens.length = s.rids.length
  prefixLens_nonneg : ∀ n ∈ s.prefixLens, 0 ≤ n
  window : ∀ (b : ℕ) cl verifyLen, s.correctLen[b]? = some cl →
    (s.verifyLens gamma)[b]? = some verifyLen →
      0 ≤ cl ∧ cl ≤ verifyLen - 1 ∧ verifyLen - 1 ≤ gamma

theorem VerifyStep.WellFormed.length_verifyLens {s : VerifyStep V K R} {gamma : ℕ}
    (h : s.WellFormed gamma) : (s.verifyLens gamma).length = s.rids.length := by
  unfold VerifyStep.verifyLens
  cases hlayout : s.layout with
  | none => exact List.length_replicate
  | some lens => exact h.layout_length lens hlayout

/-- `row_meta` has the columns of the step. -/
theorem exists_packRowMeta {s : VerifyStep V K R} {gamma : ℕ} (h : s.WellFormed gamma)
    {mask : List Bool} (hmask : mask.length = s.rids.length) :
    ∃ rowMeta, packRowMeta s mask (s.verifyLens gamma) = .ok rowMeta ∧
      ∀ b < s.rids.length, ∃ m : RowMeta V, rowMeta[b]? = some m ∧
        s.prefixLens[b]? = some m.prefixLen ∧
        0 ≤ m.correctLen ∧ m.correctLen ≤ m.verifyLen - 1 ∧ m.verifyLen - 1 ≤ gamma := by
  have hn : s.correctLen.length = s.rids.length := h.correctLen_length
  have hshape : s.capTrimLens.length = s.correctLen.length ∧
      s.bonus.length = s.correctLen.length ∧ s.prefixLens.length = s.correctLen.length ∧
      s.greedyMask.length = s.correctLen.length ∧ mask.length = s.correctLen.length ∧
      (s.verifyLens gamma).length = s.correctLen.length := by
    rw [hn]
    exact ⟨h.capTrimLens_length, h.bonus_length, h.prefixLens_length, h.greedyMask_length, hmask,
      h.length_verifyLens⟩
  obtain ⟨hcap, hbonus, hpre, hgreedy, htrunc, hverify⟩ := hshape
  obtain ⟨rowMeta, hrowMeta, hforall⟩ := exists_mapM (E := EstimatorError)
    (P := fun (b : ℕ) (m : RowMeta V) => s.correctLen[b]? = some m.correctLen ∧
      s.prefixLens[b]? = some m.prefixLen ∧ (s.verifyLens gamma)[b]? = some m.verifyLen)
    (f := fun (b : ℕ) => do
      return {
        correctLen := ← item s.correctLen b
        capTrim := ← item s.capTrimLens b
        bonus := ← item s.bonus b
        prefixLen := ← item s.prefixLens b
        isGreedy := ← item s.greedyMask b
        isTruncated := ← item mask b
        verifyLen := ← item (s.verifyLens gamma) b }) (List.range s.correctLen.length)
    (fun b hb => by
      have hlt : b < s.correctLen.length := List.mem_range.mp hb
      obtain ⟨cl, hcl, hcl'⟩ := exists_item hlt
      obtain ⟨cap, -, hcap'⟩ := exists_item (hcap ▸ hlt)
      obtain ⟨bonus, -, hbonus'⟩ := exists_item (hbonus ▸ hlt)
      obtain ⟨n, hpre, hpre'⟩ := exists_item (hpre ▸ hlt)
      obtain ⟨greedy, -, hgreedy'⟩ := exists_item (hgreedy ▸ hlt)
      obtain ⟨truncated, -, htrunc'⟩ := exists_item (htrunc ▸ hlt)
      obtain ⟨len, hlen, hlen'⟩ := exists_item (hverify ▸ hlt)
      refine ⟨⟨cl, cap, bonus, n, greedy, truncated, len⟩, ?_, hcl, hpre, hlen⟩
      rw [hcl', hcap', hbonus', hpre', hgreedy', htrunc', hlen']
      rfl)
  refine ⟨rowMeta, ?_, fun b hb => ?_⟩
  · rw [packRowMeta, require_ok ⟨hcap, hbonus, hpre, hgreedy, htrunc, hverify⟩]
    exact hrowMeta
  · have hlt : b < rowMeta.length := by
      rw [← hforall.length_eq, List.length_range, hn]
      exact hb
    have hm : rowMeta[b]? = some rowMeta[b] := List.getElem?_eq_getElem hlt
    obtain ⟨hcl, hpre, hlen⟩ := forall₂_getElem? hforall (List.getElem?_range (hn.symm ▸ hb)) hm
    exact ⟨rowMeta[b], hm, hpre, h.window b _ _ hcl hlen⟩

end

/-! ### The bundle of a step -/

section
variable {V : ℕ} {K R : Type} [Field K] [LinearOrder K]

/-- The target's logprob of a token in row `row` of request `b`. -/
def VerifyStep.targetLogprob (s : VerifyStep V K R) (math : TorchMath V K) (gamma b row : ℕ)
    (token : Fin V) : Option K :=
  s.targetLogits[b * (gamma + 1) + row]?.bind fun lg => s.targetTemperatures[b]?.map fun temp =>
    tokenLogprob math lg (max temp minTemperature) token

/-- The draft's logprob of a token in row `j` of request `b`. -/
def VerifyStep.draftLogprob (s : VerifyStep V K R) (math : TorchMath V K) (b j : ℕ)
    (token : Fin V) : Option K :=
  s.correctedLogits.bind fun rows => (rows[b]?.bind fun row => row[j]?).bind fun lg =>
    s.draftTemperatures[b]?.map fun temp => tokenLogprob math lg (max temp minTemperature) token

/-- Row `b` of a bundle can be settled when its request is in `state`: its lookups succeed, and
what they read is what step `s` says about its tokens. -/
structure RowReady (cfg : Config V K) (s : VerifyStep V K R) (batch : SettleBatch V K R) (b : ℕ)
    (state : RequestState V K) (m : RowMeta V) (drafts : List (Fin V)) (qs diag : List K) :
    Prop where
  rowMeta : batch.rowMeta[b]? = some m
  seqLen : s.prefixLens[b]? = some m.prefixLen
  seqLen_nonneg : 0 ≤ m.prefixLen
  bounds : 0 ≤ m.correctLen ∧ m.correctLen ≤ m.verifyLen - 1 ∧ m.verifyLen - 1 ≤ cfg.gamma
  drafts_eq : batch.drafts[b]? = some drafts
  drafted : s.draftTokens[b]? = some drafts
  drafts_length : drafts.length = cfg.gamma
  qAll_eq : batch.qAll[b]? = some qs
  qAll_length : qs.length = cfg.gamma
  diag_eq : batch.targetDiag[b]? = some diag
  draftRead : ∀ (j : ℕ) (token : Fin V), drafts[j]? = some token →
    ∃ q, qs[j]? = some q ∧ s.draftLogprob cfg.math b j token = some q
  diagRead : ∀ (j : ℕ) (token : Fin V), drafts[j]? = some token →
    ∃ x, diag[j]? = some x ∧ s.targetLogprob cfg.math cfg.gamma b j token = some x
  planned : ∀ (i : ℕ) (block : PendingBlock V K), state.pending[i]? = some block →
    ∀ offset : ℤ, block.nextOffset ≤ offset → offset ≤ cfg.gamma →
      ∃ token slot x, ∃ row : ℕ, item block.trimmedTokens (offset - block.window - 1) = .ok token ∧
        lookup batch.slotLookup (b, i, offset) = .ok slot ∧
        item batch.pendingLogprobs (slot : ℤ) = .ok x ∧
        (row : ℤ) = block.anchorPos + offset - state.expectedSeqLen ∧ row ≤ cfg.gamma ∧
        s.targetLogprob cfg.math cfg.gamma b row token = some x

variable {cfg : Config V K} {s : VerifyStep V K R}

/-- The draft's logprobs of the drafts. -/
theorem exists_qAll (h : s.WellFormed cfg.gamma) {correctedLogits : List (List (Fin V → K))}
    (hcorrected : s.correctedLogits = some correctedLogits) :
    ∃ xs qAll, gatherLogprobs cfg.math correctedLogits.flatten
        (List.range (s.rids.length * cfg.gamma)) s.draftTokens.flatten
        (repeatInterleave s.draftTemperatures cfg.gamma) = .ok xs ∧
      reshapeRows xs s.rids.length cfg.gamma = .ok qAll ∧
      ∀ b drafts, s.draftTokens[b]? = some drafts → ∃ qs : List K, qAll[b]? = some qs ∧
        qs.length = cfg.gamma ∧ ∀ (j : ℕ) (token : Fin V), drafts[j]? = some token →
          ∃ q, qs[j]? = some q ∧ s.draftLogprob cfg.math b j token = some q := by
  have hlen := h.corrected_length _ hcorrected
  have hrow := h.corrected_row _ hcorrected
  have htemps := h.draftTemperatures_length
  have hrows : ∀ row ∈ List.range (s.rids.length * cfg.gamma),
      row < correctedLogits.flatten.length ∧
        row < (repeatInterleave s.draftTemperatures cfg.gamma).length := by
    intro row hmem
    have hlt := List.mem_range.mp hmem
    rw [length_flatten_rows hrow, hlen, length_repeatInterleave, htemps]
    exact ⟨hlt, hlt⟩
  obtain ⟨xs, qAll, hxs, hqAll, hread⟩ := exists_gatherTable cfg.math h.drafts_length h.drafts_row
    List.length_range hrows
  refine ⟨xs, qAll, hxs, hqAll, fun b drafts hdrafts => ?_⟩
  obtain ⟨qs, hqs, hqsLen, hentry⟩ := hread b drafts hdrafts
  refine ⟨qs, hqs, hqsLen, fun j token htoken => ?_⟩
  have hb : b < s.rids.length := h.drafts_length ▸ (List.getElem?_eq_some_iff.mp hdrafts).1
  have hj : j < cfg.gamma := h.drafts_row drafts (List.mem_of_getElem? hdrafts) ▸
    (List.getElem?_eq_some_iff.mp htoken).1
  obtain ⟨lg, temp, hlg, htemp, hq⟩ := hentry j (b * cfg.gamma + j) token htoken
    (List.getElem?_range (block_lt hb hj))
  have hcorrb : correctedLogits[b]? = some correctedLogits[b] :=
    List.getElem?_eq_getElem (hlen.symm ▸ hb)
  rw [flatten_getElem? hrow hcorrb hj] at hlg
  rw [repeatInterleave_getElem? (htemps.symm ▸ hb) hj] at htemp
  refine ⟨_, hq, ?_⟩
  rw [VerifyStep.draftLogprob, hcorrected, Option.bind_some, hcorrb, Option.bind_some, hlg,
    Option.bind_some, htemp, Option.map_some]

/-- What a gather from the target's logits reads. -/
theorem targetLogprob_eq (h : s.WellFormed cfg.gamma) {b row : ℕ} {token : Fin V} {lg : Fin V → K}
    {temp : K} (hb : b < s.rids.length) (hrow : row ≤ cfg.gamma)
    (hlg : s.targetLogits[b * (cfg.gamma + 1) + row]? = some lg)
    (htemp : (repeatInterleave s.targetTemperatures (cfg.gamma + 1))[b * (cfg.gamma + 1) + row]? =
      some temp) :
    s.targetLogprob cfg.math cfg.gamma b row token =
      some (tokenLogprob cfg.math lg (max temp minTemperature) token) := by
  rw [repeatInterleave_getElem? (h.targetTemperatures_length.symm ▸ hb)
    (Nat.lt_succ_of_le hrow)] at htemp
  rw [VerifyStep.targetLogprob, hlg, Option.bind_some, htemp, Option.map_some]

omit [Field K] [LinearOrder K] in
theorem target_row_lt (h : s.WellFormed cfg.gamma) {row : ℕ}
    (hrow : row < s.rids.length * (cfg.gamma + 1)) :
    row < s.targetLogits.length ∧
      row < (repeatInterleave s.targetTemperatures (cfg.gamma + 1)).length := by
  rw [h.target_length, length_repeatInterleave, h.targetTemperatures_length]
  exact ⟨hrow, hrow⟩

theorem diagRows_getElem? {gamma bs rowsPerRequest b j : ℕ} (hb : b < bs) (hj : j < gamma) :
    (diagRows gamma bs rowsPerRequest)[b * gamma + j]? = some (b * rowsPerRequest + j) := by
  have h := ragged_getElem? (fun _ => gamma) (fun b j => b * rowsPerRequest + j) hb hj
  rwa [offset_const] at h

/-- The target's logprobs of the drafts. -/
theorem exists_targetDiag (h : s.WellFormed cfg.gamma) :
    ∃ xs targetDiag, gatherLogprobs cfg.math s.targetLogits
        (diagRows cfg.gamma s.rids.length (cfg.gamma + 1)) s.draftTokens.flatten
        (repeatInterleave s.targetTemperatures (cfg.gamma + 1)) = .ok xs ∧
      reshapeRows xs s.rids.length cfg.gamma = .ok targetDiag ∧
      ∀ b drafts, s.draftTokens[b]? = some drafts → ∃ diag : List K, targetDiag[b]? = some diag ∧
        diag.length = cfg.gamma ∧ ∀ (j : ℕ) (token : Fin V), drafts[j]? = some token →
          ∃ x, diag[j]? = some x ∧ s.targetLogprob cfg.math cfg.gamma b j token = some x := by
  have hlen : (diagRows cfg.gamma s.rids.length (cfg.gamma + 1)).length =
      s.rids.length * cfg.gamma := by
    simp [diagRows, List.length_flatMap, List.map_const']
  have hrows : ∀ row ∈ diagRows cfg.gamma s.rids.length (cfg.gamma + 1),
      row < s.targetLogits.length ∧
        row < (repeatInterleave s.targetTemperatures (cfg.gamma + 1)).length := by
    intro row hmem
    obtain ⟨b, hb, hmem⟩ := List.mem_flatMap.mp hmem
    obtain ⟨j, hj, rfl⟩ := List.mem_map.mp hmem
    have hj := List.mem_range.mp hj
    exact target_row_lt h (block_lt (List.mem_range.mp hb) (by omega))
  obtain ⟨xs, targetDiag, hxs, hdiag, hread⟩ := exists_gatherTable cfg.math h.drafts_length
    h.drafts_row hlen hrows
  refine ⟨xs, targetDiag, hxs, hdiag, fun b drafts hdrafts => ?_⟩
  obtain ⟨diag, hdiagb, hdiagLen, hentry⟩ := hread b drafts hdrafts
  refine ⟨diag, hdiagb, hdiagLen, fun j token htoken => ?_⟩
  have hb : b < s.rids.length := h.drafts_length ▸ (List.getElem?_eq_some_iff.mp hdrafts).1
  have hj : j < cfg.gamma := h.drafts_row drafts (List.mem_of_getElem? hdrafts) ▸
    (List.getElem?_eq_some_iff.mp htoken).1
  obtain ⟨lg, temp, hlg, htemp, hx⟩ := hentry j _ token htoken (diagRows_getElem? hb hj)
  exact ⟨_, hx, targetLogprob_eq h hb hj.le hlg htemp⟩

variable [DecidableEq R]

/-- The state of a request, a fresh one if there is none. -/
def stateOf (states : OrderedDict R (RequestState V K)) (rid : R) : RequestState V K :=
  (states.get? rid).getD {}

/-- A bundle that can be settled in a state of the recorder. -/
structure BatchReady (cfg : Config V K) (s : VerifyStep V K R) (batch : SettleBatch V K R)
    (states : OrderedDict R (RequestState V K)) : Prop where
  rids_eq : batch.rids = s.rids
  nodup : s.rids.Nodup
  rows : ∀ (b : ℕ) rid, s.rids[b]? = some rid →
    ∃ m drafts qs diag, RowReady cfg s batch b (stateOf states rid) m drafts qs diag

variable [NeZero V] {states : OrderedDict R (RequestState V K)}

/-- The target's logprobs of the tokens that were planned. -/
theorem exists_pendingLogprobs (h : s.WellFormed cfg.gamma) {plan : PendingPlan V}
    (hplan : Planned cfg.gamma states s.rids plan) :
    ∃ xs : List K, gatherPending cfg.math plan s.targetLogits
        (repeatInterleave s.targetTemperatures (cfg.gamma + 1)) = .ok xs ∧
      ∀ b i offset slot rid state block row token,
        PlannedAt cfg.gamma states s.rids plan b i offset slot rid state block row token →
          ∃ x, xs[slot]? = some x ∧ s.targetLogprob cfg.math cfg.gamma b row token = some x := by
  obtain ⟨xs, hxs, hread⟩ := exists_gatherPending cfg.math hplan.length_eq
    fun row hrow => target_row_lt h (hplan.rows_lt row hrow)
  refine ⟨xs, hxs, fun b i offset slot rid state block row token hat => ?_⟩
  obtain ⟨lg, temp, hlg, htemp, hx⟩ := hread slot _ token hat.rows_eq hat.tokens_eq
  have hb : b < s.rids.length := (List.getElem?_eq_some_iff.mp hat.rid_eq).1
  exact ⟨_, hx, targetLogprob_eq h hb hat.row_le hlg htemp⟩

/-- **Building a bundle**: no lookup fails, and the bundle can be settled in the state that it was
planned from. -/
theorem exists_buildDeviceBundle (h : s.WellFormed cfg.gamma)
    (hstates : ∀ rid state, states.get? rid = some state → state.Follows cfg.gamma)
    {correctedLogits : List (List (Fin V → K))}
    (hcorrected : s.correctedLogits = some correctedLogits) :
    ∃ batch, buildDeviceBundle cfg states s correctedLogits = .ok batch ∧
      BatchReady cfg s batch states := by
  obtain ⟨qs, qAll, hqs, hqAll, hqRead⟩ := exists_qAll h hcorrected
  obtain ⟨xs, targetDiag, hxs, hdiag, hdiagRead⟩ := exists_targetDiag h
  obtain ⟨plan, hplan, hplanned, hcovered⟩ := exists_planPending s.rids hstates
  obtain ⟨ps, hps, hpsRead⟩ := exists_pendingLogprobs h hplanned
  have hmask : (s.truncatedSamplingMask.getD (List.replicate s.rids.length false)).length =
      s.rids.length := by
    cases hmask : s.truncatedSamplingMask with
    | none => exact List.length_replicate
    | some mask => exact h.truncatedMask_length mask hmask
  obtain ⟨rowMeta, hrowMeta, hmeta⟩ := exists_packRowMeta h hmask
  refine ⟨⟨s.forwardCt, s.rids, rowMeta, s.draftTokens, qAll, targetDiag, ps, plan.slotLookup⟩,
    ?_, rfl, h.nodup, fun b rid hrid => ?_⟩
  · have hdraftTemps : reshapeVector s.draftTemperatures s.rids.length =
        .ok s.draftTemperatures := by
      rw [reshapeVector, require_ok h.draftTemperatures_length]
      rfl
    have htargetTemps : reshapeVector s.targetTemperatures s.rids.length =
        .ok s.targetTemperatures := by
      rw [reshapeVector, require_ok h.targetTemperatures_length]
      rfl
    rw [buildDeviceBundle, require_ok ⟨h.drafts_length, h.drafts_row⟩,
      require_ok ⟨h.corrected_length _ hcorrected, h.corrected_row _ hcorrected⟩,
      require_ok h.target_length]
    simp only [hdraftTemps, htargetTemps, hqs, hqAll, hxs, hdiag, hplan, hps, bind, Except.bind]
    rw [show s.layout.getD _ = s.verifyLens cfg.gamma from rfl, hrowMeta]
    rfl
  · have hb : b < s.rids.length := (List.getElem?_eq_some_iff.mp hrid).1
    obtain ⟨drafts, hdrafts⟩ : ∃ drafts, s.draftTokens[b]? = some drafts :=
      ⟨_, List.getElem?_eq_getElem (h.drafts_length.symm ▸ hb)⟩
    obtain ⟨qsRow, hqsRow, hqsLen, hq⟩ := hqRead b drafts hdrafts
    obtain ⟨diag, hdiagRow, -, hd⟩ := hdiagRead b drafts hdrafts
    obtain ⟨m, hm, hseq, hbounds⟩ := hmeta b hb
    refine ⟨m, drafts, qsRow, diag, hm, hseq, h.prefixLens_nonneg _ (List.mem_of_getElem? hseq),
      hbounds, hdrafts, hdrafts, h.drafts_row drafts (List.mem_of_getElem? hdrafts), hqsRow,
      hqsLen, hdiagRow, hq, hd, ?_⟩
    intro i block hblock offset hge hle
    cases hstate : states.get? rid with
    | none =>
      -- a request without a state has no blocks
      rw [stateOf, hstate] at hblock
      cases hblock
    | some state =>
      rw [stateOf, hstate, Option.getD_some] at hblock ⊢
      obtain ⟨slot, hslot⟩ := hcovered b hb rid state hrid hstate i block hblock offset hge hle
      obtain ⟨rid', state', block', row, token, hat⟩ := hplanned.lookups b i offset slot hslot
      obtain rfl := Option.some.inj (hrid.symm.trans hat.rid_eq)
      obtain rfl := Option.some.inj (hstate.symm.trans hat.state_eq)
      obtain rfl := Option.some.inj (hblock.symm.trans hat.block_eq)
      obtain ⟨x, hx, hread⟩ := hpsRead b i offset slot rid state block row token hat
      exact ⟨token, slot, x, row, hat.token_eq, lookup_of_get? hslot, item_natCast hx, hat.row_eq,
        hat.row_le, hread⟩

end

end LatentSpec.BlockAccept
