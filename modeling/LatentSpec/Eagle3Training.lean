import LatentSpec.Eagle3Draft
import LatentSpec.TiledStores

/-! # EAGLE3 test-time training

`compute_eagle3_loss` runs the draft `ttt_length` times over a padded sequence.  Each step shifts
the tokens by one, feeds the outputs of the step before back in and appends a chunk of keys to
the cache; `create_eagle3_attention_mask` lets query `t` see the first chunk up to `t` and the
diagonal of every later chunk.

The rows of step `s` are the rows that a proposal has at its step `s` (`trainRow_eq_chain`), so
training attends to what inference attends to, under the same rope positions and with the
target's distribution one position further on (`eagle3_training_sees_inference`).
-/
namespace LatentSpec

/-- A training sample: the sequence, its loss mask and the hidden states of the last layer. -/
structure Eagle3Sample (V : ℕ) (F D : Type) extends Eagle3Sequence V F where
  lossMask : List ℕ
  targetLastHiddenStates : List D
  length_lossMask : lossMask.length = inputIds.length
  length_last : targetLastHiddenStates.length = inputIds.length

/-- A row of the batch. -/
structure Eagle3BatchRow (V : ℕ) (F D : Type) where
  inputIds : List (Fin V)
  lossMask : List ℕ
  attentionMask : List ℕ
  targetHiddenStates : List F
  targetLastHiddenStates : List D

/-- `CacheCollator` for one of the samples, which is `pad` shorter than the longest one. -/
def cacheCollator {V : ℕ} [NeZero V] {F D : Type} [Zero F] [Zero D] (x : Eagle3Sample V F D)
    (pad : ℕ) : Eagle3BatchRow V F D where
  inputIds := x.inputIds ++ List.replicate pad 0
  lossMask := x.lossMask ++ List.replicate pad 0
  attentionMask := List.replicate x.inputIds.length 1 ++ List.replicate pad 0
  targetHiddenStates := x.targetHiddenStates ++ List.replicate pad 0
  targetLastHiddenStates := x.targetLastHiddenStates ++ List.replicate pad 0

/-- `_shift_with_zero_padding(left=False)` -/
def shiftWithZeroPadding {α : Type} [Zero α] (xs : List α) : List α :=
  if xs = [] then [] else xs.drop 1 ++ [0]

/-- `_build_next_token_position_mask` -/
def buildNextTokenPositionMask (lossMask attentionMask : List ℕ) : List ℕ :=
  lossMask.set (attentionMask.sum - 1) 0

/-- `_build_padded_next_token_target_probs` -/
def buildPaddedNextTokenTargetProbs {D P : Type} (targetProbs : D → P) (uniform : P)
    (targetLast : List D) (tttLength : ℕ) : List P :=
  (targetLast.map targetProbs).drop 1 ++ List.replicate (tttLength + 1) uniform

/-- What a step of the loop hands to the loss. -/
structure TttStep (V : ℕ) (H P : Type) where
  rows : List (Eagle3Row V H)
  targetStepProbs : List P
  positionMask : List ℕ

variable {V : ℕ} {F H L D P : Type}

namespace Eagle3Model
variable [NeZero V] (m : Eagle3Model V F H L)

/-- The steps of `compute_eagle3_loss` from step `stepIdx` on. -/
def tttSteps (batch : Eagle3BatchRow V F D) (targetProbs : List P) :
    ℕ → ℕ → List F ⊕ List H → List (Fin V) → List ℕ → List (Eagle3Key V H) →
      Except String (List (TttStep V H P))
  | 0, _, _, _, _, _ => .ok []
  | steps + 1, stepIdx, hiddenStates, currentInputIds, positionMask, pastKeyValues => do
    let seqLen := batch.inputIds.length
    let (rows, keys) ← m.forward .flexAttention hiddenStates currentInputIds (List.range seqLen)
      pastKeyValues (some batch.attentionMask) true
    let rest ← tttSteps batch targetProbs steps (stepIdx + 1) (.inr (rows.map m.layer))
      (shiftWithZeroPadding currentInputIds) (shiftWithZeroPadding positionMask) keys
    return { rows
             targetStepProbs := slice targetProbs stepIdx (stepIdx + seqLen)
             positionMask } :: rest

/-- `compute_eagle3_loss` for one sequence, up to the losses. -/
def computeEagle3Loss (targetProbs : D → P) (uniform : P) (batch : Eagle3BatchRow V F D) :
    Except String (List (TttStep V H P)) :=
  m.tttSteps batch
    (buildPaddedNextTokenTargetProbs targetProbs uniform batch.targetLastHiddenStates m.tttLength)
    m.tttLength 0 (.inl batch.targetHiddenStates) (shiftWithZeroPadding batch.inputIds)
    (buildNextTokenPositionMask batch.lossMask batch.attentionMask) []

end Eagle3Model

/-! ### The mask of a step -/

/-- The mask of step `lck` at a valid query: the first chunk up to the query and the diagonal of
the later chunks. -/
theorem createEagle3AttentionMask_iff {attentionMask : List ℕ} {qLen lck t kv : ℕ} (ht : t < qLen)
    (hvalid : t + lck < attentionMask.sum) :
    createEagle3AttentionMask attentionMask qLen lck t kv = true ↔
      kv ≤ t ∨ (qLen ≤ kv ∧ kv % qLen = t) := by
  have hdiagonal : ((kv : ℤ) - t) % qLen = 0 ↔ kv % qLen = t := by
    rw [← Int.dvd_iff_emod_eq_zero, ← Nat.modEq_iff_dvd, Nat.ModEq, Nat.mod_eq_of_lt ht, eq_comm]
  simp only [createEagle3AttentionMask, Bool.and_eq_true, Bool.or_eq_true, decide_eq_true_eq,
    hdiagonal]
  constructor
  · rintro ⟨-, ⟨hle, -⟩ | ⟨⟨hge, -⟩, hmod⟩⟩
    · exact .inl hle
    · exact .inr ⟨hge, hmod⟩
  · rintro (hle | ⟨hge, hmod⟩)
    · exact ⟨by omega, .inl ⟨hle, by omega⟩⟩
    · exact ⟨by omega, .inr ⟨⟨hge, by omega⟩, hmod⟩⟩

/-- The keys that query `t` sees in `chunks + 1` chunks. -/
theorem filter_range_chunks {qLen t : ℕ} (ht : t < qLen) {mask : ℕ → Bool}
    (hmask : ∀ kv, mask kv = true ↔ kv ≤ t ∨ (qLen ≤ kv ∧ kv % qLen = t)) (chunks : ℕ) :
    (List.range ((chunks + 1) * qLen)).filter mask =
      List.range (t + 1) ++ (List.range chunks).map fun k => (k + 1) * qLen + t := by
  induction chunks with
  | zero =>
    have hfirst : (List.range qLen).filter mask = (List.range qLen).filter (· < t + 1) := by
      refine List.filter_congr fun kv hkv => ?_
      rw [List.mem_range] at hkv
      rw [Bool.eq_iff_iff, hmask, decide_eq_true_eq]
      omega
    rw [Nat.zero_add, Nat.one_mul, hfirst, TiledStores.filter_range_lt ht]
    simp
  | succ chunks ih =>
    have hsplit : (chunks + 1 + 1) * qLen = (chunks + 1) * qLen + qLen := Nat.succ_mul _ _
    have hge : qLen ≤ (chunks + 1) * qLen := Nat.le_mul_of_pos_left _ (Nat.succ_pos _)
    have hchunk : (List.range qLen).filter (mask ∘ ((chunks + 1) * qLen + ·)) = [t] := by
      have hdiag : (List.range qLen).filter (mask ∘ ((chunks + 1) * qLen + ·)) =
          (List.range qLen).filter (· = t) := by
        refine List.filter_congr fun j hj => ?_
        rw [List.mem_range] at hj
        rw [Bool.eq_iff_iff, Function.comp_apply, hmask, decide_eq_true_eq,
          TiledStores.block_mod hj]
        omega
      rw [hdiag, List.filter_eq, List.count_eq_one_of_mem List.nodup_range (List.mem_range.mpr ht)]
      rfl
    rw [hsplit, List.range_add, List.filter_append, ih, List.filter_map, hchunk,
      List.range_succ (n := chunks), List.map_append, List.append_assoc]
    rfl

/-! ### What a step reads -/

section
variable {m : Eagle3Model V F H L} {x : Eagle3Sample V F D} {pad : ℕ}

/-- The hidden state that step `s` pairs with position `t`. -/
def IsSource (x : Eagle3Sample V F D) (m : Eagle3Model V F H L) (t : ℕ) : ℕ → H → Prop
  | 0, hidden => ∃ h, x.targetHiddenStates[t]? = some h ∧ hidden = m.projectHiddenStates h
  | s + 1, hidden => ∃ row, x.chain m t s = some row ∧ hidden = m.layer row

/-- Before step `s`: the tokens have been shifted `s + 1` times, and the cache has `s` chunks
whose keys are those of the chains. -/
structure TttReady (x : Eagle3Sample V F D) (m : Eagle3Model V F H L) (seqLen s : ℕ)
    (hidden : List H) (currentInputIds : List (Fin V)) (cache : List (Eagle3Key V H)) : Prop where
  length_cache : cache.length = s * seqLen
  inputIds : ∀ t, t + s + 1 < x.inputIds.length →
    currentInputIds[t]? = x.inputIds[t + s + 1]?
  hidden : ∀ t, t + s + 1 < x.inputIds.length → ∃ h, hidden[t]? = some h ∧ IsSource x m t s h
  cache : ∀ s' < s, ∀ t, t + s' + 1 < x.inputIds.length →
    cache[s' * seqLen + t]? = (x.chain m t s').map Eagle3Row.key

/-- The key of the chain at step `s`. -/
theorem chain_key {t s : ℕ} {token : Fin V} {hidden : H}
    (htoken : x.inputIds[t + s + 1]? = some token) (hsource : IsSource x m t s hidden) :
    (x.chain m t s).map Eagle3Row.key = some ⟨token, hidden, t + s⟩ := by
  cases s with
  | zero =>
    obtain ⟨h, hh, rfl⟩ := hsource
    have hkey := Eagle3Sequence.keys_getElem? (m := m) htoken hh
    rw [Eagle3Sequence.chain, hkey]
    rfl
  | succ s =>
    obtain ⟨row, hrow, rfl⟩ := hsource
    rw [Eagle3Sequence.chain_succ hrow htoken]
    rfl

theorem makeKeys_getElem? {inputIds : List (Fin V)} {hiddenStates : List H}
    {positions : List ℕ} {i p : ℕ} {token : Fin V} {hidden : H} (hi : inputIds[i]? = some token)
    (hh : hiddenStates[i]? = some hidden) (hp : positions[i]? = some p) :
    (makeKeys inputIds hiddenStates positions)[i]? = some ⟨token, hidden, p⟩ := by
  rw [makeKeys, List.getElem?_zipWith, List.zip, List.getElem?_zipWith, hi, hh, hp]

/-- The chunk that a step appends holds the keys of the chains. -/
theorem TttReady.append {seqLen s : ℕ} {hidden : List H} {currentInputIds : List (Fin V)}
    {cache : List (Eagle3Key V H)} (h : TttReady x m seqLen s hidden currentInputIds cache)
    (hlen : x.inputIds.length ≤ seqLen) {s' t : ℕ} (hs : s' ≤ s)
    (ht : t + s' + 1 < x.inputIds.length) :
    (cache ++ makeKeys currentInputIds hidden ((List.range seqLen).map (· + s)))[s' * seqLen + t]? =
      (x.chain m t s').map Eagle3Row.key := by
  rcases Nat.lt_or_eq_of_le hs with hlt | rfl
  · have hbound : s' * seqLen + t < cache.length := by
      rw [h.length_cache]
      exact TiledStores.block_lt hlt (by omega)
    rw [List.getElem?_append_left hbound, h.cache s' hlt t ht]
  · obtain ⟨token, htoken⟩ : ∃ token, x.inputIds[t + s' + 1]? = some token :=
      ⟨_, List.getElem?_eq_getElem ht⟩
    obtain ⟨hid, hhid, hsource⟩ := h.hidden t ht
    have hposition : ((List.range seqLen).map (· + s'))[t]? = some (t + s') := by
      rw [List.getElem?_map, List.getElem?_range (by omega)]
      rfl
    rw [List.getElem?_append_right (by rw [h.length_cache]; omega), h.length_cache,
      Nat.add_sub_cancel_left, makeKeys_getElem? ((h.inputIds t ht).trans htoken) hhid hposition,
      chain_key htoken hsource]

/-- **A row of a step is the row of the chain.** -/
theorem visibleKeys_eq_chain {seqLen s : ℕ} {keys : List (Eagle3Key V H)}
    (hkeys : ∀ s' ≤ s, ∀ t, t + s' + 1 < x.inputIds.length →
      keys[s' * seqLen + t]? = (x.chain m t s').map Eagle3Row.key)
    (hlength : keys.length = (s + 1) * seqLen) (hlen : x.inputIds.length ≤ seqLen) {t : ℕ}
    (ht : t + s + 1 < x.inputIds.length) {attentionMask : List ℕ}
    (hsum : attentionMask.sum = x.inputIds.length) {row : Eagle3Row V H}
    (hrow : x.chain m t s = some row) :
    visibleKeys (createEagle3AttentionMask attentionMask seqLen s t) keys = row.visible := by
  have hmask : ∀ kv, createEagle3AttentionMask attentionMask seqLen s t kv = true ↔
      kv ≤ t ∨ (seqLen ≤ kv ∧ kv % seqLen = t) :=
    fun kv => createEagle3AttentionMask_iff (by omega) (by omega)
  obtain ⟨own, hvisible, hown, hchain⟩ := Eagle3Sequence.chain_visible hrow
  rw [visibleKeys, hlength, filter_range_chunks (by omega) hmask, List.filterMap_append,
    filterMap_getElem?_range, List.filterMap_map, hvisible]
  congr 1
  · -- the first chunk
    refine List.ext_getElem? fun i => ?_
    rw [List.getElem?_take, List.getElem?_take]
    split_ifs with hi
    · have hfirst := hkeys 0 (Nat.zero_le s) i (by omega)
      rw [Nat.zero_mul, Nat.zero_add] at hfirst
      rw [hfirst, Eagle3Sequence.chain, Option.map_map]
      exact Option.map_id'
    · rfl
  · -- the diagonal
    have hdiagonal : (List.range s).filterMap ((keys[·]?) ∘ fun k => (k + 1) * seqLen + t) =
        (List.range s).filterMap (own[·]?) := by
      refine List.filterMap_congr fun k hk => ?_
      rw [List.mem_range] at hk
      obtain ⟨previous, token, hprevious, htoken, hkey⟩ := hchain k hk
      rw [Function.comp_apply, hkeys (k + 1) hk t (by omega),
        Eagle3Sequence.chain_succ hprevious htoken, hkey]
      rfl
    rw [hdiagonal, filterMap_getElem?_range, List.take_of_length_le hown.le]

/-- The rows of a step that did not fail. -/
theorem forward_step {seqLen s : ℕ} {hiddenStates : List F ⊕ List H}
    {currentInputIds : List (Fin V)} {cache keys : List (Eagle3Key V H)}
    {rows : List (Eagle3Row V H)} {attentionMask : List ℕ} (hpos : 0 < seqLen)
    (hcache : cache.length = s * seqLen)
    (h : m.forward .flexAttention hiddenStates currentInputIds (List.range seqLen) cache
      (some attentionMask) true = .ok (rows, keys)) :
    let hidden := hiddenStates.elim (List.map m.projectHiddenStates) id
    hidden.length = seqLen ∧ currentInputIds.length = seqLen ∧
      keys = cache ++ makeKeys currentInputIds hidden ((List.range seqLen).map (· + s)) ∧
      rows = makeRows (createEagle3AttentionMask attentionMask seqLen s) keys (s * seqLen)
        seqLen := by
  intro hidden
  unfold Eagle3Model.forward at h
  dsimp only at h
  split_ifs at h with hshape
  rw [not_or, not_not, not_not, List.length_range] at hshape
  obtain ⟨hids, hlength⟩ := hshape
  have hlen : hidden.length = seqLen := hlength.symm
  have hlck : cache.length / seqLen = s := by rw [hcache, Nat.mul_div_cancel _ hpos]
  have hmod : cache.length % seqLen = 0 := by rw [hcache, Nat.mul_mod_left]
  change (prepareAttentionMask .flexAttention (some attentionMask) hidden.length cache.length >>=
    fun mask => ropePositionIds (List.range seqLen) true hidden.length cache.length >>=
      fun rope => pure (makeRows mask (cache ++ makeKeys currentInputIds hidden rope) cache.length
        hidden.length, cache ++ makeKeys currentInputIds hidden rope)) = _ at h
  rw [hlen, prepareAttentionMask, if_neg (by rw [hmod]; simp), ropePositionIds, if_pos rfl,
    if_neg (by rw [hmod]; simp), hlck] at h
  cases h
  exact ⟨hlen, hids.trans hlen, rfl, by rw [hcache]⟩

/-- A map over a range that is defined everywhere. -/
theorem filterMap_range_getElem? {α : Type} {f : ℕ → Option α} {n : ℕ}
    (hf : ∀ q < n, ∃ y, f q = some y) :
    ((List.range n).filterMap f).length = n ∧
      ∀ q < n, ((List.range n).filterMap f)[q]? = f q := by
  induction n with
  | zero => exact ⟨rfl, fun q hq => absurd hq (Nat.not_lt_zero q)⟩
  | succ n ih =>
    obtain ⟨hlen, hget⟩ := ih fun q hq => hf q (by omega)
    obtain ⟨y, hy⟩ := hf n (Nat.lt_succ_self n)
    have hlast : [n].filterMap f = [y] := by
      rw [List.filterMap_cons_some hy, List.filterMap_nil]
    rw [List.range_succ, List.filterMap_append, hlast]
    refine ⟨by rw [List.length_append, hlen, List.length_singleton], fun q hq => ?_⟩
    rcases Nat.lt_succ_iff_lt_or_eq.mp hq with hlt | rfl
    · rw [List.getElem?_append_left (by omega), hget q hlt]
    · rw [List.getElem?_append_right hlen.le, hlen, Nat.sub_self, hy]
      rfl

theorem makeRows_getElem? {mask : ℕ → ℕ → Bool} {keys : List (Eagle3Key V H)}
    {past qLen : ℕ} (hlen : keys.length = past + qLen) :
    (makeRows mask keys past qLen).length = qLen ∧ ∀ q < qLen,
      (makeRows mask keys past qLen)[q]? =
        keys[past + q]?.map fun key => { key, visible := visibleKeys (mask q) keys } := by
  refine filterMap_range_getElem? fun q hq => ?_
  have hget : keys[past + q]? = some (keys.get ⟨past + q, by omega⟩) := List.getElem?_eq_getElem _
  exact ⟨_, by rw [hget]; rfl⟩

/-! ### The loop -/

/-- The rows of a step are those of the chains, and the next step finds the cache that it
expects. -/
theorem TttReady.step {seqLen s : ℕ} {hiddenStates : List F ⊕ List H}
    {currentInputIds : List (Fin V)} {cache keys : List (Eagle3Key V H)}
    {rows : List (Eagle3Row V H)} {attentionMask : List ℕ} [NeZero V]
    (h : TttReady x m seqLen s (hiddenStates.elim (List.map m.projectHiddenStates) id)
      currentInputIds cache)
    (hpos : 0 < seqLen) (hlen : x.inputIds.length ≤ seqLen)
    (hsum : attentionMask.sum = x.inputIds.length)
    (hforward : m.forward .flexAttention hiddenStates currentInputIds (List.range seqLen) cache
      (some attentionMask) true = .ok (rows, keys)) :
    (∀ t, t + s + 1 < x.inputIds.length → rows[t]? = x.chain m t s) ∧
      TttReady x m seqLen (s + 1) (rows.map m.layer) (shiftWithZeroPadding currentInputIds)
        keys := by
  obtain ⟨hhidden, hids, hkeys, hrows⟩ := forward_step hpos h.length_cache hforward
  have hposition : ((List.range seqLen).map (· + s)).length = seqLen := by
    rw [List.length_map, List.length_range]
  have hlength : keys.length = s * seqLen + seqLen := by
    rw [hkeys, List.length_append, h.length_cache, length_makeKeys hids hhidden hposition]
  have hcells : ∀ s' ≤ s, ∀ t, t + s' + 1 < x.inputIds.length →
      keys[s' * seqLen + t]? = (x.chain m t s').map Eagle3Row.key := by
    intro s' hs t ht
    rw [hkeys]
    exact h.append hlen hs ht
  have hrow : ∀ t, t + s + 1 < x.inputIds.length → rows[t]? = x.chain m t s := by
    intro t ht
    obtain ⟨row, hchain⟩ := Eagle3Sequence.exists_chain (m := m) ht
    rw [hrows, (makeRows_getElem? hlength).2 t (by omega), hcells s le_rfl t ht, hchain,
      Option.map_some, Option.map_some, visibleKeys_eq_chain hcells (by rw [hlength, Nat.succ_mul])
        hlen ht hsum hchain]
  refine ⟨hrow, by rw [hlength, Nat.succ_mul], fun t ht => ?_, fun t ht => ?_, ?_⟩
  · -- one more shift
    have hne : currentInputIds ≠ [] := List.ne_nil_of_length_pos (hids ▸ hpos)
    rw [shiftWithZeroPadding, if_neg hne, List.getElem?_append_left, List.getElem?_drop,
      Nat.add_comm 1 t, h.inputIds (t + 1) (by omega)]
    · congr 1
      omega
    · rw [List.length_drop, hids]
      omega
  · obtain ⟨row, hchain⟩ : ∃ row, x.chain m t s = some row :=
      Eagle3Sequence.exists_chain (by omega)
    refine ⟨m.layer row, ?_, row, hchain, rfl⟩
    rw [List.getElem?_map, hrow t (by omega), hchain]
    rfl
  · intro s' hs t ht
    exact hcells s' (by omega) t ht

/-- The steps of the loop from step `s` on. -/
theorem tttSteps_spec [NeZero V] {batch : Eagle3BatchRow V F D} {targetProbs : List P}
    (hlen : x.inputIds.length ≤ batch.inputIds.length) (hpos : 0 < batch.inputIds.length)
    (hsum : batch.attentionMask.sum = x.inputIds.length) {steps s : ℕ}
    {hiddenStates : List F ⊕ List H} {currentInputIds : List (Fin V)} {positionMask : List ℕ}
    {cache : List (Eagle3Key V H)} {out : List (TttStep V H P)}
    (h : TttReady x m batch.inputIds.length s
      (hiddenStates.elim (List.map m.projectHiddenStates) id) currentInputIds cache)
    (hloop : m.tttSteps batch targetProbs steps s hiddenStates currentInputIds positionMask cache =
      .ok out) :
    out.length = steps ∧ ∀ k < steps, ∃ step, out[k]? = some step ∧
      (∀ t, t + (s + k) + 1 < x.inputIds.length → step.rows[t]? = x.chain m t (s + k)) ∧
      step.targetStepProbs = slice targetProbs (s + k) (s + k + batch.inputIds.length) ∧
      step.positionMask = shiftWithZeroPadding^[k] positionMask := by
  induction steps generalizing s hiddenStates currentInputIds positionMask cache out with
  | zero =>
    cases hloop
    exact ⟨rfl, fun k hk => absurd hk (Nat.not_lt_zero k)⟩
  | succ steps ih =>
    rw [Eagle3Model.tttSteps] at hloop
    rcases hforward : m.forward .flexAttention hiddenStates currentInputIds
      (List.range batch.inputIds.length) cache (some batch.attentionMask) true with e | ⟨rows, keys⟩
    · simp only [hforward, bind, Except.bind] at hloop
      cases hloop
    obtain ⟨hrows, hnext⟩ := h.step hpos hlen hsum hforward
    rcases hrest : m.tttSteps batch targetProbs steps (s + 1) (.inr (rows.map m.layer))
      (shiftWithZeroPadding currentInputIds) (shiftWithZeroPadding positionMask) keys with e | rest
    · simp only [hforward, hrest, bind, Except.bind] at hloop
      cases hloop
    simp only [hforward, hrest, bind, Except.bind] at hloop
    cases hloop
    obtain ⟨hlength, hsteps⟩ := ih hnext hrest
    refine ⟨by rw [List.length_cons, hlength], fun k hk => ?_⟩
    cases k with
    | zero => exact ⟨_, rfl, hrows, rfl, rfl⟩
    | succ k =>
      obtain ⟨step, hstep, hrow, hprobs, hmask⟩ := hsteps k (by omega)
      have hshift : s + (k + 1) = s + 1 + k := by omega
      rw [hshift]
      exact ⟨step, hstep, hrow, hprobs, hmask⟩

/-- A step whose tensors have the right sizes does not fail. -/
theorem forward_step_ok {seqLen s : ℕ} {hiddenStates : List F ⊕ List H}
    {currentInputIds : List (Fin V)} {cache : List (Eagle3Key V H)} (attentionMask : List ℕ)
    (hpos : 0 < seqLen) (hcache : cache.length = s * seqLen)
    (hhidden : (hiddenStates.elim (List.map m.projectHiddenStates) id).length = seqLen)
    (hids : currentInputIds.length = seqLen) :
    ∃ rows keys, m.forward .flexAttention hiddenStates currentInputIds (List.range seqLen) cache
        (some attentionMask) true = .ok (rows, keys) ∧
      rows.length = seqLen ∧ keys.length = (s + 1) * seqLen := by
  have hmod : cache.length % seqLen = 0 := by rw [hcache, Nat.mul_mod_left]
  have hok : ∃ rows keys, m.forward .flexAttention hiddenStates currentInputIds
      (List.range seqLen) cache (some attentionMask) true = .ok (rows, keys) := by
    unfold Eagle3Model.forward
    dsimp only
    rw [if_neg (by rw [hhidden, hids, List.length_range]; simp), hhidden, prepareAttentionMask,
      if_neg (by rw [hmod]; simp), ropePositionIds, if_pos rfl, if_neg (by rw [hmod]; simp)]
    exact ⟨_, _, rfl⟩
  obtain ⟨rows, keys, hforward⟩ := hok
  obtain ⟨-, -, hkeys, hrows⟩ := forward_step hpos hcache hforward
  have hposition : ((List.range seqLen).map (· + s)).length = seqLen := by
    rw [List.length_map, List.length_range]
  have hlength : keys.length = s * seqLen + seqLen := by
    rw [hkeys, List.length_append, hcache, length_makeKeys hids hhidden hposition]
  exact ⟨rows, keys, hforward, by rw [hrows, (makeRows_getElem? hlength).1],
    by rw [hlength, Nat.succ_mul]⟩

theorem length_shiftWithZeroPadding {α : Type} [Zero α] (xs : List α) :
    (shiftWithZeroPadding xs).length = xs.length := by
  unfold shiftWithZeroPadding
  split_ifs with hnil
  · rw [hnil]
  · have hpos := List.length_pos_of_ne_nil hnil
    rw [List.length_append, List.length_drop, List.length_singleton]
    omega

/-- The loop returns. -/
theorem exists_tttSteps [NeZero V] (batch : Eagle3BatchRow V F D) (targetProbs : List P)
    (hpos : 0 < batch.inputIds.length) (steps : ℕ) {s : ℕ} {hiddenStates : List F ⊕ List H}
    {currentInputIds : List (Fin V)} (positionMask : List ℕ) {cache : List (Eagle3Key V H)}
    (hcache : cache.length = s * batch.inputIds.length)
    (hhidden : (hiddenStates.elim (List.map m.projectHiddenStates) id).length =
      batch.inputIds.length)
    (hids : currentInputIds.length = batch.inputIds.length) :
    ∃ out, m.tttSteps batch targetProbs steps s hiddenStates currentInputIds positionMask cache =
      .ok out := by
  induction steps generalizing s hiddenStates currentInputIds positionMask cache with
  | zero => exact ⟨[], rfl⟩
  | succ steps ih =>
    obtain ⟨rows, keys, hforward, hrows, hkeys⟩ :=
      forward_step_ok batch.attentionMask hpos hcache hhidden hids
    have hnext : ((Sum.inr (rows.map m.layer) : List F ⊕ List H).elim
        (List.map m.projectHiddenStates) id).length = batch.inputIds.length := by
      rw [Sum.elim_inr, id, List.length_map, hrows]
    obtain ⟨rest, hrest⟩ := ih (shiftWithZeroPadding positionMask) hkeys hnext
      ((length_shiftWithZeroPadding currentInputIds).trans hids)
    rw [Eagle3Model.tttSteps]
    simp only [hforward, hrest, bind, Except.bind]
    exact ⟨_, rfl⟩

/-! ### Supervision -/

/-- An entry that survives `k` shifts stood `k` places to the right. -/
theorem getElem?_shift_iterate {α : Type} [Zero α] {xs : List α} {k t : ℕ} {p : α}
    (h : (shiftWithZeroPadding^[k] xs)[t]? = some p) (hp : p ≠ 0) : xs[t + k]? = some p := by
  induction k generalizing xs with
  | zero => exact h
  | succ k ih =>
    rw [Function.iterate_succ_apply] at h
    have hget := ih h
    unfold shiftWithZeroPadding at hget
    split_ifs at hget with hnil
    · simp at hget
    rcases Nat.lt_or_ge (t + k) (xs.drop 1).length with hlt | hge
    · rw [List.getElem?_append_left hlt, List.getElem?_drop] at hget
      rw [← hget]
      congr 1
      omega
    · rw [List.getElem?_append_right hge] at hget
      rcases hz : t + k - (xs.drop 1).length with _ | n
      · rw [hz] at hget
        exact absurd (Option.some.inj hget).symm hp
      · rw [hz] at hget
        cases hget

section
variable [NeZero V] [Zero F] [Zero D] (x : Eagle3Sample V F D) (pad : ℕ)

@[simp] theorem length_cacheCollator :
    (cacheCollator x pad).inputIds.length = x.inputIds.length + pad := by
  simp [cacheCollator]

@[simp] theorem sum_attentionMask :
    (cacheCollator x pad).attentionMask.sum = x.inputIds.length := by
  simp [cacheCollator]

/-- A supervised position has a successor in the sequence. -/
theorem lt_length_of_supervised {s t p : ℕ}
    (h : (shiftWithZeroPadding^[s] (buildNextTokenPositionMask (cacheCollator x pad).lossMask
      (cacheCollator x pad).attentionMask))[t]? = some p) (hp : p ≠ 0) :
    t + s + 1 < x.inputIds.length := by
  have hget := getElem?_shift_iterate h hp
  rw [buildNextTokenPositionMask, sum_attentionMask, List.getElem?_set] at hget
  split_ifs at hget with hlast hbound
  · exact absurd (Option.some.inj hget).symm hp
  · -- behind the sequence the mask is zero
    by_contra hnot
    have hge : x.lossMask.length ≤ t + s := by
      rw [x.length_lossMask]
      omega
    simp only [cacheCollator, List.getElem?_append_right hge, List.getElem?_replicate] at hget
    split_ifs at hget with hpad
    exact hp (Option.some.inj hget).symm

/-- The teacher of position `t` at step `s`. -/
theorem teacher_eq {targetProbs : D → P} {uniform : P} {tttLength s t : ℕ}
    (ht : t + s + 1 < x.inputIds.length) :
    (slice (buildPaddedNextTokenTargetProbs targetProbs uniform
        (cacheCollator x pad).targetLastHiddenStates tttLength) s
        (s + (cacheCollator x pad).inputIds.length))[t]? =
      x.targetLastHiddenStates[t + 1 + s]?.map targetProbs := by
  have hlast := x.length_last
  rw [slice, List.getElem?_drop, List.getElem?_take, if_pos (by simp; omega),
    buildPaddedNextTokenTargetProbs, List.getElem?_append_left, List.getElem?_drop,
    List.getElem?_map, cacheCollator, List.getElem?_append_left (by omega)]
  · congr 2
    omega
  · simp [cacheCollator, hlast]
    omega

end

end

/-! ### Training and inference -/

/-- **EAGLE3 training attends to what inference attends to.**  Row `t` of step `s` is the row that
drafts token `s` of a proposal at `t + 1`, after any history, when the proposal drafts the tokens
of the sequence: it sees the entries `0 .. t` and one key of its own for each earlier step.  The
teacher is the target's distribution at `t + 1 + s`, and only such positions are supervised. -/
theorem eagle3_training_sees_inference [NeZero V] [Zero F] [Zero D] (m : Eagle3Model V F H L)
    (targetProbs : D → P) (uniform : P) (x : Eagle3Sample V F D) (pad : ℕ)
    (hne : 0 < x.inputIds.length) :
    ∃ steps, m.computeEagle3Loss targetProbs uniform (cacheCollator x pad) = .ok steps ∧
      steps.length = m.tttLength ∧ ∀ s step, steps[s]? = some step →
        (∀ t p, step.positionMask[t]? = some p → p ≠ 0 → t + s + 1 < x.inputIds.length) ∧
        ∀ t, t + s + 1 < x.inputIds.length → ∃ row, step.rows[t]? = some row ∧
          (∃ own : List (Eagle3Key V H), row.visible = (x.keys m).take (t + 1) ++ own ∧
            own.length = s ∧ ∀ k < s, ∃ earlier previous token, steps[k]? = some earlier ∧
              earlier.rows[t]? = some previous ∧ x.inputIds[t + k + 2]? = some token ∧
              own[k]? = some ⟨token, m.layer previous, t + k + 1⟩) ∧
          step.targetStepProbs[t]? = x.targetLastHiddenStates[t + 1 + s]?.map targetProbs ∧
          ∀ context, Eagle3History x.toEagle3Sequence m context (t + 1) →
            ∀ sample stopTokenIds outputIds proposal context', t + 1 < outputIds.length →
              m.propose sample stopTokenIds context outputIds (t + 1) =
                .ok (proposal, context') →
              DraftsSequence x.toEagle3Sequence t s proposal.verifyInputIds →
              proposal.rows[s]? = some row ∨
                (proposal.rows.length = s ∧ ∃ token, proposal.verifyInputIds.getLast? = some token ∧
                  hasStopToken [token] stopTokenIds = true) := by
  have hlen : x.inputIds.length ≤ (cacheCollator x pad).inputIds.length := by simp
  have hhidden : ((Sum.inl (cacheCollator x pad).targetHiddenStates : List F ⊕ List H).elim
      (List.map m.projectHiddenStates) id).length = (cacheCollator x pad).inputIds.length := by
    simp [cacheCollator, x.length_hidden]
  have hshift := length_shiftWithZeroPadding (cacheCollator x pad).inputIds
  have hfirst : TttReady x m (cacheCollator x pad).inputIds.length 0
      ((Sum.inl (cacheCollator x pad).targetHiddenStates : List F ⊕ List H).elim
        (List.map m.projectHiddenStates) id)
      (shiftWithZeroPadding (cacheCollator x pad).inputIds) [] := by
    refine ⟨by simp, fun t ht => ?_, fun t ht => ?_, fun s' hs => absurd hs (Nat.not_lt_zero s')⟩
    · rw [shiftWithZeroPadding, if_neg (List.ne_nil_of_length_pos (hne.trans_le hlen)),
        List.getElem?_append_left, List.getElem?_drop, cacheCollator,
        List.getElem?_append_left (by omega), Nat.add_comm 1 t]
      rw [List.length_drop]
      omega
    · have hlt : t < x.targetHiddenStates.length := by
        rw [x.length_hidden]
        omega
      refine ⟨m.projectHiddenStates (x.targetHiddenStates.get ⟨t, hlt⟩), ?_, _,
        List.getElem?_eq_getElem hlt, rfl⟩
      rw [Sum.elim_inl, List.getElem?_map, cacheCollator, List.getElem?_append_left hlt,
        List.getElem?_eq_getElem hlt]
      rfl
  obtain ⟨steps, hsteps⟩ := exists_tttSteps (m := m) (cacheCollator x pad)
    (buildPaddedNextTokenTargetProbs targetProbs uniform
      (cacheCollator x pad).targetLastHiddenStates m.tttLength) (hne.trans_le hlen) m.tttLength
    (buildNextTokenPositionMask (cacheCollator x pad).lossMask
      (cacheCollator x pad).attentionMask) hfirst.length_cache hhidden hshift
  obtain ⟨hlength, hall⟩ := tttSteps_spec hlen (hne.trans_le hlen) (sum_attentionMask x pad)
    hfirst hsteps
  refine ⟨steps, hsteps, hlength, fun s step hstep => ?_⟩
  have hs : s < m.tttLength := hlength ▸ (List.getElem?_eq_some_iff.mp hstep).1
  obtain ⟨step', hstep', hrows, hprobs, hmask⟩ := hall s hs
  obtain rfl : step = step' := Option.some.inj (hstep.symm.trans hstep')
  rw [Nat.zero_add] at hrows hprobs
  refine ⟨fun t p hp hpos => ?_, fun t ht => ?_⟩
  · rw [hmask] at hp
    exact lt_length_of_supervised x pad hp hpos
  obtain ⟨row, hchain⟩ : ∃ row, x.chain m t s = some row := Eagle3Sequence.exists_chain ht
  refine ⟨row, (hrows t ht).trans hchain, ?_, ?_, ?_⟩
  · obtain ⟨own, hvisible, hown, hkeys⟩ := Eagle3Sequence.chain_visible hchain
    refine ⟨own, hvisible, hown, fun k hk => ?_⟩
    obtain ⟨previous, token, hprevious, htoken, hkey⟩ := hkeys k hk
    obtain ⟨earlier, hearlier, hrow, -⟩ := hall k (by omega)
    rw [Nat.zero_add] at hrow
    exact ⟨earlier, previous, token, hearlier, (hrow t (by omega)).trans hprevious, htoken, hkey⟩
  · rw [hprobs]
    exact teacher_eq x pad ht
  · intro context hhistory sample stopTokenIds outputIds proposal context' hstart hpropose hdrafts
    rw [← hchain]
    exact propose_rows hhistory hstart hpropose hs hdrafts

/-- A draft whose outputs count the keys that a row sees. -/
def visibleCounter : Eagle3Model 4 ℕ ℕ ℕ where
  projectHiddenStates := id
  layer := fun row => row.key.hidden + row.visible.length
  computeLogits := id
  tttLength := 2

def fourTokenSample : Eagle3Sample 4 ℕ ℕ where
  inputIds := [0, 1, 2, 3]
  targetHiddenStates := [10, 11, 12, 13]
  length_hidden := rfl
  lossMask := [1, 1, 1, 1]
  targetLastHiddenStates := [20, 21, 22, 23]
  length_lossMask := rfl
  length_last := rfl

/-- After a prompt of one token and a round that drafts two tokens, commits another one and crops
the drafts from the cache, the second step of a proposal is the second step of training. -/
theorem eagle3_training_sees_inference_four :
    ∃ steps step row, visibleCounter.computeEagle3Loss id 0 (cacheCollator fourTokenSample 1) =
        .ok steps ∧ steps[1]? = some step ∧ step.rows[1]? = some row ∧
      row = ⟨⟨3, 13, 2⟩, [⟨1, 10, 0⟩, ⟨2, 11, 1⟩, ⟨3, 13, 2⟩]⟩ := by
  obtain ⟨steps, hsteps, hlength, hall⟩ := eagle3_training_sees_inference visibleCounter id 0
    fourTokenSample 1 (by decide)
  obtain ⟨step, hstep⟩ : ∃ step, steps[1]? = some step :=
    ⟨_, List.getElem?_eq_getElem (hlength ▸ (by decide : 1 < visibleCounter.tttLength))⟩
  obtain ⟨row, hrow, -, -, hinference⟩ := (hall 1 step hstep).2 1 (by decide)
  let first : Eagle3Context 4 ℕ :=
    { draftCache := [⟨1, 10, 0⟩], draftHidden := ⟨⟨1, 10, 0⟩, [⟨1, 10, 0⟩]⟩,
      positionIds := List.range 8, currentPos := 1, cacheLenBefore := 0 }
  have hprompt : Eagle3History fourTokenSample.toEagle3Sequence visibleCounter first 1 := by
    have htokens : ([0, 1, 0, 0] : List (Fin 4)).take (1 + 1) =
        fourTokenSample.inputIds.take (1 + 1) := rfl
    exact .init (n := 8) htokens rfl
  -- two drafts join the cache, and the update goes back behind them
  have hproposes : visibleCounter.propose (fun _ _ => 0) none first [0, 1, 0, 0] 1 =
      .ok (⟨[⟨⟨1, 10, 0⟩, [⟨1, 10, 0⟩]⟩, ⟨⟨0, 11, 1⟩, [⟨1, 10, 0⟩, ⟨0, 11, 1⟩]⟩], [1, 0, 0]⟩,
        { first with
          draftCache := [⟨1, 10, 0⟩, ⟨0, 11, 1⟩, ⟨0, 13, 2⟩]
          cacheLenBefore := 1 }) := rfl
  have hhistory : Eagle3History fourTokenSample.toEagle3Sequence visibleCounter
      { draftCache := [⟨1, 10, 0⟩, ⟨2, 11, 1⟩],
        draftHidden := ⟨⟨2, 11, 1⟩, [⟨1, 10, 0⟩, ⟨2, 11, 1⟩]⟩, positionIds := List.range 8,
        currentPos := 2, cacheLenBefore := 1 } (1 + [(2 : Fin 4)].length) := by
    have hhidden : ([11, 99] : List ℕ).take [(2 : Fin 4)].length =
        slice fourTokenSample.targetHiddenStates 1 (1 + [(2 : Fin 4)].length) := rfl
    exact .round hprompt hproposes rfl hhidden rfl
  have hdrafts : DraftsSequence fourTokenSample.toEagle3Sequence 1 1 [2, 3, 0] := by
    intro j hj
    obtain rfl : j = 0 := by omega
    exact ⟨3, rfl, rfl⟩
  have hrows := hinference _ hhistory (fun i _ => if i = 0 then 3 else 0) none [0, 1, 2, 0]
    { rows := [⟨⟨2, 11, 1⟩, [⟨1, 10, 0⟩, ⟨2, 11, 1⟩]⟩,
        ⟨⟨3, 13, 2⟩, [⟨1, 10, 0⟩, ⟨2, 11, 1⟩, ⟨3, 13, 2⟩]⟩],
      verifyInputIds := [2, 3, 0] } _ (by decide) rfl hdrafts
  rcases hrows with hget | ⟨-, token, -, hstop⟩
  · exact ⟨steps, step, row, hsteps, hstep, hrow, (Option.some.inj hget).symm⟩
  · cases hstop

end LatentSpec
