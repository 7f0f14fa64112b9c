import LatentSpec.Verify

/-! # The EAGLE3 draft model and its evaluator

`Qwen3Eagle3Model.forward` with one draft layer, for one sequence.  A key of the draft cache is
made from a token, the hidden state it is paired with and a rope position; a row of the layer
attends to the keys that its mask leaves visible, and its output is a function of its own key and
of those.  So a row is kept as the record of what it was computed from.

`deepspec/eval/eagle3/evaluator.py` extends the cache with every proposal, crops the proposal
again and extends the cache with the committed tokens.  Whatever the history, the cache before a
proposal holds the keys of the sequence and nothing else (`Eagle3History.ready`), and the rows of
a proposal that drafts the tokens of the sequence are the chain that they determine
(`propose_rows`).
-/
namespace LatentSpec

/-- The data a key is projected from. -/
structure Eagle3Key (V : ℕ) (H : Type) where
  inputId : Fin V
  hidden : H
  ropePosition : ℕ

/-- A row of the draft layer: its own key and the keys it attends to, in cache order. -/
structure Eagle3Row (V : ℕ) (H : Type) where
  key : Eagle3Key V H
  visible : List (Eagle3Key V H)

/-- The draft model; `layer` is the output of a row and `F` a row of target features. -/
structure Eagle3Model (V : ℕ) (F H L : Type) where
  projectHiddenStates : F → H
  layer : Eagle3Row V H → H
  computeLogits : H → L
  tttLength : ℕ

inductive AttnImplementation where
  | flexAttention
  | sdpa
  deriving DecidableEq, Repr

/-- `create_eagle3_attention_mask`; `sum - lck` is clamped at zero. -/
def createEagle3AttentionMask (attentionMask : List ℕ) (qLen lck qIdx kvIdx : ℕ) : Bool :=
  let seqLen := attentionMask.sum - lck
  let inValidQuery := decide (qIdx < seqLen)
  let causalMask := decide (kvIdx ≤ qIdx) && decide (kvIdx < seqLen)
  let suffixMask := decide (qLen ≤ kvIdx) && decide (kvIdx % qLen < seqLen) &&
    decide (((kvIdx : ℤ) - qIdx) % qLen = 0)
  inValidQuery && (causalMask || suffixMask)

/-- `prepare_4d_causal_attention_mask`: the entries that are not masked. -/
def prepare4dCausalAttentionMask (attentionMask : List ℕ) (pastSeenTokens qIdx kvIdx : ℕ) : Bool :=
  decide (kvIdx ≤ pastSeenTokens + qIdx) && decide (attentionMask.getD kvIdx 0 ≠ 0)

/-- The mask of a call: `_prepare_attention_mask`, and what the attention does without one. -/
def prepareAttentionMask (impl : AttnImplementation) (attentionMask : Option (List ℕ))
    (qLen pastSeenTokens : ℕ) : Except String (ℕ → ℕ → Bool) :=
  match impl, attentionMask with
  | .flexAttention, none => .error "Eagle3 flex_attention expects a BlockMask attention_mask."
  | .flexAttention, some mask =>
    if pastSeenTokens % qLen ≠ 0 then
      .error ("Eagle3 flex_attention expects fixed-size TTT chunks: " ++
        s!"past_seen_tokens={pastSeenTokens}, q_len={qLen}")
    else
      .ok (createEagle3AttentionMask mask qLen (pastSeenTokens / qLen))
  | .sdpa, some mask => .ok (prepare4dCausalAttentionMask mask pastSeenTokens)
  | .sdpa, none =>
    -- `is_causal`
    if 1 < qLen ∧ pastSeenTokens = 0 then
      .ok fun qIdx kvIdx => decide (kvIdx ≤ qIdx)
    else
      .ok fun _ _ => true

/-- `rope_position_ids` -/
def ropePositionIds (positionIds : List ℕ) (ropeCacheStepOffset : Bool) (qLen pastSeenTokens : ℕ) :
    Except String (List ℕ) :=
  if ropeCacheStepOffset then
    if pastSeenTokens % qLen ≠ 0 then
      .error ("SpecForge-style Eagle3 RoPE offset expects fixed-size TTT chunks: " ++
        s!"past_seen_tokens={pastSeenTokens}, q_len={qLen}")
    else
      .ok (positionIds.map (· + pastSeenTokens / qLen))
  else
    .ok positionIds

variable {V : ℕ} {F H L : Type}

/-- The keys of a call, one for each of its rows. -/
def makeKeys (inputIds : List (Fin V)) (hiddenStates : List H) (positions : List ℕ) :
    List (Eagle3Key V H) :=
  List.zipWith (fun th p => ⟨th.1, th.2, p⟩) (inputIds.zip hiddenStates) positions

/-- The keys that a mask leaves visible. -/
def visibleKeys (mask : ℕ → Bool) (keys : List (Eagle3Key V H)) : List (Eagle3Key V H) :=
  ((List.range keys.length).filter mask).filterMap (keys[·]?)

/-- The rows of a call whose keys were appended to the cache last. -/
def makeRows (mask : ℕ → ℕ → Bool) (keys : List (Eagle3Key V H)) (pastSeenTokens qLen : ℕ) :
    List (Eagle3Row V H) :=
  (List.range qLen).filterMap fun q =>
    keys[pastSeenTokens + q]?.map fun key => { key, visible := visibleKeys (mask q) keys }

namespace Eagle3Model
variable (m : Eagle3Model V F H L)

/-- `forward`: target features are projected, hidden states of the draft are taken as they
are. -/
def forward (impl : AttnImplementation) (hiddenStates : List F ⊕ List H)
    (inputIds : List (Fin V)) (positionIds : List ℕ) (pastKeyValues : List (Eagle3Key V H))
    (attentionMask : Option (List ℕ)) (ropeCacheStepOffset : Bool) :
    Except String (List (Eagle3Row V H) × List (Eagle3Key V H)) :=
  let hidden := hiddenStates.elim (List.map m.projectHiddenStates) id
  let qLen := hidden.length
  let pastSeenTokens := pastKeyValues.length
  if inputIds.length ≠ qLen ∨ positionIds.length ≠ qLen then
    .error "the sizes of the tensors must match"
  else do
    let mask ← prepareAttentionMask impl attentionMask qLen pastSeenTokens
    let rope ← ropePositionIds positionIds ropeCacheStepOffset qLen pastSeenTokens
    let keys := pastKeyValues ++ makeKeys inputIds hidden rope
    return (makeRows mask keys pastSeenTokens qLen, keys)

/-- `extend_draft_cache`: the last row. -/
def extendDraftCache (hiddenStates : List F) (inputIds : List (Fin V)) (positionIds : List ℕ)
    (pastKeyValues : List (Eagle3Key V H)) :
    Except String (Eagle3Row V H × List (Eagle3Key V H)) :=
  if inputIds.length = 0 then
    .error "input_ids must contain at least one token."
  else do
    let (rows, keys) ← m.forward .sdpa (.inl hiddenStates) inputIds positionIds pastKeyValues
      none false
    match rows.getLast? with
    | some row => return (row, keys)
    | none => throw "index out of range"

end Eagle3Model

/-! ### The evaluator -/

/-- `context` -/
structure Eagle3Context (V : ℕ) (H : Type) where
  draftCache : List (Eagle3Key V H)
  draftHidden : Eagle3Row V H
  positionIds : List ℕ
  currentPos : ℕ
  cacheLenBefore : ℕ

/-- `DraftProposal`, with the rows that the draft logits are computed from. -/
structure Eagle3Proposal (V : ℕ) (H : Type) where
  rows : List (Eagle3Row V H)
  verifyInputIds : List (Fin V)

/-- The variables of the proposal loop. -/
structure ProposeState (V : ℕ) (H : Type) where
  rows : List (Eagle3Row V H)
  candidateIds : List (Fin V)
  proposalHidden : Eagle3Row V H
  draftCache : List (Eagle3Key V H)
  nextPosition : ℕ

namespace Eagle3Model
variable (m : Eagle3Model V F H L)

/-- `_init_context` -/
def initContext (targetHidden : List F) (outputIds : List (Fin V)) (positionIds : List ℕ)
    (numInputTokens : ℕ) : Except String (Eagle3Context V H) := do
  let shiftedPromptIds := slice outputIds 1 numInputTokens ++
    slice outputIds numInputTokens (numInputTokens + 1)
  let (draftHidden, draftCache) ← m.extendDraftCache targetHidden shiftedPromptIds
    (slice positionIds 0 numInputTokens) []
  return { draftCache, draftHidden, positionIds, currentPos := numInputTokens, cacheLenBefore := 0 }

/-- The loop of `_propose`, at most `steps` more times; `sample i` draws the `i`-th token. -/
def proposeLoop (sample : ℕ → L → Fin V) (stopTokenIds : Option (List (Fin V)))
    (positionIds : List ℕ) : ℕ → ProposeState V H → Except String (ProposeState V H)
  | 0, s => .ok s
  | steps + 1, s =>
    let draftLogits := m.computeLogits (m.layer s.proposalHidden)
    let nextToken := sample s.rows.length draftLogits
    let drafted := { s with
      rows := s.rows ++ [s.proposalHidden]
      candidateIds := s.candidateIds ++ [nextToken] }
    if hasStopToken [nextToken] stopTokenIds then
      .ok drafted
    else
      match m.forward .sdpa (.inr [m.layer s.proposalHidden]) [nextToken]
        (slice positionIds s.nextPosition (s.nextPosition + 1)) s.draftCache none false with
      | .ok ([row], keys) =>
        proposeLoop sample stopTokenIds positionIds steps { drafted with
          proposalHidden := row
          draftCache := keys
          nextPosition := s.nextPosition + 1 }
      | .ok _ => .error "index out of range"
      | .error e => .error e

/-- `_propose` -/
def propose (sample : ℕ → L → Fin V) (stopTokenIds : Option (List (Fin V)))
    (context : Eagle3Context V H) (outputIds : List (Fin V)) (start : ℕ) :
    Except String (Eagle3Proposal V H × Eagle3Context V H) := do
  let s ← m.proposeLoop sample stopTokenIds context.positionIds m.tttLength
    { rows := []
      candidateIds := slice outputIds start (start + 1)
      proposalHidden := context.draftHidden
      draftCache := context.draftCache
      nextPosition := start }
  return ({ rows := s.rows, verifyInputIds := s.candidateIds },
    { context with draftCache := s.draftCache, cacheLenBefore := context.draftCache.length })

/-- `_update`; `targetHidden` are the features of the verified block. -/
def update (context : Eagle3Context V H) (committedTokens : Option (List (Fin V)))
    (targetHidden : List F) : Except String (Eagle3Context V H) :=
  match committedTokens with
  | none => .error "AssertionError"
  | some committed => do
    let committedLength := committed.length
    let (draftHidden, draftCache) ← m.extendDraftCache (targetHidden.take committedLength) committed
      (slice context.positionIds context.currentPos (context.currentPos + committedLength))
      (context.draftCache.take context.cacheLenBefore)
    return { context with
      draftCache, draftHidden, currentPos := context.currentPos + committedLength }

end Eagle3Model

/-! ### Calls of the evaluator -/

theorem length_makeKeys {inputIds : List (Fin V)} {hiddenStates : List H} {positions : List ℕ}
    {n : ℕ} (hi : inputIds.length = n) (hh : hiddenStates.length = n) (hp : positions.length = n) :
    (makeKeys inputIds hiddenStates positions).length = n := by
  simp [makeKeys, hi, hh, hp]

theorem makeKeys_slice (inputIds : List (Fin V)) (hiddenStates : List H) (positions : List ℕ)
    (a b : ℕ) :
    makeKeys (slice inputIds a b) (slice hiddenStates a b) (slice positions a b) =
      slice (makeKeys inputIds hiddenStates positions) a b := by
  simp [makeKeys, slice, List.zip, List.take_zipWith, List.drop_zipWith]

theorem filterMap_getElem?_range {α : Type} (xs : List α) (n : ℕ) :
    (List.range n).filterMap (xs[·]?) = xs.take n := by
  induction n with
  | zero => rfl
  | succ n ih =>
    rw [List.range_succ, List.filterMap_append, ih, List.take_add_one]
    rcases hx : xs[n]? with _ | x <;> simp [hx]

theorem visibleKeys_eq_self {mask : ℕ → Bool} {keys : List (Eagle3Key V H)}
    (h : ∀ kv < keys.length, mask kv = true) : visibleKeys mask keys = keys := by
  have hall : (List.range keys.length).filter mask = List.range keys.length :=
    List.filter_eq_self.mpr fun kv hkv => h kv (List.mem_range.mp hkv)
  rw [visibleKeys, hall, filterMap_getElem?_range, List.take_length]

namespace Eagle3Model
variable {m : Eagle3Model V F H L}

/-- A call without a mask appends its keys, and its last row sees all of the cache. -/
theorem forward_sdpa {hiddenStates : List F ⊕ List H} {inputIds : List (Fin V)}
    {positionIds : List ℕ} {past keys : List (Eagle3Key V H)} {rows : List (Eagle3Row V H)}
    (h : m.forward .sdpa hiddenStates inputIds positionIds past none false = .ok (rows, keys)) :
    let hidden := hiddenStates.elim (List.map m.projectHiddenStates) id
    inputIds.length = hidden.length ∧ positionIds.length = hidden.length ∧
      keys = past ++ makeKeys inputIds hidden positionIds ∧
      ∃ mask, rows = makeRows mask keys past.length hidden.length ∧
        ∀ q, q + 1 = hidden.length → ∀ kv < keys.length, mask q kv = true := by
  intro hidden
  unfold forward at h
  dsimp only at h
  split_ifs at h with hshape
  rw [not_or, not_not, not_not] at hshape
  obtain ⟨hids, hpos⟩ := hshape
  have hlen : (past ++ makeKeys inputIds hidden positionIds).length =
      past.length + hidden.length := by
    rw [List.length_append, length_makeKeys hids rfl hpos]
  refine ⟨hids, hpos, ?_⟩
  simp only [prepareAttentionMask] at h
  split_ifs at h with hcausal
  · -- the causal call has no past, so its last row reaches the end of the keys
    cases h
    refine ⟨rfl, _, rfl, fun q hq kv hkv => ?_⟩
    rw [hlen] at hkv
    exact decide_eq_true (by omega)
  · cases h
    exact ⟨rfl, _, rfl, fun _ _ _ _ => rfl⟩

/-- The last row of a call without a mask: its key is the last one of the cache. -/
theorem makeRows_getLast? {mask : ℕ → ℕ → Bool} {past new : List (Eagle3Key V H)} {qLen : ℕ}
    (hnew : new.length = qLen) (hpos : 0 < qLen)
    (hmask : ∀ q, q + 1 = qLen → ∀ kv < (past ++ new).length, mask q kv = true) :
    ∃ key, (past ++ new).getLast? = some key ∧
      (makeRows mask (past ++ new) past.length qLen).getLast? = some ⟨key, past ++ new⟩ := by
  obtain ⟨q, rfl⟩ : ∃ q, qLen = q + 1 := ⟨qLen - 1, by omega⟩
  obtain ⟨key, hkey⟩ : ∃ key, new[q]? = some key := ⟨_, List.getElem?_eq_getElem (by omega)⟩
  have hget : (past ++ new)[past.length + q]? = some key := by
    rw [List.getElem?_append_right (Nat.le_add_right _ _), Nat.add_sub_cancel_left, hkey]
  refine ⟨key, ?_, ?_⟩
  · rw [List.getLast?_eq_getElem?, List.length_append, hnew, ← hget]
    congr 1
  · rw [makeRows, List.range_succ, List.filterMap_append]
    simp only [List.filterMap_cons, List.filterMap_nil, hget, Option.map_some]
    rw [List.getLast?_append_of_ne_nil _ (List.cons_ne_nil _ _), List.getLast?_singleton,
      visibleKeys_eq_self (hmask q rfl)]

theorem extendDraftCache_ok {hiddenStates : List F} {inputIds : List (Fin V)}
    {positionIds : List ℕ} {past keys : List (Eagle3Key V H)} {row : Eagle3Row V H}
    (h : m.extendDraftCache hiddenStates inputIds positionIds past = .ok (row, keys)) :
    0 < inputIds.length ∧ hiddenStates.length = inputIds.length ∧
      positionIds.length = inputIds.length ∧
      keys = past ++ makeKeys inputIds (hiddenStates.map m.projectHiddenStates) positionIds ∧
      row.visible = keys ∧ keys.getLast? = some row.key := by
  unfold extendDraftCache at h
  split_ifs at h with hids
  rcases hf : m.forward .sdpa (.inl hiddenStates) inputIds positionIds past none false with
    e | ⟨rows, keys'⟩
  · rw [hf] at h
    cases h
  · obtain ⟨hlen, hpos, hkeys, mask, hrows, hmask⟩ := forward_sdpa hf
    simp only [Sum.elim_inl, List.length_map] at hlen hpos hkeys hrows hmask
    have hnew := length_makeKeys hlen (List.length_map m.projectHiddenStates) hpos
    rw [hkeys] at hmask
    obtain ⟨key, hkey, hlast⟩ := makeRows_getLast? hnew (by omega) hmask
    rw [hf, hrows, hkeys] at h
    simp only [bind, Except.bind, hlast] at h
    cases h
    exact ⟨by omega, hlen.symm, hpos.trans hlen.symm, rfl, rfl, hkey⟩

/-- One row of the proposal loop sees the whole cache and itself. -/
theorem forward_single {hidden : H} {token : Fin V} {positionIds : List ℕ}
    {past keys : List (Eagle3Key V H)} {row : Eagle3Row V H}
    (h : m.forward .sdpa (.inr [hidden]) [token] positionIds past none false =
      .ok ([row], keys)) :
    ∃ p, positionIds = [p] ∧ keys = past ++ [⟨token, hidden, p⟩] ∧
      row = ⟨⟨token, hidden, p⟩, keys⟩ := by
  obtain ⟨-, hpos, hkeys, mask, hrows, hmask⟩ := forward_sdpa h
  obtain ⟨p, rfl⟩ := List.length_eq_one_iff.mp hpos
  have hkeys' : keys = past ++ [⟨token, hidden, p⟩] := hkeys
  subst hkeys'
  have hone : [(⟨token, hidden, p⟩ : Eagle3Key V H)].length = 1 := rfl
  obtain ⟨key, hkey, hlast⟩ := makeRows_getLast? hone Nat.one_pos hmask
  obtain rfl : ⟨token, hidden, p⟩ = key := by simpa using hkey
  change [row] = makeRows mask _ past.length 1 at hrows
  rw [← hrows] at hlast
  exact ⟨p, rfl, rfl, Option.some.inj hlast⟩

end Eagle3Model

/-! ### A sequence and its keys -/

/-- The tokens of a sequence and the target features of its positions. -/
structure Eagle3Sequence (V : ℕ) (F : Type) where
  inputIds : List (Fin V)
  targetHiddenStates : List F
  length_hidden : targetHiddenStates.length = inputIds.length

namespace Eagle3Sequence
variable (seq : Eagle3Sequence V F) (m : Eagle3Model V F H L)

/-- Entry `i` pairs the features of position `i` with token `i + 1` and keeps position `i`. -/
def keys : List (Eagle3Key V H) :=
  makeKeys (seq.inputIds.drop 1) (seq.targetHiddenStates.map m.projectHiddenStates)
    (List.range seq.inputIds.length)

/-- The rows that draft after position `t`: row `0` is the last entry of the sequence, and each
further row is made from the next token and the output of the row before it. -/
def chain (t : ℕ) : ℕ → Option (Eagle3Row V H)
  | 0 => (seq.keys m)[t]?.map fun key => { key, visible := (seq.keys m).take (t + 1) }
  | k + 1 =>
    match chain t k, seq.inputIds[t + k + 2]? with
    | some previous, some token =>
      let key : Eagle3Key V H := ⟨token, m.layer previous, t + k + 1⟩
      some { key, visible := previous.visible ++ [key] }
    | _, _ => none

theorem length_keys : (seq.keys m).length = seq.inputIds.length - 1 := by
  simp [keys, makeKeys, seq.length_hidden]

variable {seq m}

theorem keys_getElem? {i : ℕ} {token : Fin V} {hidden : F}
    (htoken : seq.inputIds[i + 1]? = some token)
    (hhidden : seq.targetHiddenStates[i]? = some hidden) :
    (seq.keys m)[i]? = some ⟨token, m.projectHiddenStates hidden, i⟩ := by
  have hlt := (List.getElem?_eq_some_iff.mp htoken).1
  rw [keys, makeKeys, List.getElem?_zipWith, List.zip, List.getElem?_zipWith, List.getElem?_drop,
    Nat.add_comm 1 i, htoken, List.getElem?_map, hhidden, List.getElem?_range (by omega)]
  rfl

theorem chain_zero {t : ℕ} {row : Eagle3Row V H} (hkey : (seq.keys m)[t]? = some row.key)
    (hvisible : row.visible = (seq.keys m).take (t + 1)) : seq.chain m t 0 = some row := by
  rw [chain, hkey, ← hvisible]
  rfl

theorem chain_succ {t k : ℕ} {previous : Eagle3Row V H} {token : Fin V}
    (hprevious : seq.chain m t k = some previous)
    (htoken : seq.inputIds[t + k + 2]? = some token) :
    seq.chain m t (k + 1) = some ⟨⟨token, m.layer previous, t + k + 1⟩,
      previous.visible ++ [⟨token, m.layer previous, t + k + 1⟩]⟩ := by
  rw [chain, hprevious, htoken]

theorem exists_chain {t s : ℕ} (h : t + s + 1 < seq.inputIds.length) :
    ∃ row, seq.chain m t s = some row := by
  induction s with
  | zero =>
    have hlt : t < (seq.keys m).length := by
      rw [seq.length_keys]
      omega
    refine ⟨⟨(seq.keys m).get ⟨t, hlt⟩, (seq.keys m).take (t + 1)⟩, chain_zero ?_ rfl⟩
    exact List.getElem?_eq_getElem hlt
  | succ s ih =>
    obtain ⟨previous, hprevious⟩ := ih (by omega)
    exact ⟨_, chain_succ hprevious (List.getElem?_eq_getElem (by omega))⟩

/-- **What a row of the chain sees**: the entries `0 .. t` of the sequence, and then one key for
each of the rows before it, at the positions `t + 1 .. t + s`. -/
theorem chain_visible {t s : ℕ} {row : Eagle3Row V H} (h : seq.chain m t s = some row) :
    ∃ own : List (Eagle3Key V H), row.visible = (seq.keys m).take (t + 1) ++ own ∧
      own.length = s ∧ ∀ k < s, ∃ previous token, seq.chain m t k = some previous ∧
        seq.inputIds[t + k + 2]? = some token ∧
        own[k]? = some ⟨token, m.layer previous, t + k + 1⟩ := by
  induction s generalizing row with
  | zero =>
    obtain ⟨key, -, rfl⟩ := Option.map_eq_some_iff.mp h
    exact ⟨[], (List.append_nil _).symm, rfl, fun k hk => absurd hk (Nat.not_lt_zero k)⟩
  | succ s ih =>
    rcases hprevious : seq.chain m t s with _ | previous
    · rw [chain, hprevious] at h
      cases h
    rcases htoken : seq.inputIds[t + s + 2]? with _ | token
    · rw [chain, hprevious, htoken] at h
      cases h
    obtain rfl := Option.some.inj ((chain_succ hprevious htoken).symm.trans h)
    obtain ⟨own, hvisible, hlen, hown⟩ := ih hprevious
    refine ⟨own ++ [⟨token, m.layer previous, t + s + 1⟩], ?_, ?_, fun k hk => ?_⟩
    · rw [hvisible, List.append_assoc]
    · rw [List.length_append, hlen, List.length_singleton]
    · -- an earlier key, or the key of the row itself
      rcases Nat.lt_succ_iff_lt_or_eq.mp hk with hlt | rfl
      · obtain ⟨previous', token', hprevious', htoken', hkey⟩ := hown k hlt
        exact ⟨previous', token', hprevious', htoken',
          by rw [List.getElem?_append_left (by omega), hkey]⟩
      · refine ⟨previous, token, hprevious, htoken, ?_⟩
        rw [← hlen, List.getElem?_append_right le_rfl, Nat.sub_self]
        rfl

end Eagle3Sequence

/-! ### Histories -/

section
variable {seq : Eagle3Sequence V F} {m : Eagle3Model V F H L}

/-- Before a proposal at `start` the cache holds the entries of the sequence below `start`, and
the hidden state that drafts first is that of the last of them. -/
structure Eagle3Ready (seq : Eagle3Sequence V F) (m : Eagle3Model V F H L)
    (context : Eagle3Context V H) (start : ℕ) : Prop where
  pos : 0 < start
  lt_length : start < seq.inputIds.length
  draftCache : context.draftCache = (seq.keys m).take start
  draftHidden : seq.chain m (start - 1) 0 = some context.draftHidden
  currentPos : context.currentPos = start
  positionIds : ∃ n, context.positionIds = List.range n

/-- The evaluator on a sequence: the prompt and its first token, then rounds of a proposal, whose
tokens may be any, and of an update with tokens of the sequence. -/
inductive Eagle3History (seq : Eagle3Sequence V F) (m : Eagle3Model V F H L) :
    Eagle3Context V H → ℕ → Prop
  | init {outputIds : List (Fin V)} {numInputTokens n : ℕ} {context : Eagle3Context V H}
      (outputIds_eq : outputIds.take (numInputTokens + 1) =
        seq.inputIds.take (numInputTokens + 1))
      (initialized : m.initContext (seq.targetHiddenStates.take numInputTokens) outputIds
        (List.range n) numInputTokens = .ok context) :
      Eagle3History seq m context numInputTokens
  | round {context proposed updated : Eagle3Context V H} {start : ℕ}
      {sample : ℕ → L → Fin V} {stopTokenIds : Option (List (Fin V))}
      {outputIds committed : List (Fin V)} {proposal : Eagle3Proposal V H}
      {targetHidden : List F} (before : Eagle3History seq m context start)
      (proposes : m.propose sample stopTokenIds context outputIds start = .ok (proposal, proposed))
      (committed_eq : committed = slice seq.inputIds (start + 1) (start + committed.length + 1))
      (hidden_eq : targetHidden.take committed.length =
        slice seq.targetHiddenStates start (start + committed.length))
      (updates : m.update proposed (some committed) targetHidden = .ok updated) :
      Eagle3History seq m updated (start + committed.length)

/-- Extending the entries below `a` by the ones from `a` to `b`. -/
theorem extendDraftCache_slice {a b n : ℕ} {tokens : List (Fin V)} {row : Eagle3Row V H}
    {keys : List (Eagle3Key V H)} (hslice : tokens = slice seq.inputIds (a + 1) (b + 1))
    (h : m.extendDraftCache (slice seq.targetHiddenStates a b) tokens (slice (List.range n) a b)
      ((seq.keys m).take a) = .ok (row, keys)) :
    0 < b ∧ b < seq.inputIds.length ∧ keys = (seq.keys m).take b ∧
      seq.chain m (b - 1) 0 = some row := by
  subst hslice
  obtain ⟨hids, hhidden, hpos, hkeys, hvisible, hlast⟩ := Eagle3Model.extendDraftCache_ok h
  simp only [length_slice, seq.length_hidden, List.length_range] at hids hhidden hpos
  have hb : b < seq.inputIds.length := by omega
  have htokens : slice seq.inputIds (a + 1) (b + 1) = slice (seq.inputIds.drop 1) a b := by
    rw [slice, slice, List.take_drop, List.drop_drop, Nat.add_comm 1 b, Nat.add_comm 1 a]
  have hpositions : slice (List.range n) a b = slice (List.range seq.inputIds.length) a b := by
    rw [slice, slice, List.take_range, List.take_range, Nat.min_eq_left (by omega),
      Nat.min_eq_left hb.le]
  have hmap : (slice seq.targetHiddenStates a b).map m.projectHiddenStates =
      slice (seq.targetHiddenStates.map m.projectHiddenStates) a b := by
    simp [slice, List.map_take, List.map_drop]
  have hcache : keys = (seq.keys m).take b := by
    rw [hkeys, htokens, hpositions, hmap, makeKeys_slice]
    change (seq.keys m).take a ++ slice (seq.keys m) a b = _
    rw [slice]
    conv_rhs => rw [← List.take_append_drop a ((seq.keys m).take b)]
    rw [List.take_take, Nat.min_eq_left (by omega)]
  have hlength := seq.length_keys m
  refine ⟨by omega, hb, hcache, Eagle3Sequence.chain_zero ?_ ?_⟩
  · rw [hcache, List.getLast?_eq_getElem?, List.length_take, List.getElem?_take,
      if_pos (by omega)] at hlast
    rw [← hlast]
    congr 1
    omega
  · rw [hvisible, hcache]
    congr 1
    omega

/-- A proposal only appends to the cache. -/
theorem proposeLoop_cache {sample : ℕ → L → Fin V} {stopTokenIds : Option (List (Fin V))}
    {positionIds : List ℕ} {steps : ℕ} {s s' : ProposeState V H}
    (h : m.proposeLoop sample stopTokenIds positionIds steps s = .ok s') :
    ∃ extra, s'.draftCache = s.draftCache ++ extra := by
  induction steps generalizing s with
  | zero =>
    cases h
    exact ⟨[], (List.append_nil _).symm⟩
  | succ steps ih =>
    rw [Eagle3Model.proposeLoop] at h
    dsimp only at h
    split_ifs at h with hstop
    · cases h
      exact ⟨[], (List.append_nil _).symm⟩
    · split at h
      · rename_i row keys hforward
        obtain ⟨p, -, hkeys, -⟩ := Eagle3Model.forward_single hforward
        obtain ⟨extra, hextra⟩ := ih h
        exact ⟨_, by rw [hextra, hkeys, List.append_assoc]⟩
      · cases h
      · cases h

/-- What a proposal leaves of its context. -/
theorem propose_context {sample : ℕ → L → Fin V} {stopTokenIds : Option (List (Fin V))}
    {context context' : Eagle3Context V H} {outputIds : List (Fin V)} {start : ℕ}
    {proposal : Eagle3Proposal V H}
    (h : m.propose sample stopTokenIds context outputIds start = .ok (proposal, context')) :
    context'.draftCache.take context'.cacheLenBefore = context.draftCache ∧
      context'.positionIds = context.positionIds ∧ context'.currentPos = context.currentPos := by
  unfold Eagle3Model.propose at h
  rcases hloop : m.proposeLoop sample stopTokenIds context.positionIds m.tttLength
    { rows := [], candidateIds := slice outputIds start (start + 1),
      proposalHidden := context.draftHidden, draftCache := context.draftCache,
      nextPosition := start } with e | s
  · rw [hloop] at h
    cases h
  · rw [hloop] at h
    cases h
    obtain ⟨extra, hextra⟩ := proposeLoop_cache hloop
    exact ⟨by rw [hextra, List.take_left], rfl, rfl⟩

theorem ready_initContext {outputIds : List (Fin V)} {numInputTokens n : ℕ}
    {context : Eagle3Context V H}
    (hids : outputIds.take (numInputTokens + 1) = seq.inputIds.take (numInputTokens + 1))
    (h : m.initContext (seq.targetHiddenStates.take numInputTokens) outputIds (List.range n)
      numInputTokens = .ok context) : Eagle3Ready seq m context numInputTokens := by
  unfold Eagle3Model.initContext at h
  dsimp only at h
  rcases hextend : m.extendDraftCache (seq.targetHiddenStates.take numInputTokens)
    (slice outputIds 1 numInputTokens ++ slice outputIds numInputTokens (numInputTokens + 1))
    (slice (List.range n) 0 numInputTokens) [] with e | ⟨row, keys⟩
  · rw [hextend] at h
    cases h
  rw [hextend] at h
  cases h
  have hpos : 0 < numInputTokens := by
    obtain ⟨hids, hhidden, -⟩ := Eagle3Model.extendDraftCache_ok hextend
    rw [List.length_take] at hhidden
    omega
  -- the prompt without its first token, and the first sampled token
  have hshift : slice outputIds 1 numInputTokens ++
      slice outputIds numInputTokens (numInputTokens + 1) =
        slice seq.inputIds (0 + 1) (numInputTokens + 1) := by
    have hone : slice outputIds 1 numInputTokens =
        ((outputIds.take (numInputTokens + 1)).take numInputTokens).drop 1 := by
      rw [slice, List.take_take, Nat.min_eq_left (Nat.le_succ _)]
    rw [hone, slice, slice, hids]
    conv_rhs => rw [← List.take_append_drop numInputTokens
      (seq.inputIds.take (numInputTokens + 1))]
    rcases Nat.lt_or_ge seq.inputIds.length numInputTokens with hlt | hge
    · have hnil : (seq.inputIds.take (numInputTokens + 1)).drop numInputTokens = [] := by
        rw [List.drop_eq_nil_iff, List.length_take]
        omega
      rw [hnil, List.append_nil, List.append_nil]
    · rw [List.drop_append_of_le_length]
      rw [List.length_take, List.length_take]
      omega
  obtain ⟨-, hlt, hkeys, hrow⟩ := extendDraftCache_slice hshift hextend
  exact ⟨hpos, hlt, hkeys, hrow, rfl, n, rfl⟩

theorem ready_update {context proposed updated : Eagle3Context V H} {start : ℕ}
    {committed : List (Fin V)} {targetHidden : List F} (hready : Eagle3Ready seq m context start)
    (hcache : proposed.draftCache.take proposed.cacheLenBefore = context.draftCache)
    (hpositions : proposed.positionIds = context.positionIds)
    (hcurrent : proposed.currentPos = context.currentPos)
    (hcommitted : committed = slice seq.inputIds (start + 1) (start + committed.length + 1))
    (hhidden : targetHidden.take committed.length =
      slice seq.targetHiddenStates start (start + committed.length))
    (h : m.update proposed (some committed) targetHidden = .ok updated) :
    Eagle3Ready seq m updated (start + committed.length) := by
  obtain ⟨n, hn⟩ := hready.positionIds
  unfold Eagle3Model.update at h
  dsimp only at h
  rw [hcache, hpositions, hcurrent, hready.currentPos, hready.draftCache, hn, hhidden] at h
  rcases hextend : m.extendDraftCache
    (slice seq.targetHiddenStates start (start + committed.length)) committed
    (slice (List.range n) start (start + committed.length)) ((seq.keys m).take start) with
    e | ⟨row, keys⟩
  · rw [hextend] at h
    cases h
  rw [hextend] at h
  cases h
  obtain ⟨hpos, hlt, hkeys, hrow⟩ := extendDraftCache_slice hcommitted hextend
  exact ⟨hpos, hlt, hkeys, hrow, rfl, n, rfl⟩

/-- **The cache between rounds.** -/
theorem Eagle3History.ready {context : Eagle3Context V H} {start : ℕ}
    (h : Eagle3History seq m context start) : Eagle3Ready seq m context start := by
  induction h with
  | init hids hinit => exact ready_initContext hids hinit
  | round _ hpropose hcommitted hhidden hupdate ih =>
    obtain ⟨hcache, hpositions, hcurrent⟩ := propose_context hpropose
    exact ready_update ih hcache hpositions hcurrent hcommitted hhidden hupdate

/-! ### The rows of a proposal -/

/-- The first `k` drafted tokens are those that the sequence has after position `t + 1`. -/
def DraftsSequence (seq : Eagle3Sequence V F) (t k : ℕ) (verifyInputIds : List (Fin V)) : Prop :=
  ∀ j < k, ∃ token, verifyInputIds[j + 1]? = some token ∧ seq.inputIds[t + j + 2]? = some token

theorem DraftsSequence.of_append {t k : ℕ} {candidateIds tail : List (Fin V)}
    (h : DraftsSequence seq t k (candidateIds ++ tail)) (hk : k < candidateIds.length) :
    DraftsSequence seq t k candidateIds := by
  intro j hj
  obtain ⟨token, hcandidate, htoken⟩ := h j hj
  rw [List.getElem?_append_left (by omega)] at hcandidate
  exact ⟨token, hcandidate, htoken⟩

/-- The state of a proposal that started at `t + 1`: as long as it drafts the sequence, its rows
are the chain. -/
structure Drafting (seq : Eagle3Sequence V F) (m : Eagle3Model V F H L) (t : ℕ)
    (s : ProposeState V H) : Prop where
  visible : s.proposalHidden.visible = s.draftCache
  nextPosition : s.nextPosition = t + s.rows.length + 1
  length_candidates : s.candidateIds.length = s.rows.length + 1
  rows : ∀ k < s.rows.length, DraftsSequence seq t k s.candidateIds →
    s.rows[k]? = seq.chain m t k
  proposalHidden : DraftsSequence seq t s.rows.length s.candidateIds →
    seq.chain m t s.rows.length = some s.proposalHidden

/-- A row that is recorded with the token drafted from it. -/
theorem Drafting.rows_append {t : ℕ} {s : ProposeState V H} (h : Drafting seq m t s)
    (nextToken : Fin V) : ∀ k < (s.rows ++ [s.proposalHidden]).length,
      DraftsSequence seq t k (s.candidateIds ++ [nextToken]) →
        (s.rows ++ [s.proposalHidden])[k]? = seq.chain m t k := by
  intro k hk hdrafts
  rw [List.length_append, List.length_singleton] at hk
  have hold := hdrafts.of_append (by rw [h.length_candidates]; omega)
  rcases Nat.lt_succ_iff_lt_or_eq.mp hk with hlt | rfl
  · rw [List.getElem?_append_left hlt, h.rows k hlt hold]
  · rw [List.getElem?_append_right le_rfl, Nat.sub_self, h.proposalHidden hold]
    rfl

/-- One turn of the loop that does not stop. -/
theorem Drafting.step {t n : ℕ} {s : ProposeState V H} (h : Drafting seq m t s)
    {nextToken : Fin V} {row : Eagle3Row V H} {keys : List (Eagle3Key V H)}
    (hforward : m.forward .sdpa (.inr [m.layer s.proposalHidden]) [nextToken]
      (slice (List.range n) s.nextPosition (s.nextPosition + 1)) s.draftCache none false =
        .ok ([row], keys)) :
    Drafting seq m t
      { rows := s.rows ++ [s.proposalHidden]
        candidateIds := s.candidateIds ++ [nextToken]
        proposalHidden := row
        draftCache := keys
        nextPosition := s.nextPosition + 1 } := by
  obtain ⟨p, hp, rfl, rfl⟩ := Eagle3Model.forward_single hforward
  have hposition : p = s.nextPosition := by
    have hlen := congrArg List.length hp
    rw [length_slice, List.length_range, List.length_singleton] at hlen
    have hget := congrArg (fun xs => xs[0]?) hp
    rw [slice, List.take_range, Nat.min_eq_left (by omega)] at hget
    simpa using hget.symm
  subst hposition
  refine ⟨rfl, ?_, ?_, h.rows_append nextToken, fun hdrafts => ?_⟩
  · simp only [List.length_append, List.length_singleton, h.nextPosition]
    omega
  · rw [List.length_append, List.length_append, h.length_candidates]
    rfl
  · -- the new row continues the chain with the token that was drafted
    rw [List.length_append, List.length_singleton] at hdrafts ⊢
    have hold : DraftsSequence seq t s.rows.length s.candidateIds :=
      DraftsSequence.of_append (fun j hj => hdrafts j (by omega))
        (by rw [h.length_candidates]; omega)
    obtain ⟨token, hcandidate, htoken⟩ := hdrafts s.rows.length (by omega)
    rw [← h.length_candidates, List.getElem?_append_right le_rfl, Nat.sub_self] at hcandidate
    obtain rfl : nextToken = token := Option.some.inj hcandidate
    rw [Eagle3Sequence.chain_succ (h.proposalHidden hold) htoken, ← h.nextPosition, h.visible]

/-- What a proposal returns: rows of the chain as long as it drafts the sequence, and fewer rows
than allowed only after a stop token. -/
theorem proposeLoop_spec {t n : ℕ} {sample : ℕ → L → Fin V}
    {stopTokenIds : Option (List (Fin V))} {steps : ℕ} {s s' : ProposeState V H}
    (h : Drafting seq m t s)
    (hloop : m.proposeLoop sample stopTokenIds (List.range n) steps s = .ok s') :
    s'.candidateIds.length = s'.rows.length + 1 ∧
      (∀ k < s'.rows.length, DraftsSequence seq t k s'.candidateIds →
        s'.rows[k]? = seq.chain m t k) ∧
      (s'.rows.length = s.rows.length + steps ∨ s.rows.length < s'.rows.length ∧
        ∃ token, s'.candidateIds.getLast? = some token ∧
          hasStopToken [token] stopTokenIds = true) := by
  induction steps generalizing s with
  | zero =>
    cases hloop
    exact ⟨h.length_candidates, h.rows, .inl rfl⟩
  | succ steps ih =>
    rw [Eagle3Model.proposeLoop] at hloop
    dsimp only at hloop
    split_ifs at hloop with hstop
    · cases hloop
      refine ⟨?_, h.rows_append _, .inr ⟨?_, _, List.getLast?_concat, hstop⟩⟩
      · rw [List.length_append, List.length_append, h.length_candidates]
        rfl
      · rw [List.length_append]
        exact Nat.lt_succ_self _
    · split at hloop
      · rename_i row keys hforward
        obtain ⟨hlen, hrows, hsteps⟩ := ih (h.step hforward) hloop
        simp only [List.length_append, List.length_singleton] at hsteps
        refine ⟨hlen, hrows, ?_⟩
        rcases hsteps with hsteps | ⟨hlt, hstopped⟩
        · exact .inl (by omega)
        · exact .inr ⟨by omega, hstopped⟩
      · cases hloop
      · cases hloop

/-- **A proposal after any history.**  Its row `k` is row `k` of the chain when its first `k`
tokens are those of the sequence, and there is such a row unless a stop token ended the
proposal. -/
theorem propose_rows {context context' : Eagle3Context V H} {t : ℕ}
    (hhistory : Eagle3History seq m context (t + 1)) {sample : ℕ → L → Fin V}
    {stopTokenIds : Option (List (Fin V))} {outputIds : List (Fin V)}
    {proposal : Eagle3Proposal V H} (hstart : t + 1 < outputIds.length)
    (h : m.propose sample stopTokenIds context outputIds (t + 1) = .ok (proposal, context')) {k : ℕ}
    (hk : k < m.tttLength) (hdrafts : DraftsSequence seq t k proposal.verifyInputIds) :
    proposal.rows[k]? = seq.chain m t k ∨
      (proposal.rows.length = k ∧ ∃ token, proposal.verifyInputIds.getLast? = some token ∧
        hasStopToken [token] stopTokenIds = true) := by
  have hready := hhistory.ready
  obtain ⟨n, hn⟩ := hready.positionIds
  unfold Eagle3Model.propose at h
  rcases hloop : m.proposeLoop sample stopTokenIds context.positionIds m.tttLength
    { rows := [], candidateIds := slice outputIds (t + 1) (t + 1 + 1),
      proposalHidden := context.draftHidden, draftCache := context.draftCache,
      nextPosition := t + 1 } with e | s
  · rw [hloop] at h
    cases h
  rw [hloop] at h
  cases h
  rw [hn] at hloop
  have hfirst : Drafting seq m t
      { rows := [], candidateIds := slice outputIds (t + 1) (t + 1 + 1),
        proposalHidden := context.draftHidden, draftCache := context.draftCache,
        nextPosition := t + 1 } := by
    have hhidden := hready.draftHidden
    rw [Nat.add_sub_cancel] at hhidden
    refine ⟨?_, rfl, ?_, fun k hk => absurd hk (Nat.not_lt_zero k), fun _ => hhidden⟩
    · obtain ⟨own, hvisible, hown, -⟩ := Eagle3Sequence.chain_visible hhidden
      rw [hvisible, List.length_eq_zero_iff.mp hown, List.append_nil, hready.draftCache]
    · rw [length_slice, Nat.min_eq_left (by omega)]
      simp
  obtain ⟨hlen, hrows, hsteps⟩ := proposeLoop_spec hfirst hloop
  dsimp only at hdrafts ⊢
  rcases Nat.lt_or_ge k s.rows.length with hlt | hge
  · exact .inl (hrows k hlt hdrafts)
  · -- the proposal ended before row `k`, and it drafted at least `k` tokens
    refine .inr ⟨le_antisymm hge ?_, ?_⟩
    · by_contra hnot
      obtain ⟨token, htoken, -⟩ := hdrafts (k - 1) (by omega)
      have hbound := (List.getElem?_eq_some_iff.mp htoken).1
      omega
    · rcases hsteps with hsteps | ⟨-, hstop⟩
      · simp only [List.length_nil, Nat.zero_add] at hsteps
        omega
      · exact hstop

end

end LatentSpec
