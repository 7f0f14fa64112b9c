import LatentSpec.Decoding

/-! # The draft network's block forward

`forward_myspec_draft_block` of `deepspec/eval/myspec/draft_ops.py` and the backbone it
runs: the latent layers attend to the cached context, the new context and the block's
latents, the mask layers also to the block's own tokens, and every layer appends what it
projected to its cache, which is cropped back to the context afterwards.

What a layer computes is not looked at; what it attends to is.  A key is a source
(a context feature, a latent or a draft token of the drafting block) with the position
its rotary embedding was given.  `forwardMyspecDraftBlock_ok` says once what a call sees
and leaves behind, for every split of the context between the cache and the new states.
-/
namespace LatentSpec

/-- What a key of the draft network was projected from: a target feature, or a latent
or draft token of the block `owner`. -/
inductive DraftSource (F B : Type)
  | context (feature : F)
  | latent (owner : B) (i : ℕ)
  | mask (owner : B) (i : ℕ)
  deriving DecidableEq, Repr

/-- A key with its rotary position. -/
structure DraftKey (F B : Type) where
  source : DraftSource F B
  position : ℕ
  deriving DecidableEq, Repr

/-- `DynamicCache`: the keys of every layer; a layer not yet used has none. -/
abbrev DraftCache (F B : Type) := ℕ → List (DraftKey F B)

/-- What the block forward uses of the draft model.  `network` stands for the layers'
arithmetic: the hidden states of the draft tokens, given the input ids and the keys
each latent layer and each mask layer attends to. -/
structure MySpecBackbone (V : ℕ) (F B Hd : Type) where
  numLatentLayers : ℕ
  numHiddenLayers : ℕ
  numLatentTokens : ℕ
  latentTokenId : Fin V
  maskTokenId : Fin V
  layers_pos : 0 < numLatentLayers + numHiddenLayers
  network : List (Fin V) → List (Fin V) → List (List (DraftKey F B)) →
    List (List (DraftKey F B)) → List Hd
  length_network : ∀ latentIds ids latentKeys maskKeys,
    (network latentIds ids latentKeys maskKeys).length = ids.length

/-- What a block forward attends to, and the hidden states it returns. -/
structure DraftForward (F B Hd : Type) where
  latentPositions : List ℕ
  latentKeys : List (List (DraftKey F B))
  maskPositions : List ℕ
  maskKeys : List (List (DraftKey F B))
  blockHidden : List Hd

variable {V : ℕ} {F B Hd : Type}

namespace DraftCache

/-- `DynamicCache()`. -/
def empty : DraftCache F B := fun _ => []

/-- `get_seq_length`, of layer zero. -/
def getSeqLength (cache : DraftCache F B) : ℕ := (cache 0).length

/-- `update`: a layer's cache takes in its keys. -/
def update (cache : DraftCache F B) (layer : ℕ) (keys : List (DraftKey F B)) : DraftCache F B :=
  Function.update cache layer (cache layer ++ keys)

/-- `crop`. -/
def crop (cache : DraftCache F B) (n : ℕ) : DraftCache F B := fun layer => (cache layer).take n

end DraftCache

/-- `apply_rotary_pos_emb` on the keys: every source takes its position. -/
def rotaryKeys (sources : List (DraftSource F B)) (positionIds : List ℕ) :
    Except DecodeError (List (DraftKey F B)) :=
  if sources.length = positionIds.length then .ok (List.zipWith DraftKey.mk sources positionIds)
  else .error .shape

/-- `cos[..., -q_len:, :]`: the queries take the last positions. -/
def rotaryQueries (qLen : ℕ) (positionIds : List ℕ) : List ℕ :=
  positionIds.drop (positionIds.length - qLen)

/-- The layers of one kind.  Each rotates its keys, appends them to its cache and attends,
without a mask, to all its cache then holds. -/
def runLayers (sources : List (DraftSource F B)) (positionIds : List ℕ) (layers : List ℕ)
    (cache : DraftCache F B) :
    Except DecodeError (List (List (DraftKey F B)) × DraftCache F B) :=
  layers.foldlM (fun (attended, cache) layer => do
    let keys ← rotaryKeys sources positionIds
    let cache := cache.update layer keys
    return (attended ++ [cache layer], cache)) ([], cache)

/-- `_forward_backbone`. -/
def MySpecBackbone.forwardBackbone (model : MySpecBackbone V F B Hd) (owner : B)
    (targetHiddenStates : List F) (latentIds : List (Fin V)) (latentPositionIds : List ℕ)
    (ids : List (Fin V)) (positionIds : List ℕ) (cache : DraftCache F B) :
    Except DecodeError (DraftForward F B Hd × DraftCache F B) := do
  let context := targetHiddenStates.map DraftSource.context
  let latents := (List.range latentIds.length).map (DraftSource.latent owner)
  let masks := (List.range ids.length).map (DraftSource.mask owner)
  let (latentKeys, cache) ← runLayers (context ++ latents) latentPositionIds
    (List.range model.numLatentLayers) cache
  let (maskKeys, cache) ← runLayers (context ++ latents ++ masks) positionIds
    ((List.range model.numHiddenLayers).map (· + model.numLatentLayers)) cache
  return ({ latentPositions := rotaryQueries latentIds.length latentPositionIds
            latentKeys := latentKeys
            maskPositions := rotaryQueries ids.length positionIds
            maskKeys := maskKeys
            blockHidden := model.network latentIds ids latentKeys maskKeys }, cache)

/-- `forward_myspec_draft_block`. -/
def MySpecBackbone.forwardMyspecDraftBlock (model : MySpecBackbone V F B Hd) (owner : B)
    (draftLatentInputIds draftInputIds : List (Fin V)) (positionIds : List ℕ)
    (pastKeyValuesDraft : DraftCache F B) (targetHiddenStates : List F) (start blockSize : ℕ) :
    Except DecodeError (DraftForward F B Hd × DraftCache F B) := do
  if start < pastKeyValuesDraft.getSeqLength then
    throw .draftCacheLength
  let cacheLen := pastKeyValuesDraft.getSeqLength
  let cachePositionIds := slice positionIds cacheLen start
  let latentPositionIds := slice positionIds start (start + model.numLatentTokens)
  let maskPositionIds := slice positionIds start (start + blockSize)
  let (out, cache) ← model.forwardBackbone owner targetHiddenStates draftLatentInputIds
    (cachePositionIds ++ latentPositionIds) draftInputIds
    (cachePositionIds ++ latentPositionIds ++ maskPositionIds) pastKeyValuesDraft
  return (out, cache.crop start)

/-! ### The keys of a block -/

/-- The context keys of positions `a .. a + n - 1`. -/
def contextKeys (feature : ℕ → F) (a n : ℕ) : List (DraftKey F B) :=
  (List.range' a n).map fun i => ⟨.context (feature i), i⟩

/-- The latent keys of a block that starts at `start`. -/
def latentKeys (owner : B) (start n : ℕ) : List (DraftKey F B) :=
  (List.range n).map fun i => ⟨.latent owner i, start + i⟩

/-- The draft-token keys of a block that starts at `start`. -/
def maskKeys (owner : B) (start n : ℕ) : List (DraftKey F B) :=
  (List.range n).map fun i => ⟨.mask owner i, start + i⟩

@[simp] theorem length_contextKeys (feature : ℕ → F) (a n : ℕ) :
    (contextKeys feature a n : List (DraftKey F B)).length = n := by
  simp [contextKeys]

theorem contextKeys_append (feature : ℕ → F) {c n : ℕ} (h : c ≤ n) :
    contextKeys feature 0 c ++ contextKeys feature c (n - c) =
      (contextKeys feature 0 n : List (DraftKey F B)) := by
  have hrange : List.range' 0 c 1 ++ List.range' (0 + 1 * c) (n - c) 1 =
      List.range' 0 (c + (n - c)) 1 := List.range'_append
  rw [Nat.zero_add, Nat.one_mul, Nat.add_sub_cancel' h] at hrange
  rw [contextKeys, contextKeys, contextKeys, ← List.map_append, hrange]

/-- What a draft cache may hold between blocks: in every layer of the model the context
keys of the first `n` positions, and nothing else. -/
def MySpecBackbone.ContextOnly (model : MySpecBackbone V F B Hd) (cache : DraftCache F B)
    (feature : ℕ → F) (n : ℕ) : Prop :=
  ∀ layer < model.numLatentLayers + model.numHiddenLayers, cache layer = contextKeys feature 0 n

theorem MySpecBackbone.ContextOnly.getSeqLength_eq {model : MySpecBackbone V F B Hd}
    {cache : DraftCache F B} {feature : ℕ → F} {n : ℕ} (h : model.ContextOnly cache feature n) :
    cache.getSeqLength = n := by
  rw [DraftCache.getSeqLength, h 0 model.layers_pos, length_contextKeys]

/-! ### What a block forward attends to -/

theorem rotaryKeys_ok {sources : List (DraftSource F B)} {positionIds : List ℕ}
    (h : sources.length = positionIds.length) :
    rotaryKeys sources positionIds = .ok (List.zipWith DraftKey.mk sources positionIds) :=
  if_pos h

/-- Layers of one kind see their cache and the new keys, and keep both. -/
theorem runLayers_ok {sources : List (DraftSource F B)} {positionIds : List ℕ}
    {keys : List (DraftKey F B)} (hkeys : rotaryKeys sources positionIds = .ok keys)
    {layers : List ℕ} (hnodup : layers.Nodup) (cache : DraftCache F B) :
    runLayers sources positionIds layers cache =
      .ok (layers.map fun layer => cache layer ++ keys,
        fun layer => if layer ∈ layers then cache layer ++ keys else cache layer) := by
  suffices h : ∀ attended, layers.foldlM (fun (attended, cache) layer => do
      let keys ← rotaryKeys sources positionIds
      let cache := DraftCache.update cache layer keys
      return (attended ++ [cache layer], cache)) (attended, cache) =
      (.ok (attended ++ layers.map fun layer => cache layer ++ keys,
        fun layer => if layer ∈ layers then cache layer ++ keys else cache layer) :
          Except DecodeError _) by
    rw [runLayers, h, List.nil_append]
  induction layers generalizing cache with
  | nil =>
    intro attended
    simp [pure, Except.pure]
  | cons layer layers ih =>
    intro attended
    obtain ⟨hnotMem, hnodup⟩ := List.nodup_cons.mp hnodup
    rw [List.foldlM_cons]
    simp only [hkeys, bind, Except.bind, pure, Except.pure] at ih ⊢
    rw [ih hnodup]
    refine congrArg Except.ok (Prod.ext ?_ (funext fun l => ?_))
    · have hother : ∀ l ∈ layers, cache.update layer keys l = cache l := by
        intro l hl
        exact Function.update_of_ne (ne_of_mem_of_not_mem hl hnotMem) _ _
      rw [List.append_assoc, List.singleton_append, List.map_cons,
        List.map_congr_left fun l hl => by rw [hother l hl]]
      simp [DraftCache.update]
    · by_cases hl : l = layer
      · subst hl
        simp [hnotMem, DraftCache.update]
      · simp [hl, DraftCache.update]

theorem zipWith_contextKeys (feature : ℕ → F) (a n : ℕ) :
    List.zipWith DraftKey.mk (((List.range' a n).map feature).map DraftSource.context)
      (List.range' a n) = (contextKeys feature a n : List (DraftKey F B)) := by
  rw [List.map_map, List.zipWith_map_left, List.zipWith_self]
  rfl

theorem zipWith_range (source : ℕ → DraftSource F B) (start n : ℕ) :
    List.zipWith DraftKey.mk ((List.range n).map source) (List.range' start n) =
      (List.range n).map fun i => ⟨source i, start + i⟩ := by
  rw [List.range'_eq_map_range, List.zipWith_map_left, List.zipWith_map_right, List.zipWith_self]

section Forward
variable {model : MySpecBackbone V F B Hd} (owner : B) {feature : ℕ → F}
  {cache : DraftCache F B} {c start blockSize N : ℕ} {latentIds ids : List (Fin V)}

/-- What a block of `blockSize` tokens drafted at `start` attends to: the context before
it and its latents, and for its own tokens these tokens too. -/
def MySpecBackbone.blockForward (model : MySpecBackbone V F B Hd) (owner : B) (feature : ℕ → F)
    (latentIds ids : List (Fin V)) (start blockSize : ℕ) : DraftForward F B Hd :=
  let latentSeen := contextKeys feature 0 start ++ latentKeys owner start model.numLatentTokens
  let maskSeen := latentSeen ++ maskKeys owner start blockSize
  { latentPositions := List.range' start model.numLatentTokens
    latentKeys := List.replicate model.numLatentLayers latentSeen
    maskPositions := List.range' start blockSize
    maskKeys := List.replicate model.numHiddenLayers maskSeen
    blockHidden := model.network latentIds ids (List.replicate model.numLatentLayers latentSeen)
      (List.replicate model.numHiddenLayers maskSeen) }

theorem rotaryQueries_append (xs ys : List ℕ) : rotaryQueries ys.length (xs ++ ys) = ys := by
  rw [rotaryQueries, List.length_append, Nat.add_sub_cancel, List.drop_left]

/-- The keys that a latent layer adds to its cache. -/
theorem rotaryKeys_latentBlock (feature : ℕ → F) (c start : ℕ) {numLatentTokens : ℕ}
    (hlatent : latentIds.length = numLatentTokens) :
    rotaryKeys (((List.range' c (start - c)).map feature).map DraftSource.context ++
        (List.range latentIds.length).map (DraftSource.latent owner))
        (List.range' c (start - c) ++ List.range' start numLatentTokens) =
      .ok (contextKeys feature c (start - c) ++ latentKeys owner start numLatentTokens) := by
  rw [rotaryKeys_ok (by simp [hlatent]), List.zipWith_append (by simp), zipWith_contextKeys,
    hlatent, zipWith_range]
  rfl

/-- The keys that a layer of the block's own tokens adds to its cache. -/
theorem rotaryKeys_maskBlock (feature : ℕ → F) (c start : ℕ) {numLatentTokens : ℕ}
    (hlatent : latentIds.length = numLatentTokens) (hids : ids.length = blockSize) :
    rotaryKeys (((List.range' c (start - c)).map feature).map DraftSource.context ++
        (List.range latentIds.length).map (DraftSource.latent owner) ++
          (List.range ids.length).map (DraftSource.mask owner))
        (List.range' c (start - c) ++ List.range' start numLatentTokens ++
          List.range' start blockSize) =
      .ok (contextKeys feature c (start - c) ++ latentKeys owner start numLatentTokens ++
        maskKeys owner start blockSize) := by
  rw [rotaryKeys_ok (by simp [hlatent, hids]), List.zipWith_append (by simp [hlatent]),
    List.zipWith_append (by simp), zipWith_contextKeys, hlatent, zipWith_range, hids,
    zipWith_range]
  rfl

/-- The mask layers come after the latent ones. -/
theorem mem_maskLayers {layer : ℕ} :
    layer ∈ (List.range model.numHiddenLayers).map (· + model.numLatentLayers) ↔
      model.numLatentLayers ≤ layer ∧ layer < model.numLatentLayers + model.numHiddenLayers := by
  simp only [List.mem_map, List.mem_range]
  constructor
  · rintro ⟨i, hi, rfl⟩
    omega
  · intro h
    exact ⟨layer - model.numLatentLayers, by omega, by omega⟩

/-- Cropping a layer at `start` takes away what the block added after the context. -/
theorem take_contextKeys_append (feature : ℕ → F) (start : ℕ) (rest : List (DraftKey F B)) :
    (contextKeys feature 0 start ++ rest).take start = contextKeys feature 0 start := by
  rw [List.take_append_of_le_length (by simp), List.take_of_length_le (by simp)]

/-- The backbone on a cache of `c` context positions and the features of the next ones. -/
theorem MySpecBackbone.forwardBackbone_ok (hcache : model.ContextOnly cache feature c)
    (hc : c ≤ start) (hlatent : latentIds.length = model.numLatentTokens)
    (hids : ids.length = blockSize) :
    ∃ cache', model.ContextOnly (cache'.crop start) feature start ∧
      model.forwardBackbone owner ((List.range' c (start - c)).map feature) latentIds
        (List.range' c (start - c) ++ List.range' start model.numLatentTokens) ids
        (List.range' c (start - c) ++ List.range' start model.numLatentTokens ++
          List.range' start blockSize) cache =
      .ok (model.blockForward owner feature latentIds ids start blockSize, cache') := by
  have hlatentKeys := rotaryKeys_latentBlock owner feature c start hlatent
  have hmaskKeys := rotaryKeys_maskBlock owner feature c start hlatent hids
  have hseen : ∀ layer < model.numLatentLayers + model.numHiddenLayers,
      cache layer ++ contextKeys feature c (start - c) = contextKeys feature 0 start := by
    intro layer hlayer
    rw [hcache layer hlayer, contextKeys_append feature hc]
  set latents : List (DraftKey F B) := latentKeys owner start model.numLatentTokens with hlat
  set masks : List (DraftKey F B) := maskKeys owner start blockSize with hmsk
  have hnodup : ((List.range model.numHiddenLayers).map (· + model.numLatentLayers)).Nodup :=
    List.nodup_range.map (add_left_injective _)
  let cache₁ : DraftCache F B := fun layer => if layer ∈ List.range model.numLatentLayers then
    cache layer ++ (contextKeys feature c (start - c) ++ latents) else cache layer
  refine ⟨fun layer => if layer ∈
    (List.range model.numHiddenLayers).map (· + model.numLatentLayers) then
      cache₁ layer ++ (contextKeys feature c (start - c) ++ latents ++ masks) else cache₁ layer,
    ?_, ?_⟩
  · intro layer hlayer
    -- the mask layers find their own cache as the latent ones left it, untouched
    simp only [DraftCache.crop, cache₁]
    by_cases hlat : layer < model.numLatentLayers
    · rw [if_neg (by rw [mem_maskLayers]; omega), if_pos (List.mem_range.mpr hlat),
        ← List.append_assoc, hseen layer hlayer, take_contextKeys_append]
    · rw [if_pos (mem_maskLayers.mpr ⟨by omega, hlayer⟩), if_neg (by rw [List.mem_range]; omega),
        ← List.append_assoc, ← List.append_assoc, hseen layer hlayer, List.append_assoc,
        take_contextKeys_append]
  · unfold forwardBackbone
    simp only [runLayers_ok hlatentKeys List.nodup_range, runLayers_ok hmaskKeys hnodup, bind,
      Except.bind, pure, Except.pure]
    have hlatentSeen : ((List.range model.numLatentLayers).map fun layer =>
        cache layer ++ (contextKeys feature c (start - c) ++ latents)) =
        List.replicate model.numLatentLayers (contextKeys feature 0 start ++ latents) := by
      refine List.eq_replicate_iff.mpr ⟨by simp, fun keys hkeys => ?_⟩
      obtain ⟨layer, hlayer, rfl⟩ := List.mem_map.mp hkeys
      rw [← List.append_assoc, hseen layer (by have := List.mem_range.mp hlayer; omega)]
    have hmaskSeen : ((List.range model.numHiddenLayers).map (· + model.numLatentLayers)).map
        (fun layer => (if layer ∈ List.range model.numLatentLayers then
            cache layer ++ (contextKeys feature c (start - c) ++ latents) else cache layer) ++
          (contextKeys feature c (start - c) ++ latents ++ masks)) =
        List.replicate model.numHiddenLayers (contextKeys feature 0 start ++ latents ++ masks) := by
      refine List.eq_replicate_iff.mpr ⟨by simp, fun keys hkeys => ?_⟩
      obtain ⟨layer, hlayer, rfl⟩ := List.mem_map.mp hkeys
      obtain ⟨hge, hlt⟩ := mem_maskLayers.mp hlayer
      rw [if_neg (by rw [List.mem_range]; omega), ← List.append_assoc, ← List.append_assoc,
        hseen layer hlt]
    have hq := rotaryQueries_append (List.range' c (start - c)) (List.range' start latentIds.length)
    have hq' := rotaryQueries_append
      (List.range' c (start - c) ++ List.range' start model.numLatentTokens)
      (List.range' start ids.length)
    rw [List.length_range'] at hq hq'
    rw [hlatentSeen, hmaskSeen, ← hlatent, hq, hlatent, ← hids, hq', hids]
    rfl

/-- **The block forward.**  However the context before `start` is split between the
cache and the new target features, the latent queries attend to all of it and to the
block's latents, the draft queries also to the block's own tokens, and the cache is left
with the context alone. -/
theorem MySpecBackbone.forwardMyspecDraftBlock_ok (hcache : model.ContextOnly cache feature c)
    (hc : c ≤ start) (hlatent : latentIds.length = model.numLatentTokens)
    (hids : ids.length = blockSize) (hN : start + max model.numLatentTokens blockSize ≤ N) :
    ∃ cache', model.ContextOnly cache' feature start ∧
      model.forwardMyspecDraftBlock owner latentIds ids (List.range N) cache
        ((List.range' c (start - c)).map feature) start blockSize =
      .ok (model.blockForward owner feature latentIds ids start blockSize, cache') := by
  obtain ⟨cache', hcrop, hforward⟩ := model.forwardBackbone_ok owner hcache hc hlatent hids
  have hslice : slice (List.range N) c start = List.range' c (start - c) := by
    rw [← slice_range N c (start - c) (by omega), Nat.add_sub_cancel' hc]
  refine ⟨cache'.crop start, hcrop, ?_⟩
  unfold forwardMyspecDraftBlock
  rw [hcache.getSeqLength_eq, if_neg (Nat.not_lt.mpr hc)]
  simp only [hslice, slice_range N start _ (show start + model.numLatentTokens ≤ N by omega),
    slice_range N start _ (show start + blockSize ≤ N by omega), hforward, bind, Except.bind, pure,
    Except.pure]

end Forward

/-- **A well-formed call of the block forward** at `start`: the cache holds the context
of the first `cached` positions, the new features cover the rest, and the position ids
reach over the whole block. -/
structure MySpecBackbone.DraftCall (model : MySpecBackbone V F B Hd) (feature : ℕ → F)
    (start blockSize : ℕ) where
  latentIds : List (Fin V)
  ids : List (Fin V)
  cache : DraftCache F B
  cached : ℕ
  numPositions : ℕ
  contextOnly : model.ContextOnly cache feature cached
  cached_le : cached ≤ start
  length_latentIds : latentIds.length = model.numLatentTokens
  length_ids : ids.length = blockSize
  room : start + max model.numLatentTokens blockSize ≤ numPositions

namespace MySpecBackbone.DraftCall
variable {model : MySpecBackbone V F B Hd} {feature : ℕ → F} {start blockSize : ℕ}
  (call : model.DraftCall feature start blockSize) (owner : B)

/-- The block forward of a call. -/
def forward : Except DecodeError (DraftForward F B Hd × DraftCache F B) :=
  model.forwardMyspecDraftBlock owner call.latentIds call.ids (List.range call.numPositions)
    call.cache ((List.range' call.cached (start - call.cached)).map feature) start blockSize

theorem forward_ok : ∃ cache', model.ContextOnly cache' feature start ∧
    call.forward owner =
      .ok (model.blockForward owner feature call.latentIds call.ids start blockSize, cache') :=
  model.forwardMyspecDraftBlock_ok owner call.contextOnly call.cached_le call.length_latentIds
    call.length_ids call.room

end MySpecBackbone.DraftCall

end LatentSpec
