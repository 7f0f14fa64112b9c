import Mathlib.Algebra.BigOperators.Group.List.Basic
import LatentSpec.ByteLayout

/-! # Filtering and merging DFLASH draft inputs

`DFlashDraftInputV2` has a row for each request of its batch, in up to seven fields.  An object that
carries `future_indices` is served through these: `filter_batch` and `merge_batch` return before
they reach its tensors.  `merge_batch` gives the lengths of the other object to an object without
lengths, which is right for an idle object only.
-/
namespace LatentSpec

section Indexing
variable {α β : Type}

/-- An entry of a tensor; a negative index counts from the end. -/
def entryAt (xs : List α) (i : ℤ) : Option α :=
  if 0 ≤ i then xs[i.toNat]?
  else if 0 ≤ i + xs.length then xs[(i + xs.length).toNat]?
  else none

/-- Indexing by an integer tensor or by a list. -/
def takeIndices (xs : List α) (indices : List ℤ) : Option (List α) :=
  indices.mapM (entryAt xs)

theorem entryAt_map (f : α → β) (xs : List α) (i : ℤ) :
    entryAt (xs.map f) i = (entryAt xs i).map f := by
  unfold entryAt
  split
  · exact List.getElem?_map
  · rw [List.length_map]
    split
    · exact List.getElem?_map
    · rfl

theorem takeIndices_map {xs xs' : List α} {indices : List ℤ} (f : α → β)
    (h : takeIndices xs indices = some xs') :
    takeIndices (xs.map f) indices = some (xs'.map f) := by
  rw [takeIndices, ByteLayout.mapM_eq_some_iff] at h ⊢
  rw [List.forall₂_map_right_iff]
  refine h.imp fun i x hx => ?_
  rw [entryAt_map, hx]
  rfl

/-- Two lists with the same entries have the same entries at the same indices. -/
theorem takeIndices_congr {γ : Type} {xs xs' : List α} {ys ys' : List β} {indices : List ℤ}
    {f : α → γ} {g : β → γ} (h : xs.map f = ys.map g) (hxs : takeIndices xs indices = some xs')
    (hys : takeIndices ys indices = some ys') : xs'.map f = ys'.map g := by
  have hf := takeIndices_map f hxs
  have hg := takeIndices_map g hys
  rw [h, hg] at hf
  exact (Option.some.inj hf).symm

end Indexing

/-- A tensor with one row of the shape `rowShape` for each request. -/
structure RowTensor (V : Type) where
  rowShape : List ℕ
  rows : List V
  deriving DecidableEq

namespace RowTensor
variable {V : Type}

def take (t : RowTensor V) (indices : List ℤ) : Option (RowTensor V) := do
  pure { t with rows := ← takeIndices t.rows indices }

/-- `torch.cat` along the first dimension. -/
def cat (t t' : RowTensor V) : Option (RowTensor V) :=
  if t.rowShape = t'.rowShape then some { t with rows := t.rows ++ t'.rows } else none

theorem take_rows {t t' : RowTensor V} {indices : List ℤ} (h : t.take indices = some t') :
    takeIndices t.rows indices = some t'.rows := by
  unfold take at h
  cases hrows : takeIndices t.rows indices with
  | none =>
    rw [hrows] at h
    cases h
  | some rows =>
    rw [hrows] at h
    cases h
    rfl

theorem cat_rows {t t' t'' : RowTensor V} (h : t.cat t' = some t'') :
    t''.rows = t.rows ++ t'.rows := by
  unfold cat at h
  split at h
  · cases h
    rfl
  · cases h

end RowTensor

/-- The tensors that every object has. -/
structure DraftTensors (V : Type) where
  topkP : RowTensor V
  topkIndex : RowTensor V
  bonusTokens : List ℤ
  newSeqLens : List ℤ
  hiddenStates : RowTensor V
  deriving DecidableEq

structure DFlashDraftInputV2 (V : Type) extends DraftTensors V where
  nxtKvLensCpu : Option (List ℤ)
  nxtKvLensSum : Option ℤ
  futureIndices : Option (List ℤ)
  deriving DecidableEq

variable {V : Type}

namespace DFlashDraftInputV2

/-- The part of `filter_batch` on the lengths, which have their indices on the host. -/
def filterLens (d : DFlashDraftInputV2 V) (newIndices : List ℤ)
    (newIndicesCpu : Option (List ℤ)) : Option (DFlashDraftInputV2 V) :=
  match d.nxtKvLensCpu with
  | none => some d
  | some lens => do
    let lens ← takeIndices lens (newIndicesCpu.getD newIndices)
    pure { d with nxtKvLensCpu := some lens, nxtKvLensSum := some lens.sum }

def filterTensors (t : DraftTensors V) (newIndices : List ℤ) : Option (DraftTensors V) := do
  let topkP ← t.topkP.take newIndices
  let topkIndex ← t.topkIndex.take newIndices
  let bonusTokens ← takeIndices t.bonusTokens newIndices
  let newSeqLens ← takeIndices t.newSeqLens newIndices
  let hiddenStates ← t.hiddenStates.take newIndices
  pure { topkP, topkIndex, bonusTokens, newSeqLens, hiddenStates }

def filterBatch (d : DFlashDraftInputV2 V) (newIndices : List ℤ)
    (newIndicesCpu : Option (List ℤ)) : Option (DFlashDraftInputV2 V) := do
  let d ← d.filterLens newIndices newIndicesCpu
  match d.futureIndices with
  | some indices =>
    let indices ← takeIndices indices newIndices
    pure { d with futureIndices := some indices }
  | none =>
    let t ← filterTensors d.toDraftTensors newIndices
    pure { d with toDraftTensors := t }

/-- The part of `merge_batch` on the lengths. -/
def mergeLens (d specInfo : DFlashDraftInputV2 V) : Option (DFlashDraftInputV2 V) :=
  match d.nxtKvLensCpu, specInfo.nxtKvLensCpu with
  | some lens, some lens' =>
    some { d with
      nxtKvLensCpu := some (lens ++ lens')
      nxtKvLensSum := some (lens ++ lens').sum }
  | some _, none => none
  | none, some lens' =>
    some { d with nxtKvLensCpu := some lens', nxtKvLensSum := specInfo.nxtKvLensSum }
  | none, none => some d

def mergeTensors (t t' : DraftTensors V) : Option (DraftTensors V) := do
  let topkP ← t.topkP.cat t'.topkP
  let topkIndex ← t.topkIndex.cat t'.topkIndex
  let hiddenStates ← t.hiddenStates.cat t'.hiddenStates
  pure
    { topkP
      topkIndex
      bonusTokens := t.bonusTokens ++ t'.bonusTokens
      newSeqLens := t.newSeqLens ++ t'.newSeqLens
      hiddenStates }

def mergeBatch (d specInfo : DFlashDraftInputV2 V) : Option (DFlashDraftInputV2 V) := do
  let d ← d.mergeLens specInfo
  match d.futureIndices, specInfo.futureIndices with
  | some indices, some indices' =>
    pure { d with futureIndices := some (indices ++ indices') }
  | some _, none => none
  | none, _ =>
    let t ← mergeTensors d.toDraftTensors specInfo.toDraftTensors
    pure { d with toDraftTensors := t }

end DFlashDraftInputV2

/-! ## Requests and alignment -/

/-- What belongs to one request.  It has a length and a future index if its object carries them. -/
structure RequestDraft (V : Type) where
  topkP : V
  topkIndex : V
  bonusToken : ℤ
  newSeqLen : ℤ
  hiddenState : V
  nxtKvLen : Option ℤ
  futureIndex : Option ℤ
  deriving DecidableEq

/-- The rows of the tensors are those of the requests. -/
structure DraftTensors.Aligned (t : DraftTensors V) (requests : List (RequestDraft V)) :
    Prop where
  topkP : t.topkP.rows = requests.map (·.topkP)
  topkIndex : t.topkIndex.rows = requests.map (·.topkIndex)
  bonusTokens : t.bonusTokens = requests.map (·.bonusToken)
  newSeqLens : t.newSeqLens = requests.map (·.newSeqLen)
  hiddenStates : t.hiddenStates.rows = requests.map (·.hiddenState)

namespace DFlashDraftInputV2

/-- The lengths, if there are any, are those of the requests, and the sum is theirs. -/
def LensAligned (d : DFlashDraftInputV2 V) (requests : List (RequestDraft V)) : Prop :=
  ∀ lens, d.nxtKvLensCpu = some lens →
    lens.map some = requests.map (·.nxtKvLen) ∧ d.nxtKvLensSum = some lens.sum

def FutureAligned (d : DFlashDraftInputV2 V) (requests : List (RequestDraft V)) : Prop :=
  ∀ indices, d.futureIndices = some indices → indices.map some = requests.map (·.futureIndex)

structure Aligned (d : DFlashDraftInputV2 V) (requests : List (RequestDraft V)) : Prop where
  lens : d.LensAligned requests
  future : d.FutureAligned requests
  tensors : d.toDraftTensors.Aligned requests

end DFlashDraftInputV2

/-- The calls that an object has seen: it was built for a list of requests, and each object that
was merged into it has calls of its own.  `filter_batch` may be handed a host copy of its
indices. -/
inductive DraftHistory (V : Type) where
  | built (d : DFlashDraftInputV2 V) (requests : List (RequestDraft V))
  | filter (h : DraftHistory V) (newIndices : List ℤ) (hostCopy : Bool)
  | merge (h other : DraftHistory V)

namespace DraftHistory

/-- The object after its calls, unless one has raised. -/
def input : DraftHistory V → Option (DFlashDraftInputV2 V)
  | built d _ => some d
  | filter h newIndices hostCopy => do
    (← h.input).filterBatch newIndices (if hostCopy then some newIndices else none)
  | merge h other => do (← h.input).mergeBatch (← other.input)

/-- The requests of its batch. -/
def requests : DraftHistory V → Option (List (RequestDraft V))
  | built _ requests => some requests
  | filter h newIndices _ => do takeIndices (← h.requests) newIndices
  | merge h other => do pure ((← h.requests) ++ (← other.requests))

def StartsAligned : DraftHistory V → Prop
  | built d requests => d.Aligned requests
  | filter h _ _ => h.StartsAligned
  | merge h other => h.StartsAligned ∧ other.StartsAligned

/-- No merge gives lengths to an object that has requests but no lengths. -/
def KeepsLens : DraftHistory V → Prop
  | built _ _ => True
  | filter h _ _ => h.KeepsLens
  | merge h other => h.KeepsLens ∧ other.KeepsLens ∧
      ∀ d d', h.input = some d → other.input = some d' → d.nxtKvLensCpu = none →
        d'.nxtKvLensCpu = none ∨ h.requests = some []

/-- No call has met an object that carries future indices, and returned early. -/
def ReachesTensors : DraftHistory V → Prop
  | built _ _ => True
  | filter h _ _ => h.ReachesTensors ∧ ∀ d, h.input = some d → d.futureIndices = none
  | merge h other => h.ReachesTensors ∧ other.ReachesTensors ∧
      ∀ d, h.input = some d → d.futureIndices = none

end DraftHistory

/-! ## One call -/

namespace DFlashDraftInputV2
variable {d d' specInfo : DFlashDraftInputV2 V} {requests requests' : List (RequestDraft V)}
  {newIndices : List ℤ}

theorem filterTensors_aligned {t t' : DraftTensors V} (ht : t.Aligned requests)
    (h : filterTensors t newIndices = some t')
    (hreq : takeIndices requests newIndices = some requests') : t'.Aligned requests' := by
  simp only [filterTensors, Option.bind_eq_bind, Option.bind_eq_some_iff, Option.pure_def,
    Option.some.injEq] at h
  obtain ⟨topkP, hp, topkIndex, hi, bonusTokens, hb, newSeqLens, hs, hiddenStates, hh, rfl⟩ := h
  -- a tensor that was the requests' column is filtered to the column of the filtered requests
  have column : ∀ {β : Type} {xs xs' : List β} (f : RequestDraft V → β), xs = requests.map f →
      takeIndices xs newIndices = some xs' → xs' = requests'.map f := by
    rintro β xs xs' f rfl hxs
    rw [takeIndices_map f hreq] at hxs
    exact (Option.some.inj hxs).symm
  exact
    { topkP := column _ ht.topkP (RowTensor.take_rows hp)
      topkIndex := column _ ht.topkIndex (RowTensor.take_rows hi)
      bonusTokens := column _ ht.bonusTokens hb
      newSeqLens := column _ ht.newSeqLens hs
      hiddenStates := column _ ht.hiddenStates (RowTensor.take_rows hh) }

theorem mergeTensors_aligned {t t' t'' : DraftTensors V} (ht : t.Aligned requests)
    (ht' : t'.Aligned requests') (h : mergeTensors t t' = some t'') :
    t''.Aligned (requests ++ requests') := by
  simp only [mergeTensors, Option.bind_eq_bind, Option.bind_eq_some_iff, Option.pure_def,
    Option.some.injEq] at h
  obtain ⟨topkP, hp, topkIndex, hi, hiddenStates, hh, rfl⟩ := h
  exact
    { topkP := by rw [RowTensor.cat_rows hp, ht.topkP, ht'.topkP, List.map_append]
      topkIndex := by rw [RowTensor.cat_rows hi, ht.topkIndex, ht'.topkIndex, List.map_append]
      bonusTokens := by rw [ht.bonusTokens, ht'.bonusTokens, List.map_append]
      newSeqLens := by rw [ht.newSeqLens, ht'.newSeqLens, List.map_append]
      hiddenStates := by
        rw [RowTensor.cat_rows hh, ht.hiddenStates, ht'.hiddenStates, List.map_append] }

/-- `filterLens` writes the lengths only. -/
theorem filterLens_frame {newIndicesCpu : Option (List ℤ)}
    (h : d.filterLens newIndices newIndicesCpu = some d') :
    d'.futureIndices = d.futureIndices ∧ d'.toDraftTensors = d.toDraftTensors := by
  unfold filterLens at h
  split at h
  · cases h
    exact ⟨rfl, rfl⟩
  · simp only [Option.bind_eq_bind, Option.bind_eq_some_iff, Option.pure_def,
      Option.some.injEq] at h
    obtain ⟨lens, -, rfl⟩ := h
    exact ⟨rfl, rfl⟩

theorem filterLens_aligned {hostCopy : Bool} (hlens : d.LensAligned requests)
    (h : d.filterLens newIndices (if hostCopy then some newIndices else none) = some d')
    (hreq : takeIndices requests newIndices = some requests') : d'.LensAligned requests' := by
  have hindices : (if hostCopy then some newIndices else none).getD newIndices = newIndices := by
    cases hostCopy <;> rfl
  unfold filterLens at h
  split at h
  · rename_i hnone
    cases h
    intro lens hsome
    rw [hnone] at hsome
    cases hsome
  · rename_i lens hsome
    simp only [hindices, Option.bind_eq_bind, Option.bind_eq_some_iff, Option.pure_def,
      Option.some.injEq] at h
    obtain ⟨lens', htake, rfl⟩ := h
    rintro _ ⟨⟩
    exact ⟨takeIndices_congr (hlens lens hsome).1 htake hreq, rfl⟩

/-- `mergeLens` writes the lengths only. -/
theorem mergeLens_frame (h : d.mergeLens specInfo = some d') :
    d'.futureIndices = d.futureIndices ∧ d'.toDraftTensors = d.toDraftTensors := by
  unfold mergeLens at h
  split at h <;> cases h <;> exact ⟨rfl, rfl⟩

theorem mergeLens_aligned (hlens : d.LensAligned requests)
    (hlens' : specInfo.LensAligned requests') (h : d.mergeLens specInfo = some d')
    (hown : d.nxtKvLensCpu = none → specInfo.nxtKvLensCpu = none ∨ requests = []) :
    d'.LensAligned (requests ++ requests') := by
  unfold mergeLens at h
  split at h
  · rename_i lens lens' hsome hsome'
    cases h
    rintro _ ⟨⟩
    rw [List.map_append, List.map_append, (hlens lens hsome).1, (hlens' lens' hsome').1]
    exact ⟨rfl, rfl⟩
  · cases h
  · rename_i lens' hnone hsome'
    cases h
    rintro _ ⟨⟩
    rcases hown hnone with hnone' | rfl
    · rw [hsome'] at hnone'
      cases hnone'
    · exact hlens' lens' hsome'
  · rename_i hnone _
    cases h
    intro lens hsome
    rw [hnone] at hsome
    cases hsome

/-- What `filter_batch` does: the lengths, and then the future indices or the tensors. -/
theorem filterBatch_cases {newIndicesCpu : Option (List ℤ)}
    (h : d.filterBatch newIndices newIndicesCpu = some d') :
    ∃ e, d.filterLens newIndices newIndicesCpu = some e ∧
      ((∃ indices indices', d.futureIndices = some indices ∧
          takeIndices indices newIndices = some indices' ∧
          d' = { e with futureIndices := some indices' }) ∨
        (d.futureIndices = none ∧ ∃ t, filterTensors d.toDraftTensors newIndices = some t ∧
          d' = { e with toDraftTensors := t })) := by
  simp only [filterBatch, Option.bind_eq_bind, Option.bind_eq_some_iff] at h
  obtain ⟨e, he, h⟩ := h
  obtain ⟨hfuture, htensors⟩ := filterLens_frame he
  refine ⟨e, he, ?_⟩
  rw [← hfuture, ← htensors]
  split at h
  · rename_i indices hsome
    obtain ⟨indices', htake, hd⟩ := Option.bind_eq_some_iff.1 h
    exact .inl ⟨indices, indices', hsome, htake, (Option.some.inj hd).symm⟩
  · rename_i hnone
    obtain ⟨t, ht, hd⟩ := Option.bind_eq_some_iff.1 h
    exact .inr ⟨hnone, t, ht, (Option.some.inj hd).symm⟩

/-- What `merge_batch` does, in the same way. -/
theorem mergeBatch_cases (h : d.mergeBatch specInfo = some d') :
    ∃ e, d.mergeLens specInfo = some e ∧
      ((∃ indices indices', d.futureIndices = some indices ∧
          specInfo.futureIndices = some indices' ∧
          d' = { e with futureIndices := some (indices ++ indices') }) ∨
        (d.futureIndices = none ∧
          ∃ t, mergeTensors d.toDraftTensors specInfo.toDraftTensors = some t ∧
            d' = { e with toDraftTensors := t })) := by
  simp only [mergeBatch, Option.bind_eq_bind, Option.bind_eq_some_iff] at h
  obtain ⟨e, he, h⟩ := h
  obtain ⟨hfuture, htensors⟩ := mergeLens_frame he
  refine ⟨e, he, ?_⟩
  rw [← hfuture, ← htensors]
  split at h
  · rename_i indices indices' hsome hsome'
    exact .inl ⟨indices, indices', hsome, hsome', (Option.some.inj h).symm⟩
  · cases h
  · rename_i hnone
    obtain ⟨t, ht, hd⟩ := Option.bind_eq_some_iff.1 h
    exact .inr ⟨hnone, t, ht, (Option.some.inj hd).symm⟩

end DFlashDraftInputV2

/-! ## Histories -/

namespace DraftHistory
open DFlashDraftInputV2

theorem filter_eq_some {h : DraftHistory V} {newIndices : List ℤ} {hostCopy : Bool}
    {d' : DFlashDraftInputV2 V} {requests' : List (RequestDraft V)}
    (hd : (h.filter newIndices hostCopy).input = some d')
    (hr : (h.filter newIndices hostCopy).requests = some requests') :
    ∃ d requests, h.input = some d ∧ h.requests = some requests ∧
      d.filterBatch newIndices (if hostCopy then some newIndices else none) = some d' ∧
      takeIndices requests newIndices = some requests' := by
  obtain ⟨d, hd, hcall⟩ := Option.bind_eq_some_iff.1 hd
  obtain ⟨requests, hr, htake⟩ := Option.bind_eq_some_iff.1 hr
  exact ⟨d, requests, hd, hr, hcall, htake⟩

theorem merge_eq_some {h other : DraftHistory V} {d'' : DFlashDraftInputV2 V}
    {requests'' : List (RequestDraft V)} (hd : (h.merge other).input = some d'')
    (hr : (h.merge other).requests = some requests'') :
    ∃ d requests d' requests', h.input = some d ∧ h.requests = some requests ∧
      other.input = some d' ∧ other.requests = some requests' ∧
      d.mergeBatch d' = some d'' ∧ requests'' = requests ++ requests' := by
  simp only [input, Option.bind_eq_bind, Option.bind_eq_some_iff] at hd
  simp only [requests, Option.bind_eq_bind, Option.bind_eq_some_iff, Option.pure_def,
    Option.some.injEq] at hr
  obtain ⟨d, hd, d', hd', hcall⟩ := hd
  obtain ⟨requests, hr, requests', hr', rfl⟩ := hr
  exact ⟨d, requests, d', requests', hd, hr, hd', hr', hcall, rfl⟩

theorem futureAligned {h : DraftHistory V} (hstart : h.StartsAligned)
    {d : DFlashDraftInputV2 V} {requests : List (RequestDraft V)} (hd : h.input = some d)
    (hr : h.requests = some requests) : d.FutureAligned requests := by
  induction h generalizing d requests with
  | built =>
    cases hd
    cases hr
    exact hstart.future
  | filter h newIndices hostCopy ih =>
    obtain ⟨e, reqs, he, hreqs, hcall, htake⟩ := filter_eq_some hd hr
    have hprev := ih hstart he hreqs
    rcases filterBatch_cases hcall with
      ⟨e', he', ⟨indices, indices', hsome, hindices, rfl⟩ | ⟨hnone, t, -, rfl⟩⟩
    · rintro _ ⟨⟩
      exact takeIndices_congr (hprev indices hsome) hindices htake
    · intro indices hsome
      rw [(filterLens_frame he').1, hnone] at hsome
      cases hsome
  | merge h other ih ih' =>
    obtain ⟨e, reqs, e', reqs', he, hreqs, he', hreqs', hcall, rfl⟩ := merge_eq_some hd hr
    have hprev := ih hstart.1 he hreqs
    have hprev' := ih' hstart.2 he' hreqs'
    rcases mergeBatch_cases hcall with
      ⟨f, hf, ⟨indices, indices', hsome, hsome', rfl⟩ | ⟨hnone, t, -, rfl⟩⟩
    · rintro _ ⟨⟩
      rw [List.map_append, List.map_append, hprev indices hsome, hprev' indices' hsome']
    · intro indices hsome
      rw [(mergeLens_frame hf).1, hnone] at hsome
      cases hsome

theorem lensAligned {h : DraftHistory V} (hstart : h.StartsAligned) (hkeeps : h.KeepsLens)
    {d : DFlashDraftInputV2 V} {requests : List (RequestDraft V)} (hd : h.input = some d)
    (hr : h.requests = some requests) : d.LensAligned requests := by
  induction h generalizing d requests with
  | built =>
    cases hd
    cases hr
    exact hstart.lens
  | filter h newIndices hostCopy ih =>
    obtain ⟨e, reqs, he, hreqs, hcall, htake⟩ := filter_eq_some hd hr
    have hprev := ih hstart hkeeps he hreqs
    obtain ⟨e', he', hwrite⟩ := filterBatch_cases hcall
    have hlens : e'.LensAligned requests := filterLens_aligned hprev he' htake
    -- the rest of the call leaves the lengths alone
    rcases hwrite with ⟨_, _, -, -, rfl⟩ | ⟨-, _, -, rfl⟩ <;> exact hlens
  | merge h other ih ih' =>
    obtain ⟨e, reqs, e', reqs', he, hreqs, he', hreqs', hcall, rfl⟩ := merge_eq_some hd hr
    obtain ⟨hkeeps, hkeeps', hown⟩ := hkeeps
    have hprev := ih hstart.1 hkeeps he hreqs
    have hprev' := ih' hstart.2 hkeeps' he' hreqs'
    have hown : e.nxtKvLensCpu = none → e'.nxtKvLensCpu = none ∨ reqs = [] := fun hnone =>
      (hown e e' he he' hnone).imp_right fun hempty => by
        rw [hreqs] at hempty
        exact Option.some.inj hempty
    obtain ⟨f, hf, hwrite⟩ := mergeBatch_cases hcall
    have hlens : f.LensAligned (reqs ++ reqs') := mergeLens_aligned hprev hprev' hf hown
    rcases hwrite with ⟨_, _, -, -, rfl⟩ | ⟨-, _, -, rfl⟩ <;> exact hlens

theorem tensorsAligned {h : DraftHistory V} (hstart : h.StartsAligned)
    (hreach : h.ReachesTensors) {d : DFlashDraftInputV2 V} {requests : List (RequestDraft V)}
    (hd : h.input = some d) (hr : h.requests = some requests) :
    d.toDraftTensors.Aligned requests := by
  induction h generalizing d requests with
  | built =>
    cases hd
    cases hr
    exact hstart.tensors
  | filter h newIndices hostCopy ih =>
    obtain ⟨e, reqs, he, hreqs, hcall, htake⟩ := filter_eq_some hd hr
    obtain ⟨hreach, hnone⟩ := hreach
    rcases filterBatch_cases hcall with ⟨e', -, ⟨_, _, hsome, -⟩ | ⟨-, t, ht, rfl⟩⟩
    · rw [hnone e he] at hsome
      cases hsome
    · exact filterTensors_aligned (ih hstart hreach he hreqs) ht htake
  | merge h other ih ih' =>
    obtain ⟨e, reqs, e', reqs', he, hreqs, he', hreqs', hcall, rfl⟩ := merge_eq_some hd hr
    obtain ⟨hreach, hreach', hnone⟩ := hreach
    rcases mergeBatch_cases hcall with ⟨f, -, ⟨_, _, hsome, -⟩ | ⟨-, t, ht, rfl⟩⟩
    · rw [hnone e he] at hsome
      cases hsome
    · exact mergeTensors_aligned (ih hstart.1 hreach he hreqs) (ih' hstart.2 hreach' he' hreqs') ht

end DraftHistory

/-- After any calls the future indices of an object are those of its requests.  So are its lengths,
with their sum, as long as no object with requests but without lengths was given lengths by a merge,
and its tensors, as long as no call has returned before them. -/
theorem draft_input_aligned {h : DraftHistory V} (hstart : h.StartsAligned)
    {d : DFlashDraftInputV2 V} {requests : List (RequestDraft V)} (hd : h.input = some d)
    (hr : h.requests = some requests) :
    d.FutureAligned requests ∧ (h.KeepsLens → d.LensAligned requests) ∧
      (h.ReachesTensors → d.toDraftTensors.Aligned requests) :=
  ⟨DraftHistory.futureAligned hstart hd hr,
    fun hkeeps => DraftHistory.lensAligned hstart hkeeps hd hr,
    fun hreach => DraftHistory.tensorsAligned hstart hreach hd hr⟩

/-- The object of one request. -/
def RequestDraft.single (r : RequestDraft V) : DFlashDraftInputV2 V where
  topkP := ⟨[0], [r.topkP]⟩
  topkIndex := ⟨[0], [r.topkIndex]⟩
  bonusTokens := [r.bonusToken]
  newSeqLens := [r.newSeqLen]
  hiddenStates := ⟨[0], [r.hiddenState]⟩
  nxtKvLensCpu := r.nxtKvLen.map fun len => [len]
  nxtKvLensSum := r.nxtKvLen
  futureIndices := r.futureIndex.map fun index => [index]

theorem RequestDraft.single_aligned (r : RequestDraft V) : r.single.Aligned [r] where
  lens := by
    intro lens hlens
    cases hr : r.nxtKvLen with
    | none => simp [single, hr] at hlens
    | some len =>
      obtain rfl : [len] = lens := by simpa [single, hr] using hlens
      simp [single, hr]
  future := by
    intro indices hindices
    cases hr : r.futureIndex with
    | none => simp [single, hr] at hindices
    | some index =>
      obtain rfl : [index] = indices := by simpa [single, hr] using hindices
      simp [hr]
  tensors := ⟨rfl, rfl, rfl, rfl, rfl⟩

namespace DraftHistory

/-- An object of one request. -/
def one (n : ℕ) (nxtKvLen futureIndex : Option ℤ) : DraftHistory ℕ :=
  let r : RequestDraft ℕ := ⟨n, n, n, n, n, nxtKvLen, futureIndex⟩
  .built r.single [r]

theorem one_startsAligned (n : ℕ) (nxtKvLen futureIndex : Option ℤ) :
    (one n nxtKvLen futureIndex).StartsAligned :=
  RequestDraft.single_aligned _

end DraftHistory

open DraftHistory in
theorem draft_input_aligned_three :
    let h : DraftHistory ℕ :=
      .filter (.merge (.merge (one 1 (some 5) none) (one 2 (some 6) none)) (one 3 (some 7) none))
        [0, -1] true
    ∃ d requests, h.input = some d ∧ h.requests = some requests ∧
      d.nxtKvLensCpu = some [5, 7] ∧ d.nxtKvLensSum = some 12 ∧ d.bonusTokens = [1, 3] ∧
      d.Aligned requests := by
  intro h
  have hstart : h.StartsAligned :=
    ⟨⟨one_startsAligned 1 _ _, one_startsAligned 2 _ _⟩, one_startsAligned 3 _ _⟩
  have hkeeps : h.KeepsLens := by
    refine ⟨⟨trivial, trivial, ?_⟩, trivial, ?_⟩
    all_goals
      intro d d' hd _ hnone
      cases hd
      cases hnone
  have hreach : h.ReachesTensors := by
    refine ⟨⟨⟨trivial, trivial, ?_⟩, trivial, ?_⟩, ?_⟩
    all_goals
      intro d hd
      cases hd
      rfl
  refine ⟨_, _, rfl, rfl, rfl, rfl, rfl, ?_⟩
  obtain ⟨hfuture, hlens, htensors⟩ := draft_input_aligned hstart rfl rfl
  exact ⟨hlens hkeeps, hfuture, htensors hreach⟩

open DraftHistory in
/-- A merge of objects with future indices leaves the first one's tensors as they are, and a merge
into an object without lengths takes over the lengths of the other one. -/
theorem draft_input_misaligned :
    (∃ h : DraftHistory ℕ, h.StartsAligned ∧
      ∃ d requests, h.input = some d ∧ h.requests = some requests ∧
        d.futureIndices = some [5, 6] ∧ d.bonusTokens = [1] ∧ requests.length = 2 ∧
        ¬ d.Aligned requests) ∧
    (∃ h : DraftHistory ℕ, h.StartsAligned ∧
      ∃ d requests, h.input = some d ∧ h.requests = some requests ∧
        d.nxtKvLensCpu = some [7] ∧ d.bonusTokens = [1, 2] ∧ requests.length = 2 ∧
        ¬ d.Aligned requests) := by
  constructor
  · refine ⟨.merge (one 1 none (some 5)) (one 2 none (some 6)),
      ⟨one_startsAligned 1 _ _, one_startsAligned 2 _ _⟩, _, _, rfl, rfl, rfl, rfl, rfl,
      fun h => ?_⟩
    exact absurd h.tensors.bonusTokens (by decide)
  · refine ⟨.merge (one 1 none none) (one 2 (some 7) none),
      ⟨one_startsAligned 1 _ _, one_startsAligned 2 _ _⟩, _, _, rfl, rfl, rfl, rfl, rfl,
      fun h => ?_⟩
    exact absurd (h.lens [7] rfl).1 (by decide)

end LatentSpec
