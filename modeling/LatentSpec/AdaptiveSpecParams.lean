import LatentSpec.AdaptiveStepSlot
import LatentSpec.SortedSearch

/-! # Routing a batch size to a slot

`AdaptiveSpeculativeParams` pads a batch size to the capture grid and routes the result to the
slot of the largest configured batch size below it.  `ServesConfig` says that the slots are those
of an accepted config; it is kept by `onVerifyComplete`, it makes every lookup succeed, and two
states of the same config answer `cudaGraphBsForStep` alike, so the lists the graphs were captured
for stay right for the whole run.
-/
namespace LatentSpec.AdaptiveSpec
open SortedSearch WhileLoop

variable (digits : DigitTable)

structure AdaptiveSpeculativeParams where
  bsList : List ℕ
  slots : OrderedDict ℕ AdaptiveStepSlot
  cudaGraphBs : Option (List ℕ)

namespace AdaptiveSpeculativeParams

/-- One turn of the loop of `AdaptiveSpeculativeParams.__init__`. -/
def addSlot (initialSteps : ℤ) (cfg : GivenSettings) (slots : OrderedDict ℕ AdaptiveStepSlot)
    (p : ℕ × BsEntry) : Except AdaptiveError (OrderedDict ℕ AdaptiveStepSlot) := do
  let slot ← AdaptiveStepSlot.init initialSteps cfg p.2
  return slots.set p.1 slot

/-- `AdaptiveSpeculativeParams.__init__` -/
def init (initialSteps : ℤ) (cfgFile : Option AdaptiveConfig) :
    Except AdaptiveError AdaptiveSpeculativeParams := do
  let (cfg, bsEntries) ← loadAdaptiveConfig digits cfgFile
  let bsList := (bsEntries.items.map Prod.fst).mergeSort
  let sorted := bsEntries.items.mergeSort fun a b => decide (a.1 ≤ b.1)
  let slots ← sorted.foldlM (addSlot initialSteps cfg.settings) OrderedDict.empty
  -- the slot the log line shows
  let first ← item bsList 0
  let _ ← itemAt slots first
  return ⟨bsList, slots, none⟩

variable (params : AdaptiveSpeculativeParams)

/-- `candidate_steps`: what every slot may step to. -/
def candidateSteps : List ℤ :=
  sortedSet (params.slots.items.flatMap fun p => p.2.candidateSteps)

/-- `sorted(cuda_graph_bs) if cuda_graph_bs else None` -/
def sortedGrid : Option (List ℕ) → Option (List ℕ)
  | none => none
  | some bs => if bs = [] then none else some bs.mergeSort

/-- `set_cuda_graph_bs` -/
def setCudaGraphBs (cudaGraphBs : Option (List ℕ)) : AdaptiveSpeculativeParams :=
  { params with cudaGraphBs := sortedGrid cudaGraphBs }

/-- `_pad_to_cuda_graph_bs` -/
def padToCudaGraphBs (batchSize : ℕ) : ℕ :=
  match params.cudaGraphBs with
  | none => batchSize
  | some bs =>
    let idx := bisectLeft bs batchSize
    if idx < bs.length then bs.getD idx 0 else batchSize

/-- `_find_closest_bs`; a subtraction of naturals is the `max(0, idx)`. -/
def findClosestBs (target : ℕ) : Except AdaptiveError ℕ :=
  item params.bsList (bisectRight params.bsList target - 1)

/-- The key of `_route`. -/
def routeBs (batchSize : ℕ) : Except AdaptiveError ℕ :=
  params.findClosestBs (params.padToCudaGraphBs batchSize)

/-- `_route` -/
def route (batchSize : ℕ) : Except AdaptiveError AdaptiveStepSlot := do
  let bs ← params.routeBs batchSize
  itemAt params.slots bs

/-- `get_steps_for_batch` -/
def getStepsForBatch (batchSize : ℕ) : Except AdaptiveError ℤ := do
  let slot ← params.route batchSize
  return slot.currentSteps

/-- `on_verify_complete`: the new step, if there is one, and the params with the slot updated. -/
def onVerifyComplete (numCorrectDraftsPerReq : List ℤ) (batchSize : ℕ) :
    Except AdaptiveError (Option ℤ × AdaptiveSpeculativeParams) := do
  let bs ← params.routeBs batchSize
  let slot ← itemAt params.slots bs
  let (changed, slot) ← slot.update numCorrectDraftsPerReq
  let params := { params with slots := params.slots.set bs slot }
  return (if changed then some slot.currentSteps else none, params)

/-- The test of `cuda_graph_bs_for_step`. -/
def reaches (step : ℤ) (v : ℕ) : Except AdaptiveError Bool := do
  let bs ← params.findClosestBs v
  let slot ← itemAt params.slots bs
  return decide (step ∈ slot.candidateSteps)

/-- `cuda_graph_bs_for_step` -/
def cudaGraphBsForStep (step : ℤ) : Except AdaptiveError (Option (List ℕ)) :=
  match params.cudaGraphBs with
  | none => .ok none
  | some bs => do
    let pruned ← bs.filterM (params.reaches step)
    return some pruned

/-! ### The slots of a config -/

variable {params : AdaptiveSpeculativeParams} {cfg : GivenSettings}
  {bsEntries : OrderedDict ℕ BsEntry}

/-- The slots are those of the entries. -/
structure ServesConfig (cfg : GivenSettings) (bsEntries : OrderedDict ℕ BsEntry)
    (params : AdaptiveSpeculativeParams) : Prop where
  bsList : params.bsList = (bsEntries.items.map Prod.fst).mergeSort
  slot : ∀ bs entry, bsEntries.get? bs = some entry →
    ∃ slot, params.slots.get? bs = some slot ∧ slot.Serves cfg entry
  entry : ∀ bs slot, params.slots.get? bs = some slot → ∃ entry, bsEntries.get? bs = some entry

theorem mem_bsList {bs : ℕ} :
    bs ∈ (bsEntries.items.map Prod.fst).mergeSort ↔ ∃ entry, bsEntries.get? bs = some entry := by
  rw [List.mem_mergeSort, List.mem_map]
  constructor
  · rintro ⟨⟨bs, entry⟩, hmem, rfl⟩
    exact ⟨entry, OrderedDict.get?_eq_some.mpr hmem⟩
  · rintro ⟨entry, hentry⟩
    exact ⟨(bs, entry), OrderedDict.get?_eq_some.mp hentry, rfl⟩

theorem bsList_ne_nil (h : bsEntries.items ≠ []) :
    (bsEntries.items.map Prod.fst).mergeSort ≠ [] := by
  obtain ⟨⟨bs, entry⟩, hmem⟩ := List.exists_mem_of_ne_nil _ h
  exact List.ne_nil_of_mem (mem_bsList.mpr ⟨entry, OrderedDict.get?_eq_some.mpr hmem⟩)

/-- The slots built so far: each of an entry, and one for each entry in `done`. -/
structure Built (cfg : GivenSettings) (bsEntries : OrderedDict ℕ BsEntry)
    (done : List (ℕ × BsEntry)) (slots : OrderedDict ℕ AdaptiveStepSlot) : Prop where
  sound : ∀ bs slot, slots.get? bs = some slot →
    ∃ entry, bsEntries.get? bs = some entry ∧ slot.Serves cfg entry
  complete : ∀ p ∈ done, ∃ slot, slots.get? p.1 = some slot

theorem addSlot_ok (initialSteps : ℤ) (hvalid : ValidEntries bsEntries) {p : ℕ × BsEntry}
    (hp : bsEntries.get? p.1 = some p.2) {done : List (ℕ × BsEntry)}
    {slots : OrderedDict ℕ AdaptiveStepSlot} (h : Built cfg bsEntries done slots) :
    ∃ slots', addSlot initialSteps cfg slots p = .ok slots' ∧
      Built cfg bsEntries (done ++ [p]) slots' := by
  obtain ⟨slot, hinit, hserves⟩ := AdaptiveStepSlot.init_ok initialSteps cfg (hvalid _ _ hp).1
  refine ⟨slots.set p.1 slot, ?_, ?_, ?_⟩
  · unfold addSlot
    rw [hinit]
    rfl
  · intro bs slot' hget
    rw [OrderedDict.get?_set] at hget
    split at hget
    · rename_i hbs
      obtain rfl := Option.some.inj hget
      rw [hbs]
      exact ⟨p.2, hp, hserves⟩
    · exact h.sound bs slot' hget
  · intro q hq
    rw [OrderedDict.get?_set]
    split
    · exact ⟨slot, rfl⟩
    · rename_i hne
      rcases List.mem_append.mp hq with hdone | hlast
      · exact h.complete q hdone
      · exact absurd (congrArg Prod.fst (List.mem_singleton.mp hlast)) hne

/-- **The slots of an accepted config.** -/
theorem init_ok (initialSteps : ℤ) {cfgFile : Option AdaptiveConfig} {loaded : AdaptiveConfig}
    (hload : loadAdaptiveConfig digits cfgFile = .ok (loaded, bsEntries)) :
    ∃ params, init digits initialSteps cfgFile = .ok params ∧
      params.ServesConfig loaded.settings bsEntries := by
  obtain ⟨hne, hvalid⟩ := loadAdaptiveConfig_ok hload
  set sorted := bsEntries.items.mergeSort fun a b => decide (a.1 ≤ b.1) with hsorted
  have hentry : ∀ (k : ℕ) (p : ℕ × BsEntry), sorted[k]? = some p →
      bsEntries.get? p.1 = some p.2 := by
    intro k p hp
    apply OrderedDict.get?_eq_some.mpr
    exact List.mem_mergeSort.mp (List.mem_of_getElem? hp)
  have hturn : ∀ (k : ℕ) (p : ℕ × BsEntry), sorted[k]? = some p → ∀ slots,
      Built loaded.settings bsEntries (sorted.take k) slots →
        ∃ slots', addSlot initialSteps loaded.settings slots p = .ok slots' ∧
          Built loaded.settings bsEntries (sorted.take (k + 1)) slots' := by
    intro k p hp slots hbuilt
    obtain ⟨hk, rfl⟩ := List.getElem?_eq_some_iff.mp hp
    rw [← List.take_concat_get' sorted k hk]
    exact addSlot_ok initialSteps hvalid (hentry k _ hp) hbuilt
  have hempty : Built loaded.settings bsEntries (sorted.take 0) OrderedDict.empty :=
    ⟨fun _ _ hget => (nomatch hget), fun _ hmem => (nomatch hmem)⟩
  obtain ⟨slots, hfold, hbuilt⟩ := foldlM_ok hturn hempty
  rw [List.take_length] at hbuilt
  have hslot : ∀ bs entry, bsEntries.get? bs = some entry →
      ∃ slot, slots.get? bs = some slot ∧ slot.Serves loaded.settings entry := by
    intro bs entry hget
    have hmem : (bs, entry) ∈ sorted :=
      List.mem_mergeSort.mpr (OrderedDict.get?_eq_some.mp hget)
    obtain ⟨slot, hslot⟩ := hbuilt.complete _ hmem
    obtain ⟨entry', hget', hserves⟩ := hbuilt.sound bs slot hslot
    obtain rfl := Option.some.inj (hget.symm.trans hget')
    exact ⟨slot, hslot, hserves⟩
  refine ⟨⟨(bsEntries.items.map Prod.fst).mergeSort, slots, none⟩, ?_, rfl, hslot, ?_⟩
  · -- the log line finds the first slot
    have hpos := List.length_pos_of_ne_nil (bsList_ne_nil hne)
    have hmem := List.getElem_mem hpos
    obtain ⟨entry, hget⟩ := mem_bsList.mp hmem
    obtain ⟨slot, hfirst, -⟩ := hslot _ entry hget
    have hitem := item_ok hpos 0
    rw [List.getD_eq_getElem _ 0 hpos] at hitem
    unfold init
    rw [bind_of_ok hload]
    dsimp only
    rw [bind_of_ok hfold, bind_of_ok hitem, bind_of_ok (itemAt_ok hfirst)]
    rfl
  · intro bs slot hget
    obtain ⟨entry, hentry, -⟩ := hbuilt.sound bs slot hget
    exact ⟨entry, hentry⟩

/-! ### Routing -/

/-- Every target has a slot. -/
theorem ServesConfig.findClosestBs_ok (h : params.ServesConfig cfg bsEntries)
    (hne : bsEntries.items ≠ []) (target : ℕ) :
    ∃ bs entry, params.findClosestBs target = .ok bs ∧ bsEntries.get? bs = some entry := by
  have hpos : 0 < params.bsList.length := by
    rw [h.bsList]
    exact List.length_pos_of_ne_nil (bsList_ne_nil hne)
  have hle := bisectRight_le_length params.bsList target
  have hlt : bisectRight params.bsList target - 1 < params.bsList.length := by omega
  have hmem : params.bsList.getD (bisectRight params.bsList target - 1) 0 ∈
      (bsEntries.items.map Prod.fst).mergeSort := by
    rw [← h.bsList, List.getD_eq_getElem _ 0 hlt]
    exact List.getElem_mem hlt
  obtain ⟨entry, hentry⟩ := mem_bsList.mp hmem
  exact ⟨_, entry, item_ok hlt 0, hentry⟩

/-- **Every batch size is routed to a slot of the config.** -/
theorem ServesConfig.route_ok (h : params.ServesConfig cfg bsEntries)
    (hne : bsEntries.items ≠ []) (batchSize : ℕ) :
    ∃ bs entry slot, params.routeBs batchSize = .ok bs ∧ bsEntries.get? bs = some entry ∧
      params.slots.get? bs = some slot ∧ slot.Serves cfg entry ∧
      params.route batchSize = .ok slot := by
  obtain ⟨bs, entry, hbs, hentry⟩ := h.findClosestBs_ok hne (params.padToCudaGraphBs batchSize)
  obtain ⟨slot, hslot, hserves⟩ := h.slot bs entry hentry
  refine ⟨bs, entry, slot, hbs, hentry, hslot, hserves, ?_⟩
  unfold route routeBs
  rw [bind_of_ok hbs]
  exact itemAt_ok hslot

/-- `candidate_steps` holds what every slot may step to. -/
theorem ServesConfig.mem_candidateSteps (h : params.ServesConfig cfg bsEntries) {bs : ℕ}
    {entry : BsEntry} (hentry : bsEntries.get? bs = some entry) {step : ℤ}
    (hstep : step ∈ entry.candidateSteps) : step ∈ params.candidateSteps := by
  obtain ⟨slot, hslot, hserves⟩ := h.slot bs entry hentry
  apply mem_sortedSet.mpr
  rw [List.mem_flatMap]
  refine ⟨(bs, slot), OrderedDict.get?_eq_some.mp hslot, ?_⟩
  rw [hserves.candidates]
  exact mem_sortedSet.mpr hstep

theorem ServesConfig.reaches_ok (h : params.ServesConfig cfg bsEntries) (step : ℤ) {v bs : ℕ}
    {entry : BsEntry} (hbs : params.findClosestBs v = .ok bs)
    (hentry : bsEntries.get? bs = some entry) :
    params.reaches step v = .ok (decide (step ∈ sortedSet entry.candidateSteps)) := by
  obtain ⟨slot, hslot, hserves⟩ := h.slot bs entry hentry
  unfold reaches
  rw [bind_of_ok hbs, bind_of_ok (itemAt_ok hslot), hserves.candidates]
  rfl

/-- Two states of one config prune the capture list alike. -/
theorem ServesConfig.cudaGraphBsForStep_congr {params' : AdaptiveSpeculativeParams}
    (h : params.ServesConfig cfg bsEntries) (h' : params'.ServesConfig cfg bsEntries)
    (hne : bsEntries.items ≠ []) (hgraphs : params'.cudaGraphBs = params.cudaGraphBs) (step : ℤ) :
    params'.cudaGraphBsForStep step = params.cudaGraphBsForStep step := by
  have hlist : params'.bsList = params.bsList := h'.bsList.trans h.bsList.symm
  have hreaches : params'.reaches step = params.reaches step := by
    funext v
    obtain ⟨bs, entry, hbs, hentry⟩ := h.findClosestBs_ok hne v
    have hbs' : params'.findClosestBs v = .ok bs := by
      unfold findClosestBs at hbs ⊢
      rw [hlist]
      exact hbs
    rw [h.reaches_ok step hbs hentry, h'.reaches_ok step hbs' hentry]
  unfold cudaGraphBsForStep
  rw [hgraphs, hreaches]

/-- The pruned list holds the captured sizes that reach the step. -/
theorem ServesConfig.cudaGraphBsForStep_ok (h : params.ServesConfig cfg bsEntries)
    (hne : bsEntries.items ≠ []) (step : ℤ) :
    ∃ pruned, params.cudaGraphBsForStep step = .ok pruned ∧
      ∀ graphs, params.cudaGraphBs = some graphs → ∃ captured, pruned = some captured ∧
        ∀ v, v ∈ captured ↔ v ∈ graphs ∧ params.reaches step v = .ok true := by
  have htest : ∀ v, ∃ b, params.reaches step v = .ok b := by
    intro v
    obtain ⟨bs, entry, hbs, hentry⟩ := h.findClosestBs_ok hne v
    exact ⟨_, h.reaches_ok step hbs hentry⟩
  choose b hb using htest
  unfold cudaGraphBsForStep
  cases hgraphs : params.cudaGraphBs with
  | none => exact ⟨none, rfl, fun _ hcon => by cases hcon⟩
  | some graphs =>
    have hfilter : graphs.filterM (params.reaches step) = .ok (graphs.filter b) :=
      filterM_ok fun v _ => hb v
    refine ⟨some (graphs.filter b), ?_, ?_⟩
    · dsimp only
      rw [bind_of_ok hfilter]
      rfl
    · rintro graphs' heq
      obtain rfl := Option.some.inj heq
      refine ⟨_, rfl, fun v => ?_⟩
      rw [List.mem_filter, hb v, Except.ok.injEq]

theorem ServesConfig.setCudaGraphBs (h : params.ServesConfig cfg bsEntries)
    (cudaGraphBs : Option (List ℕ)) :
    (params.setCudaGraphBs cudaGraphBs).ServesConfig cfg bsEntries := ⟨h.bsList, h.slot, h.entry⟩

theorem sortedGrid_of_mem {sizes : List ℕ} {v : ℕ} (hv : v ∈ sizes) :
    sortedGrid (some sizes) = some sizes.mergeSort := if_neg (List.ne_nil_of_mem hv)

theorem padToCudaGraphBs_mem {graphs : List ℕ} (hgraphs : params.cudaGraphBs = some graphs)
    {batchSize v : ℕ} (hv : v ∈ graphs) (hle : batchSize ≤ v) :
    params.padToCudaGraphBs batchSize ∈ graphs := by
  have hlt := bisectLeft_lt_length hv hle
  unfold padToCudaGraphBs
  rw [hgraphs]
  dsimp only
  rw [if_pos hlt, List.getD_eq_getElem _ 0 hlt]
  exact List.getElem_mem hlt

/-- **The padded batch size is one that the routed slot's step is captured for.** -/
theorem ServesConfig.pad_captured (h : params.ServesConfig cfg bsEntries)
    (hne : bsEntries.items ≠ []) {graphs : List ℕ} (hgraphs : params.cudaGraphBs = some graphs)
    {batchSize v : ℕ} (hv : v ∈ graphs) (hle : batchSize ≤ v) {slot : AdaptiveStepSlot}
    (hroute : params.route batchSize = .ok slot) :
    ∃ captured, params.cudaGraphBsForStep slot.currentSteps = .ok (some captured) ∧
      params.padToCudaGraphBs batchSize ∈ captured := by
  obtain ⟨bs, entry, slot', hbs, hentry, -, hserves, hroute'⟩ := h.route_ok hne batchSize
  obtain rfl := Except.ok.inj (hroute'.symm.trans hroute)
  obtain ⟨pruned, hpruned, hcaptured⟩ := h.cudaGraphBsForStep_ok hne slot'.currentSteps
  obtain ⟨captured, rfl, hmem⟩ := hcaptured graphs hgraphs
  refine ⟨captured, hpruned, (hmem _).mpr ⟨padToCudaGraphBs_mem hgraphs hv hle, ?_⟩⟩
  rw [h.reaches_ok _ hbs hentry, ← hserves.candidates, decide_eq_true hserves.current]

/-! ### What a verify step changes -/

/-- Every interval of the config is at least one batch. -/
def Intervals (cfg : GivenSettings) (bsEntries : OrderedDict ℕ BsEntry) : Prop :=
  ∀ bs entry, bsEntries.get? bs = some entry →
    1 ≤ (resolveSettings cfg entry.settings).updateInterval

/-- Writing a slot back that serves the entry of its key. -/
theorem ServesConfig.setSlot (h : params.ServesConfig cfg bsEntries) {bs : ℕ} {entry : BsEntry}
    (hentry : bsEntries.get? bs = some entry) {slot : AdaptiveStepSlot}
    (hslot : slot.Serves cfg entry) :
    ({ params with slots := params.slots.set bs slot }).ServesConfig cfg bsEntries := by
  refine ⟨h.bsList, ?_, ?_⟩
  · intro bs' entry' hentry'
    show ∃ slot', (params.slots.set bs slot).get? bs' = some slot' ∧ _
    rw [OrderedDict.get?_set]
    split
    · rename_i heq
      rw [heq, hentry] at hentry'
      obtain rfl := Option.some.inj hentry'
      exact ⟨slot, rfl, hslot⟩
    · exact h.slot bs' entry' hentry'
  · intro bs' slot' hget
    change (params.slots.set bs slot).get? bs' = some slot' at hget
    rw [OrderedDict.get?_set] at hget
    split at hget
    · rename_i heq
      rw [heq]
      exact ⟨entry, hentry⟩
    · exact h.entry bs' slot' hget

/-- **A verify step raises nothing and keeps the slots those of the config**; a new step is the
current step of a slot. -/
theorem ServesConfig.onVerifyComplete_ok (h : params.ServesConfig cfg bsEntries)
    (hne : bsEntries.items ≠ []) (hinterval : Intervals cfg bsEntries) (accepted : List ℤ)
    (batchSize : ℕ) :
    ∃ newStep params', params.onVerifyComplete accepted batchSize = .ok (newStep, params') ∧
      params'.ServesConfig cfg bsEntries ∧ params'.cudaGraphBs = params.cudaGraphBs ∧
      ∀ step, newStep = some step →
        ∃ bs slot, params'.slots.get? bs = some slot ∧ slot.currentSteps = step := by
  obtain ⟨bs, entry, slot, hbs, hentry, hslot, hserves, -⟩ := h.route_ok hne batchSize
  obtain ⟨changed, slot', hupdate, hmoves⟩ :=
    AdaptiveStepSlot.update_ok (hserves.valid (hinterval bs entry hentry)) accepted
  refine ⟨if changed then some slot'.currentSteps else none,
    { params with slots := params.slots.set bs slot' }, ?_,
    h.setSlot hentry (hserves.moves hmoves), rfl, ?_⟩
  · unfold onVerifyComplete
    rw [bind_of_ok hbs, bind_of_ok (itemAt_ok hslot), bind_of_ok hupdate]
    rfl
  · intro step hstep
    refine ⟨bs, slot', ?_, ?_⟩
    · show (params.slots.set bs slot').get? bs = some slot'
      rw [OrderedDict.get?_set, if_pos rfl]
    · cases changed with
      | false => cases hstep
      | true => exact Option.some.inj hstep

end AdaptiveSpeculativeParams

end LatentSpec.AdaptiveSpec
