import Mathlib.Data.List.Dedup
import Mathlib.Data.List.GetD
import Mathlib.Data.Rat.Floor
import LatentSpec.ByteLayout
import LatentSpec.OrderedDict
import LatentSpec.ThresholdLadder
import LatentSpec.WhileLoop

/-! # A slot of the adaptive draft steps

`AdaptiveStepSlot` tracks an average of the accepted drafts and moves its step count along its own
sorted candidates.  Its two threshold loops are `ThresholdLadder.settle`, so what a slot does is
read off that ladder: it stays among its candidates (`recomputeParams_ok`, `update_ok`), and with
no zero-step candidate, no ceiling and a gap between the thresholds a second recomputation changes
nothing (`recomputeParams_again`).

Numbers are rationals where the source computes with floats, and a setting the file gives is a
number.  The Unicode tables behind `str.isdigit` and `int` are the parameter `digits`.
-/
namespace LatentSpec.AdaptiveSpec
open ThresholdLadder WhileLoop

/-! ### The config file -/

/-- What a call can raise. -/
inductive AdaptiveError
  /-- `entry.get` of an entry that is no object. -/
  | notAnObject (key : String)
  /-- `BS {key}: candidate_steps must be a list of non-negative ints, got {steps!r}` -/
  | candidateSteps (key : String) (steps : Option (List (Option ℤ)))
  /-- `int(key)` of a digit string that is no decimal number. -/
  | invalidKey (key : String)
  /-- `speculative_adaptive_config must contain at least one integer-string BS key, …` -/
  | noBsKey (keys : List String)
  /-- `candidate_steps must have at least 1 value` -/
  | noCandidates
  | notInList (step : ℤ)
  | indexError
  | keyError (bs : ℕ)
  | zeroDivision
  /-- `Missing adaptive runtime state for steps={speculative_num_steps}` -/
  | missingState (steps : ℤ)
  deriving DecidableEq

/-- The settings of a slot, each a `V`. -/
structure SlotSettings (V : Type) where
  emaAlpha : V
  updateInterval : V
  warmupBatches : V
  downHysteresis : V
  upHysteresis : V
  ceilingCoeff : V
  deriving DecidableEq

/-- An object of the file may leave each setting out. -/
abbrev GivenSettings := SlotSettings (Option ℚ)

def GivenSettings.none : GivenSettings := ⟨.none, .none, .none, .none, .none, .none⟩

/-- The defaults of `cfg.get`. -/
def defaultSettings : SlotSettings ℚ where
  emaAlpha := 1 / 5
  updateInterval := 5
  warmupBatches := 10
  downHysteresis := -1 / 4
  upHysteresis := 0
  ceilingCoeff := 0

/-- `{**cfg, **entry}.get(field, default)`, field by field. -/
def resolveSettings (cfg entry : GivenSettings) : SlotSettings ℚ :=
  let get (field : {V : Type} → SlotSettings V → V) : ℚ :=
    ((field entry).or (field cfg)).getD (field defaultSettings)
  { emaAlpha := get SlotSettings.emaAlpha
    updateInterval := get SlotSettings.updateInterval
    warmupBatches := get SlotSettings.warmupBatches
    downHysteresis := get SlotSettings.downHysteresis
    upHysteresis := get SlotSettings.upHysteresis
    ceilingCoeff := get SlotSettings.ceilingCoeff }

/-- An object of the file: `candidate_steps` is `none` when it is missing or no list, and an item
of it is `none` when it is no int. -/
structure AdaptiveEntry where
  candidateSteps : Option (List (Option ℤ))
  settings : GivenSettings := GivenSettings.none

/-- The file: its items, `none` for a value that is no object, and the settings at its top level. -/
structure AdaptiveConfig where
  items : OrderedDict String (Option AdaptiveEntry)
  settings : GivenSettings := GivenSettings.none

/-- An entry that passed validation. -/
structure BsEntry where
  candidateSteps : List ℤ
  settings : GivenSettings

/-- `str.isdigit`, and `int` of such a string. -/
structure DigitTable where
  isdigit : String → Bool
  int : String → Option ℕ

/-- `DEFAULT_ADAPTIVE_CONFIG` -/
def defaultAdaptiveConfig : AdaptiveConfig where
  items := {
    items := [
      ("1", some {
        candidateSteps := some [some 1, some 3, some 7]
        settings := { GivenSettings.none with
          upHysteresis := some 0, downHysteresis := some (-1 / 4), ceilingCoeff := some 0 } }),
      ("8", some {
        candidateSteps := some [some 0, some 1, some 3]
        settings := { GivenSettings.none with
          upHysteresis := some 0, downHysteresis := some 0, ceilingCoeff := some 0 } }),
      ("32", some {
        candidateSteps := some [some 0, some 1]
        settings := { GivenSettings.none with
          upHysteresis := some 0, downHysteresis := some 0, ceilingCoeff := some 0 } }),
      ("64", some {
        candidateSteps := some [some 0]
        settings := { GivenSettings.none with
          upHysteresis := some 0, downHysteresis := some 0, ceilingCoeff := some 0 } })]
    nodup := by decide }

/-- The steps of an entry, if they are a non-empty list of non-negative ints. -/
def validSteps : Option (List (Option ℤ)) → Option (List ℤ)
  | none => none
  | some items =>
    if items = [] then none else items.mapM fun item => item.filter fun step => decide (0 ≤ step)

variable (digits : DigitTable)

/-- One turn of the loop of `_load_adaptive_config`. -/
def loadEntry (bsEntries : OrderedDict ℕ BsEntry) :
    String × Option AdaptiveEntry → Except AdaptiveError (OrderedDict ℕ BsEntry)
  | (key, entry) =>
    if digits.isdigit key then
      match entry with
      | none => .error (.notAnObject key)
      | some entry =>
        match validSteps entry.candidateSteps with
        | none => .error (.candidateSteps key entry.candidateSteps)
        | some steps =>
          match digits.int key with
          | none => .error (.invalidKey key)
          | some bs => .ok (bsEntries.set bs ⟨steps, entry.settings⟩)
    else .ok bsEntries

/-- `_load_adaptive_config`, of the parsed file if there is one. -/
def loadAdaptiveConfig (cfgFile : Option AdaptiveConfig) :
    Except AdaptiveError (AdaptiveConfig × OrderedDict ℕ BsEntry) := do
  let cfg := cfgFile.getD defaultAdaptiveConfig
  let bsEntries ← cfg.items.items.foldlM (loadEntry digits) OrderedDict.empty
  if bsEntries.items = [] then .error (.noBsKey (cfg.items.items.map Prod.fst))
  else return (cfg, bsEntries)

/-! ### A slot -/

/-- `sorted(set(xs))` -/
def sortedSet {α : Type} [LinearOrder α] (xs : List α) : List α := xs.dedup.mergeSort

/-- `xs[i]` -/
def item {α : Type} (xs : List α) (i : ℕ) : Except AdaptiveError α :=
  match xs[i]? with
  | none => .error .indexError
  | some x => .ok x

/-- `d[bs]` -/
def itemAt {V : Type} (d : OrderedDict ℕ V) (bs : ℕ) : Except AdaptiveError V :=
  match d.get? bs with
  | none => .error (.keyError bs)
  | some v => .ok v

/-- `steps.index(step)` -/
def index (steps : List ℤ) (step : ℤ) : Except AdaptiveError ℕ :=
  match steps.idxOf? step with
  | none => .error (.notInList step)
  | some i => .ok i

/-- `a % b` -/
def pyMod (a b : ℚ) : Except AdaptiveError ℚ :=
  if b = 0 then .error .zeroDivision else .ok (a - b * ⌊a / b⌋)

structure AdaptiveStepSlot where
  candidateSteps : List ℤ
  settings : SlotSettings ℚ
  currentSteps : ℤ
  emaAcceptLen : ℚ
  batchCount : ℕ

namespace AdaptiveStepSlot

/-- `AdaptiveStepSlot.__init__` -/
def init (initialSteps : ℤ) (cfg : GivenSettings) (entry : BsEntry) :
    Except AdaptiveError AdaptiveStepSlot := do
  let candidates := sortedSet entry.candidateSteps
  if candidates.length < 1 then .error .noCandidates
  else
    let currentSteps ←
      if initialSteps ∈ candidates then pure initialSteps
      else item candidates (candidates.length / 2)
    return {
      candidateSteps := candidates
      settings := resolveSettings cfg entry.settings
      currentSteps := currentSteps
      emaAcceptLen := currentSteps - 1
      batchCount := 0 }

variable (s : AdaptiveStepSlot)

/-- `self.candidate_steps[i]` inside a loop, where `i` is in range. -/
def candidate (i : ℕ) : ℤ := s.candidateSteps.getD i 0

/-- The threshold of the way down from rung `i + 1` to rung `i`. -/
def dropThreshold (i : ℕ) : ℚ :=
  (if s.candidate i = 0 then 1 / 2 else (s.candidate i : ℚ) - 1 / 2) + s.settings.downHysteresis

def riseThreshold (i : ℕ) : ℚ := (s.candidate i : ℚ) - 1 / 2 + s.settings.upHysteresis

def falls (i : ℕ) : Bool := decide (s.emaAcceptLen ≤ s.dropThreshold (i - 1))

def rises (i : ℕ) : Bool := decide (s.riseThreshold i < s.emaAcceptLen)

/-- The two loops of `_recompute_params`. -/
def movedIdx (currentIdx : ℕ) : ℕ :=
  settle s.falls s.rises (s.candidateSteps.length - 1) currentIdx

/-- The EMA ceiling of `_recompute_params`. -/
def cappedIdx (oldSteps : ℤ) (currentIdx : ℕ) : ℕ :=
  if 0 < s.settings.ceilingCoeff then
    let ceiling := max 1 ⌈s.emaAcceptLen * s.settings.ceilingCoeff⌉
    let target := s.candidate currentIdx
    if ceiling < target ∧ target ≤ oldSteps then
      lowerWhile (fun i => decide (ceiling < s.candidate i)) currentIdx
    else currentIdx
  else currentIdx

/-- `_apply_target_steps` -/
def applyTargetSteps (oldSteps target : ℤ) : Bool × AdaptiveStepSlot :=
  if target ≠ oldSteps then (true, { s with currentSteps := target }) else (false, s)

/-- The first probe of a slot that never drafted starts from the target's neutral average. -/
def startProbe (target : ℤ) : AdaptiveStepSlot :=
  if 0 < target ∧ s.emaAcceptLen < 0 then { s with emaAcceptLen := target - 1 } else s

/-- `_recompute_params` -/
def recomputeParams : Except AdaptiveError (Bool × AdaptiveStepSlot) := do
  let oldSteps := s.currentSteps
  let currentIdx ← index s.candidateSteps oldSteps
  if oldSteps = 0 then
    let target ← item s.candidateSteps (min (currentIdx + 1) (s.candidateSteps.length - 1))
    return (s.startProbe target).applyTargetSteps oldSteps target
  else
    let target ← item s.candidateSteps (s.cappedIdx oldSteps (s.movedIdx currentIdx))
    return s.applyTargetSteps oldSteps target

/-- The EMA and the count of `update`. -/
def observe (numCorrectDraftsPerReq : List ℤ) : AdaptiveStepSlot :=
  let ema :=
    if 0 < s.currentSteps then
      let batchAvg := (numCorrectDraftsPerReq.sum : ℚ) / numCorrectDraftsPerReq.length
      (1 - s.settings.emaAlpha) * s.emaAcceptLen + s.settings.emaAlpha * batchAvg
    else s.emaAcceptLen
  { s with emaAcceptLen := ema, batchCount := s.batchCount + 1 }

/-- `update` -/
def update (numCorrectDraftsPerReq : List ℤ) : Except AdaptiveError (Bool × AdaptiveStepSlot) :=
  if numCorrectDraftsPerReq = [] then .ok (false, s)
  else do
    let s := s.observe numCorrectDraftsPerReq
    if (s.batchCount : ℚ) ≤ s.settings.warmupBatches then return (false, s)
    else
      let r ← pyMod (s.batchCount - s.settings.warmupBatches) s.settings.updateInterval
      if r ≠ 0 then return (false, s)
      else s.recomputeParams

end AdaptiveStepSlot

/-! ### Lookups that find something -/

theorem item_ok {α : Type} {xs : List α} {i : ℕ} (hi : i < xs.length) (d : α) :
    item xs i = .ok (xs.getD i d) := by
  unfold item
  rw [List.getElem?_eq_getElem hi, List.getD_eq_getElem xs d hi]

theorem itemAt_ok {V : Type} {d : OrderedDict ℕ V} {bs : ℕ} {v : V} (h : d.get? bs = some v) :
    itemAt d bs = .ok v := by
  unfold itemAt
  rw [h]

theorem index_getD {steps : List ℤ} (hnodup : steps.Nodup) {i : ℕ} (hi : i < steps.length) :
    index steps (steps.getD i 0) = .ok i := by
  have hfirst : steps.idxOf? steps[i] = some i := by
    rw [List.idxOf?_eq_some_iff]
    refine ⟨hi, rfl, fun j hj heq => ?_⟩
    exact absurd (hnodup.getElem_inj_iff.mp heq) (Nat.ne_of_lt hj)
  unfold index
  rw [List.getD_eq_getElem steps 0 hi, hfirst]

theorem index_ok {steps : List ℤ} (hnodup : steps.Nodup) {step : ℤ} (h : step ∈ steps) :
    ∃ i, index steps step = .ok i ∧ i < steps.length ∧ steps.getD i 0 = step := by
  obtain ⟨i, hi, heq⟩ := List.getElem_of_mem h
  have hget : steps.getD i 0 = step := by rw [List.getD_eq_getElem steps 0 hi, heq]
  refine ⟨i, ?_, hi, hget⟩
  rw [← hget]
  exact index_getD hnodup hi

theorem pyMod_ok (count warmup : ℚ) {interval : ℚ} (h : interval ≠ 0) :
    ∃ r, pyMod (count - warmup) interval = .ok r := ⟨_, if_neg h⟩

/-! ### Accepted configs -/

theorem validSteps_some {given : Option (List (Option ℤ))} {steps : List ℤ}
    (h : validSteps given = some steps) : steps ≠ [] ∧ ∀ step ∈ steps, 0 ≤ step := by
  cases given with
  | none => cases h
  | some items =>
    unfold validSteps at h
    dsimp only at h
    split at h
    · cases h
    · rename_i hne
      have hall := ByteLayout.mapM_eq_some_iff.mp h
      constructor
      · rintro rfl
        exact hne (List.forall₂_nil_right_iff.mp hall)
      · intro step hstep
        obtain ⟨i, hi, rfl⟩ := List.getElem_of_mem hstep
        have hitem := hall.get (hall.length_eq ▸ hi) hi
        exact of_decide_eq_true (Option.filter_eq_some_iff.mp hitem).2

/-- What validation promises of an entry. -/
def BsEntry.Valid (entry : BsEntry) : Prop :=
  entry.candidateSteps ≠ [] ∧ ∀ step ∈ entry.candidateSteps, 0 ≤ step

def ValidEntries (bsEntries : OrderedDict ℕ BsEntry) : Prop :=
  ∀ bs entry, bsEntries.get? bs = some entry → entry.Valid

/-- A turn that raises nothing skips its item or adds a valid entry. -/
theorem loadEntry_ok {digits : DigitTable} {bsEntries bsEntries' : OrderedDict ℕ BsEntry}
    {key : String} {given : Option AdaptiveEntry}
    (h : loadEntry digits bsEntries (key, given) = .ok bsEntries') :
    bsEntries' = bsEntries ∨ ∃ bs entry, bsEntries' = bsEntries.set bs entry ∧ entry.Valid := by
  unfold loadEntry at h
  dsimp only at h
  split at h
  · cases given with
    | none => cases h
    | some given =>
      dsimp only at h
      cases hsteps : validSteps given.candidateSteps with
      | none =>
        rw [hsteps] at h
        cases h
      | some steps =>
        rw [hsteps] at h
        dsimp only at h
        cases hint : digits.int key with
        | none =>
          rw [hint] at h
          cases h
        | some bs =>
          rw [hint] at h
          exact Or.inr ⟨bs, _, (Except.ok.inj h).symm, validSteps_some hsteps⟩
  · exact Or.inl (Except.ok.inj h).symm

/-- **The entries of an accepted config are valid, and there is one.** -/
theorem loadAdaptiveConfig_ok {digits : DigitTable} {cfgFile : Option AdaptiveConfig}
    {cfg : AdaptiveConfig} {bsEntries : OrderedDict ℕ BsEntry}
    (h : loadAdaptiveConfig digits cfgFile = .ok (cfg, bsEntries)) :
    bsEntries.items ≠ [] ∧ ValidEntries bsEntries := by
  have hturn : ∀ (loaded : OrderedDict ℕ BsEntry) (p : String × Option AdaptiveEntry) loaded',
      p ∈ (cfgFile.getD defaultAdaptiveConfig).items.items → ValidEntries loaded →
        loadEntry digits loaded p = .ok loaded' → ValidEntries loaded' := by
    rintro loaded ⟨key, given⟩ loaded' - hloaded hturn
    rcases loadEntry_ok hturn with rfl | ⟨bs, entry, rfl, hentry⟩
    · exact hloaded
    · intro bs' entry' hget
      rw [OrderedDict.get?_set] at hget
      split at hget
      · obtain rfl := Option.some.inj hget
        exact hentry
      · exact hloaded bs' entry' hget
  unfold loadAdaptiveConfig at h
  obtain ⟨loaded, hfold, hchecked⟩ := bind_ok h
  split at hchecked
  · cases hchecked
  · rename_i hne
    obtain ⟨-, rfl⟩ := Prod.mk.inj (Except.ok.inj hchecked)
    refine ⟨hne, foldlM_post hturn ?_ hfold⟩
    intro bs entry hget
    cases hget

/-! ### A new slot -/

theorem mem_sortedSet {α : Type} [LinearOrder α] {xs : List α} {x : α} :
    x ∈ sortedSet xs ↔ x ∈ xs :=
  List.mem_mergeSort.trans List.mem_dedup

theorem nodup_sortedSet {α : Type} [LinearOrder α] (xs : List α) : (sortedSet xs).Nodup :=
  (List.mergeSort_perm _ _).nodup_iff.mpr xs.nodup_dedup

theorem sortedSet_ne_nil {α : Type} [LinearOrder α] {xs : List α} (h : xs ≠ []) :
    sortedSet xs ≠ [] := by
  obtain ⟨x, hx⟩ := List.exists_mem_of_ne_nil xs h
  exact List.ne_nil_of_mem (mem_sortedSet.mpr hx)

/-- A slot of an entry of the config, on one of the entry's candidates. -/
structure AdaptiveStepSlot.Serves (cfg : GivenSettings) (entry : BsEntry) (s : AdaptiveStepSlot) :
    Prop where
  candidates : s.candidateSteps = sortedSet entry.candidateSteps
  settings : s.settings = resolveSettings cfg entry.settings
  current : s.currentSteps ∈ s.candidateSteps

theorem AdaptiveStepSlot.init_ok (initialSteps : ℤ) (cfg : GivenSettings) {entry : BsEntry}
    (hne : entry.candidateSteps ≠ []) :
    ∃ s, AdaptiveStepSlot.init initialSteps cfg entry = .ok s ∧ s.Serves cfg entry := by
  have hpos : 0 < (sortedSet entry.candidateSteps).length :=
    List.length_pos_of_ne_nil (sortedSet_ne_nil hne)
  have hlen : ¬ (sortedSet entry.candidateSteps).length < 1 := Nat.not_lt.mpr hpos
  unfold AdaptiveStepSlot.init
  dsimp only
  rw [if_neg hlen]
  split
  · rename_i hmem
    exact ⟨_, rfl, rfl, rfl, hmem⟩
  · have hhalf := Nat.div_lt_self hpos Nat.one_lt_two
    rw [item_ok hhalf 0, List.getD_eq_getElem _ 0 hhalf]
    exact ⟨_, rfl, rfl, rfl, List.getElem_mem hhalf⟩

/-! ### What a slot does -/

namespace AdaptiveStepSlot
variable {s : AdaptiveStepSlot}

/-- A slot that stands on one of its candidates. -/
structure Valid (s : AdaptiveStepSlot) : Prop where
  nodup : s.candidateSteps.Nodup
  current : s.currentSteps ∈ s.candidateSteps
  interval : 1 ≤ s.settings.updateInterval

/-- What the calls of a slot change: its step, its average and its count. -/
structure Moves (s s' : AdaptiveStepSlot) : Prop where
  candidates : s'.candidateSteps = s.candidateSteps
  settings : s'.settings = s.settings
  current : s'.currentSteps ∈ s'.candidateSteps

theorem Moves.valid {s' : AdaptiveStepSlot} (h : s.Moves s') (hs : s.Valid) : s'.Valid := by
  refine ⟨?_, h.current, ?_⟩
  · rw [h.candidates]
    exact hs.nodup
  · rw [h.settings]
    exact hs.interval

theorem candidate_mem {i : ℕ} (hi : i < s.candidateSteps.length) :
    s.candidate i ∈ s.candidateSteps := by
  unfold candidate
  rw [List.getD_eq_getElem s.candidateSteps 0 hi]
  exact List.getElem_mem hi

theorem cappedIdx_le (oldSteps : ℤ) (i : ℕ) : s.cappedIdx oldSteps i ≤ i := by
  unfold cappedIdx
  split
  · dsimp only
    split
    · exact lowerWhile_le _ i
    · exact Nat.le_refl i
  · exact Nat.le_refl i

theorem movedIdx_lt {i : ℕ} (hi : i < s.candidateSteps.length) :
    s.movedIdx i < s.candidateSteps.length := by
  have hle : i ≤ s.candidateSteps.length - 1 := by omega
  have hmoved : s.movedIdx i ≤ s.candidateSteps.length - 1 := settle_le hle
  omega

/-- What `recomputeParams` does to a slot that drafts. -/
theorem recomputeParams_of_ne {i : ℕ} (hzero : s.currentSteps ≠ 0)
    (hindex : index s.candidateSteps s.currentSteps = .ok i) (hi : i < s.candidateSteps.length) :
    s.recomputeParams = .ok (s.applyTargetSteps s.currentSteps
      (s.candidate (s.cappedIdx s.currentSteps (s.movedIdx i)))) := by
  have hlt := (s.cappedIdx_le s.currentSteps (s.movedIdx i)).trans_lt (movedIdx_lt hi)
  unfold recomputeParams
  dsimp only
  rw [bind_of_ok hindex, if_neg hzero, bind_of_ok (item_ok hlt 0)]
  rfl

/-- What `recomputeParams` does to a slot that does not draft. -/
theorem recomputeParams_of_zero {i : ℕ} (hzero : s.currentSteps = 0)
    (hindex : index s.candidateSteps s.currentSteps = .ok i) (hi : i < s.candidateSteps.length) :
    ∃ target ∈ s.candidateSteps,
      s.recomputeParams = .ok ((s.startProbe target).applyTargetSteps 0 target) := by
  have hlt : min (i + 1) (s.candidateSteps.length - 1) < s.candidateSteps.length := by omega
  refine ⟨s.candidate (min (i + 1) (s.candidateSteps.length - 1)), candidate_mem hlt, ?_⟩
  unfold recomputeParams
  dsimp only
  rw [bind_of_ok hindex, if_pos hzero, bind_of_ok (item_ok hlt 0), hzero]
  rfl

theorem moves_applyTargetSteps (hs : s.currentSteps ∈ s.candidateSteps) (oldSteps : ℤ) {target : ℤ}
    (htarget : target ∈ s.candidateSteps) : s.Moves (s.applyTargetSteps oldSteps target).2 := by
  unfold applyTargetSteps
  split
  · exact ⟨rfl, rfl, htarget⟩
  · exact ⟨rfl, rfl, hs⟩

theorem moves_startProbe (hs : s.currentSteps ∈ s.candidateSteps) (target : ℤ) :
    s.Moves (s.startProbe target) := by
  unfold startProbe
  split
  · exact ⟨rfl, rfl, hs⟩
  · exact ⟨rfl, rfl, hs⟩

theorem Moves.trans {s₁ s₂ : AdaptiveStepSlot} (h₁ : s.Moves s₁) (h₂ : s₁.Moves s₂) : s.Moves s₂ :=
  ⟨h₂.candidates.trans h₁.candidates, h₂.settings.trans h₁.settings, h₂.current⟩

/-- **A recomputation raises nothing and stays among the candidates.** -/
theorem recomputeParams_ok (hs : s.Valid) :
    ∃ changed s', s.recomputeParams = .ok (changed, s') ∧ s.Moves s' := by
  obtain ⟨i, hindex, hi, -⟩ := index_ok hs.nodup hs.current
  by_cases hzero : s.currentSteps = 0
  · obtain ⟨target, htarget, heq⟩ := recomputeParams_of_zero hzero hindex hi
    have hprobe := moves_startProbe hs.current target
    refine ⟨_, _, heq, hprobe.trans ?_⟩
    apply moves_applyTargetSteps hprobe.current
    rw [hprobe.candidates]
    exact htarget
  · refine ⟨_, _, recomputeParams_of_ne hzero hindex hi, ?_⟩
    apply moves_applyTargetSteps hs.current
    apply candidate_mem
    exact (s.cappedIdx_le _ _).trans_lt (movedIdx_lt hi)

theorem moves_observe (hs : s.currentSteps ∈ s.candidateSteps) (accepted : List ℤ) :
    s.Moves (s.observe accepted) := ⟨rfl, rfl, hs⟩

/-- **So does an update.** -/
theorem update_ok (hs : s.Valid) (accepted : List ℤ) :
    ∃ changed s', s.update accepted = .ok (changed, s') ∧ s.Moves s' := by
  unfold update
  split
  · exact ⟨false, s, rfl, rfl, rfl, hs.current⟩
  · have hobserve := moves_observe hs.current accepted
    have hinterval : s.settings.updateInterval ≠ 0 := by
      have := hs.interval
      intro h0
      rw [h0] at this
      norm_num at this
    dsimp only
    split
    · exact ⟨_, _, rfl, hobserve⟩
    · obtain ⟨r, hr⟩ := pyMod_ok (s.observe accepted).batchCount
        (s.observe accepted).settings.warmupBatches hinterval
      rw [hobserve.settings] at hr ⊢
      rw [bind_of_ok hr]
      split
      · exact ⟨_, _, rfl, hobserve⟩
      · obtain ⟨changed, s', heq, hmoves⟩ := recomputeParams_ok (hobserve.valid hs)
        exact ⟨changed, s', heq, hobserve.trans hmoves⟩

/-- Thresholds with `down_hysteresis <= up_hysteresis` leave a gap on positive candidates. -/
theorem apart (hpos : ∀ step ∈ s.candidateSteps, 0 < step)
    (hgap : s.settings.downHysteresis ≤ s.settings.upHysteresis) :
    Apart s.falls s.rises (s.candidateSteps.length - 1) := by
  have hfalls : ∀ i, s.falls (i + 1) = true → s.emaAcceptLen ≤ s.dropThreshold i := by
    intro i hfalls
    exact of_decide_eq_true hfalls
  have hrises : ∀ i, s.rises i = true → s.riseThreshold i < s.emaAcceptLen := by
    intro i hrises
    exact of_decide_eq_true hrises
  apply Apart.of_le hfalls hrises
  intro i hi
  have hmem : s.candidate i ∈ s.candidateSteps := candidate_mem (by omega)
  unfold dropThreshold riseThreshold
  rw [if_neg (hpos _ hmem).ne']
  exact add_le_add_right hgap _

theorem applyTargetSteps_current (s : AdaptiveStepSlot) (target : ℤ) :
    s.applyTargetSteps s.currentSteps target =
      (decide (target ≠ s.currentSteps), { s with currentSteps := target }) := by
  unfold applyTargetSteps
  split
  · rename_i hne
    rw [decide_eq_true hne]
  · rename_i heq
    rw [decide_eq_false heq, not_ne_iff.mp heq]

/-- **Recomputing does not oscillate**: with the average it left, a second recomputation stays on
the step the first one moved to. -/
theorem recomputeParams_again (hs : s.Valid) (hpos : ∀ step ∈ s.candidateSteps, 0 < step)
    (hceil : s.settings.ceilingCoeff = 0)
    (hgap : s.settings.downHysteresis ≤ s.settings.upHysteresis) :
    ∃ changed s', s.recomputeParams = .ok (changed, s') ∧ s'.emaAcceptLen = s.emaAcceptLen ∧
      s'.recomputeParams = .ok (false, s') := by
  obtain ⟨i, hindex, hi, -⟩ := index_ok hs.nodup hs.current
  have hmoved := movedIdx_lt (s := s) hi
  -- without a ceiling the two loops alone pick the candidate
  have hcapped : ∀ (t : AdaptiveStepSlot) (oldSteps : ℤ) (k : ℕ), t.settings = s.settings →
      t.cappedIdx oldSteps k = k := by
    intro t oldSteps k ht
    unfold cappedIdx
    rw [ht, hceil, if_neg (lt_irrefl 0)]
  have hfirst := recomputeParams_of_ne (hpos _ hs.current).ne' hindex hi
  rw [hcapped s _ _ rfl, applyTargetSteps_current] at hfirst
  refine ⟨_, _, hfirst, rfl, ?_⟩
  -- the second recomputation starts from the rung the first one ended on
  set s' : AdaptiveStepSlot := { s with currentSteps := s.candidate (s.movedIdx i) } with hs'
  have hindex' : index s'.candidateSteps s'.currentSteps = .ok (s.movedIdx i) :=
    index_getD hs.nodup hmoved
  have hrest : s'.movedIdx (s.movedIdx i) = s.movedIdx i :=
    settle_settle (apart hpos hgap) (by omega)
  have hpos' : s'.currentSteps ≠ 0 := (hpos _ (candidate_mem hmoved)).ne'
  have hsecond := recomputeParams_of_ne hpos' hindex' hmoved
  rw [hcapped s' _ _ rfl, hrest, applyTargetSteps_current] at hsecond
  rw [hsecond]
  have hstay : s'.candidate (s.movedIdx i) = s'.currentSteps := rfl
  rw [hstay, decide_eq_false (not_not.mpr rfl)]

theorem Serves.valid {cfg : GivenSettings} {entry : BsEntry} (h : s.Serves cfg entry)
    (hinterval : 1 ≤ (resolveSettings cfg entry.settings).updateInterval) : s.Valid := by
  refine ⟨?_, h.current, ?_⟩
  · rw [h.candidates]
    exact nodup_sortedSet _
  · rw [h.settings]
    exact hinterval

theorem Serves.moves {cfg : GivenSettings} {entry : BsEntry} {s' : AdaptiveStepSlot}
    (h : s.Serves cfg entry) (hmoves : s.Moves s') : s'.Serves cfg entry :=
  ⟨hmoves.candidates.trans h.candidates, hmoves.settings.trans h.settings, hmoves.current⟩

end AdaptiveStepSlot

end LatentSpec.AdaptiveSpec
