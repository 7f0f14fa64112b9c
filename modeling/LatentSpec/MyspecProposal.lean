import LatentSpec.DrawLaw
import LatentSpec.Verify

/-! # The MySpec proposal

`build_myspec_proposal` of `deepspec/eval/myspec/draft_ops.py` and the heads it
uses: `sample_draft_tokens` and `sample_block_tokens` draw a block of tokens from
the base logits, corrected by an optional Markov head that sees the previously
drawn token and, when it is recurrent, a state; the confidence head then cuts the
proposal at the first position it scores below the threshold.

Two facts carry the module's users.  The drawn block is a sequential draw from the
conditionals `draftProbs` (`fst_sampleDraftTokens`), and the length of the cut
proposal is a stopping rule: whether the cut falls at an index is decided by the
tokens drawn before it (`confidentPrefixLength_eq_kept`).
-/
namespace LatentSpec
open ChainLaw DrawLaw

variable {V : ℕ} {K Ω Hd St : Type} [Field K] [LinearOrder K]

/-- `markov_head`: a bias on the base logits from the previous token and the hidden
state.  `VanillaMarkov` and `GatedMarkovHead` have the trivial state, `RNNHead` a
recurrent one. -/
structure MarkovHead (V : ℕ) (K Hd St : Type) where
  init : St
  stepBias : St → Fin V → Hd → (Fin V → K) × St

/-- What `build_myspec_proposal` uses of the draft model.  A confidence head built
without Markov features ignores the previous token. -/
structure MySpecHeads (V : ℕ) (K Hd St : Type) where
  computeLogits : Hd → Fin V → K
  markovHead : Option (MarkovHead V K Hd St)
  confidenceHead : Option (Hd → Fin V → K)
  sigmoid : K → K

/-- How tokens are drawn from logits. -/
structure TokenSampler (V : ℕ) (K Ω : Type) [Field K] [LinearOrder K] where
  softmax : (Fin V → K) → Probs V K
  multinomial : Multinomial V K Ω
  temperature : K

/-- `MySpecDraftProposal`. -/
structure MySpecDraftProposal (V : ℕ) (K : Type) [Zero K] [LE K] extends DraftProposal V K where
  confidenceLogits : Option (List K)

/-- The logits of one step, `apply_step_logits`, and the head's next state. -/
def MarkovHead.applyStepLogits (head : MarkovHead V K Hd St) (computeLogits : Hd → Fin V → K)
    (state : St) (prev : Fin V) (h : Hd) : (Fin V → K) × St :=
  (fun i => computeLogits h i + (head.stepBias state prev h).1 i, (head.stepBias state prev h).2)

/-- `_predict_confidence_logits`: position `i` is scored from its hidden state and
the token before it. -/
def MySpecHeads.predictConfidenceLogits (model : MySpecHeads V K Hd St) (hidden : List Hd)
    (first : Fin V) (sampledTokens : List (Fin V)) : Option (List K) :=
  model.confidenceHead.map fun head => List.zipWith head hidden (first :: sampledTokens.dropLast)

/-- `_confident_prefix_length`. -/
def confidentPrefixLength (sigmoid : K → K) (confidenceLogits : List K) (blockSize : ℕ)
    (threshold : K) : ℕ :=
  if threshold ≤ 0 then blockSize
  else match confidenceLogits.findIdx? (fun c => decide (sigmoid c < threshold)) with
    | none => blockSize
    | some i => i

/-- `_empty_myspec_proposal`. -/
def emptyMyspecProposal (first : Fin V) : MySpecDraftProposal V K where
  draftTokenCount := 0
  verifyInputIds := [first]
  draftProbs := none
  confidenceLogits := none

variable [NeZero V]

/-- `sample_block_tokens`: the drawn tokens and the corrected logits. -/
def MarkovHead.sampleBlockTokens (head : MarkovHead V K Hd St) (computeLogits : Hd → Fin V → K)
    (sampler : TokenSampler V K Ω) :
    St → Fin V → List Hd → List Ω → List (Fin V) × List (Fin V → K)
  | state, prev, h :: hidden, ω :: draws =>
    let (logits, state) := head.applyStepLogits computeLogits state prev h
    let next := sampleTokens sampler.softmax sampler.multinomial logits sampler.temperature ω
    let (tokens, corrected) := head.sampleBlockTokens computeLogits sampler state next hidden draws
    (next :: tokens, logits :: corrected)
  | _, _, _, _ => ([], [])

/-- `sample_draft_tokens`: without a Markov head every row is drawn on its own. -/
def MySpecHeads.sampleDraftTokens (model : MySpecHeads V K Hd St) (sampler : TokenSampler V K Ω)
    (hidden : List Hd) (first : Fin V) (draws : List Ω) : List (Fin V) × List (Fin V → K) :=
  match model.markovHead with
  | none =>
    (List.zipWith (fun h ω => sampleTokens sampler.softmax sampler.multinomial
      (model.computeLogits h) sampler.temperature ω) hidden draws, hidden.map model.computeLogits)
  | some head => head.sampleBlockTokens model.computeLogits sampler head.init first hidden draws

variable [IsStrictOrderedRing K]

/-- `build_myspec_proposal`. -/
def MySpecHeads.buildMyspecProposal (model : MySpecHeads V K Hd St) (sampler : TokenSampler V K Ω)
    (first : Fin V) (blockHidden : List Hd) (blockSize : ℕ) (confidenceThreshold : K)
    (draws : List Ω) : MySpecDraftProposal V K :=
  let hidden := blockHidden.take blockSize
  let (sampledTokens, draftLogits) := model.sampleDraftTokens sampler hidden first draws
  let propose (proposalDraftTokens : ℕ) (confidenceLogits : Option (List K)) :
      MySpecDraftProposal V K :=
    if proposalDraftTokens = 0 then emptyMyspecProposal first
    else
      { draftTokenCount := proposalDraftTokens
        verifyInputIds := first :: sampledTokens.take proposalDraftTokens
        draftProbs := some ((draftLogits.take proposalDraftTokens).map
          (logitsToProbs sampler.softmax · sampler.temperature))
        confidenceLogits := confidenceLogits.map (List.take proposalDraftTokens) }
  if model.confidenceHead.isSome then
    match model.predictConfidenceLogits hidden first sampledTokens with
    | none => emptyMyspecProposal first
    | some confidenceLogits =>
      propose (confidentPrefixLength model.sigmoid confidenceLogits blockSize confidenceThreshold)
        (some confidenceLogits)
  else propose blockSize none

/-! ### The drawn block -/

omit [IsStrictOrderedRing K] [NeZero V] [LinearOrder K] in
/-- The corrected logits of the position after the drawn tokens `xs`. -/
def MarkovHead.logitsAfter (head : MarkovHead V K Hd St) (computeLogits : Hd → Fin V → K) :
    St → Fin V → List Hd → List (Fin V) → Fin V → K
  | _, _, [], _ => fun _ => 0
  | state, prev, h :: _, [] => (head.applyStepLogits computeLogits state prev h).1
  | state, prev, h :: hidden, x :: xs =>
    head.logitsAfter computeLogits (head.applyStepLogits computeLogits state prev h).2 x hidden xs

omit [IsStrictOrderedRing K] [NeZero V] [LinearOrder K] in
/-- The draft logits given the drafted tokens `xs`. -/
def MySpecHeads.draftLogits (model : MySpecHeads V K Hd St) (hidden : List Hd) (first : Fin V)
    (xs : List (Fin V)) : Fin V → K :=
  match model.markovHead with
  | none => (hidden[xs.length]?.map model.computeLogits).getD fun _ => 0
  | some head => head.logitsAfter model.computeLogits head.init first hidden xs

/-- The draft conditional `q(· | drafted tokens)`. -/
def MySpecHeads.draftProbs (model : MySpecHeads V K Hd St) (sampler : TokenSampler V K Ω)
    (hidden : List Hd) (first : Fin V) (xs : List (Fin V)) : Probs V K :=
  logitsToProbs sampler.softmax (model.draftLogits hidden first xs) sampler.temperature

/-- The token drawn after the drafted tokens `xs`. -/
def MySpecHeads.drawDraft (model : MySpecHeads V K Hd St) (sampler : TokenSampler V K Ω)
    (hidden : List Hd) (first : Fin V) (xs : List (Fin V)) (ω : Ω) : Fin V :=
  sampleTokens sampler.softmax sampler.multinomial (model.draftLogits hidden first xs)
    sampler.temperature ω

omit [IsStrictOrderedRing K] in
theorem MarkovHead.fst_sampleBlockTokens (head : MarkovHead V K Hd St)
    (computeLogits : Hd → Fin V → K) (sampler : TokenSampler V K Ω) {hidden : List Hd}
    {draws : List Ω} (h : hidden.length = draws.length) (state : St) (prev : Fin V) :
    (head.sampleBlockTokens computeLogits sampler state prev hidden draws).1 =
      seqDraw (fun xs => sampleTokens sampler.softmax sampler.multinomial
        (head.logitsAfter computeLogits state prev hidden xs) sampler.temperature) [] draws := by
  induction hidden generalizing draws state prev with
  | nil =>
    obtain rfl : draws = [] := List.length_eq_zero_iff.mp h.symm
    rfl
  | cons hd hidden ih =>
    obtain ⟨ω, draws, rfl⟩ := List.exists_cons_of_length_eq_add_one h.symm
    simp only [sampleBlockTokens, seqDraw, List.nil_append, ih (by simpa using h), seqDraw_cons]
    rfl

omit [IsStrictOrderedRing K] in
theorem MarkovHead.snd_sampleBlockTokens (head : MarkovHead V K Hd St)
    (computeLogits : Hd → Fin V → K) (sampler : TokenSampler V K Ω) {hidden : List Hd}
    {draws : List Ω} (h : hidden.length = draws.length) (state : St) (prev : Fin V) :
    (head.sampleBlockTokens computeLogits sampler state prev hidden draws).2 =
      (List.range hidden.length).map fun i => head.logitsAfter computeLogits state prev hidden
        ((head.sampleBlockTokens computeLogits sampler state prev hidden draws).1.take i) := by
  induction hidden generalizing draws state prev with
  | nil => rfl
  | cons hd hidden ih =>
    obtain ⟨ω, draws, rfl⟩ := List.exists_cons_of_length_eq_add_one h.symm
    rw [List.length_cons, List.range_succ_eq_map, List.map_cons, List.map_map]
    simp only [sampleBlockTokens]
    rw [ih (by simpa using h)]
    rfl

omit [Field K] [LinearOrder K] [IsStrictOrderedRing K] [NeZero V] in
/-- Rows drawn on their own are a sequential draw that ignores the earlier tokens. -/
theorem zipWith_eq_seqDraw (draw : Option Hd → Ω → Fin V) {hidden : List Hd} {draws : List Ω}
    (h : hidden.length = draws.length) :
    List.zipWith (fun hd => draw (some hd)) hidden draws =
      seqDraw (fun xs => draw hidden[xs.length]?) [] draws := by
  induction hidden generalizing draws with
  | nil =>
    obtain rfl : draws = [] := List.length_eq_zero_iff.mp h.symm
    rfl
  | cons hd hidden ih =>
    obtain ⟨ω, draws, rfl⟩ := List.exists_cons_of_length_eq_add_one h.symm
    simp [seqDraw, seqDraw_cons, ih (by simpa using h)]

omit [IsStrictOrderedRing K] in
/-- **The drafted tokens are drawn one after the other** from the draft
conditionals. -/
theorem MySpecHeads.fst_sampleDraftTokens (model : MySpecHeads V K Hd St)
    (sampler : TokenSampler V K Ω) {hidden : List Hd} {draws : List Ω}
    (h : hidden.length = draws.length) (first : Fin V) :
    (model.sampleDraftTokens sampler hidden first draws).1 =
      seqDraw (model.drawDraft sampler hidden first) [] draws := by
  unfold sampleDraftTokens drawDraft draftLogits
  cases model.markovHead with
  | some head => exact head.fst_sampleBlockTokens _ _ h _ _
  | none =>
    exact zipWith_eq_seqDraw (fun hd => sampleTokens sampler.softmax sampler.multinomial
      ((hd.map model.computeLogits).getD fun _ => 0) sampler.temperature) h

omit [IsStrictOrderedRing K] in
/-- The returned logits are those each token was drawn from. -/
theorem MySpecHeads.snd_sampleDraftTokens (model : MySpecHeads V K Hd St)
    (sampler : TokenSampler V K Ω) {hidden : List Hd} {draws : List Ω}
    (h : hidden.length = draws.length) (first : Fin V) :
    (model.sampleDraftTokens sampler hidden first draws).2 =
      (List.range hidden.length).map fun i => model.draftLogits hidden first
        ((seqDraw (model.drawDraft sampler hidden first) [] draws).take i) := by
  rw [← model.fst_sampleDraftTokens sampler h]
  unfold sampleDraftTokens draftLogits
  cases hm : model.markovHead with
  | some head => exact head.snd_sampleBlockTokens _ _ h _ _
  | none =>
    refine List.ext_getElem? fun i => ?_
    simp only [List.getElem?_map]
    rcases Nat.lt_or_ge i hidden.length with hi | hi
    · rw [List.getElem?_range hi, List.getElem?_eq_getElem hi]
      simp [← h, hi, hi.le]
    · rw [List.getElem?_eq_none hi, List.getElem?_eq_none (by simpa using hi)]
      rfl

/-! ### Where the proposal is cut -/

omit [IsStrictOrderedRing K] [NeZero V] in
/-- The confidence rule at the position after the drafted tokens `xs`. -/
def MySpecHeads.cutAfter (model : MySpecHeads V K Hd St) (hidden : List Hd) (first : Fin V)
    (threshold : K) (xs : List (Fin V)) : Bool :=
  match model.confidenceHead, hidden[xs.length]? with
  | some head, some h => decide (0 < threshold ∧
      model.sigmoid (head h ((first :: xs).getLast (List.cons_ne_nil _ _))) < threshold)
  | _, _ => false

omit [Field K] [LinearOrder K] [IsStrictOrderedRing K] [NeZero V] in
/-- Searching the scored positions of a block for the first failure is a stopping
rule on its tokens. -/
theorem findIdx?_zipWith_eq_kept (fails : Hd → Fin V → Bool) {hidden : List Hd} (prev : Fin V)
    {x : List (Fin V)} (h : hidden.length = x.length) :
    ((List.zipWith fails hidden (prev :: x.dropLast)).findIdx? id).getD x.length =
      kept (fun xs => (hidden[xs.length]?.map fun hd =>
        fails hd ((prev :: xs).getLast (List.cons_ne_nil _ _))).getD false) [] x := by
  induction x generalizing hidden prev with
  | nil =>
    obtain rfl : hidden = [] := List.length_eq_zero_iff.mp h
    rfl
  | cons s x ih =>
    obtain ⟨hd, hidden, rfl⟩ := List.exists_cons_of_length_eq_add_one h
    have hlen : hidden.length = x.length := by simpa using h
    have hdrop : List.zipWith fails hidden ((s :: x).dropLast) =
        List.zipWith fails hidden (s :: x.dropLast) := by
      cases x with
      | nil =>
        obtain rfl : hidden = [] := List.length_eq_zero_iff.mp hlen
        rfl
      | cons s' x => rfl
    rw [List.zipWith_cons_cons, hdrop, List.findIdx?_cons, kept, List.nil_append, kept_cons]
    cases hf : fails hd prev with
    | true => simp [hf]
    | false =>
      have hrec := ih s hlen
      simp only [id_eq, Bool.false_eq_true, if_false, List.length_nil, List.getElem?_cons_zero,
        Option.map_some, List.getLast_singleton, hf, Option.getD_some, List.length_cons,
        List.getElem?_cons_succ, List.getLast_cons_cons]
      rw [← hrec]
      cases (List.zipWith fails hidden (s :: x.dropLast)).findIdx? id <;> rfl

omit [IsStrictOrderedRing K] [NeZero V] in
/-- **The confidence cut is a stopping rule.**  The confident prefix ends where the
rule, which looks only at the tokens drawn before a position, first fires. -/
theorem MySpecHeads.confidentPrefixLength_eq_kept (model : MySpecHeads V K Hd St)
    {head : Hd → Fin V → K} (hhead : model.confidenceHead = some head) {hidden : List Hd}
    (first : Fin V) {x : List (Fin V)} (h : hidden.length = x.length) (threshold : K) :
    confidentPrefixLength model.sigmoid (List.zipWith head hidden (first :: x.dropLast)) x.length
      threshold = kept (model.cutAfter hidden first threshold) [] x := by
  have hcut : model.cutAfter hidden first threshold = fun xs => (hidden[xs.length]?.map fun hd =>
      decide (0 < threshold ∧ model.sigmoid
        (head hd ((first :: xs).getLast (List.cons_ne_nil _ _))) < threshold)).getD false := by
    funext xs
    unfold cutAfter
    rw [hhead]
    cases hidden[xs.length]? <;> rfl
  rw [hcut, ← findIdx?_zipWith_eq_kept (fun hd prev => decide (0 < threshold ∧
    model.sigmoid (head hd prev) < threshold)) first h]
  unfold confidentPrefixLength
  by_cases h0 : threshold ≤ 0
  · rw [if_pos h0, List.findIdx?_eq_none_iff.mpr]
    · rfl
    · intro b hb
      obtain ⟨i, hi⟩ := List.mem_iff_getElem?.mp hb
      rw [List.getElem?_zipWith] at hi
      split at hi
      · simpa [not_lt.mpr h0] using hi
      · cases hi
  · have hmap : List.zipWith (fun hd prev => decide (0 < threshold ∧
        model.sigmoid (head hd prev) < threshold)) hidden (first :: x.dropLast) =
        (List.zipWith head hidden (first :: x.dropLast)).map
          fun c => decide (model.sigmoid c < threshold) := by
      rw [List.map_zipWith]
      simp only [not_le.mp h0, true_and]
    rw [if_neg h0, hmap, List.findIdx?_map, Function.id_comp]
    cases (List.zipWith head hidden (first :: x.dropLast)).findIdx?
      fun c => decide (model.sigmoid c < threshold) <;> rfl

/-- **What `build_myspec_proposal` proposes**: the drafted block up to the confidence
cut, with the conditional each of its tokens was drawn from. -/
theorem MySpecHeads.buildMyspecProposal_spec (model : MySpecHeads V K Hd St)
    (sampler : TokenSampler V K Ω) (first : Fin V) {hidden : List Hd} {blockSize : ℕ}
    (hhidden : hidden.length = blockSize) (threshold : K) {draws : List Ω}
    (hdraws : draws.length = blockSize) :
    let x := seqDraw (model.drawDraft sampler hidden first) [] draws
    let k := kept (model.cutAfter hidden first threshold) [] x
    let proposal := model.buildMyspecProposal sampler first hidden blockSize threshold draws
    proposal.draftTokenCount = k ∧ proposal.verifyInputIds = first :: x.take k ∧
      (0 < k → proposal.draftProbs =
        some ((List.range k).map fun i => model.draftProbs sampler hidden first (x.take i))) := by
  intro x k proposal
  have hlen : hidden.length = draws.length := hhidden.trans hdraws.symm
  have hx : x.length = hidden.length := (length_seqDraw _ _ _).trans hlen.symm
  have hk : k ≤ hidden.length := (kept_le_length _ _ _).trans hx.le
  have hcount : proposal = if k = 0 then emptyMyspecProposal first else
      { draftTokenCount := k
        verifyInputIds := first :: x.take k
        draftProbs := some ((((List.range hidden.length).map fun i =>
          model.draftLogits hidden first (x.take i)).take k).map
            (logitsToProbs sampler.softmax · sampler.temperature))
        confidenceLogits := (model.predictConfidenceLogits hidden first x).map (List.take k) } := by
    have htake : hidden.take blockSize = hidden := List.take_of_length_le hhidden.le
    have h1 := model.fst_sampleDraftTokens sampler hlen first
    have h2 := model.snd_sampleDraftTokens sampler hlen first
    simp only [proposal, buildMyspecProposal, htake, h1, h2]
    cases hhead : model.confidenceHead with
    | none =>
      have hfull : k = blockSize := by
        refine (kept_of_not_cut _ (fun xs => ?_) _ _).trans (hx.trans hhidden)
        rw [cutAfter, hhead]
      simp only [Option.isSome_none, Bool.false_eq_true, if_false, ← hfull, predictConfidenceLogits,
        hhead, Option.map_none]
      rfl
    | some head =>
      have hcut := model.confidentPrefixLength_eq_kept hhead first hx.symm threshold
      rw [hx, hhidden] at hcut
      simp only [Option.isSome_some, if_true, predictConfidenceLogits, hhead, Option.map_some]
      rw [hcut]
  rw [hcount]
  by_cases h0 : k = 0
  · rw [if_pos h0, h0]
    exact ⟨rfl, rfl, fun h => absurd h (Nat.lt_irrefl 0)⟩
  · rw [if_neg h0]
    refine ⟨rfl, rfl, fun _ => ?_⟩
    rw [← List.map_take, List.take_range, Nat.min_eq_left hk, List.map_map]
    rfl

end LatentSpec
