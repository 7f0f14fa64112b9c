import Mathlib.Data.Fin.Tuple.Basic
import Mathlib.Data.Matrix.Mul

/-! # The Markov heads

The vanilla, gated and RNN heads correct the base logits of a block by a bias from the previous
tokens.  Training corrects all positions of all blocks in one call on given previous tokens;
decoding samples position by position and feeds each token back.  Tensors are functions of their
indices, the position in the block first; the indices `κ` before the last dimension are those of
the batch, of the batch and its blocks, or of these and the position.
-/
namespace LatentSpec

variable {K : Type} [Ring K] {V r d : ℕ}

/-- `nn.Linear` -/
structure LinearLayer (I O K : Type) where
  weight : Matrix O I K
  bias : O → K

def LinearLayer.apply {I O : Type} [Fintype I] (layer : LinearLayer I O K) (x : I → K) : O → K :=
  layer.weight.mulVec x + layer.bias

/-- `torch.sigmoid` and `torch.tanh` on one entry. -/
structure Activations (K : Type) where
  sigmoid : K → K
  tanh : K → K

/-- The weights that all heads have: `markov_w1` and `markov_w2`. -/
structure VanillaMarkov (V r : ℕ) (K : Type) where
  markovW1 : Fin V → Fin r → K
  markovW2 : Matrix (Fin V) (Fin r) K

namespace VanillaMarkov
variable {κ : Type} (m : VanillaMarkov V r K)

def getPrevEmbeddings (tokenIds : κ → Fin V) : κ → Fin r → K := fun i => m.markovW1 (tokenIds i)

def projectBias (latentStates : κ → Fin r → K) : κ → Fin V → K :=
  fun i => m.markovW2.mulVec (latentStates i)

end VanillaMarkov

/-- A head built by `build_markov_head`. -/
inductive BlockHead (V r d : ℕ) (K : Type) where
  | vanilla (m : VanillaMarkov V r K)
  | gated (m : VanillaMarkov V r K) (gateProj : LinearLayer (Fin d ⊕ Fin r) (Fin r) K)
  | rnn (m : VanillaMarkov V r K)
      (jointProj : LinearLayer (Fin r ⊕ Fin r ⊕ Fin d) (Fin r ⊕ Fin r ⊕ Fin r) K)

namespace BlockHead
variable {κ : Type} (act : Activations K)

/-- `GatedMarkovHead.compute_gate` -/
def computeGate (m : VanillaMarkov V r K) (gateProj : LinearLayer (Fin d ⊕ Fin r) (Fin r) K)
    (tokenIds : κ → Fin V) (hiddenStates : κ → Fin d → K) : κ → Fin r → K :=
  fun i => act.sigmoid ∘
    gateProj.apply (Sum.elim (hiddenStates i) (m.getPrevEmbeddings tokenIds i))

/-- `RNNHead._rnn_step`; the three chunks of the projection are the summands of its index. -/
def rnnStep (m : VanillaMarkov V r K)
    (jointProj : LinearLayer (Fin r ⊕ Fin r ⊕ Fin d) (Fin r ⊕ Fin r ⊕ Fin r) K)
    (state prevEmbeddings : κ → Fin r → K) (hiddenStates : κ → Fin d → K) :
    (κ → Fin r → K) × (κ → Fin V → K) :=
  let proj i := jointProj.apply
    (Sum.elim (state i) (Sum.elim (prevEmbeddings i) (hiddenStates i)))
  let gate : κ → Fin r → K := fun i => act.sigmoid ∘ proj i ∘ Sum.inl
  let candidate : κ → Fin r → K := fun i => act.tanh ∘ proj i ∘ Sum.inr ∘ Sum.inl
  let output : κ → Fin r → K := fun i => act.tanh ∘ proj i ∘ Sum.inr ∘ Sum.inr
  (gate * state + (1 - gate) * candidate, m.projectBias output)

/-- `compute_step_bias`; `none` when `hidden_states` is asserted and missing.  The one of `RNNHead`
starts from the zero state. -/
def computeStepBias :
    BlockHead V r d K → (κ → Fin V) → Option (κ → Fin d → K) → Option (κ → Fin V → K)
  | vanilla m, tokenIds, _ => some (m.projectBias (m.getPrevEmbeddings tokenIds))
  | gated m gateProj, tokenIds, some hiddenStates =>
    some (m.projectBias
      (computeGate act m gateProj tokenIds hiddenStates * m.getPrevEmbeddings tokenIds))
  | rnn m jointProj, tokenIds, some hiddenStates =>
    some (rnnStep act m jointProj 0 (m.getPrevEmbeddings tokenIds) hiddenStates).2
  | gated _ _, _, none | rnn _ _, _, none => none

def applyStepLogits (head : BlockHead V r d K) (logits : κ → Fin V → K) (tokenIds : κ → Fin V)
    (hiddenStates : Option (κ → Fin d → K)) : Option (κ → Fin V → K) :=
  (head.computeStepBias act tokenIds hiddenStates).map fun bias => logits + bias

/-! ## Teacher forcing -/

/-- `VanillaMarkov.apply_block_logits`: one bias for all positions. -/
def vanillaBlockLogits (head : BlockHead V r d K) {n : ℕ} (baseLogits : Fin n → κ → Fin V → K)
    (tokenIds : Fin n → κ → Fin V) (hiddenStates : Option (Fin n → κ → Fin d → K)) :
    Option (Fin n → κ → Fin V → K) :=
  if n = 0 then some baseLogits
  else
    (head.computeStepBias act (fun p : Fin n × κ => tokenIds p.1 p.2)
      (hiddenStates.map fun h p => h p.1 p.2)).map fun markovBias k i =>
        baseLogits k i + markovBias (k, i)

/-- The loop of `RNNHead.apply_block_logits`. -/
def rnnBlockLoop (m : VanillaMarkov V r K)
    (jointProj : LinearLayer (Fin r ⊕ Fin r ⊕ Fin d) (Fin r ⊕ Fin r ⊕ Fin r) K) :
    {n : ℕ} → (κ → Fin r → K) → (Fin n → κ → Fin V → K) → (Fin n → κ → Fin V) →
      (Fin n → κ → Fin d → K) → Fin n → κ → Fin V → K
  | 0, _, baseLogits, _, _ => baseLogits
  | _ + 1, state, baseLogits, tokenIds, hiddenStates =>
    let (state, bias) :=
      rnnStep act m jointProj state (m.getPrevEmbeddings (tokenIds 0)) (hiddenStates 0)
    Fin.cons (baseLogits 0 + bias)
      (rnnBlockLoop m jointProj state (Fin.tail baseLogits) (Fin.tail tokenIds)
        (Fin.tail hiddenStates))

/-- `apply_block_logits` -/
def applyBlockLogits (head : BlockHead V r d K) {n : ℕ} (baseLogits : Fin n → κ → Fin V → K)
    (tokenIds : Fin n → κ → Fin V) (hiddenStates : Option (Fin n → κ → Fin d → K)) :
    Option (Fin n → κ → Fin V → K) :=
  match head with
  | rnn m jointProj => hiddenStates.map fun h =>
      rnnBlockLoop act m jointProj 0 baseLogits tokenIds h
  | vanilla _ | gated _ _ => head.vanillaBlockLogits act baseLogits tokenIds hiddenStates

/-! ## Sampling -/

/-- What `sample_tokens` returns for the logits of each step. -/
abbrev StepSampler (V : ℕ) (κ K : Type) := ℕ → (κ → Fin V → K) → κ → Fin V

/-- The loop of `VanillaMarkov.sample_block_tokens`, with the sampled tokens and the corrected
logits. -/
def vanillaSampleLoop (head : BlockHead V r d K) :
    {n : ℕ} → StepSampler V κ K → (Fin n → κ → Fin V → K) → (κ → Fin V) →
      Option (Fin n → κ → Fin d → K) → Option ((Fin n → κ → Fin V) × (Fin n → κ → Fin V → K))
  | 0, _, baseLogits, _, _ => some (Fin.elim0, baseLogits)
  | _ + 1, sample, baseLogits, prevTokenIds, hiddenStates =>
    (head.applyStepLogits act (baseLogits 0) prevTokenIds (hiddenStates.map (· 0))).bind
      fun stepLogits =>
        let nextTokenIds := sample 0 stepLogits
        (vanillaSampleLoop head (fun k => sample (k + 1)) (Fin.tail baseLogits) nextTokenIds
          (hiddenStates.map Fin.tail)).map fun rest =>
            (Fin.cons nextTokenIds rest.1, Fin.cons stepLogits rest.2)

/-- The loop of `RNNHead.sample_block_tokens`. -/
def rnnSampleLoop (m : VanillaMarkov V r K)
    (jointProj : LinearLayer (Fin r ⊕ Fin r ⊕ Fin d) (Fin r ⊕ Fin r ⊕ Fin r) K) :
    {n : ℕ} → StepSampler V κ K → (κ → Fin r → K) → (Fin n → κ → Fin V → K) → (κ → Fin V) →
      (Fin n → κ → Fin d → K) → (Fin n → κ → Fin V) × (Fin n → κ → Fin V → K)
  | 0, _, _, baseLogits, _, _ => (Fin.elim0, baseLogits)
  | _ + 1, sample, state, baseLogits, prevTokenIds, hiddenStates =>
    let (state, bias) :=
      rnnStep act m jointProj state (m.getPrevEmbeddings prevTokenIds) (hiddenStates 0)
    let stepLogits := baseLogits 0 + bias
    let nextTokenIds := sample 0 stepLogits
    let rest := rnnSampleLoop m jointProj (fun k => sample (k + 1)) state (Fin.tail baseLogits)
      nextTokenIds (Fin.tail hiddenStates)
    (Fin.cons nextTokenIds rest.1, Fin.cons stepLogits rest.2)

/-- `sample_block_tokens` -/
def sampleBlockTokens (head : BlockHead V r d K) {n : ℕ} (sample : StepSampler V κ K)
    (baseLogits : Fin n → κ → Fin V → K) (firstPrevTokenIds : κ → Fin V)
    (hiddenStates : Option (Fin n → κ → Fin d → K)) :
    Option ((Fin n → κ → Fin V) × (Fin n → κ → Fin V → K)) :=
  match head with
  | rnn m jointProj => hiddenStates.map fun h =>
      rnnSampleLoop act m jointProj sample 0 baseLogits firstPrevTokenIds h
  | vanilla _ | gated _ _ =>
    head.vanillaSampleLoop act sample baseLogits firstPrevTokenIds hiddenStates

/-- The previous tokens of teacher forcing: the first one, and each token for the position after
its own. -/
def prevTokens {T : Type} : {n : ℕ} → T → (Fin n → T) → Fin n → T
  | 0, _, xs => xs
  | _ + 1, first, xs => Fin.cons first (prevTokens (xs 0) (Fin.tail xs))

/-! ## Rows -/

variable {act} {κ' : Type}

variable (act) in
theorem rnnStep_congr (m : VanillaMarkov V r K)
    (jointProj : LinearLayer (Fin r ⊕ Fin r ⊕ Fin d) (Fin r ⊕ Fin r ⊕ Fin r) K)
    {state prev : κ → Fin r → K} {h : κ → Fin d → K} {state' prev' : κ' → Fin r → K}
    {h' : κ' → Fin d → K} {i : κ} {j : κ'} (hstate : state i = state' j) (hprev : prev i = prev' j)
    (hh : h i = h' j) :
    (rnnStep act m jointProj state prev h).1 i = (rnnStep act m jointProj state' prev' h').1 j ∧
      (rnnStep act m jointProj state prev h).2 i =
        (rnnStep act m jointProj state' prev' h').2 j := by
  constructor
  · funext x
    simp only [rnnStep, Pi.add_apply, Pi.mul_apply, Pi.sub_apply, Pi.one_apply, hstate, hprev, hh]
  · simp only [rnnStep, VanillaMarkov.projectBias, hstate, hprev, hh]

/-- The bias of a row depends on its own token and hidden state. -/
theorem computeStepBias_congr {head : BlockHead V r d K} {t : κ → Fin V} {t' : κ' → Fin V}
    {h : Option (κ → Fin d → K)} {h' : Option (κ' → Fin d → K)} {b : κ → Fin V → K}
    {b' : κ' → Fin V → K} {i : κ} {j : κ'} (hb : head.computeStepBias act t h = some b)
    (hb' : head.computeStepBias act t' h' = some b') (ht : t i = t' j)
    (hh : h.map (· i) = h'.map (· j)) : b i = b' j := by
  have hemb (m : VanillaMarkov V r K) : m.getPrevEmbeddings t i = m.getPrevEmbeddings t' j := by
    rw [VanillaMarkov.getPrevEmbeddings, VanillaMarkov.getPrevEmbeddings, ht]
  cases head with
  | vanilla m =>
    cases hb
    cases hb'
    rw [VanillaMarkov.projectBias, VanillaMarkov.projectBias, hemb]
  | gated m gateProj =>
    rcases h with _ | h
    · cases hb
    rcases h' with _ | h'
    · cases hb'
    cases hb
    cases hb'
    have hrow : h i = h' j := Option.some.inj hh
    simp only [VanillaMarkov.projectBias, Pi.mul_apply, computeGate, hemb, hrow]
  | rnn m jointProj =>
    rcases h with _ | h
    · cases hb
    rcases h' with _ | h'
    · cases hb'
    cases hb
    cases hb'
    have hrow : h i = h' j := Option.some.inj hh
    refine (rnnStep_congr act m jointProj ?_ (hemb m) hrow).2
    rfl

variable (act) in
theorem exists_computeStepBias (head : BlockHead V r d K) (t : κ → Fin V)
    {h : Option (κ → Fin d → K)} (hh : h = none → ∃ m, head = .vanilla m) :
    ∃ b, head.computeStepBias act t h = some b := by
  cases h with
  | none =>
    obtain ⟨m, rfl⟩ := hh rfl
    exact ⟨_, rfl⟩
  | some h => cases head <;> exact ⟨_, rfl⟩

/-! ## Sampling is teacher forcing on its own tokens -/

/-- The sampling loop of the memoryless heads corrects each position by the bias that the token
before it gives. -/
theorem vanillaSampleLoop_spec {head : BlockHead V r d K} {n : ℕ} {sample : StepSampler V κ K}
    {base logits : Fin n → κ → Fin V → K} {prev : κ → Fin V} {tokens : Fin n → κ → Fin V}
    {hidden : Option (Fin n → κ → Fin d → K)}
    (h : head.vanillaSampleLoop act sample base prev hidden = some (tokens, logits)) (k : Fin n) :
    ∃ b, head.computeStepBias act (prevTokens prev tokens k) (hidden.map (· k)) = some b ∧
      logits k = base k + b := by
  induction n generalizing sample prev with
  | zero => exact k.elim0
  | succ n ih =>
    obtain ⟨stepLogits, hstep, hrest⟩ := Option.bind_eq_some_iff.1 h
    obtain ⟨b, hb, rfl⟩ := Option.map_eq_some_iff.1 hstep
    obtain ⟨⟨restTokens, restLogits⟩, hloop, hout⟩ := Option.map_eq_some_iff.1 hrest
    obtain ⟨rfl, rfl⟩ := Prod.mk.inj hout
    cases k using Fin.cases with
    | zero => exact ⟨b, hb, rfl⟩
    | succ k =>
      obtain ⟨b', hb', hlogits⟩ := ih hloop k
      refine ⟨b', ?_, hlogits⟩
      rw [Option.map_map] at hb'
      exact hb'

theorem vanillaBlockLogits_of_sampleLoop {head : BlockHead V r d K} {n : ℕ}
    {sample : StepSampler V κ K} {base logits : Fin n → κ → Fin V → K} {prev : κ → Fin V}
    {tokens : Fin n → κ → Fin V} {hidden : Option (Fin n → κ → Fin d → K)}
    (hhidden : hidden = none → ∃ m, head = .vanilla m)
    (h : head.vanillaSampleLoop act sample base prev hidden = some (tokens, logits)) :
    head.vanillaBlockLogits act base (prevTokens prev tokens) hidden = some logits := by
  cases n with
  | zero =>
    obtain ⟨-, rfl⟩ := Prod.mk.inj (Option.some.inj h)
    rfl
  | succ n =>
    obtain ⟨bias, hbias⟩ := exists_computeStepBias act head
      (fun p : Fin (n + 1) × κ => prevTokens prev tokens p.1 p.2)
      fun hnone : hidden.map (fun h p => h p.1 p.2) = none =>
        hhidden (Option.map_eq_none_iff.1 hnone)
    rw [vanillaBlockLogits, if_neg (Nat.succ_ne_zero n), hbias, Option.map_some]
    congr 1
    funext k i
    obtain ⟨b, hb, hlogits⟩ := vanillaSampleLoop_spec h k
    have hrow : bias (k, i) = b i :=
      computeStepBias_congr hbias hb rfl (by rw [Option.map_map, Option.map_map]; rfl)
    rw [hrow, hlogits]
    rfl

variable (act) in
/-- Both loops of the RNN head carry the same state. -/
theorem rnnSampleLoop_eq (m : VanillaMarkov V r K)
    (jointProj : LinearLayer (Fin r ⊕ Fin r ⊕ Fin d) (Fin r ⊕ Fin r ⊕ Fin r) K) {n : ℕ}
    (sample : StepSampler V κ K) (state : κ → Fin r → K) (base : Fin n → κ → Fin V → K)
    (prev : κ → Fin V) (hidden : Fin n → κ → Fin d → K) :
    (rnnSampleLoop act m jointProj sample state base prev hidden).2 =
      rnnBlockLoop act m jointProj state base
        (prevTokens prev (rnnSampleLoop act m jointProj sample state base prev hidden).1)
        hidden := by
  induction n generalizing sample state prev with
  | zero => rfl
  | succ n ih =>
    simp only [rnnSampleLoop, rnnBlockLoop, prevTokens, Fin.cons_zero, Fin.tail_cons, ih]

theorem applyBlockLogits_of_sample {head : BlockHead V r d K} {n : ℕ}
    {sample : StepSampler V κ K} {base logits : Fin n → κ → Fin V → K} {first : κ → Fin V}
    {tokens : Fin n → κ → Fin V} {hidden : Option (Fin n → κ → Fin d → K)}
    (hhidden : hidden = none → ∃ m, head = .vanilla m)
    (h : head.sampleBlockTokens act sample base first hidden = some (tokens, logits)) :
    head.applyBlockLogits act base (prevTokens first tokens) hidden = some logits := by
  cases head with
  | rnn m jointProj =>
    obtain ⟨hidden, rfl, hloop⟩ := Option.map_eq_some_iff.1 h
    have hrnn := rnnSampleLoop_eq act m jointProj sample 0 base first hidden
    rw [hloop] at hrnn
    exact congrArg some hrnn.symm
  | vanilla m => exact vanillaBlockLogits_of_sampleLoop hhidden h
  | gated m gateProj => exact vanillaBlockLogits_of_sampleLoop hhidden h

theorem exists_vanillaSampleLoop {head : BlockHead V r d K} {n : ℕ} (sample : StepSampler V κ K)
    (base : Fin n → κ → Fin V → K) (prev : κ → Fin V) {hidden : Option (Fin n → κ → Fin d → K)}
    (hhidden : hidden = none → ∃ m, head = .vanilla m) :
    ∃ out, head.vanillaSampleLoop act sample base prev hidden = some out := by
  induction n generalizing sample prev with
  | zero => exact ⟨_, rfl⟩
  | succ n ih =>
    obtain ⟨b, hb⟩ := exists_computeStepBias act head prev
      fun hnone : hidden.map (· 0) = none => hhidden (Option.map_eq_none_iff.1 hnone)
    obtain ⟨rest, hrest⟩ := ih (fun k => sample (k + 1)) (Fin.tail base) (sample 0 (base 0 + b))
      fun hnone : hidden.map Fin.tail = none => hhidden (Option.map_eq_none_iff.1 hnone)
    refine ⟨(Fin.cons (sample 0 (base 0 + b)) rest.1, Fin.cons (base 0 + b) rest.2), ?_⟩
    rw [vanillaSampleLoop, applyStepLogits, hb, Option.map_some, Option.bind_some]
    simp only [hrest, Option.map_some]

variable (act) in
/-- Sampling asserts the hidden states of the heads that use them, and raises nothing else. -/
theorem exists_sampleBlockTokens (head : BlockHead V r d K) {n : ℕ} (sample : StepSampler V κ K)
    (base : Fin n → κ → Fin V → K) (first : κ → Fin V)
    {hidden : Option (Fin n → κ → Fin d → K)}
    (hhidden : hidden = none → ∃ m, head = .vanilla m) :
    ∃ tokens logits, head.sampleBlockTokens act sample base first hidden =
      some (tokens, logits) := by
  have hout : ∃ out, head.sampleBlockTokens act sample base first hidden = some out := by
    cases head with
    | vanilla m => exact exists_vanillaSampleLoop sample base first hhidden
    | gated m gateProj => exact exists_vanillaSampleLoop sample base first hhidden
    | rnn m jointProj =>
      cases hidden with
      | none =>
        obtain ⟨m', hm'⟩ := hhidden rfl
        cases hm'
      | some hidden => exact ⟨_, rfl⟩
  obtain ⟨⟨tokens, logits⟩, hout⟩ := hout
  exact ⟨tokens, logits, hout⟩

/-! ## Causality -/

theorem prevTokens_congr {n : ℕ} {first : κ → Fin V} {tokens : Fin n → κ → Fin V}
    {first' : κ' → Fin V} {tokens' : Fin n → κ' → Fin V} {i : κ} {j : κ'}
    (hfirst : first i = first' j) (k : Fin n) (h : ∀ l < k, tokens l i = tokens' l j) :
    prevTokens first tokens k i = prevTokens first' tokens' k j := by
  induction n generalizing first first' with
  | zero => exact k.elim0
  | succ n ih =>
    cases k using Fin.cases with
    | zero => exact hfirst
    | succ k =>
      exact ih (h 0 (Fin.succ_pos k)) k fun l hl => h l.succ (Fin.succ_lt_succ_iff.2 hl)

/-- The RNN loop reads nothing behind the position that it writes. -/
theorem rnnBlockLoop_congr {m : VanillaMarkov V r K}
    {jointProj : LinearLayer (Fin r ⊕ Fin r ⊕ Fin d) (Fin r ⊕ Fin r ⊕ Fin r) K} {n : ℕ}
    {state : κ → Fin r → K} {base : Fin n → κ → Fin V → K} {tokens : Fin n → κ → Fin V}
    {hidden : Fin n → κ → Fin d → K} {state' : κ' → Fin r → K} {base' : Fin n → κ' → Fin V → K}
    {tokens' : Fin n → κ' → Fin V} {hidden' : Fin n → κ' → Fin d → K} {i : κ} {j : κ'}
    (hstate : state i = state' j) (k : Fin n) (hbase : base k i = base' k j)
    (htokens : ∀ l ≤ k, tokens l i = tokens' l j) (hhidden : ∀ l ≤ k, hidden l i = hidden' l j) :
    rnnBlockLoop act m jointProj state base tokens hidden k i =
      rnnBlockLoop act m jointProj state' base' tokens' hidden' k j := by
  induction n generalizing state state' with
  | zero => exact k.elim0
  | succ n ih =>
    have hemb : m.getPrevEmbeddings (tokens 0) i = m.getPrevEmbeddings (tokens' 0) j := by
      rw [VanillaMarkov.getPrevEmbeddings, VanillaMarkov.getPrevEmbeddings,
        htokens 0 (Fin.zero_le k)]
    have hstep := rnnStep_congr act m jointProj hstate hemb (hhidden 0 (Fin.zero_le k))
    cases k using Fin.cases with
    | zero => exact congrArg₂ (· + ·) hbase hstep.2
    | succ k =>
      exact ih hstep.1 k hbase (fun l hl => htokens l.succ (Fin.succ_le_succ_iff.2 hl))
        fun l hl => hhidden l.succ (Fin.succ_le_succ_iff.2 hl)

/-- **Causality**: the logits of a row at position `k` depend on its base logits at `k` and on its
previous tokens and hidden states up to `k`. -/
theorem applyBlockLogits_congr {head : BlockHead V r d K} {n : ℕ}
    {base out : Fin n → κ → Fin V → K} {tokens : Fin n → κ → Fin V}
    {hidden : Option (Fin n → κ → Fin d → K)} {base' out' : Fin n → κ' → Fin V → K}
    {tokens' : Fin n → κ' → Fin V} {hidden' : Option (Fin n → κ' → Fin d → K)} {i : κ} {j : κ'}
    (h : head.applyBlockLogits act base tokens hidden = some out)
    (h' : head.applyBlockLogits act base' tokens' hidden' = some out') (k : Fin n)
    (hbase : base k i = base' k j) (htokens : ∀ l ≤ k, tokens l i = tokens' l j)
    (hhidden : ∀ l ≤ k, hidden.map (· l i) = hidden'.map (· l j)) : out k i = out' k j := by
  have vanilla {head : BlockHead V r d K}
      (h : head.vanillaBlockLogits act base tokens hidden = some out)
      (h' : head.vanillaBlockLogits act base' tokens' hidden' = some out') :
      out k i = out' k j := by
    have hn : n ≠ 0 := Nat.ne_zero_of_lt k.isLt
    rw [vanillaBlockLogits, if_neg hn] at h h'
    obtain ⟨bias, hbias, rfl⟩ := Option.map_eq_some_iff.1 h
    obtain ⟨bias', hbias', rfl⟩ := Option.map_eq_some_iff.1 h'
    have hrow : bias (k, i) = bias' (k, j) :=
      computeStepBias_congr hbias hbias' (htokens k le_rfl) (by
        rw [Option.map_map, Option.map_map]
        exact hhidden k le_rfl)
    simp only [hrow, hbase]
  cases head with
  | vanilla m => exact vanilla h h'
  | gated m gateProj => exact vanilla h h'
  | rnn m jointProj =>
    obtain ⟨hidden, rfl, rfl⟩ := Option.map_eq_some_iff.1 h
    obtain ⟨hidden', rfl, rfl⟩ := Option.map_eq_some_iff.1 h'
    have hrow : ∀ l ≤ k, hidden l i = hidden' l j := fun l hl => Option.some.inj (hhidden l hl)
    refine rnnBlockLoop_congr ?_ k hbase htokens hrow
    rfl

variable (act) in
theorem exists_applyBlockLogits (head : BlockHead V r d K) {n : ℕ}
    (base : Fin n → κ → Fin V → K) (tokens : Fin n → κ → Fin V)
    {hidden : Option (Fin n → κ → Fin d → K)}
    (hhidden : hidden = none → ∃ m, head = .vanilla m) :
    ∃ out, head.applyBlockLogits act base tokens hidden = some out := by
  have vanilla : ∃ out, head.vanillaBlockLogits act base tokens hidden = some out := by
    rw [vanillaBlockLogits]
    split
    · exact ⟨_, rfl⟩
    · obtain ⟨bias, hbias⟩ := exists_computeStepBias act head
        (fun p : Fin n × κ => tokens p.1 p.2)
        fun hnone : hidden.map (fun h p => h p.1 p.2) = none =>
          hhidden (Option.map_eq_none_iff.1 hnone)
      exact ⟨_, by rw [hbias]; rfl⟩
  cases head with
  | vanilla m => exact vanilla
  | gated m gateProj => exact vanilla
  | rnn m jointProj =>
    cases hidden with
    | none =>
      obtain ⟨m', hm'⟩ := hhidden rfl
      cases hm'
    | some hidden => exact ⟨_, rfl⟩

end BlockHead

open BlockHead in
/-- A head samples, and teacher forcing on the tokens that it sampled gives the logits that it
sampled from, for every block of a training call whose inputs are those of a row of the
decoding call.  The logits of position `k` are those of any other run with the same base logits at
`k`, first previous token, tokens before `k` and hidden states up to `k`. -/
theorem markov_heads_train_what_they_decode {κ : Type} (act : Activations K)
    (head : BlockHead V r d K) {n : ℕ} (sample : StepSampler V κ K)
    (base : Fin n → κ → Fin V → K) (first : κ → Fin V) (hidden : Option (Fin n → κ → Fin d → K))
    (hhidden : hidden = none → ∃ m, head = .vanilla m) :
    ∃ tokens logits, head.sampleBlockTokens act sample base first hidden = some (tokens, logits) ∧
      (∀ (κ' : Type) (base' : Fin n → κ' → Fin V → K) (tokens' : Fin n → κ' → Fin V)
          (hidden' : Option (Fin n → κ' → Fin d → K)) (i : κ) (j : κ'),
        (hidden' = none → ∃ m, head = .vanilla m) →
        (∀ k, base' k j = base k i ∧ tokens' k j = prevTokens first tokens k i ∧
          hidden'.map (· k j) = hidden.map (· k i)) →
        ∃ out, head.applyBlockLogits act base' tokens' hidden' = some out ∧
          ∀ k, out k j = logits k i) ∧
      (∀ (κ' : Type) (sample' : StepSampler V κ' K) (base' : Fin n → κ' → Fin V → K)
          (first' : κ' → Fin V) (hidden' : Option (Fin n → κ' → Fin d → K)) tokens' logits',
        (hidden' = none → ∃ m, head = .vanilla m) →
        head.sampleBlockTokens act sample' base' first' hidden' = some (tokens', logits') →
        ∀ (i : κ) (j : κ') (k : Fin n), base' k j = base k i → first' j = first i →
          (∀ l < k, tokens' l j = tokens l i) →
          (∀ l ≤ k, hidden'.map (· l j) = hidden.map (· l i)) → logits' k j = logits k i) := by
  obtain ⟨tokens, logits, hsample⟩ :=
    exists_sampleBlockTokens act head sample base first hhidden
  have hforced := applyBlockLogits_of_sample hhidden hsample
  refine ⟨tokens, logits, hsample, ?_, ?_⟩
  · intro κ' base' tokens' hidden' i j hhidden' hrow
    obtain ⟨out, hout⟩ := exists_applyBlockLogits act head base' tokens' hhidden'
    refine ⟨out, hout, fun k => ?_⟩
    exact applyBlockLogits_congr hout hforced k (hrow k).1 (fun l _ => (hrow l).2.1)
      fun l _ => (hrow l).2.2
  · intro κ' sample' base' first' hidden' tokens' logits' hhidden' hsample' i j k hbase hfirst
      htokens hstates
    have hforced' := applyBlockLogits_of_sample hhidden' hsample'
    refine applyBlockLogits_congr hforced' hforced k hbase (fun l hl => ?_) hstates
    exact prevTokens_congr hfirst l fun l' hl' => htokens l' (hl'.trans_le hl)

/-- An RNN head of rank one that counts the tokens `1` while its gate is shut. -/
def countingHead : BlockHead 2 1 1 ℤ :=
  .rnn ⟨fun token _ => token.val, fun token _ => token.val⟩
    ⟨fun _ _ => 1, fun _ => 0⟩

open BlockHead in
theorem countingHead_trains_what_it_decodes :
    ∃ tokens logits,
      countingHead.sampleBlockTokens ⟨fun _ => 0, id⟩ (fun _ _ _ => 1) (fun _ _ _ => 0)
        (fun _ : Unit => 1) (some fun _ _ _ => (0 : ℤ)) = some (tokens, logits) ∧
      (∀ k : Fin 3, tokens k () = 1) ∧ logits (2 : Fin 3) () 1 = 3 ∧
      ∃ out, countingHead.applyBlockLogits ⟨fun _ => 0, id⟩ (fun _ _ _ => 0)
          (fun (_ : Fin 3) (_ : Fin 2 × Fin 2) => 1) (some fun _ _ _ => 0) = some out ∧
        out (2 : Fin 3) (1, 0) 1 = 3 := by
  obtain ⟨tokens, logits, hsample, htrain, -⟩ := markov_heads_train_what_they_decode
    ⟨fun _ => 0, id⟩ countingHead (fun _ _ _ => 1) (fun (_ : Fin 3) (_ : Unit) _ => 0) (fun _ => 1)
    (some fun _ _ _ => 0) nofun
  obtain ⟨rfl, rfl⟩ := Prod.mk.inj (Option.some.inj hsample)
  obtain ⟨out, hout, hrow⟩ := htrain (Fin 2 × Fin 2) (fun _ _ _ => 0) (fun _ _ => 1)
    (some fun _ _ _ => 0) () (1, 0) nofun (by decide)
  refine ⟨_, _, hsample, by decide, by decide, out, hout, ?_⟩
  rw [hrow 2]
  decide

end LatentSpec
