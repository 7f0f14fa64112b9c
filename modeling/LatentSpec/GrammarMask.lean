import Mathlib.Data.Nat.Bitwise
import LatentSpec.DflashAccept
import LatentSpec.Sampling

/-! # Grammar masks over a draft chain

Requests with a grammar are verified against masked logits.  `traverse_tree` walks the draft
chain of such a request with the request's own grammar object: it advances the grammar over the
drafts the grammar accepts, fills a mask row at every position it reaches, and rolls the grammar
back.  The rows below an illegal draft, or below a token that ends the grammar, stay as they
were allocated and allow everything; so do the rows of requests without a grammar.

A draft is committed only when the row before it allows it, so a committed run never gets
below an illegal draft (`VerifyStep.committed_legal`).  What lies below the end of the
grammar can be committed, and `_accept_grammar_tokens` cuts it off, and nothing else
(`acceptGrammarTokens_retained`).
-/
namespace LatentSpec

/-! ### Packed mask rows -/

/-- A row of `allocate_token_bitmask`: one bit for every token, in words of 32 bits. -/
abbrev MaskRow := ℕ → ℕ

/-- `-1` in every word -/
def fullRow : MaskRow := fun _ => 2 ^ 32 - 1

/-- The row that allows some tokens and no others. -/
def packRow (allowed : ℕ → Bool) : MaskRow :=
  fun word => Nat.ofBits fun i : Fin 32 => allowed (32 * word + i)

/-- `parent_bitmask[token // 32] & (1 << (token % 32)) != 0` -/
def maskBit (row : MaskRow) (token : ℕ) : Bool :=
  decide (row (token / 32) &&& 2 ^ (token % 32) ≠ 0)

theorem maskBit_eq_testBit (row : MaskRow) (token : ℕ) :
    maskBit row token = (row (token / 32)).testBit (token % 32) := by
  rw [maskBit, Nat.and_two_pow]
  cases (row (token / 32)).testBit (token % 32) <;> simp

@[simp] theorem maskBit_fullRow (token : ℕ) : maskBit fullRow token = true := by
  rw [maskBit_eq_testBit, fullRow, Nat.testBit_two_pow_sub_one]
  exact decide_eq_true (Nat.mod_lt token (by decide))

@[simp] theorem maskBit_packRow (allowed : ℕ → Bool) (token : ℕ) :
    maskBit (packRow allowed) token = allowed token := by
  rw [maskBit_eq_testBit, packRow, Nat.testBit_ofBits_lt _ _ (Nat.mod_lt token (by decide))]
  exact congrArg allowed (Nat.div_add_mod token 32)

/-! ### Grammar objects -/

/-- The matcher of a grammar backend: a deterministic machine over token ids. -/
structure GrammarMatcher (S : Type) where
  next : S → ℕ → Option S
  terminated : S → Bool

/-- `XGrammarGrammar`: where the matcher is, where it was, and the tokens it took. -/
structure GrammarObject (S : Type) where
  matcher : GrammarMatcher S
  state : S
  history : List S
  acceptedTokens : List ℕ

namespace GrammarObject
variable {S : Type} (g : GrammarObject S)

def isTerminated : Bool := g.matcher.terminated g.state

/-- `accept_token`; `none` is its `ValueError`.  A terminated grammar takes no more tokens. -/
def acceptToken (token : ℕ) : Option (GrammarObject S) :=
  if g.isTerminated then some g
  else
    (g.matcher.next g.state token).map fun state =>
      { g with
        state := state
        history := g.state :: g.history
        acceptedTokens := g.acceptedTokens ++ [token] }

/-- `rollback`, of at least one token -/
def rollback (k : ℕ) : GrammarObject S :=
  { g with
    state := (g.state :: g.history).getD k g.state
    history := g.history.drop k
    acceptedTokens := g.acceptedTokens.take (g.acceptedTokens.length - k) }

/-- What `fill_vocab_mask` writes: the acceptable tokens. -/
def vocabRow : MaskRow := packRow fun token => (g.matcher.next g.state token).isSome

variable {g}

theorem maskBit_vocabRow (token : ℕ) :
    maskBit g.vocabRow token = (g.matcher.next g.state token).isSome :=
  maskBit_packRow ..

/-- A token that the row allows is taken. -/
theorem acceptToken_isSome (hlive : g.isTerminated = false) (token : ℕ) :
    (g.acceptToken token).isSome = maskBit g.vocabRow token := by
  rw [maskBit_vocabRow, acceptToken, if_neg (by simp [hlive]), Option.isSome_map]

/-- **A token that was taken can be given back.** -/
theorem rollback_acceptToken (hlive : g.isTerminated = false) {token : ℕ} {g' : GrammarObject S}
    (h : g.acceptToken token = some g') : g'.rollback 1 = g := by
  rw [acceptToken, if_neg (by simp [hlive])] at h
  obtain ⟨state, -, rfl⟩ := Option.map_eq_some_iff.mp h
  simp [rollback]

theorem acceptToken_of_terminated (h : g.isTerminated = true) (token : ℕ) :
    g.acceptToken token = some g := if_pos h

end GrammarObject

/-! ### Walking the tree -/

/-- The verify tree of a request; `none` is `-1`. -/
structure VerifyTree where
  nextToken : ℕ → Option ℕ
  nextSibling : ℕ → Option ℕ
  draftTokens : ℕ → ℕ

/-- `GrammarTree.from_linear_chain`: the only child of node `i` is `i + 1`. -/
def VerifyTree.fromLinearChain (chainLen : ℕ) (verifyIds : ℕ → ℕ) : VerifyTree where
  nextToken i := if i + 1 < chainLen then some (i + 1) else none
  nextSibling _ := none
  draftTokens := verifyIds

section Traverse
variable {S : Type} (vocabSize : ℕ)

/-- The `dfs` of `traverse_tree`.  `none` is an exception, or a recursion deeper than `fuel`. -/
def dfs (tree : VerifyTree) :
    ℕ → GrammarObject S → (ℕ → MaskRow) → ℕ → ℕ → Option (GrammarObject S × (ℕ → MaskRow))
  | 0, _, _, _, _ => none
  | fuel + 1, g, mask, curr, parentPos =>
    let currentToken := tree.draftTokens curr
    let isAccepted :=
      if curr = 0 then true
      else if 0 < vocabSize ∧ vocabSize ≤ currentToken then false
      else maskBit (mask parentPos) currentToken
    let visited :=
      if isAccepted then
        (if curr = 0 then some g else g.acceptToken currentToken).bind fun g =>
          (if g.isTerminated then some (g, mask)
          else
            let mask := Function.update mask curr g.vocabRow
            match tree.nextToken curr with
            | some child => dfs tree fuel g mask child curr
            | none => some (g, mask)).map fun r =>
              (if curr = 0 then r.1 else r.1.rollback 1, r.2)
      else some (g, mask)
    visited.bind fun r =>
      match tree.nextSibling curr with
      | some sibling => dfs tree fuel r.1 r.2 sibling parentPos
      | none => some r

/-- `traverse_tree`.  The walk is at most as deep as the tree has nodes, and the root's parent
row is never read. -/
def traverseTree (tree : VerifyTree) (numNodes : ℕ) (g : GrammarObject S) (mask : ℕ → MaskRow) :
    Option (GrammarObject S × (ℕ → MaskRow)) :=
  dfs vocabSize tree numNodes g mask 0 0

/-! ### The rows of a chain -/

variable (g : GrammarObject S) (ids : ℕ → ℕ)

/-- The grammar after the drafts up to position `i`, if it took them all and had not ended
before. -/
def chainState : ℕ → Option (GrammarObject S)
  | 0 => some g
  | i + 1 => (chainState i).bind fun h =>
    if h.isTerminated || decide (0 < vocabSize ∧ vocabSize ≤ ids (i + 1)) then none
    else h.acceptToken (ids (i + 1))

/-- The row of position `i`: what the grammar allows there, unless it never gets there or has
ended. -/
def chainRow (row : MaskRow) (i : ℕ) : MaskRow :=
  match chainState vocabSize g ids i with
  | some h => if h.isTerminated then row else h.vocabRow
  | none => row

/-- A mask with the rows of the chain from position `i` on. -/
def chainMask (chainLen : ℕ) (mask : ℕ → MaskRow) (i : ℕ) : ℕ → MaskRow :=
  fun j => if i ≤ j ∧ j < chainLen then chainRow vocabSize g ids (mask j) j else mask j

variable {vocabSize g ids}

theorem chainState_of_le {i j : ℕ} (hij : i ≤ j) (h : chainState vocabSize g ids i = none) :
    chainState vocabSize g ids j = none := by
  induction j, hij using Nat.le_induction with
  | base => exact h
  | succ j _ ih => rw [chainState, ih]; rfl

theorem chainState_of_terminated {i j : ℕ} {h : GrammarObject S} (hij : i < j)
    (hstate : chainState vocabSize g ids i = some h) (hterm : h.isTerminated = true) :
    chainState vocabSize g ids j = none := by
  refine chainState_of_le hij ?_
  rw [chainState, hstate, Option.bind_some, hterm]
  rfl

/-- Nothing is filled from a position on that the grammar does not reach alive. -/
theorem chainMask_of_dead {chainLen i : ℕ} (mask : ℕ → MaskRow)
    (h : ∀ h, chainState vocabSize g ids i = some h → h.isTerminated = true) :
    chainMask vocabSize g ids chainLen mask i = mask := by
  funext j
  unfold chainMask
  split_ifs with hj
  · rcases hstate : chainState vocabSize g ids i with - | h'
    · rw [chainRow, chainState_of_le hj.1 hstate]
    · rcases Nat.eq_or_lt_of_le hj.1 with rfl | hlt
      · rw [chainRow, hstate]
        exact if_pos (h h' hstate)
      · rw [chainRow, chainState_of_terminated hlt hstate (h h' hstate)]
  · rfl

/-- The row of a position, and then the rows after it. -/
theorem chainMask_succ {chainLen i : ℕ} (mask : ℕ → MaskRow) {h : GrammarObject S}
    (hi : i < chainLen)
    (hstate : chainState vocabSize g ids i = some h) (hlive : h.isTerminated = false) :
    chainMask vocabSize g ids chainLen (Function.update mask i h.vocabRow) (i + 1) =
      chainMask vocabSize g ids chainLen mask i := by
  funext j
  unfold chainMask
  rcases Nat.lt_trichotomy j i with hlt | rfl | hgt
  · rw [if_neg (by omega), if_neg (by omega), Function.update_of_ne (by omega)]
  · rw [if_neg (by omega), if_pos ⟨Nat.le_refl j, hi⟩, Function.update_self, chainRow, hstate]
    exact (if_neg (by simp [hlive])).symm
  · by_cases hj : j < chainLen
    · rw [if_pos ⟨hgt, hj⟩, if_pos ⟨Nat.le_of_lt hgt, hj⟩, Function.update_of_ne (by omega)]
    · rw [if_neg (by omega), if_neg (by omega), Function.update_of_ne (by omega)]

/-- The walk of a chain below a position that the grammar has reached, given the walk below
the next one. -/
theorem visit_chain {chainLen fuel i : ℕ} (mask : ℕ → MaskRow) {h : GrammarObject S}
    (hi : i < chainLen) (hstate : chainState vocabSize g ids i = some h)
    (hchild : ∀ mask', h.isTerminated = false → mask' i = h.vocabRow → i + 1 < chainLen →
      dfs vocabSize (.fromLinearChain chainLen ids) fuel h mask' (i + 1) i =
        some (h, chainMask vocabSize g ids chainLen mask' (i + 1))) :
    (if h.isTerminated then some (h, mask)
      else
        let mask := Function.update mask i h.vocabRow
        match (VerifyTree.fromLinearChain chainLen ids).nextToken i with
        | some child => dfs vocabSize (.fromLinearChain chainLen ids) fuel h mask child i
        | none => some (h, mask)) = some (h, chainMask vocabSize g ids chainLen mask i) := by
  by_cases hterm : h.isTerminated = true
  · rw [if_pos hterm, chainMask_of_dead mask fun h' hh' => ?_]
    exact Option.some.inj (hstate.symm.trans hh') ▸ hterm
  · have hlive : h.isTerminated = false := by simpa using hterm
    rw [if_neg hterm, ← chainMask_succ mask hi hstate hlive]
    by_cases hnext : i + 1 < chainLen
    · simp only [VerifyTree.fromLinearChain, if_pos hnext]
      exact hchild _ hlive (Function.update_self ..) hnext
    · simp only [VerifyTree.fromLinearChain, if_neg hnext]
      refine congrArg (fun m => some (h, m)) (funext fun j => ?_)
      rw [chainMask, if_neg (by omega)]

/-- **Below the root**: the walk fills the rows it reaches and gives the grammar back as it
was. -/
theorem dfs_chain {chainLen fuel i : ℕ} (mask : ℕ → MaskRow) {h : GrammarObject S}
    (hi : i + 1 < chainLen) (hfuel : chainLen ≤ fuel + (i + 1))
    (hstate : chainState vocabSize g ids i = some h) (hlive : h.isTerminated = false)
    (hrow : mask i = h.vocabRow) :
    dfs vocabSize (.fromLinearChain chainLen ids) fuel h mask (i + 1) i =
      some (h, chainMask vocabSize g ids chainLen mask (i + 1)) := by
  induction fuel generalizing i h mask with
  | zero => omega
  | succ fuel ih =>
    have hnext : chainState vocabSize g ids (i + 1) =
        if 0 < vocabSize ∧ vocabSize ≤ ids (i + 1) then none else h.acceptToken (ids (i + 1)) := by
      simp only [chainState, hstate, Option.bind_some, hlive, Bool.false_or, decide_eq_true_eq]
    have hbit : (h.acceptToken (ids (i + 1))).isSome = maskBit (mask i) (ids (i + 1)) := by
      rw [hrow, h.acceptToken_isSome hlive]
    by_cases hvocab : 0 < vocabSize ∧ vocabSize ≤ ids (i + 1)
    · rw [if_pos hvocab] at hnext
      rw [chainMask_of_dead mask (by simp [hnext])]
      simp [dfs, VerifyTree.fromLinearChain, hvocab]
    · rw [if_neg hvocab] at hnext
      cases hacc : h.acceptToken (ids (i + 1)) with
      | none =>
        rw [hacc] at hnext hbit
        rw [chainMask_of_dead mask (by simp [hnext])]
        simp [dfs, VerifyTree.fromLinearChain, hvocab, ← hbit]
      | some h' =>
        rw [hacc] at hnext hbit
        have hvisit := @visit_chain _ vocabSize g ids _ fuel _ mask _ hi hnext
          fun mask' hlive' hrow' hlt =>
          ih mask' hlt (by omega) hnext hlive' hrow'
        have hback : h'.rollback 1 = h := h.rollback_acceptToken hlive hacc
        simp only [dfs, VerifyTree.fromLinearChain, hvocab, ← hbit, Option.isSome_some, hacc,
          Nat.succ_ne_zero, if_false, if_true, Option.bind_some] at hvisit ⊢
        rw [hvisit]
        simp [hback]

/-- **The root**: a chain is walked without an exception, whatever the drafts are. -/
theorem traverseTree_chain {chainLen : ℕ} (hlen : 0 < chainLen) (mask : ℕ → MaskRow) :
    traverseTree vocabSize (.fromLinearChain chainLen ids) chainLen g mask =
      some (g, chainMask vocabSize g ids chainLen mask 0) := by
  obtain ⟨fuel, rfl⟩ := Nat.exists_eq_add_of_lt hlen
  have hvisit := @visit_chain _ vocabSize g ids _ (0 + fuel) _ mask _ hlen rfl
    fun mask' hlive hrow hlt => dfs_chain mask' hlt (by omega) rfl hlive hrow
  simp only [traverseTree, dfs, if_true, Option.bind_some]
  rw [hvisit]
  rfl

end Traverse

/-! ### The mask of a batch -/

section Batch
variable {S : Type} (vocabSize numDraftTokens : ℕ)

/-- `generate_token_bitmask`, from request `i` on.  The mask is allocated for the first request
with a grammar, and every such request is given a view of its own rows. -/
def generateTokenBitmask (trees : ℕ → VerifyTree) :
    ℕ → List (Option (GrammarObject S)) → Option (ℕ → MaskRow) →
      Option (List (Option (GrammarObject S)) × Option (ℕ → MaskRow))
  | _, [], mask => some ([], mask)
  | i, none :: reqs, mask =>
    (generateTokenBitmask trees (i + 1) reqs mask).map fun r => (none :: r.1, r.2)
  | i, some g :: reqs, mask =>
    let alloc := mask.getD fun _ => fullRow
    let view := fun j => alloc (i * numDraftTokens + j)
    (traverseTree vocabSize (trees i) numDraftTokens g view).bind fun r =>
      let stored := fun row =>
        if i * numDraftTokens ≤ row ∧ row < (i + 1) * numDraftTokens then
          r.2 (row - i * numDraftTokens)
        else alloc row
      (generateTokenBitmask trees (i + 1) reqs (some stored)).map fun r' =>
        (some r.1 :: r'.1, r'.2)

/-- The row of position `j` of a request: all tokens, if it has no grammar. -/
def reqRow (grammar : Option (GrammarObject S)) (ids : ℕ → ℕ) (j : ℕ) : MaskRow :=
  match grammar with
  | some g => chainRow vocabSize g ids fullRow j
  | none => fullRow

/-- A row of a mask, if there is one. -/
def rowAt (mask : Option (ℕ → MaskRow)) (row : ℕ) : MaskRow := mask.getD (fun _ => fullRow) row

variable {vocabSize numDraftTokens}

/-- **The rows of a batch**: every request has its own, and every grammar is as it was. -/
theorem generateTokenBitmask_chains (hlen : 0 < numDraftTokens) (ids : ℕ → ℕ → ℕ) (i : ℕ)
    (reqs : List (Option (GrammarObject S))) (mask : Option (ℕ → MaskRow))
    (hfull : ∀ row, i * numDraftTokens ≤ row → rowAt mask row = fullRow) :
    ∃ mask', generateTokenBitmask vocabSize numDraftTokens
        (fun b => .fromLinearChain numDraftTokens (ids b)) i reqs mask = some (reqs, mask') ∧
      (∀ row < i * numDraftTokens, rowAt mask' row = rowAt mask row) ∧
      ∀ b req, reqs[b]? = some req → ∀ j < numDraftTokens,
        rowAt mask' ((i + b) * numDraftTokens + j) = reqRow vocabSize req (ids (i + b)) j := by
  induction reqs generalizing i mask with
  | nil => exact ⟨mask, rfl, fun _ _ => rfl, fun b req hreq => by simp at hreq⟩
  | cons req reqs ih =>
    -- one request's step: a mask that has its rows, and nothing below
    have hcons : ∀ mask₁, (∀ row < i * numDraftTokens, rowAt mask₁ row = rowAt mask row) →
        (∀ j < numDraftTokens,
          rowAt mask₁ (i * numDraftTokens + j) = reqRow vocabSize req (ids i) j) →
        (∀ row, (i + 1) * numDraftTokens ≤ row → rowAt mask₁ row = fullRow) →
        ∃ mask', generateTokenBitmask vocabSize numDraftTokens
            (fun b => .fromLinearChain numDraftTokens (ids b)) (i + 1) reqs mask₁ =
            some (reqs, mask') ∧
          (∀ row < i * numDraftTokens, rowAt mask' row = rowAt mask row) ∧
          ∀ b req', (req :: reqs)[b]? = some req' → ∀ j < numDraftTokens,
            rowAt mask' ((i + b) * numDraftTokens + j) = reqRow vocabSize req' (ids (i + b)) j := by
      intro mask₁ hbelow hown habove
      obtain ⟨mask', hrun, hkeep, hrows⟩ := ih (i + 1) mask₁ habove
      have hsucc : (i + 1) * numDraftTokens = i * numDraftTokens + numDraftTokens := Nat.succ_mul ..
      refine ⟨mask', hrun, fun row hrow => ?_, fun b req' hreq j hj => ?_⟩
      · rw [hkeep row (by omega), hbelow row hrow]
      · cases b with
        | zero =>
          obtain rfl : req = req' := Option.some.inj hreq
          rw [Nat.add_zero, hkeep _ (by omega), hown j hj]
        | succ b =>
          have hrow := hrows b req' hreq j hj
          rwa [Nat.add_right_comm, Nat.add_assoc] at hrow
    have hsucc : (i + 1) * numDraftTokens = i * numDraftTokens + numDraftTokens := Nat.succ_mul ..
    cases req with
    | none =>
      obtain ⟨mask', hrun, hspec⟩ := hcons mask (fun _ _ => rfl)
        (fun j _ => hfull _ (Nat.le_add_right _ _))
        (fun row hrow => hfull row (by omega))
      refine ⟨mask', ?_, hspec⟩
      simp only [generateTokenBitmask, hrun, Option.map_some]
    | some g =>
      let stored := fun row =>
        if i * numDraftTokens ≤ row ∧ row < (i + 1) * numDraftTokens then
          chainMask vocabSize g (ids i) numDraftTokens
            (fun j => rowAt mask (i * numDraftTokens + j)) 0 (row - i * numDraftTokens)
        else rowAt mask row
      obtain ⟨mask', hrun, hspec⟩ := hcons (some stored)
        (fun row hrow => if_neg (by omega))
        (fun j hj => by
          have hrow : rowAt (some stored) (i * numDraftTokens + j) =
              chainMask vocabSize g (ids i) numDraftTokens
                (fun j => rowAt mask (i * numDraftTokens + j)) 0 j := by
            refine (if_pos ⟨Nat.le_add_right _ _, by omega⟩).trans ?_
            rw [Nat.add_sub_cancel_left]
          rw [hrow, chainMask, if_pos ⟨Nat.zero_le j, hj⟩, hfull _ (Nat.le_add_right _ _), reqRow])
        (fun row hrow => (if_neg (by omega)).trans (hfull row (by omega)))
      refine ⟨mask', ?_, hspec⟩
      simp only [generateTokenBitmask, traverseTree_chain hlen, Option.bind_some]
      exact congrArg (Option.map _) hrun

end Batch

/-! ### Committing -/

/-- What `_accept_grammar_tokens` leaves behind. -/
structure GrammarAccept (S : Type) where
  retained : List ℕ
  grammar : GrammarObject S
  aborted : Bool

/-- `_accept_grammar_tokens`: the tokens up to the one that ends the grammar; a `ValueError`
aborts the request. -/
def acceptGrammarTokens {S : Type} : GrammarObject S → List ℕ → GrammarAccept S
  | g, [] => ⟨[], g, false⟩
  | g, tokenId :: tokens =>
    match g.acceptToken tokenId with
    | none => ⟨[], g, true⟩
    | some g' =>
      if g'.isTerminated then ⟨[tokenId], g', false⟩
      else
        let rest := acceptGrammarTokens g' tokens
        { rest with retained := tokenId :: rest.retained }

/-- Tokens are dropped only behind the end of the grammar. -/
theorem acceptGrammarTokens_retained {S : Type} (g : GrammarObject S) (tokens : List ℕ)
    (h : (acceptGrammarTokens g tokens).aborted = false) :
    (acceptGrammarTokens g tokens).retained <+: tokens ∧
      ((acceptGrammarTokens g tokens).retained = tokens ∨
        (acceptGrammarTokens g tokens).grammar.isTerminated = true) := by
  induction tokens generalizing g with
  | nil => exact ⟨List.prefix_refl _, .inl rfl⟩
  | cons tokenId tokens ih =>
    cases hacc : g.acceptToken tokenId with
    | none => simp [acceptGrammarTokens, hacc] at h
    | some g' =>
      by_cases hterm : g'.isTerminated = true
      · simp [acceptGrammarTokens, hacc, hterm]
      · simp only [acceptGrammarTokens, hacc, hterm] at h ⊢
        obtain ⟨hhead, hend⟩ := ih g' h
        exact ⟨(List.cons_prefix_cons).mpr ⟨rfl, hhead⟩, hend.imp_left (congrArg (tokenId :: ·))⟩

/-- A grammar that has ended lets a run begin, and drops the rest of it. -/
theorem acceptGrammarTokens_of_terminated {S : Type} {g : GrammarObject S}
    (h : g.isTerminated = true) (tokens : List ℕ) :
    (acceptGrammarTokens g tokens).aborted = false := by
  cases tokens with
  | nil => rfl
  | cons tokenId tokens => simp [acceptGrammarTokens, g.acceptToken_of_terminated h, h]

section Chain
variable {S : Type} {vocabSize : ℕ} {g : GrammarObject S} {ids : ℕ → ℕ}

/-- A token that the row of a live position allows is taken there. -/
theorem acceptToken_of_maskBit {h : GrammarObject S} {i token : ℕ}
    (hstate : chainState vocabSize g ids i = some h) (hlive : h.isTerminated = false)
    (hbit : maskBit (chainRow vocabSize g ids fullRow i) token = true) :
    ∃ h', h.acceptToken token = some h' := by
  rw [chainRow, hstate] at hbit
  simp only [hlive, Bool.false_eq_true, if_false] at hbit
  exact Option.isSome_iff_exists.mp ((h.acceptToken_isSome hlive token).trans hbit)

/-- **A run that its rows allow is legal**, from any live position of the chain on. -/
theorem acceptGrammarTokens_chain {n i bonus : ℕ} {h : GrammarObject S}
    (hstate : chainState vocabSize g ids i = some h) (hlive : h.isTerminated = false)
    (hdrafts : ∀ j < n, ids (i + j + 1) < vocabSize ∧
      maskBit (chainRow vocabSize g ids fullRow (i + j)) (ids (i + j + 1)) = true)
    (hbonus : maskBit (chainRow vocabSize g ids fullRow (i + n)) bonus = true) :
    (acceptGrammarTokens h ((List.range n).map (fun j => ids (i + j + 1)) ++ [bonus])).aborted =
      false := by
  induction n generalizing i h with
  | zero =>
    obtain ⟨h', hacc⟩ := acceptToken_of_maskBit hstate hlive hbonus
    simp only [List.range_zero, List.map_nil, List.nil_append, acceptGrammarTokens, hacc]
    split <;> rfl
  | succ n ih =>
    obtain ⟨hvocab, hbit⟩ := hdrafts 0 (Nat.succ_pos n)
    obtain ⟨h', hacc⟩ := acceptToken_of_maskBit hstate hlive hbit
    rw [List.range_succ_eq_map, List.map_cons, List.map_map, List.cons_append, acceptGrammarTokens,
      hacc]
    dsimp only
    by_cases hterm : h'.isTerminated = true
    · rw [if_pos hterm]
    · rw [if_neg hterm]
      have hnext : chainState vocabSize g ids (i + 1) = some h' := by
        have hin : ¬(0 < vocabSize ∧ vocabSize ≤ ids (i + 1)) := fun hout =>
          Nat.not_lt.mpr hout.2 hvocab
        rw [chainState, hstate, Option.bind_some, hlive, decide_eq_false hin]
        exact hacc
      have hrest := ih hnext (by simpa using hterm)
        (fun j hj => by
          have hj' := hdrafts (j + 1) (Nat.succ_lt_succ hj)
          rwa [show i + (j + 1) = i + 1 + j from by omega] at hj')
        (by rwa [Nat.add_right_comm, Nat.add_assoc])
      simpa [Function.comp_def, Nat.add_right_comm, Nat.add_assoc, Nat.add_comm 1] using hrest

end Chain

/-! ### A verify step -/

/-- A verify step of a batch: the drafts behind each request's last token, and the target's
logits as they are when the mask is applied. -/
structure VerifyStep (S : Type) (V : ℕ) (K : Type) where
  reqs : List (Option (GrammarObject S))
  numDraftTokens : ℕ
  draftTokens : ℕ → ℕ → ℕ
  logits : ℕ → Fin V → WithBot K
  prefixLens : ℕ → ℕ
  pos : 0 < numDraftTokens

namespace VerifyStep
variable {S : Type} {V : ℕ} {K : Type} (w : VerifyStep S V K)

/-- `build_grammar_vocab_mask` -/
def vocabMask : Option (List (Option (GrammarObject S)) × Option (ℕ → MaskRow)) :=
  generateTokenBitmask V w.numDraftTokens
    (fun b => .fromLinearChain w.numDraftTokens (w.draftTokens b)) 0 w.reqs none

/-- The logits of position `i` of a request after `grammar_mask.apply`. -/
def maskedLogits (mask : Option (ℕ → MaskRow)) (b i : ℕ) (v : Fin V) : WithBot K :=
  match mask with
  | none => w.logits (b * w.numDraftTokens + i) v
  | some rows =>
    if maskBit (rows (b * w.numDraftTokens + i)) v then w.logits (b * w.numDraftTokens + i) v
    else ⊥

/-- What `_commit_accept` commits: the drafts up to the accept length, and the bonus. -/
def committed (b acceptLen bonus : ℕ) : List ℕ :=
  ((((List.range (w.numDraftTokens - 1)).map fun i => w.draftTokens b (i + 1)) ++ [0]).set
    acceptLen bonus).take (acceptLen + 1)

theorem committed_eq {b acceptLen : ℕ} (h : acceptLen < w.numDraftTokens) (bonus : ℕ) :
    w.committed b acceptLen bonus =
      (List.range acceptLen).map (fun i => w.draftTokens b (i + 1)) ++ [bonus] := by
  have hlen : acceptLen <
      (((List.range (w.numDraftTokens - 1)).map fun i => w.draftTokens b (i + 1)) ++
        [0]).length := by
    simp only [List.length_append, List.length_map, List.length_range, List.length_singleton]
    omega
  rw [committed, List.take_add_one, List.getElem?_set_self hlen, List.take_set_of_le le_rfl,
    List.take_append_of_le_length (by simp; omega), ← List.map_take, List.take_range,
    Nat.min_eq_left (by omega)]
  rfl

/-- A token with a masked logit above `-inf` is one the row allows. -/
theorem maskBit_of_maskedLogits {mask : Option (ℕ → MaskRow)} {b i : ℕ} {v : Fin V}
    (h : w.maskedLogits mask b i v ≠ ⊥) :
    maskBit (rowAt mask (b * w.numDraftTokens + i)) v = true := by
  cases mask with
  | none => exact maskBit_fullRow v
  | some rows =>
    by_contra hbit
    exact h (if_neg hbit)

/-- A token that the row allows keeps its logit. -/
theorem maskedLogits_of_maskBit {mask : Option (ℕ → MaskRow)} {b i : ℕ} {v : Fin V}
    (h : maskBit (rowAt mask (b * w.numDraftTokens + i)) v = true) :
    w.maskedLogits mask b i v = w.logits (b * w.numDraftTokens + i) v := by
  cases mask with
  | none => rfl
  | some rows => exact if_pos h

/-- Sampling commits the drafts below the accept length and a bonus, all of them tokens with
some probability in rows that give none to a logit of `-inf`. -/
def SampledOutcome (mask : Option (ℕ → MaskRow)) (b acceptLen : ℕ) (bonus : Fin V) : Prop :=
  acceptLen < w.numDraftTokens ∧ ∃ probs : ℕ → Fin V → ℝ,
    (∀ i v, w.maskedLogits mask b i v = ⊥ → probs i v = 0) ∧
    (∀ i < acceptLen, ∃ v : Fin V, v.val = w.draftTokens b (i + 1) ∧ probs i v ≠ 0) ∧
    probs acceptLen bonus ≠ 0

/-- Wherever the grammar of a request is alive in the chain, the target gives one of the tokens
it accepts a finite logit. -/
def LeavesChoice (b : ℕ) (g : GrammarObject S) : Prop :=
  ∀ i < w.numDraftTokens, ∀ h, chainState V g (w.draftTokens b) i = some h →
    h.isTerminated = false → ∃ v : Fin V, (h.matcher.next h.state v).isSome ∧
      w.logits (b * w.numDraftTokens + i) v ≠ ⊥

section Greedy
variable [LinearOrder K] [NeZero V]

/-- The step as a greedy block. -/
def greedyBlock (mask : Option (ℕ → MaskRow)) : GreedyBlock where
  candidates b i := w.draftTokens b i
  targetPredict b i := (argmax (w.maskedLogits mask b i)).val
  prefixLens := w.prefixLens
  blockSize := w.numDraftTokens

/-- Greedy verification commits what the accept rule returns. -/
def GreedyOutcome (mask : Option (ℕ → MaskRow)) (b acceptLen : ℕ) (bonus : Fin V) : Prop :=
  ((w.greedyBlock mask).acceptTorch b).acceptLen = acceptLen ∧
    ((w.greedyBlock mask).acceptTorch b).bonus = bonus.val

instance (mask : Option (ℕ → MaskRow)) (b acceptLen : ℕ) (bonus : Fin V) :
    Decidable (w.GreedyOutcome mask b acceptLen bonus) :=
  inferInstanceAs (Decidable (_ ∧ _))

theorem le_argmax (row : Fin V → WithBot K) (v : Fin V) : row v ≤ row (argmax row) := by
  obtain ⟨m, hm⟩ := Option.ne_none_iff_exists'.mp
    (mt List.argmax_eq_none.mp (List.ne_nil_of_mem (List.mem_finRange v)) :
      (List.finRange V).argmax row ≠ none)
  rw [argmax, hm]
  exact List.le_of_mem_argmax (List.mem_finRange v) hm

/-- The argmax of a masked row is a token the row allows, if the row leaves a choice. -/
theorem maskBit_argmax {mask : Option (ℕ → MaskRow)} {b i : ℕ} {g : GrammarObject S}
    (hi : i < w.numDraftTokens) (hchoice : w.LeavesChoice b g)
    (hrow : rowAt mask (b * w.numDraftTokens + i) =
      chainRow V g (w.draftTokens b) fullRow i) :
    maskBit (rowAt mask (b * w.numDraftTokens + i)) (argmax (w.maskedLogits mask b i)) = true := by
  cases hstate : chainState V g (w.draftTokens b) i with
  | none =>
    rw [hrow, chainRow, hstate]
    exact maskBit_fullRow _
  | some h =>
    by_cases hterm : h.isTerminated = true
    · rw [hrow, chainRow, hstate]
      simp only [hterm, if_true, maskBit_fullRow]
    · have hlive : h.isTerminated = false := by simpa using hterm
      obtain ⟨v, hnext, hfinite⟩ := hchoice i hi h hstate hlive
      have hbit : maskBit (rowAt mask (b * w.numDraftTokens + i)) v = true := by
        rw [hrow, chainRow, hstate]
        simp only [hlive, Bool.false_eq_true, if_false, h.maskBit_vocabRow, hnext]
      refine w.maskBit_of_maskedLogits fun hbot => hfinite ?_
      rw [← w.maskedLogits_of_maskBit hbit, ← le_bot_iff, ← hbot]
      exact le_argmax _ v

/-- What greedy verification hands on is the committed run. -/
theorem GreedyOutcome.outTokens {w : VerifyStep S V K} {mask : Option (ℕ → MaskRow)}
    {b acceptLen : ℕ} {bonus : Fin V} (h : w.GreedyOutcome mask b acceptLen bonus) :
    ((w.greedyBlock mask).acceptTorch b).outTokens.take
        ((w.greedyBlock mask).acceptTorch b).commitLen =
      (w.committed b acceptLen bonus).map Nat.cast := by
  obtain ⟨hlen, hbonus⟩ := h
  show ((((List.range (w.numDraftTokens - 1)).map fun i => (w.draftTokens b (i + 1) : ℤ)) ++
    [0]).set ((w.greedyBlock mask).acceptTorch b).acceptLen
      ((w.greedyBlock mask).acceptTorch b).bonus).take
      (((w.greedyBlock mask).acceptTorch b).acceptLen + 1) = _
  rw [hlen, hbonus, committed, List.map_take, List.map_set, List.map_append, List.map_map]
  rfl

/-- What an outcome commits, the rows before it allow. -/
structure Allowed (mask : Option (ℕ → MaskRow)) (b acceptLen bonus : ℕ) : Prop where
  lt : acceptLen < w.numDraftTokens
  drafts : ∀ i < acceptLen, w.draftTokens b (i + 1) < V ∧
    maskBit (rowAt mask (b * w.numDraftTokens + i)) (w.draftTokens b (i + 1)) = true
  bonus : maskBit (rowAt mask (b * w.numDraftTokens + acceptLen)) bonus = true

variable {w}

omit [LinearOrder K] [NeZero V] in
theorem SampledOutcome.allowed {mask : Option (ℕ → MaskRow)} {b acceptLen : ℕ} {bonus : Fin V}
    (h : w.SampledOutcome mask b acceptLen bonus) : w.Allowed mask b acceptLen bonus := by
  obtain ⟨hlt, probs, hzero, hdrafts, hbonus⟩ := h
  refine ⟨hlt, fun i hi => ?_, w.maskBit_of_maskedLogits (mt (hzero _ _) hbonus)⟩
  obtain ⟨v, hv, hprob⟩ := hdrafts i hi
  exact ⟨hv ▸ v.isLt, hv ▸ w.maskBit_of_maskedLogits (mt (hzero _ _) hprob)⟩

theorem GreedyOutcome.allowed {mask : Option (ℕ → MaskRow)} {b acceptLen : ℕ} {bonus : Fin V}
    {g : GrammarObject S} (h : w.GreedyOutcome mask b acceptLen bonus)
    (hchoice : w.LeavesChoice b g)
    (hrow : ∀ i < w.numDraftTokens, rowAt mask (b * w.numDraftTokens + i) =
      chainRow V g (w.draftTokens b) fullRow i) : w.Allowed mask b acceptLen bonus := by
  obtain ⟨hlen, hbonus⟩ := h
  have hlen : (w.greedyBlock mask).acceptLen b = acceptLen :=
    ((w.greedyBlock mask).correctLenTorch_eq b).symm.trans hlen
  have hle : (w.greedyBlock mask).acceptLen b ≤ w.numDraftTokens - 1 :=
    (w.greedyBlock mask).acceptLen_le b
  have hlt : acceptLen < w.numDraftTokens := by
    have := w.pos
    omega
  refine ⟨hlt, fun i hi => ?_, ?_⟩
  · -- an accepted draft is the argmax of the row before it
    have hmatch : (w.draftTokens b (i + 1) : ℤ) = (argmax (w.maskedLogits mask b i)).val :=
      (w.greedyBlock mask).acceptLen_match b (hlen ▸ hi)
    rw [Nat.cast_inj.mp hmatch]
    exact ⟨Fin.isLt _, w.maskBit_argmax (by omega) hchoice (hrow i (by omega))⟩
  · have hargmax : ((argmax (w.maskedLogits mask b acceptLen)).val : ℤ) = bonus.val := by
      rw [← hbonus, ← hlen, ← (w.greedyBlock mask).correctLenTorch_eq b]
      rfl
    rw [← Nat.cast_inj.mp hargmax]
    exact w.maskBit_argmax hlt hchoice (hrow acceptLen hlt)

/-- **Constrained requests commit legal tokens.**  The mask of a batch is built without an
exception and leaves every grammar as it was; and what a request with a grammar commits, its
grammar takes token by token up to the one that ends it.  Greedy verification needs a row that
leaves a choice. -/
theorem committed_legal (w : VerifyStep S V K) :
    ∃ mask, w.vocabMask = some (w.reqs, mask) ∧
      ∀ b g, w.reqs[b]? = some (some g) → ∀ acceptLen bonus,
        (w.GreedyOutcome mask b acceptLen bonus ∧ w.LeavesChoice b g) ∨
          w.SampledOutcome mask b acceptLen bonus →
        (acceptGrammarTokens g (w.committed b acceptLen bonus)).aborted = false := by
  obtain ⟨mask, hrun, -, hrows⟩ := @generateTokenBitmask_chains _ V _ w.pos
    w.draftTokens 0 w.reqs none fun _ _ => rfl
  refine ⟨mask, hrun, fun b g hg acceptLen bonus hout => ?_⟩
  have hrow : ∀ i < w.numDraftTokens, rowAt mask (b * w.numDraftTokens + i) =
      chainRow V g (w.draftTokens b) fullRow i := by
    intro i hi
    simpa only [Nat.zero_add, reqRow] using hrows b (some g) hg i hi
  have hallowed : w.Allowed mask b acceptLen bonus := by
    rcases hout with ⟨hgreedy, hchoice⟩ | hsampled
    · exact hgreedy.allowed hchoice hrow
    · exact hsampled.allowed
  rw [w.committed_eq hallowed.lt]
  by_cases hterm : g.isTerminated = true
  · exact acceptGrammarTokens_of_terminated hterm _
  · have hlegal := @acceptGrammarTokens_chain _ V g (w.draftTokens b) acceptLen 0 bonus _ rfl
      (by simpa using hterm)
    simp only [Nat.zero_add] at hlegal
    refine hlegal (fun j hj => ?_) ?_
    · rw [← hrow j (hj.trans hallowed.lt)]
      exact hallowed.drafts j hj
    · rw [← hrow acceptLen hallowed.lt]
      exact hallowed.bonus

/-- A grammar over two tokens that takes `1` twice and then has ended. -/
def twoOnes : GrammarObject ℕ where
  matcher := ⟨fun n token => if token = 1 then some (n + 1) else none, fun n => n == 2⟩
  state := 0
  history := []
  acceptedTokens := []

/-- A step that drafts `1` behind the last token `0`, next to a request without a grammar. -/
def twoOnesStep : VerifyStep ℕ 2 ℚ where
  reqs := [none, some twoOnes]
  numDraftTokens := 2
  draftTokens _ i := i
  logits _ _ := 0
  prefixLens _ := 0
  pos := Nat.two_pos

theorem committed_legal_twoOnes :
    (acceptGrammarTokens twoOnes (twoOnesStep.committed 1 1 1)).aborted = false := by
  obtain ⟨mask, hmask, hlegal⟩ := committed_legal twoOnesStep
  refine hlegal 1 twoOnes rfl 1 1 (.inl ⟨?_, fun i hi h hstate _ => ?_⟩)
  · obtain rfl := congrArg Prod.snd (Option.some.inj hmask)
    decide +kernel
  · -- the grammar takes `1` at both positions
    have hi : i < 2 := hi
    interval_cases i
    · cases hstate
      exact ⟨1, rfl, WithBot.coe_ne_bot⟩
    · cases hstate
      exact ⟨1, rfl, WithBot.coe_ne_bot⟩

/-- A grammar that takes no token and has not ended. -/
def deadEnd : GrammarObject Unit where
  matcher := ⟨fun _ _ => none, fun _ => false⟩
  state := ()
  history := []
  acceptedTokens := []

def deadEndStep : VerifyStep Unit 2 ℚ where
  reqs := [some deadEnd]
  numDraftTokens := 1
  draftTokens _ _ := 0
  logits _ _ := 0
  prefixLens _ := 0
  pos := by decide

/-- Greedy verification commits an illegal token where the grammar allows none. -/
theorem deadEnd_aborted :
    ∃ mask, deadEndStep.vocabMask = some ([some deadEnd], mask) ∧
      deadEndStep.GreedyOutcome mask 0 0 0 ∧
      (acceptGrammarTokens deadEnd (deadEndStep.committed 0 0 0)).aborted = true := by
  refine ⟨_, rfl, ?_, rfl⟩
  decide +kernel

end Greedy

end VerifyStep

end LatentSpec
