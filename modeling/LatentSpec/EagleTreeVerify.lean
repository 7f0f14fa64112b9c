import Mathlib.Order.Interval.Finset.Nat
import Mathlib.Tactic.IntervalCases
import LatentSpec.EagleTreeBuild

/-! # Verifying the tree of an EAGLE draft

`verify_tree_greedy_kernel_triton`.  One program walks down the tree of one request: at every
level it goes along the children of the node it is at, until the token of one is what the target
predicts there.  It stores the prediction, and the index of the child, and in the end the
prediction at the last node.

`program_verified` says that the walk is `descend`: the longest path from the root on which every
token is the prediction at its parent.
-/
namespace LatentSpec.EagleTree
open SiblingLists TiledStores

/-- The tensors that the kernel reads, a row for each request, and its constants. -/
structure VerifyArgs where
  candidates : ℕ → ℕ → ℤ
  retrieveIndex : ℕ → ℕ → ℤ
  retrieveNextToken : ℕ → ℕ → ℤ
  retrieveNextSibling : ℕ → ℕ → ℤ
  targetPredict : ℕ → ℕ → ℤ
  numSpeculativeTokens : ℕ
  numDraftTokens : ℕ

/-- The tensors that the kernel writes. -/
structure VerifyMemory where
  predicts : ℤ → ℤ
  acceptIndex : ℕ → ℕ → ℤ
  acceptTokenNum : ℕ → ℕ

/-- The tokens that a request is served: the predictions at the nodes that were accepted. -/
def VerifyMemory.emitted (m : VerifyMemory) (b : ℕ) : List ℤ :=
  (List.range (m.acceptTokenNum b + 1)).map fun k => m.predicts (m.acceptIndex b k)

namespace VerifyArgs
variable (a : VerifyArgs) (bx : ℕ)

/-- The load of `target_predict` at a global index. -/
def targetAt (idx : ℤ) : ℤ :=
  a.targetPredict (idx / a.numDraftTokens).toNat (idx % a.numDraftTokens).toNat

/-- The variables of the walk. -/
structure WalkVars where
  mem : VerifyMemory
  curIndex : ℤ
  numAcceptTokens : ℕ
  lastAcceptRetrieveIdx : ℤ

/-- The variables of the loop over the siblings. -/
structure SiblingVars extends WalkVars where
  foundMatch : ℤ

/-- One turn of that loop; the stores and loads are masked. -/
def siblingBody (targetToken : ℤ) (v : SiblingVars) : SiblingVars :=
  if v.foundMatch = 0 then
    let isValid := decide (v.curIndex ≠ -1)
    let safeCurIndex := if isValid then v.curIndex else 0
    let draftIndex := a.retrieveIndex bx safeCurIndex.toNat
    let draftToken := a.candidates bx safeCurIndex.toNat
    let tokenMatch := isValid && decide (draftToken = targetToken)
    { mem :=
        if tokenMatch then
          { v.mem with
            predicts := Function.update v.mem.predicts v.lastAcceptRetrieveIdx targetToken
            acceptIndex := storeRow v.mem.acceptIndex bx (v.numAcceptTokens + 1) draftIndex }
        else v.mem
      curIndex :=
        if !tokenMatch && isValid then a.retrieveNextSibling bx safeCurIndex.toNat
        else v.curIndex
      numAcceptTokens := v.numAcceptTokens + tokenMatch.toNat
      lastAcceptRetrieveIdx := if tokenMatch then draftIndex else v.lastAcceptRetrieveIdx
      foundMatch := (if tokenMatch then 1 else 0) + (if isValid then 0 else -1) }
  else v

/-- The variables of the loop over the levels. -/
structure LevelVars extends WalkVars where
  shouldContinue : Bool

/-- One turn of that loop. -/
def levelBody (v : LevelVars) : LevelVars :=
  if v.shouldContinue then
    let curIndex := a.retrieveNextToken bx v.curIndex.toNat
    let targetToken := a.targetAt v.lastAcceptRetrieveIdx
    let w := (a.siblingBody bx targetToken)^[a.numDraftTokens]
      ⟨{ v.toWalkVars with curIndex }, 0⟩
    ⟨w.toWalkVars, decide (w.foundMatch = 1)⟩
  else v

/-- `verify_tree_greedy_kernel_triton`, for one request. -/
def program (m : VerifyMemory) : VerifyMemory :=
  let root := a.retrieveIndex bx 0
  let m := { m with acceptIndex := storeRow m.acceptIndex bx 0 root }
  let v := (a.levelBody bx)^[a.numSpeculativeTokens - 1] ⟨⟨m, 0, 0, root⟩, true⟩
  { v.mem with
    acceptTokenNum := Function.update v.mem.acceptTokenNum bx v.numAcceptTokens
    predicts := Function.update v.mem.predicts v.lastAcceptRetrieveIdx
      (a.targetAt v.lastAcceptRetrieveIdx) }

/-- `verify_tree_greedy_triton`: one program per request. -/
def launch (bs : ℕ) (m : VerifyMemory) : VerifyMemory :=
  (List.range bs).foldl (fun m bx => a.program bx m) m

/-! ### The tree that is walked -/

/-- The global index of a node. -/
def globalIdx (node : ℕ) : ℤ := ((bx * a.numDraftTokens + node : ℕ) : ℤ)

/-- The links of a request hold the children of every node. -/
structure Holds (kids : ℕ → List ℕ) : Prop where
  index : ∀ v < a.numDraftTokens, a.retrieveIndex bx v = a.globalIdx bx v
  chain : ∀ v < a.numDraftTokens,
    SiblingLists.Chain (a.retrieveNextSibling bx) (a.retrieveNextToken bx v) (kids v)
  kids_mem : ∀ v, ∀ c ∈ kids v, v < c ∧ c < a.numDraftTokens
  kids_sorted : ∀ v, (kids v).Pairwise (· < ·)

/-- The token of a child is what the target predicts at its parent. -/
def matchesAt (v c : ℕ) : Bool := decide (a.candidates bx c = a.targetPredict bx v)

/-- The path that is accepted, without the root. -/
def acceptedPath (kids : ℕ → List ℕ) : List ℕ :=
  descend kids (a.matchesAt bx) (a.numSpeculativeTokens - 1) 0

variable {a bx}

theorem targetAt_globalIdx {v : ℕ} (hv : v < a.numDraftTokens) :
    a.targetAt (a.globalIdx bx v) = a.targetPredict bx v := by
  unfold targetAt globalIdx
  rw [← Int.natCast_ediv, ← Int.natCast_emod, Int.toNat_natCast, Int.toNat_natCast, block_div hv,
    block_mod hv]

theorem globalIdx_inj {v w : ℕ} : a.globalIdx bx v = a.globalIdx bx w ↔ v = w := by
  unfold globalIdx
  omega

/-! ### The loop over the siblings -/

theorem siblingBody_done {targetToken : ℤ} {v : SiblingVars} (h : v.foundMatch ≠ 0) :
    a.siblingBody bx targetToken v = v := if_neg h

/-- The end of the list. -/
theorem siblingBody_end {targetToken : ℤ} {v : SiblingVars} (h : v.foundMatch = 0)
    (hcur : v.curIndex = -1) :
    a.siblingBody bx targetToken v = { v with foundMatch := -1 } := by
  unfold siblingBody
  rw [if_pos h, hcur]
  simp [← hcur]

/-- A child whose token is another one. -/
theorem siblingBody_skip {targetToken : ℤ} {v : SiblingVars} {c : ℕ} (h : v.foundMatch = 0)
    (hcur : v.curIndex = c) (hne : a.candidates bx c ≠ targetToken) :
    a.siblingBody bx targetToken v = { v with curIndex := a.retrieveNextSibling bx c } := by
  unfold siblingBody
  rw [if_pos h]
  simp [hcur, hne, h]

/-- The child that matches. -/
theorem siblingBody_match {targetToken : ℤ} {v : SiblingVars} {c : ℕ} (h : v.foundMatch = 0)
    (hcur : v.curIndex = c) (heq : a.candidates bx c = targetToken) :
    a.siblingBody bx targetToken v =
      ⟨⟨{ v.mem with
            predicts := Function.update v.mem.predicts v.lastAcceptRetrieveIdx targetToken
            acceptIndex := storeRow v.mem.acceptIndex bx (v.numAcceptTokens + 1)
              (a.retrieveIndex bx c) },
          c, v.numAcceptTokens + 1, a.retrieveIndex bx c⟩, 1⟩ := by
  unfold siblingBody
  rw [if_pos h]
  simp [hcur, heq]

/-- The memory when child `c` of node `v` was accepted. -/
def storeNode (a : VerifyArgs) (bx : ℕ) (mem : VerifyMemory) (num v c : ℕ) : VerifyMemory :=
  { mem with
    predicts := Function.update mem.predicts (a.globalIdx bx v) (a.targetPredict bx v)
    acceptIndex := storeRow mem.acceptIndex bx (num + 1) (a.globalIdx bx c) }

variable (a bx) in
/-- **The loop over the siblings, with a match.** -/
theorem siblings_some {targetToken : ℤ} {test : ℕ → Bool}
    (htest : ∀ x, test x = decide (a.candidates bx x = targetToken)) {xs : List ℕ} {c fuel : ℕ}
    (v : SiblingVars) (h : v.foundMatch = 0)
    (hchain : SiblingLists.Chain (a.retrieveNextSibling bx) v.curIndex xs)
    (hfind : xs.find? test = some c)
    (hfuel : xs.length ≤ fuel) :
    (a.siblingBody bx targetToken)^[fuel] v =
      ⟨⟨{ v.mem with
            predicts := Function.update v.mem.predicts v.lastAcceptRetrieveIdx targetToken
            acceptIndex := storeRow v.mem.acceptIndex bx (v.numAcceptTokens + 1)
              (a.retrieveIndex bx c) },
          c, v.numAcceptTokens + 1, a.retrieveIndex bx c⟩, 1⟩ := by
  induction xs generalizing v fuel with
  | nil => cases hfind
  | cons x xs ih =>
    obtain ⟨f, rfl⟩ : ∃ f, fuel = f + 1 := ⟨fuel - 1, by rw [List.length_cons] at hfuel; omega⟩
    obtain ⟨hcur, hrest⟩ := hchain
    rw [Function.iterate_succ_apply]
    by_cases heq : a.candidates bx x = targetToken
    · have hpass : test x = true := (htest x).trans (decide_eq_true heq)
      rw [List.find?_cons_of_pos hpass] at hfind
      obtain rfl := Option.some.inj hfind
      rw [siblingBody_match h hcur heq]
      exact Function.iterate_fixed (siblingBody_done one_ne_zero) f
    · have hfail : ¬ test x = true := by
        rw [htest x, decide_eq_true_eq]
        exact heq
      rw [List.find?_cons_of_neg hfail] at hfind
      rw [siblingBody_skip h hcur heq]
      exact ih { v with curIndex := a.retrieveNextSibling bx x } h hrest hfind
        (Nat.le_of_succ_le_succ hfuel)

variable (a bx) in
/-- **The loop over the siblings, without one.** -/
theorem siblings_none {targetToken : ℤ} {test : ℕ → Bool}
    (htest : ∀ x, test x = decide (a.candidates bx x = targetToken)) {xs : List ℕ} {fuel : ℕ}
    (v : SiblingVars) (h : v.foundMatch = 0)
    (hchain : SiblingLists.Chain (a.retrieveNextSibling bx) v.curIndex xs)
    (hfind : xs.find? test = none)
    (hfuel : xs.length < fuel) :
    (a.siblingBody bx targetToken)^[fuel] v = { v with curIndex := -1, foundMatch := -1 } := by
  induction xs generalizing v fuel with
  | nil =>
    obtain ⟨f, rfl⟩ : ∃ f, fuel = f + 1 := ⟨fuel - 1, by rw [List.length_nil] at hfuel; omega⟩
    have hcur : v.curIndex = -1 := hchain
    rw [Function.iterate_succ_apply, siblingBody_end h hcur]
    rw [Function.iterate_fixed (siblingBody_done (by decide : (-1 : ℤ) ≠ 0)) f, ← hcur]
  | cons x xs ih =>
    obtain ⟨f, rfl⟩ : ∃ f, fuel = f + 1 := ⟨fuel - 1, by omega⟩
    obtain ⟨hcur, hrest⟩ := hchain
    have hfail : ¬ test x = true := List.find?_eq_none.mp hfind x List.mem_cons_self
    have hne : a.candidates bx x ≠ targetToken := by
      rwa [htest x, decide_eq_true_eq] at hfail
    rw [List.find?_cons_of_neg hfail] at hfind
    rw [Function.iterate_succ_apply, siblingBody_skip h hcur hne]
    exact ih { v with curIndex := a.retrieveNextSibling bx x } h hrest hfind
      (Nat.lt_of_succ_lt_succ hfuel)

/-! ### The loop over the levels -/

variable {kids : ℕ → List ℕ}

theorem Holds.length_kids (h : a.Holds bx kids) {v : ℕ} (hv : v < a.numDraftTokens) :
    (kids v).length < a.numDraftTokens := by
  have hnodup : (kids v).Nodup := (h.kids_sorted v).imp fun hlt => hlt.ne
  have hsub : (kids v).toFinset ⊆ Finset.Ioo v a.numDraftTokens := by
    intro c hc
    exact Finset.mem_Ioo.mpr (h.kids_mem v c (List.mem_toFinset.mp hc))
  have hcard := Finset.card_le_card hsub
  rw [List.toFinset_card_of_nodup hnodup, Nat.card_Ioo] at hcard
  omega

/-- The walk at a node. -/
def atNode (a : VerifyArgs) (bx : ℕ) (mem : VerifyMemory) (num v : ℕ) : WalkVars :=
  ⟨mem, v, num, a.globalIdx bx v⟩

theorem levelBody_some (h : a.Holds bx kids) {v c num : ℕ} {mem : VerifyMemory}
    (hv : v < a.numDraftTokens) (hfind : (kids v).find? (a.matchesAt bx v) = some c) :
    a.levelBody bx ⟨a.atNode bx mem num v, true⟩ =
      ⟨a.atNode bx (a.storeNode bx mem num v c) (num + 1) c, true⟩ := by
  have hc := (h.kids_mem v c (List.mem_of_find?_eq_some hfind)).2
  have hloop := a.siblings_some bx (fun _ => rfl)
    ⟨⟨mem, a.retrieveNextToken bx v, num, a.globalIdx bx v⟩, 0⟩ rfl (h.chain v hv) hfind
    (h.length_kids hv).le
  rw [h.index c hc] at hloop
  unfold levelBody
  rw [if_pos rfl]
  dsimp only [atNode]
  rw [Int.toNat_natCast, targetAt_globalIdx hv, hloop]
  rfl

theorem levelBody_none (h : a.Holds bx kids) {v num : ℕ} {mem : VerifyMemory}
    (hv : v < a.numDraftTokens) (hfind : (kids v).find? (a.matchesAt bx v) = none) :
    a.levelBody bx ⟨a.atNode bx mem num v, true⟩ =
      ⟨{ a.atNode bx mem num v with curIndex := -1 }, false⟩ := by
  have hloop := a.siblings_none bx (fun _ => rfl)
    ⟨⟨mem, a.retrieveNextToken bx v, num, a.globalIdx bx v⟩, 0⟩ rfl (h.chain v hv) hfind
    (h.length_kids hv)
  unfold levelBody
  rw [if_pos rfl]
  dsimp only [atNode]
  rw [Int.toNat_natCast, targetAt_globalIdx hv, hloop]
  rfl

/-- The memory when the nodes of a path behind `v` were accepted. -/
def storePath (a : VerifyArgs) (bx : ℕ) (mem : VerifyMemory) (num v : ℕ) : List ℕ → VerifyMemory
  | [] => mem
  | c :: path => storePath a bx (a.storeNode bx mem num v c) (num + 1) c path

/-- **The loop over the levels** goes down along the children that match. -/
theorem levels_descend (h : a.Holds bx kids) (fuel : ℕ) {v num : ℕ} {mem : VerifyMemory}
    (hv : v < a.numDraftTokens) :
    let path := descend kids (a.matchesAt bx) fuel v
    let w := (a.levelBody bx)^[fuel] ⟨a.atNode bx mem num v, true⟩
    w.mem = a.storePath bx mem num v path ∧ w.numAcceptTokens = num + path.length ∧
      w.lastAcceptRetrieveIdx = a.globalIdx bx (path.getLastD v) := by
  induction fuel generalizing v num mem with
  | zero => exact ⟨rfl, rfl, rfl⟩
  | succ fuel ih =>
    dsimp only
    rw [Function.iterate_succ_apply]
    cases hfind : (kids v).find? (a.matchesAt bx v) with
    | none =>
      have hstop : ∀ w : WalkVars, a.levelBody bx ⟨w, false⟩ = ⟨w, false⟩ := fun w => rfl
      rw [levelBody_none h hv hfind, Function.iterate_fixed (hstop _) fuel,
        descend_succ_of_none hfind]
      exact ⟨rfl, rfl, rfl⟩
    | some c =>
      have hc := (h.kids_mem v c (List.mem_of_find?_eq_some hfind)).2
      obtain ⟨hmem, hnum, hlast⟩ := @ih c (num + 1) (a.storeNode bx mem num v c) hc
      rw [levelBody_some h hv hfind, descend_succ_of_some hfind]
      refine ⟨hmem, hnum.trans ?_, hlast.trans ?_⟩
      · rw [List.length_cons]
        omega
      · rw [List.getLastD_cons]

/-! ### What a path stores -/

section Stores
variable (mem : VerifyMemory) (num v : ℕ) (path : List ℕ)

theorem storePath_predicts_of_notMem {x : ℤ}
    (hx : ∀ u ∈ (v :: path).dropLast, x ≠ a.globalIdx bx u) :
    (a.storePath bx mem num v path).predicts x = mem.predicts x := by
  induction path generalizing mem num v with
  | nil => rfl
  | cons c path ih =>
    rw [List.dropLast_cons_cons] at hx
    rw [storePath, ih _ _ _ fun u hu => hx u (List.mem_cons_of_mem v hu)]
    exact Function.update_of_ne (hx v List.mem_cons_self) _ _

/-- The predictions at the nodes that were left. -/
theorem storePath_predicts_of_mem {u : ℕ} (hu : u ∈ (v :: path).dropLast) :
    (a.storePath bx mem num v path).predicts (a.globalIdx bx u) = a.targetPredict bx u := by
  induction path generalizing mem num v with
  | nil => exact absurd hu List.not_mem_nil
  | cons c path ih =>
    rw [List.dropLast_cons_cons] at hu
    rw [storePath]
    by_cases hlater : u ∈ (c :: path).dropLast
    · exact ih _ _ _ hlater
    · obtain rfl : u = v := (List.mem_cons.mp hu).resolve_right hlater
      -- no later store goes to the node
      rw [storePath_predicts_of_notMem _ _ _ _ fun w hw heq => by
        obtain rfl := globalIdx_inj.mp heq
        exact hlater hw]
      exact Function.update_self _ _ _

theorem storePath_acceptIndex_of_ne {b : ℕ} (h : b ≠ bx) :
    (a.storePath bx mem num v path).acceptIndex b = mem.acceptIndex b := by
  induction path generalizing mem num v with
  | nil => rfl
  | cons c path ih =>
    rw [storePath, ih]
    exact storeRow_of_ne _ h _ _

theorem storePath_acceptIndex_of_outside {k : ℕ} (hk : k ≤ num ∨ num + path.length < k) :
    (a.storePath bx mem num v path).acceptIndex bx k = mem.acceptIndex bx k := by
  induction path generalizing mem num v with
  | nil => rfl
  | cons c path ih =>
    rw [List.length_cons] at hk
    rw [storePath, ih _ _ _ (by omega)]
    show storeRow mem.acceptIndex bx (num + 1) _ bx k = _
    rw [storeRow_self]
    exact Function.update_of_ne (by omega) _ _

/-- The indices of the nodes that were accepted. -/
theorem storePath_acceptIndex {k c : ℕ} (hk : path[k]? = some c) :
    (a.storePath bx mem num v path).acceptIndex bx (num + 1 + k) = a.globalIdx bx c := by
  induction path generalizing mem num v k with
  | nil => cases hk
  | cons d path ih =>
    rw [storePath]
    cases k with
    | zero =>
      obtain rfl : d = c := Option.some.inj hk
      rw [storePath_acceptIndex_of_outside _ _ _ _ (.inl le_rfl)]
      show storeRow mem.acceptIndex bx (num + 1) _ bx (num + 1) = _
      rw [storeRow_self]
      exact Function.update_self _ _ _
    | succ k =>
      have hrest := ih (a.storeNode bx mem num v d) (num + 1) d hk
      rwa [show num + 1 + 1 + k = num + 1 + (k + 1) by omega] at hrest

theorem storePath_acceptTokenNum :
    (a.storePath bx mem num v path).acceptTokenNum = mem.acceptTokenNum := by
  induction path generalizing mem num v with
  | nil => rfl
  | cons c path ih => exact ih _ _ _

end Stores

/-! ### One program -/

/-- **What stands in memory for a request** whose accepted path is known: the path, the root in
front, and the prediction at each of its nodes. -/
structure Verified (a : VerifyArgs) (bx : ℕ) (path : List ℕ) (m : VerifyMemory) : Prop where
  num : m.acceptTokenNum bx = path.length
  index : ∀ k v : ℕ, (0 :: path)[k]? = some v → m.acceptIndex bx k = a.globalIdx bx v
  predicts : ∀ v ∈ 0 :: path, m.predicts (a.globalIdx bx v) = a.targetPredict bx v

/-- What the program of a request leaves as it was. -/
structure Kept (a : VerifyArgs) (bx : ℕ) (path : List ℕ) (m m' : VerifyMemory) : Prop where
  num : ∀ b, b ≠ bx → m'.acceptTokenNum b = m.acceptTokenNum b
  rows : ∀ b, b ≠ bx → m'.acceptIndex b = m.acceptIndex b
  rest : ∀ k, path.length < k → m'.acceptIndex bx k = m.acceptIndex bx k
  predicts : ∀ x, (∀ v ∈ 0 :: path, x ≠ a.globalIdx bx v) → m'.predicts x = m.predicts x

theorem Verified.emitted_eq {b : ℕ} {path : List ℕ} {m : VerifyMemory} (h : Verified a b path m) :
    m.emitted b = (0 :: path).map (a.targetPredict b) := by
  refine List.ext_getElem (by simp [VerifyMemory.emitted, h.num]) fun k hk hk' => ?_
  have hlt : k < (0 :: path).length := by simpa using hk'
  have hnode : (0 :: path)[k]? = some (0 :: path)[k] := List.getElem?_eq_getElem hlt
  simp only [VerifyMemory.emitted, List.getElem_map, List.getElem_range]
  rw [h.index k _ hnode, h.predicts _ (List.getElem_mem hlt)]

theorem mem_dropLast_or_eq_getLastD {v u : ℕ} {path : List ℕ} (hu : u ∈ v :: path) :
    u ∈ (v :: path).dropLast ∨ u = path.getLastD v := by
  have hsplit := List.dropLast_append_getLast (List.cons_ne_nil v path)
  rw [← hsplit, List.mem_append, List.mem_singleton] at hu
  rcases hu with hu | hu
  · exact .inl hu
  · rw [← List.getLastD_cons (a := 0), List.getLastD_eq_getLast?, List.getLast?_eq_getLast_of_ne_nil
      (List.cons_ne_nil v path)]
    exact .inr hu

theorem getLastD_mem (v : ℕ) (path : List ℕ) : path.getLastD v ∈ v :: path := by
  cases path with
  | nil => exact List.mem_singleton_self v
  | cons c path =>
    rw [List.getLastD_eq_getLast?, List.getLast?_eq_getLast_of_ne_nil (List.cons_ne_nil c path)]
    exact List.mem_cons_of_mem v (List.getLast_mem _)

theorem acceptedPath_lt (h : a.Holds bx kids) (hn : 0 < a.numDraftTokens) :
    ∀ v ∈ 0 :: a.acceptedPath bx kids, v < a.numDraftTokens :=
  (passing_descend _ 0).mem_lt (fun v c hc => (h.kids_mem v c hc).2) hn

/-- What is in memory before the walk. -/
def storeRoot (a : VerifyArgs) (bx : ℕ) (m : VerifyMemory) : VerifyMemory :=
  { m with acceptIndex := storeRow m.acceptIndex bx 0 (a.globalIdx bx 0) }

/-- One program stores the path, how long it is, and the prediction at its end. -/
theorem program_eq (hn : 0 < a.numDraftTokens) (h : a.Holds bx kids) (m : VerifyMemory) :
    let path := a.acceptedPath bx kids
    let stored := a.storePath bx (a.storeRoot bx m) 0 0 path
    a.program bx m =
      { stored with
        acceptTokenNum := Function.update stored.acceptTokenNum bx path.length
        predicts := Function.update stored.predicts (a.globalIdx bx (path.getLastD 0))
          (a.targetPredict bx (path.getLastD 0)) } := by
  let path := a.acceptedPath bx kids
  let v := (a.levelBody bx)^[a.numSpeculativeTokens - 1]
    ⟨a.atNode bx (a.storeRoot bx m) 0 0, true⟩
  obtain ⟨hmem, hnum, hlast⟩ : v.mem = a.storePath bx (a.storeRoot bx m) 0 0 path ∧
      v.numAcceptTokens = 0 + path.length ∧
      v.lastAcceptRetrieveIdx = a.globalIdx bx (path.getLastD 0) :=
    levels_descend h (a.numSpeculativeTokens - 1) hn
  have hrun : a.program bx m = { v.mem with
      acceptTokenNum := Function.update v.mem.acceptTokenNum bx v.numAcceptTokens
      predicts := Function.update v.mem.predicts v.lastAcceptRetrieveIdx
        (a.targetAt v.lastAcceptRetrieveIdx) } := by
    unfold program
    rw [h.index 0 hn]
    rfl
  rw [hrun, hmem, hnum, hlast, targetAt_globalIdx (acceptedPath_lt h hn _ (getLastD_mem 0 path)),
    Nat.zero_add]

/-- **One program** accepts the path that `descend` finds and touches nothing else. -/
theorem program_verified (hn : 0 < a.numDraftTokens) (h : a.Holds bx kids) (m : VerifyMemory) :
    Verified a bx (a.acceptedPath bx kids) (a.program bx m) ∧
      Kept a bx (a.acceptedPath bx kids) m (a.program bx m) := by
  let path := a.acceptedPath bx kids
  let m₁ := a.storeRoot bx m
  rw [program_eq hn h m]
  refine ⟨⟨Function.update_self _ _ _, fun k v hk => ?_, fun u hu => ?_⟩,
    fun b hb => ?_, fun b hb => ?_, fun k hk => ?_, fun x hx => ?_⟩
  · show (a.storePath bx m₁ 0 0 path).acceptIndex bx k = _
    cases k with
    | zero =>
      obtain rfl : 0 = v := Option.some.inj hk
      rw [storePath_acceptIndex_of_outside _ _ _ _ (.inl le_rfl)]
      show storeRow m.acceptIndex bx 0 _ bx 0 = _
      rw [storeRow_self]
      exact Function.update_self _ _ _
    | succ k =>
      have hstored := @storePath_acceptIndex a bx m₁ 0 0 path k v hk
      rwa [show 0 + 1 + k = k + 1 by omega] at hstored
  · show Function.update _ _ _ _ = _
    by_cases heq : u = path.getLastD 0
    · rw [heq]
      exact Function.update_self _ _ _
    · rw [Function.update_of_ne fun hidx => heq (globalIdx_inj.mp hidx)]
      exact storePath_predicts_of_mem _ _ _ _ ((mem_dropLast_or_eq_getLastD hu).resolve_right heq)
  · show Function.update _ _ _ b = _
    rw [Function.update_of_ne hb, storePath_acceptTokenNum]
    rfl
  · show (a.storePath bx m₁ 0 0 path).acceptIndex b = _
    rw [storePath_acceptIndex_of_ne _ _ _ _ hb]
    exact storeRow_of_ne _ hb _ _
  · show (a.storePath bx m₁ 0 0 path).acceptIndex bx k = _
    have hk' : path.length < k := hk
    rw [storePath_acceptIndex_of_outside _ _ _ _ (.inr (by omega))]
    show storeRow m.acceptIndex bx 0 _ bx k = _
    rw [storeRow_self]
    exact Function.update_of_ne (by omega) _ _
  · show Function.update _ _ _ x = _
    rw [Function.update_of_ne (hx _ (getLastD_mem 0 path)),
      storePath_predicts_of_notMem _ _ _ _ fun u hu => hx u (List.mem_of_mem_dropLast hu)]
    rfl

theorem Verified.kept {b : ℕ} {path path' : List ℕ} {m m' : VerifyMemory}
    (hv : Verified a b path m) (hne : b ≠ bx) (hpath : ∀ v ∈ 0 :: path, v < a.numDraftTokens)
    (hpath' : ∀ v ∈ 0 :: path', v < a.numDraftTokens) (h : Kept a bx path' m m') :
    Verified a b path m' := by
  refine ⟨(h.num b hne).trans hv.num, fun k v hk => ?_, fun v hmem => ?_⟩
  · rw [h.rows b hne]
    exact hv.index k v hk
  · rw [h.predicts (a.globalIdx b v) fun w hw heq => hne (block_inj (hpath v hmem) (hpath' w hw)
      (Int.ofNat_inj.mp heq)).1]
    exact hv.predicts v hmem

/-! ### The batch -/

theorem launch_succ (a : VerifyArgs) (k : ℕ) (m : VerifyMemory) :
    a.launch (k + 1) m = a.program k (a.launch k m) := by
  unfold launch
  rw [List.range_succ, List.foldl_append]
  rfl

/-- **The kernel verifies the tree of every request.** -/
theorem launch_verified (a : VerifyArgs) (bs : ℕ) (hn : 0 < a.numDraftTokens)
    (kids : ℕ → ℕ → List ℕ)
    (h : ∀ b < bs, a.Holds b (kids b)) (m : VerifyMemory) :
    ∀ b < bs, Verified a b (a.acceptedPath b (kids b)) (a.launch bs m) ∧
      ∀ k, (a.acceptedPath b (kids b)).length < k →
        (a.launch bs m).acceptIndex b k = m.acceptIndex b k := by
  have hrun : ∀ k ≤ bs, (∀ b < k, Verified a b (a.acceptedPath b (kids b)) (a.launch k m) ∧
        ∀ i, (a.acceptedPath b (kids b)).length < i →
          (a.launch k m).acceptIndex b i = m.acceptIndex b i) ∧
      ∀ b, k ≤ b → (a.launch k m).acceptIndex b = m.acceptIndex b := by
    intro k
    induction k with
    | zero => exact fun _ => ⟨fun b hb => absurd hb (Nat.not_lt_zero b), fun _ _ => rfl⟩
    | succ k ih =>
      intro hk
      obtain ⟨hdone, hrows⟩ := ih (by omega)
      obtain ⟨hverified, hkept⟩ := program_verified hn (h k hk) (a.launch k m)
      rw [launch_succ]
      refine ⟨fun b hb => ?_, fun b hb => ?_⟩
      · rcases Nat.lt_succ_iff_lt_or_eq.mp hb with hlt | rfl
        · obtain ⟨hv, hrest⟩ := hdone b hlt
          refine ⟨hv.kept (by omega) (acceptedPath_lt (h b (by omega)) hn)
            (acceptedPath_lt (h k hk) hn) hkept, fun i hi => ?_⟩
          rw [hkept.rows b (by omega)]
          exact hrest i hi
        · refine ⟨hverified, fun i hi => ?_⟩
          rw [hkept.rest i hi, hrows b le_rfl]
      · rw [hkept.rows b (by omega)]
        exact hrows b (by omega)
  exact (hrun bs le_rfl).1

/-- Two requests: the target follows both nodes of a branch in the first, and none in the second. -/
def pairVerify : VerifyArgs where
  candidates b v := (if b = 0 then [5, 6, 7, 8] else [5, 6, 7, 9]).getD v 0
  retrieveIndex b v := ((b * 4 + v : ℕ) : ℤ)
  retrieveNextToken _ v := [1, 3, -1, -1].getD v (-1)
  retrieveNextSibling _ v := [-1, 2, -1, -1].getD v (-1)
  targetPredict b v := (if b = 0 then [6, 8, 0, 3] else [4, 0, 0, 0]).getD v 0
  numSpeculativeTokens := 3
  numDraftTokens := 4

/-- The children of the nodes of both. -/
def pairKids (_ v : ℕ) : List ℕ := [[1, 2], [3], [], []].getD v []

theorem pairVerify_holds (b : ℕ) (_ : b < 2) : pairVerify.Holds b (pairKids b) := by
  refine ⟨fun v _ => rfl, fun v hv => ?_, fun v => ?_, fun v => ?_⟩
  · have hv' : v < 4 := hv
    interval_cases v
    · exact ⟨rfl, rfl, rfl⟩
    · exact ⟨rfl, rfl⟩
    · exact rfl
    · exact rfl
  · rcases v with _ | _ | _ | _ | v
    · exact (by decide : ∀ c ∈ [1, 2], 0 < c ∧ c < 4)
    · exact (by decide : ∀ c ∈ [3], 1 < c ∧ c < 4)
    all_goals exact fun c hc => absurd hc List.not_mem_nil
  · rcases v with _ | _ | _ | _ | v
    · exact (by decide : [1, 2].Pairwise (· < ·))
    · exact List.pairwise_singleton _ 3
    all_goals exact List.Pairwise.nil

/-- Tensors before the kernel. -/
def clearedVerify : VerifyMemory where
  predicts _ := 0
  acceptIndex _ _ := -1
  acceptTokenNum _ := 0

theorem launch_verified_pair :
    pairVerify.acceptedPath 0 (pairKids 0) = [1, 3] ∧ pairVerify.acceptedPath 1 (pairKids 1) = [] ∧
      ∀ b < 2, Verified pairVerify b (pairVerify.acceptedPath b (pairKids b))
          (pairVerify.launch 2 clearedVerify) ∧
        ∀ k, (pairVerify.acceptedPath b (pairKids b)).length < k →
          (pairVerify.launch 2 clearedVerify).acceptIndex b k = -1 :=
  ⟨rfl, rfl, launch_verified pairVerify 2 (Nat.succ_pos 3) pairKids pairVerify_holds clearedVerify⟩

end VerifyArgs

end LatentSpec.EagleTree
