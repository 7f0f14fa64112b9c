import Mathlib.Algebra.Field.Rat
import Mathlib.Data.List.GetD
import Mathlib.Data.List.Sort
import LatentSpec.LargestEntries

/-! # The tree an EAGLE draft grows

Every step of the draft loop scores `topk` children for each of `topk` slots, keeps the best `topk`
of them as the next slots, and puts all of them into one pool; `organize_draft_results` takes the
best `num_draft_token - 1` of the pool.  Tensors are functions of the row, with a list for a row
that is concatenated or gathered from; `b` rows of requests stand for `b * topk` rows of slots.

`pathProb` is what a candidate scores: the product of the probabilities on its path.  It never
grows along a path, so a chosen candidate without its parent ties with it, and the choice of
`torch.topk` among the ties can take the child and leave the parent (`draftTree_closed_iff`).
-/
namespace LatentSpec.EagleDraft
open LargestEntries

variable {K H : Type}

/-! ### `select_top_k_tokens` -/

/-- `tree_info` -/
structure TreeInfo (K : Type) where
  scores : ℕ → List (List K)
  tokens : ℕ → List ℤ
  parents : ℕ → List ℤ

/-- What `select_top_k_tokens` returns. -/
structure Selected (K H : Type) where
  inputIds : ℕ → ℤ
  hiddenStates : Option (ℕ → H)
  scores : ℕ → List K
  treeInfo : TreeInfo K

/-- `_select_top_k_tokens_first` -/
def selectTopKTokensFirst (topkP : ℕ → List K) (topkIndex : ℕ → List ℤ)
    (hiddenStates : Option (ℕ → H)) (topk : ℕ) : Selected K H where
  inputIds m := (topkIndex (m / topk)).getD (m % topk) 0
  hiddenStates := hiddenStates.map fun hidden m => hidden (m / topk)
  scores := topkP
  treeInfo := {
    scores := fun r => [topkP r]
    tokens := topkIndex
    parents := fun _ => (List.range (topk + 1)).map fun k : ℕ => (k : ℤ) - 1 }

/-- `scores.unsqueeze(2) * topk_p.view(-1, topk, topk)` -/
def expandScores [Mul K] [Zero K] (topkP : ℕ → List K) (scores : ℕ → List K) (topk r : ℕ) :
    List (List K) :=
  (List.range topk).map fun j => (topkP (r * topk + j)).map fun p => (scores r).getD j 0 * p

/-- `_select_top_k_tokens_later`; `topkCsIndex` is what `fast_topk` picks. -/
def selectTopKTokensLater [Mul K] [Zero K] (i : ℕ) (topkP : ℕ → List K) (topkIndex : ℕ → List ℤ)
    (hiddenStates : Option (ℕ → H)) (scores : ℕ → List K) (topk : ℕ)
    (topkCsIndex : ℕ → List ℕ) : Selected K H :=
  let expanded := expandScores topkP scores topk
  -- `topk_index.view(-1, topk_sq)`
  let viewed r := (List.range topk).flatMap fun j => topkIndex (r * topk + j)
  { inputIds := fun m => (viewed (m / topk)).getD ((topkCsIndex (m / topk)).getD (m % topk) 0) 0
    hiddenStates := hiddenStates.map fun hidden m =>
      hidden ((topkCsIndex (m / topk)).getD (m % topk) 0 / topk + m / topk * topk)
    scores := fun r => (topkCsIndex r).map fun s => (expanded r).flatten.getD s 0
    treeInfo := {
      scores := expanded
      tokens := viewed
      parents := fun r => (topkCsIndex r).map fun s =>
        ((s + (topk * topk * (i - 1) + topk) : ℕ) : ℤ) } }

/-! ### The draft loop -/

/-- What the draft loop gets from outside: the draft input, the output of the draft model at each
step, and the indices `fast_topk` picks at each step. -/
structure DraftRun (K H : Type) where
  topk : ℕ
  firstP : ℕ → List K
  firstIndex : ℕ → List ℤ
  firstHidden : Option (ℕ → H)
  topkP : ℕ → ℕ → List K
  topkIndex : ℕ → ℕ → List ℤ
  hidden : ℕ → Option (ℕ → H)
  pick : ℕ → ℕ → List ℕ

namespace DraftRun
section Loop
variable [Mul K] [Zero K] (run : DraftRun K H)

/-- The call of `select_top_k_tokens` in step `i`. -/
def select : ℕ → Selected K H
  | 0 => selectTopKTokensFirst run.firstP run.firstIndex run.firstHidden run.topk
  | i + 1 => selectTopKTokensLater (i + 1) (run.topkP (i + 1)) (run.topkIndex (i + 1))
      (run.hidden (i + 1)) (select i).scores run.topk (run.pick (i + 1))

/-- What the loop appends to its lists. -/
def treeInfos (numSteps : ℕ) : List (TreeInfo K) :=
  (List.range numSteps).map fun i => (run.select i).treeInfo

end Loop
end DraftRun

/-! ### `organize_draft_results` -/

section Organize
variable (trees : List (TreeInfo K)) (r : ℕ)

/-- `torch.cat(score_list, dim=1).flatten(1)` -/
def scoreList : List K := (trees.map fun t => t.scores r).flatten.flatten

/-- `torch.cat(token_list, dim=1)` -/
def ssTokenList : List ℤ := (trees.map fun t => t.tokens r).flatten

/-- The returned `parent_list`. -/
def parentList : List ℤ :=
  if 1 < trees.length then (trees.dropLast.map fun t => t.parents r).flatten else []

/-- `organize_draft_results` for one row, with the indices `torch.topk` picks. -/
def organizeDraftResults (topScores : List ℕ) : List ℤ × List ℕ × List ℤ :=
  let topScoresIndex := topScores.insertionSort (· ≤ ·)
  let draftTokens := topScoresIndex.map fun s => (ssTokenList trees r).getD s 0
  (parentList trees r, topScoresIndex, draftTokens)

end Organize

/-! ### Candidates -/

namespace DraftRun
variable (run : DraftRun K H)

/-- The candidates of a step. -/
def width : ℕ → ℕ
  | 0 => run.topk
  | _ + 1 => run.topk * run.topk

/-- The place in the pool of candidate `m` of step `i`. -/
def flat : ℕ → ℕ → ℕ
  | 0, m => m
  | i + 1, m => run.topk + run.topk * run.topk * i + m

/-- The candidate of step `i` that slot `j` of the next step grows from. -/
def slot (r : ℕ) : ℕ → ℕ → ℕ
  | 0, j => j
  | i + 1, j => (run.pick (i + 1) r).getD j 0

/-- The product of the probabilities on the path to candidate `m` of step `i`. -/
def pathProb [Mul K] [Zero K] (r : ℕ) : ℕ → ℕ → K
  | 0, k => (run.firstP r).getD k 0
  | i + 1, m => pathProb r i (run.slot r i (m / run.topk)) *
      (run.topkP (i + 1) (r * run.topk + m / run.topk)).getD (m % run.topk) 0

def poolSize (numSteps : ℕ) : ℕ := run.topk + run.topk * run.topk * (numSteps - 1)

/-- Shapes and ranges of a run of `numSteps` steps for `bs` requests. -/
structure Valid [Mul K] [Zero K] [One K] [LinearOrder K] (run : DraftRun K H) (bs numSteps : ℕ) :
    Prop where
  topk_pos : 0 < run.topk
  steps_pos : 0 < numSteps
  firstP_length : ∀ r < bs, (run.firstP r).length = run.topk
  firstIndex_length : ∀ r < bs, (run.firstIndex r).length = run.topk
  topkP_length : ∀ i m, m < bs * run.topk → (run.topkP i m).length = run.topk
  topkIndex_length : ∀ i m, m < bs * run.topk → (run.topkIndex i m).length = run.topk
  firstP_mem : ∀ r < bs, ∀ p ∈ run.firstP r, 0 ≤ p ∧ p ≤ 1
  topkP_mem : ∀ i m, m < bs * run.topk → ∀ p ∈ run.topkP i m, 0 ≤ p ∧ p ≤ 1
  pick : ∀ i, 0 < i → i < numSteps → ∀ r < bs,
    IsTopK (fun s => ((run.select i).treeInfo.scores r).flatten.getD s 0)
      (Finset.range (run.topk * run.topk)) run.topk (run.pick i r)

/-! ### Where the lists of the loop keep a candidate -/

theorem getElem?_flatten_range {α : Type} (f : ℕ → List α) {n i x : ℕ} (hi : i < n)
    (hx : x < (f i).length) :
    ((List.range n).map f).flatten[((List.range i).map fun l => (f l).length).sum + x]? =
      (f i)[x]? := by
  obtain ⟨d, rfl⟩ : ∃ d, n = i + 1 + d := ⟨n - (i + 1), by omega⟩
  have hlen : ((List.range i).map f).flatten.length =
      ((List.range i).map fun l => (f l).length).sum := by
    rw [List.length_flatten, List.map_map]
    rfl
  rw [List.range_add, List.range_succ, List.map_append, List.map_append, List.flatten_append,
    List.flatten_append, List.append_assoc, ← hlen,
    List.getElem?_append_right (Nat.le_add_right _ x),
    Nat.add_sub_cancel_left, List.map_singleton, List.flatten_singleton,
    List.getElem?_append_left hx]

theorem sum_map_const {f : ℕ → ℕ} {n w : ℕ} (h : ∀ i < n, f i = w) :
    ((List.range n).map f).sum = n * w := by
  induction n with
  | zero => rw [Nat.zero_mul]; rfl
  | succ n ih =>
    rw [List.range_succ, List.map_append, List.sum_append, ih fun i hi => h i (by omega),
      List.map_singleton, List.sum_singleton, h n (Nat.lt_succ_self n), Nat.succ_mul]

/-- A row of `n` blocks of `w` entries. -/
theorem getElem?_flatten_blocks {α : Type} {f : ℕ → List α} {n w m : ℕ}
    (hlen : ∀ j < n, (f j).length = w) (hm : m < n * w) :
    ((List.range n).map f).flatten[m]? = (f (m / w))[m % w]? := by
  have hw : 0 < w := by
    rcases Nat.eq_zero_or_pos w with rfl | h
    · exact absurd hm (by omega)
    · exact h
  have hdiv : m / w < n := (Nat.div_lt_iff_lt_mul hw).mpr hm
  have hmod : m % w < (f (m / w)).length := by
    rw [hlen _ hdiv]
    exact Nat.mod_lt m hw
  have hsum := sum_map_const (w := w) (n := m / w) fun j hj => hlen j (hj.trans hdiv)
  have hget := getElem?_flatten_range f hdiv hmod
  rw [hsum, Nat.mul_comm, Nat.div_add_mod] at hget
  exact hget

theorem sum_width (run : DraftRun K H) (i m : ℕ) :
    ((List.range i).map run.width).sum + m = run.flat i m := by
  cases i with
  | zero => exact Nat.zero_add m
  | succ i =>
    have hsum : ((List.range (i + 1)).map run.width).sum = run.topk + run.topk * run.topk * i := by
      induction i with
      | zero => rfl
      | succ i ih =>
        rw [List.range_succ, List.map_append, List.sum_append, ih, List.map_singleton,
          List.sum_singleton, Nat.mul_succ, Nat.add_assoc]
        rfl
    rw [hsum]
    rfl

/-! ### The rows of slots -/

section Rows
variable {topk bs r j : ℕ}

theorem row_lt (hr : r < bs) (hj : j < topk) : r * topk + j < bs * topk := by
  have hle : (r + 1) * topk ≤ bs * topk := Nat.mul_le_mul_right topk hr
  rw [Nat.succ_mul] at hle
  omega

theorem div_row (hj : j < topk) : (r * topk + j) / topk = r := by
  rw [Nat.mul_comm, Nat.mul_add_div (Nat.zero_lt_of_lt hj), Nat.div_eq_of_lt hj, Nat.add_zero]

theorem mod_row (hj : j < topk) : (r * topk + j) % topk = j := by
  rw [Nat.mul_comm, Nat.mul_add_mod, Nat.mod_eq_of_lt hj]

end Rows

/-! ### What a step computes -/

section Facts
variable [Mul K] [Zero K] [One K] [LinearOrder K] {run} {bs numSteps r i : ℕ}

theorem length_pick (h : run.Valid bs numSteps) (hr : r < bs) (hi : i + 1 < numSteps) :
    (run.pick (i + 1) r).length = run.topk := (h.pick (i + 1) (Nat.succ_pos i) hi r hr).length

omit [Mul K] [Zero K] [One K] [LinearOrder K] in
theorem slot_succ (run : DraftRun K H) (r i j : ℕ) :
    run.slot r (i + 1) j = (run.pick (i + 1) r).getD j 0 := rfl

omit [One K] [LinearOrder K] in
theorem pathProb_succ (run : DraftRun K H) (r i m : ℕ) :
    run.pathProb r (i + 1) m = run.pathProb r i (run.slot r i (m / run.topk)) *
      (run.topkP (i + 1) (r * run.topk + m / run.topk)).getD (m % run.topk) 0 := rfl

/-- A slot grows from a candidate of its step. -/
theorem slot_lt (h : run.Valid bs numSteps) (hr : r < bs) (hi : i < numSteps) {j : ℕ}
    (hj : j < run.topk) : run.slot r i j < run.width i := by
  cases i with
  | zero => exact hj
  | succ i =>
    have hlen : j < (run.pick (i + 1) r).length := by rwa [length_pick h hr hi]
    have hmem := (h.pick (i + 1) (Nat.succ_pos i) hi r hr).mem _ (List.getElem_mem hlen)
    rw [slot_succ, List.getD_eq_getElem _ 0 hlen]
    exact Finset.mem_range.mp hmem

theorem length_scores (h : run.Valid bs numSteps) (hr : r < bs) :
    ((run.select i).treeInfo.scores r).flatten.length = run.width i := by
  cases i with
  | zero =>
    show ([run.firstP r] : List (List K)).flatten.length = run.topk
    rw [List.flatten_singleton, h.firstP_length r hr]
  | succ i =>
    show (expandScores (run.topkP (i + 1)) (run.select i).scores run.topk r).flatten.length = _
    unfold expandScores
    rw [List.length_flatten, List.map_map]
    apply sum_map_const
    intro j hj
    show (List.map _ (run.topkP (i + 1) (r * run.topk + j))).length = _
    rw [List.length_map, h.topkP_length _ _ (row_lt hr hj)]

/-- A slot carries the score of the candidate it grows from. -/
theorem scores_slot (h : run.Valid bs numSteps) (hr : r < bs) (hi : i < numSteps)
    (hscores : ∀ m < run.width i,
      ((run.select i).treeInfo.scores r).flatten[m]? = some (run.pathProb r i m)) {j : ℕ}
    (hj : j < run.topk) :
    ((run.select i).scores r).getD j 0 = run.pathProb r i (run.slot r i j) := by
  cases i with
  | zero => rfl
  | succ i =>
    have hlen : j < (run.pick (i + 1) r).length := by rwa [length_pick h hr hi]
    have hslot := hscores _ (slot_lt h hr hi hj)
    have hpick : run.slot r (i + 1) j = (run.pick (i + 1) r)[j] :=
      List.getD_eq_getElem _ 0 hlen
    rw [hpick] at hslot ⊢
    show (List.map _ (run.pick (i + 1) r)).getD j 0 = _
    rw [List.getD_eq_getElem?_getD, List.getElem?_map, List.getElem?_eq_getElem hlen,
      Option.map_some, Option.getD_some, List.getD_eq_getElem?_getD]
    exact congrArg (fun o => Option.getD o 0) hslot

/-- **The scores of a step are the path probabilities of its candidates.** -/
theorem getElem?_scores (h : run.Valid bs numSteps) (hr : r < bs) (hi : i < numSteps) :
    ∀ m < run.width i,
      ((run.select i).treeInfo.scores r).flatten[m]? = some (run.pathProb r i m) := by
  induction i with
  | zero =>
    intro m hm
    have hlen : m < (run.firstP r).length := by rwa [h.firstP_length r hr]
    show ([run.firstP r] : List (List K)).flatten[m]? = some ((run.firstP r).getD m 0)
    rw [List.flatten_singleton, List.getD_eq_getElem _ 0 hlen, List.getElem?_eq_getElem hlen]
  | succ i ih =>
    intro m hm
    have hdiv : m / run.topk < run.topk := (Nat.div_lt_iff_lt_mul h.topk_pos).mpr hm
    have hmod : m % run.topk < run.topk := Nat.mod_lt m h.topk_pos
    have hrow := h.topkP_length (i + 1) _ (row_lt hr hdiv)
    have hlen : ∀ j < run.topk, ((run.topkP (i + 1) (r * run.topk + j)).map fun p =>
        ((run.select i).scores r).getD j 0 * p).length = run.topk := by
      intro j hj
      rw [List.length_map, h.topkP_length _ _ (row_lt hr hj)]
    have hprev := scores_slot h hr (by omega) (ih (by omega)) hdiv
    show (expandScores (run.topkP (i + 1)) (run.select i).scores run.topk r).flatten[m]? = _
    unfold expandScores
    rw [getElem?_flatten_blocks hlen hm, List.getElem?_map,
      List.getElem?_eq_getElem (hmod.trans_eq hrow.symm), Option.map_some, hprev]
    rw [pathProb_succ, List.getD_eq_getElem _ 0 (hmod.trans_eq hrow.symm)]

theorem length_tokens (h : run.Valid bs numSteps) (hr : r < bs) :
    ((run.select i).treeInfo.tokens r).length = run.width i := by
  cases i with
  | zero => exact h.firstIndex_length r hr
  | succ i =>
    show (((List.range run.topk).map fun j =>
      run.topkIndex (i + 1) (r * run.topk + j)).flatten).length = _
    rw [List.length_flatten, List.map_map]
    apply sum_map_const
    intro j hj
    exact h.topkIndex_length _ _ (row_lt hr hj)

omit [One K] [LinearOrder K] in
/-- **The token fed in a slot** is that of the candidate the slot grows from. -/
theorem inputIds_slot (i : ℕ) {j : ℕ} (hj : j < run.topk) :
    (run.select i).inputIds (r * run.topk + j) =
      ((run.select i).treeInfo.tokens r).getD (run.slot r i j) 0 := by
  cases i with
  | zero =>
    show (run.firstIndex ((r * run.topk + j) / run.topk)).getD ((r * run.topk + j) % run.topk) 0 = _
    rw [div_row hj, mod_row hj]
    rfl
  | succ i =>
    show List.getD (List.flatMap _ _) ((run.pick (i + 1) ((r * run.topk + j) / run.topk)).getD
      ((r * run.topk + j) % run.topk) 0) 0 = _
    rw [div_row hj, mod_row hj]
    rfl

theorem length_parents (h : run.Valid bs numSteps) (hr : r < bs) (hi : i < numSteps) :
    ((run.select i).treeInfo.parents r).length = if i = 0 then run.topk + 1 else run.topk := by
  cases i with
  | zero =>
    show ((List.range (run.topk + 1)).map fun k : ℕ => (k : ℤ) - 1).length = run.topk + 1
    rw [List.length_map, List.length_range]
  | succ i =>
    show (List.map _ (run.pick (i + 1) r)).length = run.topk
    rw [List.length_map, length_pick h hr hi]

/-! ### What the pool holds -/

/-- **The pool holds each candidate at its flat index**, with its score and its token. -/
theorem getElem?_scoreList (h : run.Valid bs numSteps) (hr : r < bs) (hi : i < numSteps) {m : ℕ}
    (hm : m < run.width i) :
    (scoreList (run.treeInfos numSteps) r)[run.flat i m]? = some (run.pathProb r i m) := by
  have hlen : (fun l => ((run.select l).treeInfo.scores r).flatten.length) = run.width :=
    funext fun l => length_scores h hr
  have hget := getElem?_flatten_range (fun l => ((run.select l).treeInfo.scores r).flatten) hi
    (hm.trans_eq (length_scores h hr).symm)
  rw [hlen, sum_width, getElem?_scores h hr hi m hm] at hget
  unfold scoreList treeInfos
  rw [List.map_map, List.flatten_flatten, List.map_map]
  exact hget

theorem length_scoreList (h : run.Valid bs numSteps) (hr : r < bs) :
    (scoreList (run.treeInfos numSteps) r).length = run.poolSize numSteps := by
  obtain ⟨n, rfl⟩ : ∃ n, numSteps = n + 1 := ⟨numSteps - 1, by have := h.steps_pos; omega⟩
  have hlen : (fun l => ((run.select l).treeInfo.scores r).flatten.length) = run.width :=
    funext fun l => length_scores h hr
  unfold scoreList treeInfos
  rw [List.map_map, List.flatten_flatten, List.map_map, List.length_flatten, List.map_map]
  have hsum := sum_width run (n + 1) 0
  show ((List.range (n + 1)).map fun l => ((run.select l).treeInfo.scores r).flatten.length).sum = _
  rw [hlen]
  exact hsum

theorem getElem?_ssTokenList (h : run.Valid bs numSteps) (hr : r < bs) (hi : i < numSteps) {m : ℕ}
    (hm : m < run.width i) :
    (ssTokenList (run.treeInfos numSteps) r)[run.flat i m]? =
      ((run.select i).treeInfo.tokens r)[m]? := by
  have hlen : (fun l => ((run.select l).treeInfo.tokens r).length) = run.width :=
    funext fun l => length_tokens h hr
  have hget := getElem?_flatten_range (fun l => (run.select l).treeInfo.tokens r) hi
    (hm.trans_eq (length_tokens h hr).symm)
  rw [hlen, sum_width] at hget
  unfold ssTokenList treeInfos
  rw [List.map_map]
  exact hget

omit [Mul K] [Zero K] [One K] [LinearOrder K] in
theorem flat_div (htopk : 0 < run.topk) (i m : ℕ) :
    run.flat (i + 1) m / run.topk = 1 + run.topk * i + m / run.topk := by
  have hflat : run.flat (i + 1) m = run.topk * (1 + run.topk * i) + m := by
    show run.topk + run.topk * run.topk * i + m = _
    rw [Nat.mul_add, Nat.mul_one, Nat.mul_assoc]
  rw [hflat, Nat.mul_add_div htopk]

/-- What the slots of step `i + 1` grow from, in the parents of step `i`. -/
theorem getElem?_parents (h : run.Valid bs numSteps) (hr : r < bs) (hi : i < numSteps) {j : ℕ}
    (hj : j < run.topk) :
    ((run.select i).treeInfo.parents r)[if i = 0 then 1 + j else j]? =
      some ((run.flat i (run.slot r i j) : ℕ) : ℤ) := by
  cases i with
  | zero =>
    show ((List.range (run.topk + 1)).map fun k : ℕ => (k : ℤ) - 1)[1 + j]? = some ((j : ℕ) : ℤ)
    rw [List.getElem?_map, List.getElem?_range (by omega), Option.map_some]
    congr 1
    omega
  | succ i =>
    have hlen : j < (run.pick (i + 1) r).length := by rwa [length_pick h hr hi]
    show ((run.pick (i + 1) r).map fun s =>
      ((s + (run.topk * run.topk * (i + 1 - 1) + run.topk) : ℕ) : ℤ))[j]? = _
    rw [List.getElem?_map, List.getElem?_eq_getElem hlen, Option.map_some, slot_succ,
      List.getD_eq_getElem _ 0 hlen, Nat.add_sub_cancel]
    unfold flat
    dsimp only
    congr 2
    omega

/-- **The parent list holds, for the slots of every step but the last, what they grow from.** -/
theorem getElem?_parentList (h : run.Valid bs numSteps) (hr : r < bs) (hi : i + 1 < numSteps)
    {j : ℕ} (hj : j < run.topk) :
    (parentList (run.treeInfos numSteps) r)[1 + run.topk * i + j]? =
      some ((run.flat i (run.slot r i j) : ℕ) : ℤ) := by
  obtain ⟨n, rfl⟩ : ∃ n, numSteps = n + 1 := ⟨numSteps - 1, by omega⟩
  have hmany : 1 < (run.treeInfos (n + 1)).length := by
    unfold treeInfos
    rw [List.length_map, List.length_range]
    omega
  have hlist : parentList (run.treeInfos (n + 1)) r =
      ((List.range n).map fun l => (run.select l).treeInfo.parents r).flatten := by
    unfold parentList
    rw [if_pos hmany]
    unfold treeInfos
    rw [List.range_succ, List.map_append, List.map_singleton, List.dropLast_concat, List.map_map]
    rfl
  -- the parents of step 0 start with the root
  have hstart : ((List.range i).map fun l => ((run.select l).treeInfo.parents r).length).sum +
      (if i = 0 then 1 + j else j) = 1 + run.topk * i + j := by
    cases i with
    | zero =>
      rw [if_pos rfl, Nat.mul_zero, Nat.add_zero]
      exact Nat.zero_add (1 + j)
    | succ i =>
      have hlen : ∀ l < i, ((run.select (l + 1)).treeInfo.parents r).length = run.topk := by
        intro l hl
        rw [length_parents h hr (by omega), if_neg (Nat.succ_ne_zero l)]
      rw [List.range_succ_eq_map, List.map_cons, List.sum_cons, List.map_map,
        length_parents h hr (by omega), if_pos rfl, if_neg (Nat.succ_ne_zero i)]
      have hsum := sum_map_const hlen
      show run.topk + 1 + ((List.range i).map fun l =>
        ((run.select (l + 1)).treeInfo.parents r).length).sum + j = _
      rw [hsum, Nat.mul_succ, Nat.mul_comm i]
      omega
  have hx : (if i = 0 then 1 + j else j) < ((run.select i).treeInfo.parents r).length := by
    rw [length_parents h hr (by omega)]
    split
    · omega
    · exact hj
  have hget := getElem?_flatten_range (fun l => (run.select l).treeInfo.parents r)
    (by omega : i < n) hx
  rw [hstart, getElem?_parents h hr (by omega) hj] at hget
  rw [hlist]
  exact hget

end Facts

/-! ### Flat indices -/

/-- The step of a flat index and its place in the step. -/
def candidate (s : ℕ) : ℕ × ℕ :=
  if s < run.topk then (0, s)
  else ((s - run.topk) / (run.topk * run.topk) + 1, (s - run.topk) % (run.topk * run.topk))

/-- The path probability of a flat index. -/
def poolProb [Mul K] [Zero K] (r s : ℕ) : K :=
  run.pathProb r (run.candidate s).1 (run.candidate s).2

variable {run} {i m numSteps : ℕ}

theorem candidate_flat (hm : m < run.width i) : run.candidate (run.flat i m) = (i, m) := by
  cases i with
  | zero => exact if_pos hm
  | succ i =>
    have hm' : m < run.topk * run.topk := hm
    have hge : ¬ run.topk + run.topk * run.topk * i + m < run.topk := by omega
    have hsub :
        run.topk + run.topk * run.topk * i + m - run.topk = run.topk * run.topk * i + m := by
      omega
    unfold candidate flat
    rw [if_neg hge, hsub, Nat.mul_add_div (Nat.zero_lt_of_lt hm'),
      Nat.div_eq_of_lt hm', Nat.add_zero,
      Nat.mul_add_mod, Nat.mod_eq_of_lt hm']

theorem poolProb_flat [Mul K] [Zero K] (r : ℕ) (hm : m < run.width i) :
    run.poolProb r (run.flat i m) = run.pathProb r i m := by
  unfold poolProb
  rw [candidate_flat hm]

theorem flat_lt_poolSize (hi : i < numSteps) (hm : m < run.width i) :
    run.flat i m < run.poolSize numSteps := by
  unfold poolSize
  cases i with
  | zero => exact Nat.lt_add_right _ hm
  | succ i =>
    have hle : run.topk * run.topk * (i + 1) ≤ run.topk * run.topk * (numSteps - 1) :=
      Nat.mul_le_mul_left _ (by omega)
    have hm' : m < run.topk * run.topk := hm
    rw [Nat.mul_succ] at hle
    show run.topk + run.topk * run.topk * i + m < _
    omega

/-- Every index of the pool is that of a candidate. -/
theorem exists_flat (hsteps : 0 < numSteps) {s : ℕ} (hs : s < run.poolSize numSteps) :
    ∃ i m, i < numSteps ∧ m < run.width i ∧ s = run.flat i m := by
  by_cases hfirst : s < run.topk
  · exact ⟨0, s, hsteps, hfirst, rfl⟩
  · unfold poolSize at hs
    have hlt : s - run.topk < run.topk * run.topk * (numSteps - 1) := by omega
    have hpos : 0 < run.topk * run.topk := by
      rcases Nat.eq_zero_or_pos (run.topk * run.topk) with h0 | h0
      · rw [h0, Nat.zero_mul] at hlt
        exact absurd hlt (Nat.not_lt_zero _)
      · exact h0
    have hdiv : (s - run.topk) / (run.topk * run.topk) < numSteps - 1 :=
      (Nat.div_lt_iff_lt_mul hpos).mpr (by rwa [Nat.mul_comm])
    refine ⟨(s - run.topk) / (run.topk * run.topk) + 1, (s - run.topk) % (run.topk * run.topk),
      by omega, Nat.mod_lt _ hpos, ?_⟩
    have hsplit := Nat.div_add_mod (s - run.topk) (run.topk * run.topk)
    show s = run.topk + run.topk * run.topk * ((s - run.topk) / (run.topk * run.topk)) +
      (s - run.topk) % (run.topk * run.topk)
    omega

/-- The parent of a candidate comes before it. -/
theorem flat_slot_lt {j : ℕ} (hslot : j < run.width i) (m : ℕ) :
    run.flat i j < run.flat (i + 1) m := by
  cases i with
  | zero =>
    have hj : j < run.topk := hslot
    show j < run.topk + run.topk * run.topk * 0 + m
    omega
  | succ i =>
    have hj : j < run.topk * run.topk := hslot
    show run.topk + run.topk * run.topk * i + j < run.topk + run.topk * run.topk * (i + 1) + m
    rw [Nat.mul_succ]
    omega

/-! ### Closure -/

/-- What the products need: ordered fields have it, and so has rounding to nearest. -/
structure Shrinks (K : Type) [Mul K] [Zero K] [One K] [LinearOrder K] : Prop where
  mul_nonneg : ∀ a b : K, 0 ≤ a → 0 ≤ b → 0 ≤ a * b
  mul_le : ∀ a b : K, 0 ≤ a → 0 ≤ b → b ≤ 1 → a * b ≤ a

section Closure
variable [Mul K] [Zero K] [One K] [LinearOrder K] {bs r : ℕ}

/-- The probability of a child given its slot. -/
theorem topkP_mem (h : run.Valid bs numSteps) (hr : r < bs) (hm : m < run.topk * run.topk) :
    0 ≤ (run.topkP (i + 1) (r * run.topk + m / run.topk)).getD (m % run.topk) 0 ∧
      (run.topkP (i + 1) (r * run.topk + m / run.topk)).getD (m % run.topk) 0 ≤ 1 := by
  have hdiv : m / run.topk < run.topk := (Nat.div_lt_iff_lt_mul h.topk_pos).mpr hm
  have hrow := row_lt hr hdiv
  have hlen : m % run.topk < (run.topkP (i + 1) (r * run.topk + m / run.topk)).length := by
    rw [h.topkP_length _ _ hrow]
    exact Nat.mod_lt m h.topk_pos
  rw [List.getD_eq_getElem _ 0 hlen]
  exact h.topkP_mem _ _ hrow _ (List.getElem_mem hlen)

theorem slot_div_lt (h : run.Valid bs numSteps) (hr : r < bs) (hi : i < numSteps)
    (hm : m < run.topk * run.topk) : run.slot r i (m / run.topk) < run.width i :=
  slot_lt h hr hi ((Nat.div_lt_iff_lt_mul h.topk_pos).mpr hm)

theorem pathProb_nonneg (hK : Shrinks K) (h : run.Valid bs numSteps) (hr : r < bs)
    (hi : i < numSteps) (hm : m < run.width i) : 0 ≤ run.pathProb r i m := by
  induction i generalizing m with
  | zero =>
    have hlen : m < (run.firstP r).length := by
      rw [h.firstP_length r hr]
      exact hm
    show 0 ≤ (run.firstP r).getD m 0
    rw [List.getD_eq_getElem _ 0 hlen]
    exact (h.firstP_mem r hr _ (List.getElem_mem hlen)).1
  | succ i ih =>
    rw [pathProb_succ]
    exact hK.mul_nonneg _ _ (ih (by omega) (slot_div_lt h hr (by omega) hm)) (topkP_mem h hr hm).1

/-- **No candidate scores more than its parent.** -/
theorem pathProb_le_parent (hK : Shrinks K) (h : run.Valid bs numSteps) (hr : r < bs)
    (hi : i + 1 < numSteps) (hm : m < run.topk * run.topk) :
    run.pathProb r (i + 1) m ≤ run.pathProb r i (run.slot r i (m / run.topk)) := by
  obtain ⟨hnonneg, hle⟩ := topkP_mem (i := i) h hr hm
  rw [pathProb_succ]
  exact hK.mul_le _ _
    (pathProb_nonneg hK h hr (by omega) (slot_div_lt h hr (by omega) hm)) hnonneg hle

end Closure

/-- The parent of child `k` of slot `j` in step `i + 1`, at flat index `s`: the entry
`parent_list[s // topk]` holds the token that was fed in the slot, and the child's score is that
entry's times the probability the draft model gave it there. -/
def HasParent [Mul K] [Zero K] (run : DraftRun K H) (numSteps r i j k : ℕ) : Prop :=
  ∃ p score, (parentList (run.treeInfos numSteps) r)[
      run.flat (i + 1) (run.topk * j + k) / run.topk]? = some ((p : ℕ) : ℤ) ∧
    (ssTokenList (run.treeInfos numSteps) r)[p]? =
      some ((run.select i).inputIds (r * run.topk + j)) ∧
    (scoreList (run.treeInfos numSteps) r)[p]? = some score ∧
    (scoreList (run.treeInfos numSteps) r)[run.flat (i + 1) (run.topk * j + k)]? =
      some (score * (run.topkP (i + 1) (r * run.topk + j)).getD k 0)

/-- The chosen indices contain the parent of each one that is no child of the root. -/
def Closed [Mul K] [Zero K] (run : DraftRun K H) (numSteps r : ℕ) (topScoresIndex : List ℕ) :
    Prop :=
  ∀ s ∈ topScoresIndex, run.topk ≤ s → ∃ p ∈ topScoresIndex,
    (parentList (run.treeInfos numSteps) r)[s / run.topk]? = some ((p : ℕ) : ℤ)

/-- A candidate ties with its parent, and the cut after `n` of the pool falls inside their level. -/
def TieAtCut [Mul K] [Zero K] [LinearOrder K] (run : DraftRun K H) (numSteps r n : ℕ) : Prop :=
  ∃ i m, i + 1 < numSteps ∧ m < run.topk * run.topk ∧
    run.pathProb r i (run.slot r i (m / run.topk)) = run.pathProb r (i + 1) m ∧
    CutsLevel (run.poolProb r) (Finset.range (run.poolSize numSteps)) n (run.pathProb r (i + 1) m)

section Spec
variable [Mul K] [Zero K] [One K] [LinearOrder K] {bs r : ℕ}

theorem hasParent (h : run.Valid bs numSteps) (hr : r < bs) (hi : i + 1 < numSteps) {j k : ℕ}
    (hj : j < run.topk) (hk : k < run.topk) : run.HasParent numSteps r i j k := by
  have hdiv : (run.topk * j + k) / run.topk = j := by
    rw [Nat.mul_comm]
    exact div_row hk
  have hmod : (run.topk * j + k) % run.topk = k := by
    rw [Nat.mul_comm]
    exact mod_row hk
  have hm : run.topk * j + k < run.topk * run.topk := by
    rw [Nat.mul_comm run.topk j]
    exact row_lt hj hk
  have hslot := slot_lt h hr (by omega : i < numSteps) hj
  refine ⟨run.flat i (run.slot r i j), run.pathProb r i (run.slot r i j), ?_, ?_,
    getElem?_scoreList h hr (by omega) hslot, ?_⟩
  · rw [flat_div h.topk_pos, hdiv, getElem?_parentList h hr hi hj]
  · have hlen := hslot.trans_eq (length_tokens h hr).symm
    rw [getElem?_ssTokenList h hr (by omega) hslot, inputIds_slot i hj,
      List.getElem?_eq_getElem hlen, List.getD_eq_getElem _ 0 hlen]
  · rw [getElem?_scoreList h hr hi hm, pathProb_succ, hdiv, hmod]

/-- The pool's scores, as a function of the flat index. -/
theorem getD_scoreList (h : run.Valid bs numSteps) (hr : r < bs) {s : ℕ}
    (hs : s < run.poolSize numSteps) :
    (scoreList (run.treeInfos numSteps) r).getD s 0 = run.poolProb r s := by
  obtain ⟨i, m, hi, hm, rfl⟩ := exists_flat h.steps_pos hs
  rw [poolProb_flat r hm, List.getD_eq_getElem?_getD, getElem?_scoreList h hr hi hm]
  rfl

theorem isTopK_poolProb (h : run.Valid bs numSteps) (hr : r < bs) {n : ℕ} {chosen : List ℕ} :
    IsTopK (fun s => (scoreList (run.treeInfos numSteps) r).getD s 0)
        (Finset.range (scoreList (run.treeInfos numSteps) r).length) n chosen ↔
      IsTopK (run.poolProb r) (Finset.range (run.poolSize numSteps)) n chosen := by
  rw [length_scoreList h hr]
  constructor
  · intro hchosen
    exact hchosen.congr fun s hs => (getD_scoreList h hr (Finset.mem_range.mp hs)).symm
  · intro hchosen
    exact hchosen.congr fun s hs => getD_scoreList h hr (Finset.mem_range.mp hs)

/-- Where the parent list sends the flat index of a candidate. -/
theorem getElem?_parentList_flat (h : run.Valid bs numSteps) (hr : r < bs) (hi : i + 1 < numSteps)
    (hm : m < run.topk * run.topk) :
    (parentList (run.treeInfos numSteps) r)[run.flat (i + 1) m / run.topk]? =
      some ((run.flat i (run.slot r i (m / run.topk)) : ℕ) : ℤ) := by
  rw [flat_div h.topk_pos]
  exact getElem?_parentList h hr hi ((Nat.div_lt_iff_lt_mul h.topk_pos).mpr hm)

/-- **Without a tie at the cut every choice is closed.** -/
theorem closed_of_not_tieAtCut (hK : Shrinks K) (h : run.Valid bs numSteps) (hr : r < bs) {n : ℕ}
    (hno : ¬ run.TieAtCut numSteps r n) {chosen : List ℕ}
    (hchosen : IsTopK (run.poolProb r) (Finset.range (run.poolSize numSteps)) n chosen) :
    ∀ s ∈ chosen, run.topk ≤ s → ∃ p ∈ chosen,
      (parentList (run.treeInfos numSteps) r)[s / run.topk]? = some ((p : ℕ) : ℤ) := by
  intro s hs hge
  obtain ⟨i, m, hi, hm, rfl⟩ := exists_flat h.steps_pos (Finset.mem_range.mp (hchosen.mem s hs))
  cases i with
  | zero => exact absurd hge (Nat.not_le.mpr hm)
  | succ i =>
    have hslot := slot_div_lt h hr (by omega : i < numSteps) hm
    refine ⟨_, ?_, getElem?_parentList_flat h hr hi hm⟩
    by_contra hnot
    have hpool : run.flat i (run.slot r i (m / run.topk)) ∈ Finset.range (run.poolSize numSteps) :=
      Finset.mem_range.mpr (flat_lt_poolSize (by omega) hslot)
    have hle : run.poolProb r (run.flat (i + 1) m) ≤
        run.poolProb r (run.flat i (run.slot r i (m / run.topk))) := by
      rw [poolProb_flat r hm, poolProb_flat r hslot]
      exact pathProb_le_parent hK h hr hi hm
    obtain ⟨heq, hcut⟩ := hchosen.cutsLevel hs hpool hnot hle
    rw [poolProb_flat r hm, poolProb_flat r hslot] at heq
    rw [poolProb_flat r hm] at hcut
    exact hno ⟨i, m, hi, hm, heq, hcut⟩

/-- **With one, a choice takes a child and leaves its parent.** -/
theorem exists_orphan (h : run.Valid bs numSteps) (hr : r < bs) {n : ℕ}
    (htie : run.TieAtCut numSteps r n) :
    ∃ chosen, IsTopK (run.poolProb r) (Finset.range (run.poolSize numSteps)) n chosen ∧
      ∃ s ∈ chosen, run.topk ≤ s ∧ ∃ p, p ∉ chosen ∧
        (parentList (run.treeInfos numSteps) r)[s / run.topk]? = some ((p : ℕ) : ℤ) := by
  obtain ⟨i, m, hi, hm, heq, hcut⟩ := htie
  have hslot := slot_div_lt h hr (by omega : i < numSteps) hm
  have hchild : run.flat (i + 1) m ∈ Finset.range (run.poolSize numSteps) :=
    Finset.mem_range.mpr (flat_lt_poolSize hi hm)
  have hparent : run.flat i (run.slot r i (m / run.topk)) ∈ Finset.range (run.poolSize numSteps) :=
    Finset.mem_range.mpr (flat_lt_poolSize (by omega) hslot)
  have hne := (flat_slot_lt hslot m).ne'
  have hprob : run.poolProb r (run.flat (i + 1) m) = run.pathProb r (i + 1) m := poolProb_flat r hm
  have hsame : run.poolProb r (run.flat i (run.slot r i (m / run.topk))) =
      run.poolProb r (run.flat (i + 1) m) := by
    rw [hprob, poolProb_flat r hslot, heq]
  rw [← hprob] at hcut
  obtain ⟨chosen, hchosen, hin, hout⟩ :=
    (exists_isTopK_iff hchild hparent hne hsame.ge).mpr ⟨hsame, hcut⟩
  refine ⟨chosen, hchosen, _, hin, ?_, _, hout, getElem?_parentList_flat h hr hi hm⟩
  show run.topk ≤ run.topk + run.topk * run.topk * i + m
  omega

end Spec
end DraftRun

/-- **When the drafted tree is closed under parents.**  In every run each candidate of a later step
has as its parent the entry whose token was fed to produce it; and the indices that
`organize_draft_results` chooses contain the parents of all they contain, whatever `torch.topk`
does with ties, if and only if no candidate ties with its parent on a level that the cut after
`num_draft_token - 1` entries falls inside of. -/
theorem draftTree_closed_iff [Mul K] [Zero K] [One K] [LinearOrder K] (hK : DraftRun.Shrinks K)
    (run : DraftRun K H) {bs numSteps r : ℕ} (h : run.Valid bs numSteps) (hr : r < bs)
    (numDraftToken : ℕ) :
    ((∀ i j k, i + 1 < numSteps → j < run.topk → k < run.topk → run.HasParent numSteps r i j k) ∧
      ∀ chosen, IsTopK (fun s => (scoreList (run.treeInfos numSteps) r).getD s 0)
          (Finset.range (scoreList (run.treeInfos numSteps) r).length) (numDraftToken - 1) chosen →
        run.Closed numSteps r (organizeDraftResults (run.treeInfos numSteps) r chosen).2.1) ↔
      ¬ run.TieAtCut numSteps r (numDraftToken - 1) := by
  have hmem : ∀ {chosen : List ℕ} {s : ℕ},
      s ∈ (organizeDraftResults (run.treeInfos numSteps) r chosen).2.1 ↔ s ∈ chosen :=
    List.mem_insertionSort _
  constructor
  · rintro ⟨-, hclosed⟩ htie
    obtain ⟨chosen, hchosen, s, hs, hge, p, hout, hparent⟩ := DraftRun.exists_orphan h hr htie
    obtain ⟨p', hp', hparent'⟩ :=
      hclosed chosen ((DraftRun.isTopK_poolProb h hr).mpr hchosen) s (hmem.mpr hs) hge
    have heq : (p : ℤ) = p' := Option.some.inj (hparent.symm.trans hparent')
    rw [Nat.cast_injective heq] at hout
    exact hout (hmem.mp hp')
  · intro hno
    refine ⟨fun i j k hi hj hk => DraftRun.hasParent h hr hi hj hk,
      fun chosen hchosen s hs hge => ?_⟩
    obtain ⟨p, hp, hparent⟩ := DraftRun.closed_of_not_tieAtCut hK h hr hno
      ((DraftRun.isTopK_poolProb h hr).mp hchosen) s (hmem.mp hs) hge
    exact ⟨p, hmem.mpr hp, hparent⟩

/-- Two slots and two steps; the draft model is certain of one token of the first slot, and the
second slot has probability 0. -/
def tiedRun : DraftRun ℚ Unit where
  topk := 2
  firstP _ := [1, 0]
  firstIndex _ := [10, 11]
  firstHidden := none
  topkP _ m := if m = 0 then [1, 0] else [1 / 2, 1 / 2]
  topkIndex _ m := if m = 0 then [20, 21] else [22, 23]
  hidden _ := none
  pick _ _ := [0, 1]

theorem shrinks_rat : DraftRun.Shrinks ℚ where
  mul_nonneg _ _ := mul_nonneg
  mul_le _ _ ha _ hb := mul_le_of_le_one_right ha hb

theorem tiedRun_valid : tiedRun.Valid 1 2 where
  topk_pos := Nat.two_pos
  steps_pos := Nat.two_pos
  firstP_length _ _ := rfl
  firstIndex_length _ _ := rfl
  topkP_length i m _ := by
    show (if m = 0 then [1, 0] else [1 / 2, 1 / 2] : List ℚ).length = 2
    split <;> rfl
  topkIndex_length i m _ := by
    show (if m = 0 then [20, 21] else [22, 23] : List ℤ).length = 2
    split <;> rfl
  firstP_mem r _ := by
    show ∀ p ∈ ([1, 0] : List ℚ), 0 ≤ p ∧ p ≤ 1
    decide
  topkP_mem i m _ := by
    show ∀ p ∈ (if m = 0 then [1, 0] else [1 / 2, 1 / 2] : List ℚ), 0 ≤ p ∧ p ≤ 1
    split <;> decide +kernel
  pick i hi hlt r hr := by
    obtain rfl : i = 1 := by omega
    obtain rfl : r = 0 := by omega
    have hscores : ((tiedRun.select 1).treeInfo.scores 0).flatten = [1, 0, 0, 0] := by
      decide +kernel
    rw [hscores]
    constructor <;> decide

/-- **A child without its parent**: with one token to choose besides the root, `torch.topk` may
return the index 2, whose score is 1 like that of its parent 0. -/
theorem tiedRun_not_closed :
    tiedRun.Valid 1 2 ∧ 2 ≤ (scoreList (tiedRun.treeInfos 2) 0).length ∧
      IsTopK (fun s => (scoreList (tiedRun.treeInfos 2) 0).getD s 0)
        (Finset.range (scoreList (tiedRun.treeInfos 2) 0).length) (2 - 1) [2] ∧
      ¬ tiedRun.Closed 2 0 (organizeDraftResults (tiedRun.treeInfos 2) 0 [2]).2.1 := by
  refine ⟨tiedRun_valid, by decide, ?_, ?_⟩
  · have hscores : scoreList (tiedRun.treeInfos 2) 0 = [1, 0, 1, 0, 0, 0] := by decide +kernel
    rw [hscores]
    constructor <;> decide
  · intro hclosed
    obtain ⟨p, hp, hparent⟩ := hclosed 2 (by decide) (by decide)
    have hzero : (0 : ℤ) = (p : ℕ) := Option.some.inj hparent
    obtain rfl : p = 0 := by omega
    revert hp
    decide

theorem draftTree_closed_iff_tiedRun :
    ((∀ i j k, i + 1 < 2 → j < 2 → k < 2 → tiedRun.HasParent 2 0 i j k) ∧
      ∀ chosen, IsTopK (fun s => (scoreList (tiedRun.treeInfos 2) 0).getD s 0)
          (Finset.range (scoreList (tiedRun.treeInfos 2) 0).length) (2 - 1) chosen →
        tiedRun.Closed 2 0 (organizeDraftResults (tiedRun.treeInfos 2) 0 chosen).2.1) ↔
      ¬ tiedRun.TieAtCut 2 0 (2 - 1) :=
  draftTree_closed_iff shrinks_rat tiedRun tiedRun_valid Nat.one_pos 2

end LatentSpec.EagleDraft
