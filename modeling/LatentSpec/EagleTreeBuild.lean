import Mathlib.Algebra.Order.BigOperators.Group.List
import Mathlib.Tactic.Ring
import LatentSpec.SiblingLists
import LatentSpec.TiledStores

/-! # Building the tree of an EAGLE draft

`sgl_build_tree_kernel_efficient_triton`.  The tree is never stored: a node is a place in the
sorted list of selected indices, shifted by one for the root, and its parent is found by dividing
its index by `topk` and searching the list for what the parent list holds there.  One program
handles one request.  It links the nodes from the last to the first, and writes for every node the
row of the mask and the position.

`launch_built` says what stands in memory afterwards: lists of children, rows that mark the root
and the nodes above, and depths.  A node whose parent was not selected is in no list.
-/
namespace LatentSpec.EagleTree
open SiblingLists TiledStores

/-- The modes of `TreeMaskMode` that the kernel takes. -/
inductive TreeMaskMode
  | fullMask
  | qlenOnly
  deriving DecidableEq

/-- The tensors that the kernel reads, a row for each request, and its constants. -/
structure BuildArgs where
  parentList : ℕ → ℕ → ℤ
  selectedIndex : ℕ → ℕ → ℕ
  verifiedSeqLen : ℕ → ℕ
  topk : ℕ
  depth : ℕ
  draftTokenNum : ℕ
  treeMaskMode : TreeMaskMode

/-- The tensors that the kernel writes. -/
structure TreeMemory where
  treeMask : ℕ → Bool
  positions : ℕ → ℕ
  retrieveIndex : ℕ → ℕ → ℤ
  retrieveNextToken : ℕ → ℕ → ℤ
  retrieveNextSibling : ℕ → ℕ → ℤ

/-- A store in a tensor with a row for each request. -/
def storeRow {α : Type} (mem : ℕ → ℕ → α) (b i : ℕ) (v : α) : ℕ → ℕ → α :=
  Function.update mem b (Function.update (mem b) i v)

section
variable {α : Type} (mem : ℕ → ℕ → α)

@[simp] theorem storeRow_self (b i : ℕ) (v : α) :
    storeRow mem b i v b = Function.update (mem b) i v := Function.update_self b _ _

theorem storeRow_of_ne {b b' : ℕ} (h : b' ≠ b) (i : ℕ) (v : α) :
    storeRow mem b i v b' = mem b' := Function.update_of_ne h _ _

end

/-- The links of a request. -/
def TreeMemory.links (m : TreeMemory) (b : ℕ) : Links :=
  ⟨m.retrieveNextToken b, m.retrieveNextSibling b⟩

namespace BuildArgs
variable (a : BuildArgs) (bid : ℕ)

/-- `torch.cumsum(verified_seq_len) - verified_seq_len` -/
def seqLenPrefixSum : ℕ :=
  ((List.range (bid + 1)).map a.verifiedSeqLen).sum - a.verifiedSeqLen bid

def seqTreeIdx : ℕ :=
  a.draftTokenNum * a.draftTokenNum * bid + a.seqLenPrefixSum bid * a.draftTokenNum

/-- The search for a selected index: the first place that holds it. -/
def findSelected (tokenIdx : ℤ) : Option ℕ :=
  (List.range (a.draftTokenNum - 1)).find? fun pp =>
    decide ((a.selectedIndex bid pp : ℤ) = tokenIdx)

/-- `parent_position` of node `i`, `none` when it was not found. -/
def parentPosition (i : ℕ) : Option ℕ :=
  let parentTbIdx := a.selectedIndex bid (i - 1) / a.topk
  if parentTbIdx = 0 then some 0
  else (a.findSelected bid (a.parentList bid parentTbIdx)).map (· + 1)

/-- One turn of the loop that links the nodes. -/
def linkBody (m : TreeMemory) (i : ℕ) : TreeMemory :=
  let m := { m with
    retrieveIndex := storeRow m.retrieveIndex bid i ((bid * a.draftTokenNum + i : ℕ) : ℤ) }
  match a.parentPosition bid i with
  | none => m
  | some parentPosition =>
    let nextTok := m.retrieveNextToken bid parentPosition
    if nextTok = -1 then
      { m with retrieveNextToken := storeRow m.retrieveNextToken bid parentPosition (i : ℤ) }
    else
      { m with
        retrieveNextToken := storeRow m.retrieveNextToken bid parentPosition (i : ℤ)
        retrieveNextSibling := storeRow m.retrieveNextSibling bid i nextTok }

/-- `token_tree_idx`: the cell behind that of the root in the row of a node. -/
def tokenTreeIdx (draftTokenx : ℕ) : ℕ :=
  match a.treeMaskMode with
  | .fullMask => a.seqTreeIdx bid +
      (a.verifiedSeqLen bid + a.draftTokenNum) * draftTokenx + a.verifiedSeqLen bid + 1
  | .qlenOnly =>
      a.draftTokenNum * a.draftTokenNum * bid + a.draftTokenNum * draftTokenx + 1

/-- The variables of the loop along the path of a node. -/
structure PathVars where
  treeMask : ℕ → Bool
  curPosition : ℕ
  position : ℕ
  shouldContinue : Bool

/-- One turn of that loop. -/
def pathBody (tokenTreeIdx : ℕ) (v : PathVars) : PathVars :=
  if v.shouldContinue then
    let v := { v with
      position := v.position + 1
      treeMask := Function.update v.treeMask (tokenTreeIdx + v.curPosition) true }
    let parentTbIdx := a.selectedIndex bid v.curPosition / a.topk
    if parentTbIdx = 0 then { v with shouldContinue := false }
    else match a.findSelected bid (a.parentList bid parentTbIdx) with
      | some cp => { v with curPosition := cp }
      | none => { v with shouldContinue := false }
  else v

/-- The row of the mask and the position of a node. -/
def tokenBody (m : TreeMemory) (draftTokenx : ℕ) : TreeMemory :=
  let idx := a.tokenTreeIdx bid draftTokenx
  let treeMask := Function.update m.treeMask (idx - 1) true
  let treeMask := writeAll treeMask (stretch idx (a.draftTokenNum - 1) fun _ => false)
  if 0 < draftTokenx then
    let v := (a.pathBody bid idx)^[a.depth] ⟨treeMask, draftTokenx - 1, 0, true⟩
    { m with
      treeMask := v.treeMask
      positions := Function.update m.positions (bid * a.draftTokenNum + draftTokenx)
        (v.position + a.verifiedSeqLen bid) }
  else { m with treeMask }

/-- `sgl_build_tree_kernel_efficient_triton`, for one request. -/
def program (m : TreeMemory) : TreeMemory :=
  let m := { m with
    positions := Function.update m.positions (bid * a.draftTokenNum) (a.verifiedSeqLen bid) }
  let m := (List.range' 1 (a.draftTokenNum - 1)).reverse.foldl (a.linkBody bid) m
  let m := { m with
    retrieveIndex := storeRow m.retrieveIndex bid 0 ((bid * a.draftTokenNum : ℕ) : ℤ) }
  (List.range a.draftTokenNum).foldl (a.tokenBody bid) m

/-- `sgl_build_tree_kernel_triton`: one program per request. -/
def launch (bs : ℕ) (m : TreeMemory) : TreeMemory :=
  (List.range bs).foldl (fun m bid => a.program bid m) m

/-! ### The tree -/

/-- The parent of a node. -/
def parentOf (i : ℕ) : Option ℕ :=
  if 0 < i ∧ i < a.draftTokenNum then a.parentPosition bid i else none

/-- The children of a node. -/
def kids (p : ℕ) : List ℕ := children (a.parentOf bid) 1 a.draftTokenNum p

/-- The selected indices are in order, and the parent list sends an index to a smaller one. -/
structure Ordered : Prop where
  sorted : ∀ i j, i < j → j < a.draftTokenNum - 1 → a.selectedIndex bid i < a.selectedIndex bid j
  parent_lt : ∀ j < a.draftTokenNum - 1, a.selectedIndex bid j / a.topk ≠ 0 →
    a.parentList bid (a.selectedIndex bid j / a.topk) < a.selectedIndex bid j

variable {a bid}

theorem parentOf_of_lt {i : ℕ} (hi : 0 < i) (hn : i < a.draftTokenNum) :
    a.parentOf bid i = a.parentPosition bid i := if_pos ⟨hi, hn⟩

theorem findSelected_eq_some {tokenIdx : ℤ} {pp : ℕ} (h : a.findSelected bid tokenIdx = some pp) :
    pp < a.draftTokenNum - 1 ∧ (a.selectedIndex bid pp : ℤ) = tokenIdx := by
  unfold findSelected at h
  have hsel := List.find?_some h
  exact ⟨List.mem_range.mp (List.mem_of_find?_eq_some h), of_decide_eq_true hsel⟩

/-- **A parent comes before its children.** -/
theorem Ordered.parentOf_lt (h : a.Ordered bid) {i p : ℕ} (hp : a.parentOf bid i = some p) :
    p < i := by
  unfold parentOf at hp
  split_ifs at hp with hi
  obtain ⟨hpos, hn⟩ := hi
  unfold parentPosition at hp
  dsimp only at hp
  split_ifs at hp with htb
  · obtain rfl := Option.some.inj hp
    exact hpos
  · obtain ⟨pp, hpp, rfl⟩ := Option.map_eq_some_iff.mp hp
    obtain ⟨hlt, hsel⟩ := findSelected_eq_some hpp
    have hparent := h.parent_lt (i - 1) (by omega) htb
    rw [← hsel] at hparent
    -- the list is in order, so a smaller index stands before
    by_contra hge
    rcases Nat.eq_or_lt_of_le (show i - 1 ≤ pp by omega) with heq | hgt
    · rw [heq] at hparent
      exact lt_irrefl _ hparent
    · have := h.sorted (i - 1) pp hgt hlt
      omega

/-! ### Links -/

theorem links_linkBody (m : TreeMemory) {i : ℕ} (hi : 0 < i) (hn : i < a.draftTokenNum) :
    (a.linkBody bid m i).links bid = linkNode (a.parentOf bid) (m.links bid) i := by
  unfold linkBody linkNode
  rw [parentOf_of_lt hi hn]
  cases a.parentPosition bid i with
  | none => rfl
  | some p =>
    unfold link TreeMemory.links
    dsimp only
    by_cases hnext : m.retrieveNextToken bid p = -1
    · rw [if_pos hnext, if_pos hnext]
      exact congrArg₂ Links.mk (storeRow_self _ _ _ _) rfl
    · rw [if_neg hnext, if_neg hnext]
      exact congrArg₂ Links.mk (storeRow_self _ _ _ _) (storeRow_self _ _ _ _)

/-- The turns of the loop that links, from `n - 1` down to `k`. -/
def linkLoop (a : BuildArgs) (bid k : ℕ) (m : TreeMemory) : TreeMemory :=
  (List.range' k (a.draftTokenNum - k)).reverse.foldl (a.linkBody bid) m

theorem linkLoop_succ {k : ℕ} (hk : k < a.draftTokenNum) (m : TreeMemory) :
    linkLoop a bid k m = a.linkBody bid (linkLoop a bid (k + 1) m) k := by
  rw [linkLoop, range'_cons hk, List.reverse_cons, List.foldl_append]
  rfl

theorem linkLoop_self (m : TreeMemory) : linkLoop a bid a.draftTokenNum m = m := by
  rw [linkLoop, Nat.sub_self]
  rfl

theorem links_linkLoop (m : TreeMemory) {k : ℕ} (hk : 0 < k) (hn : k ≤ a.draftTokenNum) :
    (linkLoop a bid k m).links bid = linkDown (a.parentOf bid) k a.draftTokenNum (m.links bid) := by
  induction hd : a.draftTokenNum - k generalizing k with
  | zero =>
    obtain rfl : k = a.draftTokenNum := by omega
    rw [linkLoop_self, linkDown, Nat.sub_self]
    rfl
  | succ d ih =>
    have hlt : k < a.draftTokenNum := by omega
    rw [linkLoop_succ hlt, links_linkBody _ hk hlt, ih (by omega) hlt (by omega),
      linkDown, linkDown,
      range'_cons hlt, List.reverse_cons, List.foldl_append]
    rfl

/-- What linking a node leaves as it was. -/
theorem linkBody_frame (m : TreeMemory) (i : ℕ) :
    (a.linkBody bid m i).treeMask = m.treeMask ∧ (a.linkBody bid m i).positions = m.positions ∧
      ∀ b, b ≠ bid → (a.linkBody bid m i).retrieveIndex b = m.retrieveIndex b ∧
        (a.linkBody bid m i).retrieveNextToken b = m.retrieveNextToken b ∧
        (a.linkBody bid m i).retrieveNextSibling b = m.retrieveNextSibling b := by
  unfold linkBody
  cases a.parentPosition bid i with
  | none => exact ⟨rfl, rfl, fun b hb => ⟨storeRow_of_ne _ hb _ _, rfl, rfl⟩⟩
  | some p =>
    dsimp only
    split
    · exact ⟨rfl, rfl, fun b hb => ⟨storeRow_of_ne _ hb _ _, storeRow_of_ne _ hb _ _, rfl⟩⟩
    · exact ⟨rfl, rfl, fun b hb => ⟨storeRow_of_ne _ hb _ _, storeRow_of_ne _ hb _ _,
        storeRow_of_ne _ hb _ _⟩⟩

theorem linkBody_retrieveIndex (m : TreeMemory) (i : ℕ) :
    (a.linkBody bid m i).retrieveIndex bid =
      Function.update (m.retrieveIndex bid) i ((bid * a.draftTokenNum + i : ℕ) : ℤ) := by
  unfold linkBody
  cases a.parentPosition bid i with
  | none => exact storeRow_self _ _ _ _
  | some p =>
    dsimp only
    split <;> exact storeRow_self _ _ _ _

/-! ### Rows of the mask -/

/-- Cells that are set. -/
theorem writeAll_true (mem : ℕ → Bool) (cells : List ℕ) (x : ℕ) :
    writeAll mem (cells.map fun c => (c, true)) x = (decide (x ∈ cells) || mem x) := by
  induction cells generalizing mem with
  | nil => simp
  | cons c cells ih =>
    rw [List.map_cons, writeAll_cons, ih]
    by_cases hx : x = c
    · simp [hx]
    · simp [hx]

theorem pathBody_stopped {idx : ℕ} {v : PathVars} (h : v.shouldContinue = false) :
    a.pathBody bid idx v = v := by
  unfold pathBody
  rw [h]
  rfl

/-- The cell of a node is set, and the node counted. -/
def PathVars.mark (v : PathVars) (idx : ℕ) : PathVars :=
  { v with
    position := v.position + 1
    treeMask := Function.update v.treeMask (idx + v.curPosition) true }

theorem pathBody_root {idx : ℕ} {v : PathVars} (hgo : v.shouldContinue = true)
    (htb : a.selectedIndex bid v.curPosition / a.topk = 0) :
    a.pathBody bid idx v = { v.mark idx with shouldContinue := false } := by
  unfold pathBody
  rw [if_pos hgo]
  exact if_pos htb

theorem pathBody_lost {idx : ℕ} {v : PathVars} (hgo : v.shouldContinue = true)
    (htb : ¬ a.selectedIndex bid v.curPosition / a.topk = 0)
    (hfind : a.findSelected bid
      (a.parentList bid (a.selectedIndex bid v.curPosition / a.topk)) = none) :
    a.pathBody bid idx v = { v.mark idx with shouldContinue := false } := by
  unfold pathBody
  rw [if_pos hgo]
  dsimp only
  rw [if_neg htb, hfind]
  rfl

theorem pathBody_found {idx cp : ℕ} {v : PathVars} (hgo : v.shouldContinue = true)
    (htb : ¬ a.selectedIndex bid v.curPosition / a.topk = 0)
    (hfind : a.findSelected bid
      (a.parentList bid (a.selectedIndex bid v.curPosition / a.topk)) = some cp) :
    a.pathBody bid idx v = { v.mark idx with curPosition := cp } := by
  unfold pathBody
  rw [if_pos hgo]
  dsimp only
  rw [if_neg htb, hfind]
  rfl

variable (a bid) in
/-- **The loop along a path** sets the cells of the nodes of the climb and counts them. -/
theorem pathBody_iterate (idx fuel : ℕ) (v : PathVars) (hgo : v.shouldContinue = true)
    (hn : v.curPosition + 1 < a.draftTokenNum) :
    ((a.pathBody bid idx)^[fuel] v).treeMask = writeAll v.treeMask
        (((climb (a.parentOf bid) fuel (v.curPosition + 1)).map fun c => idx + (c - 1)).map
          fun c => (c, true)) ∧
      ((a.pathBody bid idx)^[fuel] v).position =
        v.position + (climb (a.parentOf bid) fuel (v.curPosition + 1)).length := by
  induction fuel generalizing v with
  | zero => exact ⟨rfl, rfl⟩
  | succ fuel ih =>
    have hparent : a.parentOf bid (v.curPosition + 1) = a.parentPosition bid (v.curPosition + 1) :=
      parentOf_of_lt (Nat.succ_pos v.curPosition) hn
    unfold parentPosition at hparent
    rw [Nat.succ_sub_one] at hparent
    dsimp only at hparent
    have hstop : (a.pathBody bid idx)^[fuel] { v.mark idx with shouldContinue := false } =
        { v.mark idx with shouldContinue := false } :=
      Function.iterate_fixed (pathBody_stopped rfl) fuel
    rw [Function.iterate_succ_apply, climb_succ (Nat.succ_ne_zero _), List.map_cons, List.map_cons,
      writeAll_cons, Nat.succ_sub_one, List.length_cons]
    by_cases htb : a.selectedIndex bid v.curPosition / a.topk = 0
    · -- a child of the root
      rw [if_pos htb] at hparent
      rw [pathBody_root hgo htb, hstop, hparent, Option.map_some, Option.getD_some, climb_zero]
      exact ⟨rfl, rfl⟩
    · rw [if_neg htb] at hparent
      cases hfind : a.findSelected bid
          (a.parentList bid (a.selectedIndex bid v.curPosition / a.topk)) with
      | none =>
        rw [hfind] at hparent
        rw [pathBody_lost hgo htb hfind, hstop, hparent]
        exact ⟨rfl, rfl⟩
      | some cp =>
        rw [hfind] at hparent
        have hcp := (findSelected_eq_some hfind).1
        have hcp' : cp + 1 < a.draftTokenNum := by omega
        obtain ⟨hmask, hposition⟩ := ih { v.mark idx with curPosition := cp } hgo hcp'
        rw [pathBody_found hgo htb hfind, hparent, Option.map_some, Option.map_some,
          Option.getD_some]
        refine ⟨hmask, hposition.trans ?_⟩
        show v.position + 1 + (climb (a.parentOf bid) fuel (cp + 1)).length =
          v.position + ((climb (a.parentOf bid) fuel (cp + 1)).length + 1)
        omega

variable (a bid) in
/-- The cell of column `c` in the row of a node; column 0 is the root. -/
def maskCell (draftTokenx c : ℕ) : ℕ := a.tokenTreeIdx bid draftTokenx - 1 + c

theorem tokenTreeIdx_pos (a : BuildArgs) (bid draftTokenx : ℕ) :
    0 < a.tokenTreeIdx bid draftTokenx := by
  unfold tokenTreeIdx
  cases a.treeMaskMode <;> exact Nat.succ_pos _

theorem maskCell_succ (a : BuildArgs) (bid tx c : ℕ) :
    a.maskCell bid tx (c + 1) = a.tokenTreeIdx bid tx + c := by
  have := a.tokenTreeIdx_pos bid tx
  unfold maskCell
  omega

/-- What the turn of a node stores. -/
theorem tokenBody_treeMask (m : TreeMemory) {tx : ℕ} (hn : tx < a.draftTokenNum) :
    (a.tokenBody bid m tx).treeMask = writeAll (writeAll
      (Function.update m.treeMask (a.tokenTreeIdx bid tx - 1) true)
      (stretch (a.tokenTreeIdx bid tx) (a.draftTokenNum - 1) fun _ => false))
      (((climb (a.parentOf bid) a.depth tx).map fun c => a.tokenTreeIdx bid tx + (c - 1)).map
        fun c => (c, true)) ∧
    (a.tokenBody bid m tx).positions = if 0 < tx then
      Function.update m.positions (bid * a.draftTokenNum + tx)
        ((climb (a.parentOf bid) a.depth tx).length + a.verifiedSeqLen bid) else m.positions := by
  unfold tokenBody
  dsimp only
  by_cases htx : 0 < tx
  · rw [if_pos htx, if_pos htx]
    obtain ⟨j, rfl⟩ : ∃ j, tx = j + 1 := ⟨tx - 1, by omega⟩
    obtain ⟨hmask, hposition⟩ := a.pathBody_iterate bid (a.tokenTreeIdx bid (j + 1)) a.depth
      ⟨writeAll (Function.update m.treeMask (a.tokenTreeIdx bid (j + 1) - 1) true)
        (stretch (a.tokenTreeIdx bid (j + 1)) (a.draftTokenNum - 1) fun _ => false),
        j + 1 - 1, 0, true⟩ rfl hn
    rw [hposition, Nat.zero_add]
    exact ⟨hmask, rfl⟩
  · obtain rfl : tx = 0 := by omega
    rw [if_neg htx, if_neg htx, climb_zero]
    exact ⟨rfl, rfl⟩

variable (h : a.Ordered bid)
include h

/-- **The row of a node**: the root and the nodes above it. -/
theorem tokenBody_row (m : TreeMemory) {tx c : ℕ} (hn : tx < a.draftTokenNum)
    (hdepth : SiblingLists.depth (a.parentOf bid) tx ≤ a.depth) (hc : c < a.draftTokenNum) :
    (a.tokenBody bid m tx).treeMask (a.maskCell bid tx c) = true ↔
      c = 0 ∨ Above (a.parentOf bid) tx c := by
  have hlt : ∀ i p, a.parentOf bid i = some p → p < i := fun _ _ => h.parentOf_lt
  have hpos := a.tokenTreeIdx_pos bid tx
  rw [(tokenBody_treeMask m hn).1, writeAll_true, climb_of_depth_le hlt hdepth, Bool.or_eq_true,
    decide_eq_true_eq]
  rcases Nat.eq_zero_or_pos c with rfl | hcpos
  · -- the cell of the root is set before the others are cleared
    have hnot : a.maskCell bid tx 0 ∉
        (stretch (a.tokenTreeIdx bid tx) (a.draftTokenNum - 1) fun _ => false).map Prod.fst := by
      rw [mem_map_fst_stretch]
      unfold maskCell
      omega
    rw [writeAll_of_notMem _ hnot]
    simp [maskCell]
  · obtain ⟨j, rfl⟩ : ∃ j, c = j + 1 := ⟨c - 1, by omega⟩
    rw [maskCell_succ]
    have hcleared : writeAll (Function.update m.treeMask (a.tokenTreeIdx bid tx - 1) true)
        (stretch (a.tokenTreeIdx bid tx) (a.draftTokenNum - 1) fun _ => false)
        (a.tokenTreeIdx bid tx + j) = false := by
      rw [writeAll_stretch, if_pos (by omega)]
    rw [hcleared, List.mem_map]
    constructor
    · rintro (⟨d, hd, hcell⟩ | hfalse)
      · obtain ⟨hd0, habove⟩ := (mem_climb hlt).mp hd
        obtain rfl : d = j + 1 := by omega
        exact .inr habove
      · cases hfalse
    · rintro (hzero | habove)
      · exact absurd hzero (Nat.succ_ne_zero j)
      · exact .inl ⟨j + 1, (mem_climb hlt).mpr ⟨Nat.succ_ne_zero j, habove⟩, rfl⟩

/-- The cells that the turn of a node does not touch. -/
theorem tokenBody_frame (m : TreeMemory) {tx : ℕ} (hn : tx < a.draftTokenNum)
    (hdepth : SiblingLists.depth (a.parentOf bid) tx ≤ a.depth) {x : ℕ}
    (hx : ∀ c < a.draftTokenNum, x ≠ a.maskCell bid tx c) :
    (a.tokenBody bid m tx).treeMask x = m.treeMask x := by
  have hlt : ∀ i p, a.parentOf bid i = some p → p < i := fun _ _ => h.parentOf_lt
  have hpath : x ∉ (climb (a.parentOf bid) a.depth tx).map fun c =>
    a.tokenTreeIdx bid tx + (c - 1) := by
    rw [climb_of_depth_le hlt hdepth, List.mem_map]
    rintro ⟨c, hc, rfl⟩
    obtain ⟨hc0, habove⟩ := (mem_climb hlt).mp hc
    have hle := above_le hlt habove
    obtain ⟨j, rfl⟩ : ∃ j, c = j + 1 := ⟨c - 1, by omega⟩
    exact hx (j + 1) (by omega) (maskCell_succ a bid tx j).symm
  have hstretch : x ∉ (stretch (a.tokenTreeIdx bid tx) (a.draftTokenNum - 1) fun _ => false).map
      Prod.fst := by
    rw [mem_map_fst_stretch]
    rintro ⟨hlo, hhi⟩
    have hcell := hx (x - a.tokenTreeIdx bid tx + 1) (by omega)
    rw [maskCell_succ] at hcell
    omega
  have hroot : x ≠ a.tokenTreeIdx bid tx - 1 := hx 0 (by omega)
  rw [(tokenBody_treeMask m hn).1, writeAll_true, decide_eq_false hpath, Bool.false_or,
    writeAll_of_notMem _ hstretch, Function.update_of_ne hroot]

/-! ### One program -/

/-- The rows written so far, over the memory before the loop. -/
structure RowsWritten (a : BuildArgs) (bid : ℕ) (m₀ : TreeMemory) (k : ℕ) (m : TreeMemory) :
    Prop where
  mask : ∀ tx < k, ∀ c < a.draftTokenNum,
    m.treeMask (a.maskCell bid tx c) = true ↔ c = 0 ∨ Above (a.parentOf bid) tx c
  maskFrame : ∀ x, (∀ tx < k, ∀ c < a.draftTokenNum, x ≠ a.maskCell bid tx c) →
    m.treeMask x = m₀.treeMask x
  positions : ∀ tx < k, 0 < tx → m.positions (bid * a.draftTokenNum + tx) =
    a.verifiedSeqLen bid + SiblingLists.depth (a.parentOf bid) tx
  positionsFrame : ∀ x, (∀ tx < k, 0 < tx → x ≠ bid * a.draftTokenNum + tx) →
    m.positions x = m₀.positions x
  others : m.retrieveIndex = m₀.retrieveIndex ∧ m.retrieveNextToken = m₀.retrieveNextToken ∧
    m.retrieveNextSibling = m₀.retrieveNextSibling

omit h

theorem seqLenPrefixSum_eq (a : BuildArgs) (bid : ℕ) :
    a.seqLenPrefixSum bid = offset a.verifiedSeqLen bid := by
  unfold seqLenPrefixSum offset
  rw [List.range_succ, List.map_append, List.sum_append, List.map_singleton, List.sum_singleton,
    Nat.add_sub_cancel]

/-- The cells of the mask of a request. -/
def maskLen (a : BuildArgs) (b : ℕ) : ℕ := a.draftTokenNum * (a.verifiedSeqLen b + a.draftTokenNum)

/-- The masks of the requests stand one behind the other. -/
theorem seqTreeIdx_eq (a : BuildArgs) (bid : ℕ) : a.seqTreeIdx bid = offset a.maskLen bid := by
  unfold seqTreeIdx
  rw [seqLenPrefixSum_eq]
  induction bid with
  | zero => simp
  | succ b ih =>
    rw [offset_succ, offset_succ, ← ih, maskLen]
    ring

/-- An entry of a ragged array tells its row and its column. -/
theorem offset_inj {lens : ℕ → ℕ} {b b' x x' : ℕ} (hx : x < lens b) (hx' : x' < lens b')
    (heq : offset lens b + x = offset lens b' + x') : b = b' ∧ x = x' := by
  rcases Nat.lt_trichotomy b b' with hlt | rfl | hgt
  · have := offset_add_lt hlt hx
    omega
  · exact ⟨rfl, by omega⟩
  · have := offset_add_lt hgt hx'
    omega

/-- A cell of the mask tells its request, its row and its column. -/
theorem maskCell_inj (a : BuildArgs) {b b' tx tx' c c' : ℕ} (htx : tx < a.draftTokenNum)
    (htx' : tx' < a.draftTokenNum) (hc : c < a.draftTokenNum) (hc' : c' < a.draftTokenNum)
    (heq : a.maskCell b tx c = a.maskCell b' tx' c') : b = b' ∧ tx = tx' ∧ c = c' := by
  unfold maskCell tokenTreeIdx at heq
  cases hmode : a.treeMaskMode with
  | fullMask =>
    rw [hmode] at heq
    dsimp only at heq
    rw [Nat.add_sub_cancel, Nat.add_sub_cancel, seqTreeIdx_eq, seqTreeIdx_eq] at heq
    have hrow : ∀ b tx c : ℕ, tx < a.draftTokenNum → c < a.draftTokenNum →
        tx * (a.verifiedSeqLen b + a.draftTokenNum) + (a.verifiedSeqLen b + c) < a.maskLen b :=
      fun b tx c htx hc => block_lt htx (by omega)
    have hcells : offset a.maskLen b +
        (tx * (a.verifiedSeqLen b + a.draftTokenNum) + (a.verifiedSeqLen b + c)) =
          offset a.maskLen b' +
            (tx' * (a.verifiedSeqLen b' + a.draftTokenNum) + (a.verifiedSeqLen b' + c')) := by
      rw [Nat.mul_comm tx, Nat.mul_comm tx']
      omega
    obtain ⟨rfl, hinner⟩ := offset_inj (hrow b tx c htx hc) (hrow b' tx' c' htx' hc') hcells
    obtain ⟨rfl, hcol⟩ := block_inj (by omega) (by omega) hinner
    exact ⟨rfl, rfl, by omega⟩
  | qlenOnly =>
    rw [hmode] at heq
    dsimp only at heq
    rw [Nat.add_sub_cancel, Nat.add_sub_cancel, Nat.mul_comm _ b, Nat.mul_comm _ b',
      Nat.mul_comm _ tx, Nat.mul_comm _ tx', Nat.add_assoc, Nat.add_assoc] at heq
    obtain ⟨rfl, hinner⟩ := block_inj (block_lt htx hc) (block_lt htx' hc') heq
    obtain ⟨rfl, rfl⟩ := block_inj hc hc' hinner
    exact ⟨rfl, rfl, rfl⟩

theorem RowsWritten.row {m₀ m : TreeMemory} {k : ℕ} (hm : RowsWritten a bid m₀ k m)
    (h : a.Ordered bid) (hk : k < a.draftTokenNum)
    (hdepth : SiblingLists.depth (a.parentOf bid) k ≤ a.depth) :
    RowsWritten a bid m₀ (k + 1) (a.tokenBody bid m k) := by
  have hlt : ∀ i p, a.parentOf bid i = some p → p < i := fun _ _ => h.parentOf_lt
  have hpos := (@tokenBody_treeMask a bid m _ hk).2
  rw [climb_of_depth_le hlt hdepth] at hpos
  refine ⟨fun tx htx c hc => ?_, fun x hx => ?_, fun tx htx htx0 => ?_, fun x hx => ?_, ?_⟩
  · rcases Nat.lt_succ_iff_lt_or_eq.mp htx with hlt' | rfl
    · rw [tokenBody_frame h m hk hdepth fun c' hc' heq => by
        have := (maskCell_inj a (hlt'.trans hk) hk hc hc' heq).2.1
        omega]
      exact hm.mask tx hlt' c hc
    · exact tokenBody_row h m hk hdepth hc
  · rw [tokenBody_frame h m hk hdepth fun c hc => hx k (Nat.lt_succ_self k) c hc]
    exact hm.maskFrame x fun tx htx => hx tx (Nat.lt_succ_of_lt htx)
  · rcases Nat.lt_succ_iff_lt_or_eq.mp htx with hlt' | rfl
    · rw [hpos]
      split
      · rw [Function.update_of_ne (by omega)]
        exact hm.positions tx hlt' htx0
      · exact hm.positions tx hlt' htx0
    · rw [hpos, if_pos htx0, Function.update_self, Nat.add_comm]
      rfl
  · rw [hpos]
    have hprev := hm.positionsFrame x fun tx htx => hx tx (Nat.lt_succ_of_lt htx)
    split
    · rename_i hk0
      rw [Function.update_of_ne (hx k (Nat.lt_succ_self k) hk0)]
      exact hprev
    · exact hprev
  · have hothers : (a.tokenBody bid m k).retrieveIndex = m.retrieveIndex ∧
        (a.tokenBody bid m k).retrieveNextToken = m.retrieveNextToken ∧
        (a.tokenBody bid m k).retrieveNextSibling = m.retrieveNextSibling := by
      unfold tokenBody
      dsimp only
      split <;> exact ⟨rfl, rfl, rfl⟩
    obtain ⟨hindex, hnext, hsibling⟩ := hothers
    obtain ⟨hindex', hnext', hsibling'⟩ := hm.others
    exact ⟨hindex.trans hindex', hnext.trans hnext', hsibling.trans hsibling'⟩

/-- **The loop over the rows.** -/
theorem rowsWritten_foldl (h : a.Ordered bid)
    (hdepth : ∀ tx < a.draftTokenNum, SiblingLists.depth (a.parentOf bid) tx ≤ a.depth)
    (m₀ : TreeMemory) {k : ℕ} (hk : k ≤ a.draftTokenNum) :
    RowsWritten a bid m₀ k ((List.range k).foldl (a.tokenBody bid) m₀) := by
  induction k with
  | zero =>
    exact ⟨fun tx htx => absurd htx (Nat.not_lt_zero tx), fun _ _ => rfl,
      fun tx htx => absurd htx (Nat.not_lt_zero tx), fun _ _ => rfl, rfl, rfl, rfl⟩
  | succ k ih =>
    rw [List.range_succ, List.foldl_append]
    exact (ih (by omega)).row h hk (hdepth k hk)

/-- What the loop that links leaves as it was, and the indices it stores. -/
theorem linkLoop_frame (m : TreeMemory) {k : ℕ} (hk : k ≤ a.draftTokenNum) :
    (linkLoop a bid k m).treeMask = m.treeMask ∧ (linkLoop a bid k m).positions = m.positions ∧
      (∀ b, b ≠ bid → (linkLoop a bid k m).retrieveIndex b = m.retrieveIndex b ∧
        (linkLoop a bid k m).retrieveNextToken b = m.retrieveNextToken b ∧
        (linkLoop a bid k m).retrieveNextSibling b = m.retrieveNextSibling b) ∧
      ∀ i, k ≤ i → i < a.draftTokenNum → (linkLoop a bid k m).retrieveIndex bid i =
        ((bid * a.draftTokenNum + i : ℕ) : ℤ) := by
  induction hd : a.draftTokenNum - k generalizing k with
  | zero =>
    obtain rfl : k = a.draftTokenNum := by omega
    rw [linkLoop_self]
    exact ⟨rfl, rfl, fun b _ => ⟨rfl, rfl, rfl⟩, fun i hi hi' => by omega⟩
  | succ d ih =>
    have hlt : k < a.draftTokenNum := by omega
    obtain ⟨hmask, hpositions, hrows, hindex⟩ := ih hlt (by omega)
    obtain ⟨hmask', hpositions', hrows'⟩ :=
      @linkBody_frame a bid (linkLoop a bid (k + 1) m) k
    rw [linkLoop_succ hlt]
    refine ⟨hmask'.trans hmask, hpositions'.trans hpositions, fun b hb => ?_, fun i hi hi' => ?_⟩
    · obtain ⟨h₁, h₂, h₃⟩ := hrows b hb
      obtain ⟨h₁', h₂', h₃'⟩ := hrows' b hb
      exact ⟨h₁'.trans h₁, h₂'.trans h₂, h₃'.trans h₃⟩
    · rw [linkBody_retrieveIndex]
      rcases Nat.eq_or_lt_of_le hi with rfl | hgt
      · exact Function.update_self _ _ _
      · rw [Function.update_of_ne (by omega)]
        exact hindex i hgt hi'

/-- **What stands in memory for a request.** -/
structure Built (a : BuildArgs) (bid : ℕ) (m : TreeMemory) : Prop where
  index : ∀ i < a.draftTokenNum,
    m.retrieveIndex bid i = ((bid * a.draftTokenNum + i : ℕ) : ℤ)
  chain : ∀ p < a.draftTokenNum,
    SiblingLists.Chain (m.retrieveNextSibling bid) (m.retrieveNextToken bid p) (a.kids bid p)
  mask : ∀ tx < a.draftTokenNum, ∀ c < a.draftTokenNum,
    m.treeMask (a.maskCell bid tx c) = true ↔ c = 0 ∨ Above (a.parentOf bid) tx c
  positions : ∀ tx < a.draftTokenNum, m.positions (bid * a.draftTokenNum + tx) =
    a.verifiedSeqLen bid + SiblingLists.depth (a.parentOf bid) tx

/-- What the program of a request leaves as it was. -/
structure Untouched (a : BuildArgs) (bid : ℕ) (m m' : TreeMemory) : Prop where
  mask : ∀ x, (∀ tx < a.draftTokenNum, ∀ c < a.draftTokenNum, x ≠ a.maskCell bid tx c) →
    m'.treeMask x = m.treeMask x
  positions : ∀ x, (∀ tx < a.draftTokenNum, x ≠ bid * a.draftTokenNum + tx) →
    m'.positions x = m.positions x
  rows : ∀ b, b ≠ bid → m'.retrieveIndex b = m.retrieveIndex b ∧
    m'.retrieveNextToken b = m.retrieveNextToken b ∧
    m'.retrieveNextSibling b = m.retrieveNextSibling b

/-- A request whose tree the kernel can build: its indices are in order, and no path is longer than
the loop along it. -/
structure Buildable (a : BuildArgs) (bid : ℕ) : Prop where
  ordered : a.Ordered bid
  depth_le : ∀ tx < a.draftTokenNum, SiblingLists.depth (a.parentOf bid) tx ≤ a.depth

/-- The links of a request before the kernel. -/
def Unlinked (a : BuildArgs) (bid : ℕ) (m : TreeMemory) : Prop :=
  ∀ i < a.draftTokenNum, m.retrieveNextToken bid i = -1 ∧ m.retrieveNextSibling bid i = -1

/-- **One program** builds the tree of its request and touches nothing else. -/
theorem program_built (hn : 0 < a.draftTokenNum) (h : a.Buildable bid) {m : TreeMemory}
    (hm : a.Unlinked bid m) :
    Built a bid (a.program bid m) ∧ Untouched a bid m (a.program bid m) := by
  let m₁ : TreeMemory := { m with
    positions := Function.update m.positions (bid * a.draftTokenNum) (a.verifiedSeqLen bid) }
  let m₂ := linkLoop a bid 1 m₁
  let m₃ : TreeMemory := { m₂ with
    retrieveIndex := storeRow m₂.retrieveIndex bid 0 ((bid * a.draftTokenNum : ℕ) : ℤ) }
  have hrun : a.program bid m = (List.range a.draftTokenNum).foldl (a.tokenBody bid) m₃ := rfl
  obtain ⟨hmask, hpositions, hrows, hindex⟩ := @linkLoop_frame a bid m₁ _ hn
  obtain ⟨hrowMask, hmaskFrame, hrowPositions, hpositionsFrame, hindex₃, hnext₃, hsibling₃⟩ :=
    rowsWritten_foldl h.ordered h.depth_le m₃ le_rfl
  rw [← hrun] at hrowMask hmaskFrame hrowPositions hpositionsFrame hindex₃ hnext₃ hsibling₃
  have hlinks := @links_linkLoop a bid m₁ _ Nat.one_pos hn
  have hlinked : Linked (a.parentOf bid) a.draftTokenNum 1 (m₂.links bid) := by
    show Linked _ _ _ ((linkLoop a bid 1 m₁).links bid)
    rw [hlinks]
    exact linkDown_chain (fun p hp => (hm p hp).1) (fun i hi => (hm i hi).2) hn
  refine ⟨⟨fun i hi => ?_, fun p hp => ?_, hrowMask, fun tx htx => ?_⟩,
    fun x hx => ?_, fun x hx => ?_, fun b hb => ?_⟩
  · rw [hindex₃]
    show storeRow m₂.retrieveIndex bid 0 _ bid i = _
    rw [storeRow_self]
    rcases Nat.eq_zero_or_pos i with rfl | hpos
    · exact Function.update_self _ _ _
    · rw [Function.update_of_ne hpos.ne']
      exact hindex i hpos hi
  · rw [hnext₃, hsibling₃]
    exact hlinked.chain p hp
  · rcases Nat.eq_zero_or_pos tx with rfl | hpos
    · -- the root has its position from the first store
      rw [hpositionsFrame _ fun tx _ htx0 => by omega]
      show m₂.positions _ = _
      rw [hpositions]
      exact Function.update_self _ _ _
    · exact hrowPositions tx htx hpos
  · rw [hmaskFrame x hx]
    exact congrFun hmask x
  · rw [hpositionsFrame x fun tx htx _ => hx tx htx]
    show m₂.positions x = _
    rw [hpositions]
    exact Function.update_of_ne (hx 0 hn) _ _
  · obtain ⟨h₁, h₂, h₃⟩ := hrows b hb
    rw [hindex₃, hnext₃, hsibling₃]
    exact ⟨(storeRow_of_ne _ hb _ _).trans h₁, h₂, h₃⟩

theorem Built.untouched {b : ℕ} {m m' : TreeMemory} (hb : Built a b m) (hne : b ≠ bid)
    (h : Untouched a bid m m') : Built a b m' := by
  obtain ⟨hindex, hnext, hsibling⟩ := h.rows b hne
  refine ⟨fun i hi => ?_, fun p hp => ?_, fun tx htx c hc => ?_, fun tx htx => ?_⟩
  · rw [hindex]
    exact hb.index i hi
  · rw [hnext, hsibling]
    exact hb.chain p hp
  · rw [h.mask _ fun tx' htx' c' hc' heq => hne (maskCell_inj a htx htx' hc hc' heq).1]
    exact hb.mask tx htx c hc
  · rw [h.positions _ fun tx' htx' heq => hne (block_inj htx htx' heq).1]
    exact hb.positions tx htx

end BuildArgs

/-- **The kernel builds the tree of every request**: its lists hold the children of every node,
each once and in order; the row of a node marks the root, the nodes above it and itself, of the
nodes; its position is the length of the sequence and its depth; and no other cell of the mask is
written. -/
theorem launch_built (a : BuildArgs) (bs : ℕ) (hn : 0 < a.draftTokenNum)
    (h : ∀ b < bs, a.Buildable b) (m : TreeMemory) (hm : ∀ b < bs, a.Unlinked b m) :
    (∀ b < bs, a.Built b (a.launch bs m)) ∧
      ∀ x, (∀ b < bs, ∀ tx < a.draftTokenNum, ∀ c < a.draftTokenNum, x ≠ a.maskCell b tx c) →
        (a.launch bs m).treeMask x = m.treeMask x := by
  have hrun : ∀ k ≤ bs, (∀ b < k, a.Built b (a.launch k m)) ∧
      (∀ b, k ≤ b → b < bs → a.Unlinked b (a.launch k m)) ∧
      ∀ x, (∀ b < k, ∀ tx < a.draftTokenNum, ∀ c < a.draftTokenNum, x ≠ a.maskCell b tx c) →
        (a.launch k m).treeMask x = m.treeMask x := by
    intro k
    induction k with
    | zero =>
      intro _
      exact ⟨fun b hb => absurd hb (Nat.not_lt_zero b), fun b _ hb => hm b hb, fun _ _ => rfl⟩
    | succ k ih =>
      intro hk
      obtain ⟨hbuilt, hunlinked, hmask⟩ := ih (by omega)
      have hlaunch : a.launch (k + 1) m = a.program k (a.launch k m) := by
        unfold BuildArgs.launch
        rw [List.range_succ, List.foldl_append]
        rfl
      obtain ⟨hprogram, huntouched⟩ :=
        BuildArgs.program_built hn (h k hk) (hunlinked k le_rfl hk)
      rw [hlaunch]
      refine ⟨fun b hb => ?_, fun b hb hb' i hi => ?_, fun x hx => ?_⟩
      · rcases Nat.lt_succ_iff_lt_or_eq.mp hb with hlt | rfl
        · exact (hbuilt b hlt).untouched (by omega) huntouched
        · exact hprogram
      · obtain ⟨-, hnext, hsibling⟩ := huntouched.rows b (by omega)
        rw [hnext, hsibling]
        exact hunlinked b (by omega) hb' i hi
      · rw [huntouched.mask x fun tx htx c hc => hx k (Nat.lt_succ_self k) tx htx c hc]
        exact hmask x fun b hb => hx b (Nat.lt_succ_of_lt hb)
  obtain ⟨hbuilt, -, hmask⟩ := hrun bs le_rfl
  exact ⟨hbuilt, hmask⟩

/-- Two requests with two branches; in the second one a node was selected without its parent. -/
def pairArgs : BuildArgs where
  parentList _ j := [-1, 0, 1].getD j 0
  selectedIndex b j := (if b = 0 then [0, 1, 2] else [0, 2, 4]).getD j 0
  verifiedSeqLen b := [3, 5].getD b 0
  topk := 2
  depth := 2
  draftTokenNum := 4
  treeMaskMode := .fullMask

theorem pairArgs_buildable (b : ℕ) (hb : b < 2) : pairArgs.Buildable b := by
  have hsorted : ∀ b < 2, ∀ j < 3, ∀ i < j,
      pairArgs.selectedIndex b i < pairArgs.selectedIndex b j := by decide
  have hparent : ∀ b < 2, ∀ j < 3, pairArgs.selectedIndex b j / pairArgs.topk ≠ 0 →
      pairArgs.parentList b (pairArgs.selectedIndex b j / pairArgs.topk) <
        pairArgs.selectedIndex b j := by decide
  have hdepth : ∀ b < 2, ∀ tx < 4, SiblingLists.depth (pairArgs.parentOf b) tx ≤ 2 := by decide
  exact ⟨⟨fun i j hij hj => hsorted b hb j hj i hij, hparent b hb⟩, hdepth b hb⟩

/-- Tensors before the kernel. -/
def clearedMemory : TreeMemory where
  treeMask _ := true
  positions _ := 0
  retrieveIndex _ _ := -1
  retrieveNextToken _ _ := -1
  retrieveNextSibling _ _ := -1

theorem launch_built_pair :
    (∀ b < 2, pairArgs.Built b (pairArgs.launch 2 clearedMemory)) ∧
      ∀ x, (∀ b < 2, ∀ tx < 4, ∀ c < 4, x ≠ pairArgs.maskCell b tx c) →
        (pairArgs.launch 2 clearedMemory).treeMask x = clearedMemory.treeMask x :=
  launch_built pairArgs 2 (Nat.succ_pos 3) pairArgs_buildable clearedMemory fun _ _ _ _ =>
    ⟨rfl, rfl⟩

end LatentSpec.EagleTree
