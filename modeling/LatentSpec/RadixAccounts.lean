import LatentSpec.RadixDescent
import Mathlib.Algebra.BigOperators.Intervals
import Mathlib.Algebra.BigOperators.Ring.Finset
import Mathlib.Tactic.Abel

/-! # The accounts of the radix cache

The sizes and the set of leaves are kept by every operation for itself (`Tally`): they follow from
the locks of the nodes.  The locks follow from the requests that hold one: `lock_ref` of a node
is the number of held locks at or below it (`Locks`).
-/
namespace LatentSpec
open PageForest

namespace RadixCache
variable {cfg : RadixConfig} {c c' : RadixCache} {path path' : ℕ → List (ℤ × Option ℤ)}

/-! ### Sums over the nodes -/

section Sums
variable {M : Type*} [AddCancelCommMonoid M]

/-- The sum over the nodes of a heap below the root. -/
def heapSum (counter : ℕ) (heap : ℕ → Option TreeNode) (f : TreeNode → M) : M :=
  ∑ id ∈ Finset.Ico 1 counter, (heap id).elim 0 f

theorem heapSum_update {counter id : ℕ} (hid : id ∈ Finset.Ico 1 counter)
    (heap : ℕ → Option TreeNode) (n : Option TreeNode) (f : TreeNode → M) :
    heapSum counter (Function.update heap id n) f + (heap id).elim 0 f =
      heapSum counter heap f + n.elim 0 f := by
  unfold heapSum
  rw [← Finset.add_sum_erase _ _ hid, ← Finset.add_sum_erase (Finset.Ico 1 counter) _ hid,
    Function.update_self]
  have hrest : ∑ j ∈ (Finset.Ico 1 counter).erase id, (Function.update heap id n j).elim 0 f =
      ∑ j ∈ (Finset.Ico 1 counter).erase id, (heap j).elim 0 f := by
    refine Finset.sum_congr rfl fun j hj => ?_
    rw [Function.update_of_ne (Finset.ne_of_mem_erase hj)]
  rw [hrest]
  abel

theorem heapSum_succ {counter : ℕ} (hpos : 0 < counter) (heap : ℕ → Option TreeNode)
    (f : TreeNode → M) :
    heapSum (counter + 1) heap f = heapSum counter heap f + (heap counter).elim 0 f :=
  Finset.sum_Ico_succ_top hpos _

theorem heapSum_fresh {counter id : ℕ} (hid : counter ≤ id) (heap : ℕ → Option TreeNode)
    (n : Option TreeNode) (f : TreeNode → M) :
    heapSum counter (Function.update heap id n) f = heapSum counter heap f := by
  refine Finset.sum_congr rfl fun j hj => ?_
  have hj' := (Finset.mem_Ico.mp hj).2
  rw [Function.update_of_ne (by omega)]

/-- A split keeps a sum that it splits. -/
theorem IsSplit.heapSum_eq (h : Tree cfg c path) {child len : ℕ} {n : TreeNode}
    (hs : Splittable cfg c child n len) (hc' : IsSplit c c' child n len) {f : TreeNode → M}
    (hf : f (upperHalf n.bare len) + f (lowerHalf n.bare c.counter len) = f n.bare) :
    heapSum c'.counter c'.bare f = heapSum c.counter c.bare f := by
  have hlt := h.lt_counter hs.node
  have hchild : child ∈ Finset.Ico 1 c.counter :=
    Finset.mem_Ico.mpr ⟨Nat.pos_of_ne_zero hs.ne_zero, hlt⟩
  have hsum := heapSum_update hchild c.bare (some (lowerHalf n.bare c.counter len)) f
  rw [bare_eq_some hs.node, Option.elim_some, Option.elim_some] at hsum
  rw [hc'.counter, hc'.bare, splitHeap, heapSum_succ h.counter_pos, heapSum_fresh le_rfl,
    Function.update_self, Option.elim_some]
  refine add_right_cancel (b := f n.bare) ?_
  rw [add_right_comm, hsum, add_assoc, add_comm (f _), hf]

/-- A new leaf adds itself. -/
theorem IsAdd.heapSum_eq (h : Tree cfg c path) {id : ℕ} {key : RadixKey} {value : List ℤ}
    (hc' : IsAdd c c' id key value) (f : TreeNode → M) :
    heapSum c'.counter c'.bare f = heapSum c.counter c.bare f + f (newLeaf id key value) := by
  rw [hc'.counter, hc'.bare, heapSum_succ h.counter_pos, heapSum_fresh le_rfl, Function.update_self,
    Option.elim_some]

/-- A leaf that goes takes itself away. -/
theorem IsDelete.heapSum_eq (h : Tree cfg c path) {id : ℕ} {n : TreeNode} (hid : id ≠ 0)
    (hn : c.nodes id = some n) (hc' : IsDelete c c' id n) (f : TreeNode → M) :
    heapSum c'.counter c'.bare f + f n.bare = heapSum c.counter c.bare f := by
  have hmem : id ∈ Finset.Ico 1 c.counter :=
    Finset.mem_Ico.mpr ⟨Nat.pos_of_ne_zero hid, h.lt_counter hn⟩
  have hsum := heapSum_update hmem c.bare none f
  rwa [bare_eq_some hn, Option.elim_some, Option.elim_none, add_zero, ← hc'.bare,
    ← congrArg (heapSum · c'.bare f) hc'.counter] at hsum

end Sums

/-! ### The tally -/

/-- The length of the key, for nodes whose lock is as asked. -/
def lenWhere (p : ℤ → Prop) [DecidablePred p] (n : TreeNode) : ℤ :=
  if p n.lockRef then n.key.len else 0

theorem lenWhere_halves (p : ℤ → Prop) [DecidablePred p] {n : TreeNode} {new len : ℕ}
    (hle : len ≤ n.key.len) :
    lenWhere p (upperHalf n.bare len) + lenWhere p (lowerHalf n.bare new len) =
      lenWhere p n.bare := by
  have hlen : ((n.key.take len).len : ℤ) + (n.key.drop len).len = n.key.len := by
    rw [RadixKey.len_take, RadixKey.len_drop]
    omega
  show (if p n.lockRef then ((n.key.take len).len : ℤ) else 0) +
    (if p n.lockRef then ((n.key.drop len).len : ℤ) else 0) =
      if p n.lockRef then (n.key.len : ℤ) else 0
  by_cases hlock : p n.lockRef
  · rw [if_pos hlock, if_pos hlock, if_pos hlock, hlen]
  · rw [if_neg hlock, if_neg hlock, if_neg hlock, add_zero]

/-- A node that can be evicted now: below the root, unlocked and without children. -/
def Leafy (heap : ℕ → Option TreeNode) (id : ℕ) : Prop :=
  id ≠ 0 ∧ (∃ n, heap id = some n ∧ n.lockRef = 0) ∧
    ∀ ch e, edgesOf heap ch = some e → e.parent ≠ id

/-- The counters and the set of leaves follow from the locks. -/
structure Tally (c : RadixCache) : Prop where
  nonneg : ∀ {id n}, c.bare id = some n → 0 ≤ n.lockRef
  evictable : c.evictableSize = heapSum c.counter c.bare (lenWhere (· = 0))
  protect : c.protectedSize = heapSum c.counter c.bare (lenWhere (0 < ·))
  leaves : ∀ id, id ∈ c.evictableLeaves ↔ Leafy c.bare id

/-- The leaf status as the code decides it. -/
theorem Tree.leafy_iff (h : Tree cfg c path)
    (hnonneg : ∀ {id n}, c.bare id = some n → 0 ≤ n.lockRef)
    {id : ℕ} {n : TreeNode} (hn : c.nodes id = some n) :
    Leafy c.bare id ↔ (c.node id).lockRef ≤ 0 ∧ (c.node id).children.items = [] := by
  rw [node_eq hn, h.items_eq_nil_iff hn]
  have hlock := hnonneg (bare_eq_some hn)
  rw [bare_lockRef] at hlock
  constructor
  · rintro ⟨-, ⟨m, hm, hzero⟩, hno⟩
    obtain rfl := Option.some.inj ((bare_eq_some hn).symm.trans hm)
    exact ⟨hzero.le, fun {ch e} he => hno ch e he⟩
  · rintro ⟨hle, hno⟩
    refine ⟨?_, ⟨n.bare, bare_eq_some hn, le_antisymm hle hlock⟩, fun ch e he => hno he⟩
    -- the root is locked for ever
    rintro rfl
    have hroot := Option.some.inj ((bare_eq_some hn).symm.trans h.root)
    have hone : n.lockRef = 1 := congrArg TreeNode.lockRef hroot
    omega

theorem Tally.split (ht : Tally c) (h : Tree cfg c path) {child len : ℕ} {n : TreeNode}
    (hs : Splittable cfg c child n len) (hc' : IsSplit c c' child n len) : Tally c' := by
  have hedges : edgesOf c'.bare = splitEdges (edgesOf c.bare) child c.counter (edgeOf n) len := by
    rw [hc'.bare, edgesOf_splitHeap hs.ne_zero h.counter_pos.ne']
  have hsplits := hs.splits h
  refine ⟨?_, ?_, ?_, ?_⟩
  · intro id m hm
    rw [hc'.bare, splitHeap] at hm
    have hn := ht.nonneg (bare_eq_some hs.node)
    by_cases hnew : id = c.counter
    · rw [hnew, Function.update_self] at hm
      exact Option.some.inj hm ▸ hn
    · rw [Function.update_of_ne hnew] at hm
      by_cases hchild : id = child
      · rw [hchild, Function.update_self] at hm
        exact Option.some.inj hm ▸ hn
      · rw [Function.update_of_ne hchild] at hm
        exact ht.nonneg hm
  · rw [hc'.evictableSize, ht.evictable, hc'.heapSum_eq h hs (lenWhere_halves _ hs.lt.le)]
  · rw [hc'.protectedSize, ht.protect, hc'.heapSum_eq h hs (lenWhere_halves _ hs.lt.le)]
  · intro id
    rw [hc'.evictableLeaves, ht.leaves]
    constructor
    · rintro ⟨hid, ⟨m, hm, hlock⟩, hno⟩
      have hnew : id ≠ c.counter := by
        rintro rfl
        exact absurd (hm.symm.trans (h.fresh le_rfl)) (Option.some_ne_none m)
      refine ⟨hid, ?_, ?_⟩
      · rw [hc'.bare, splitHeap, Function.update_of_ne hnew]
        by_cases hchild : id = child
        · subst hchild
          obtain rfl := Option.some.inj ((bare_eq_some hs.node).symm.trans hm)
          exact ⟨_, Function.update_self .., hlock⟩
        · rw [Function.update_of_ne hchild]
          exact ⟨m, hm, hlock⟩
      · intro ch e he hparent
        rw [hedges] at he
        rcases hsplits.cases he with ⟨-, rfl⟩ | ⟨-, rfl⟩ | ⟨-, -, hold⟩
        · exact hno child _ hsplits.edge hparent
        · exact hnew hparent.symm
        · exact hno ch e hold hparent
    · rintro ⟨hid, ⟨m, hm, hlock⟩, hno⟩
      rw [hedges] at hno
      -- the new node has the child it was split from
      have hnew : id ≠ c.counter := by
        rintro rfl
        exact hno child _ (splitEdges_child hsplits.ne) rfl
      rw [hc'.bare, splitHeap, Function.update_of_ne hnew] at hm
      refine ⟨hid, ?_, ?_⟩
      · by_cases hchild : id = child
        · subst hchild
          rw [Function.update_self] at hm
          obtain rfl := Option.some.inj hm
          exact ⟨n.bare, bare_eq_some hs.node, hlock⟩
        · rw [Function.update_of_ne hchild] at hm
          exact ⟨m, hm, hlock⟩
      · intro ch e he hparent
        have hch : ch ≠ c.counter := by
          rintro rfl
          exact absurd (he.symm.trans h.edge_fresh) (Option.some_ne_none e)
        by_cases hchild : ch = child
        · subst hchild
          obtain rfl := Option.some.inj (hsplits.edge.symm.trans he)
          exact hno c.counter _ splitEdges_new hparent
        · exact hno ch e ((splitEdges_of_ne hch hchild).trans he) hparent

/-- A change at one node leaves the status of nodes that are not its parent. -/
theorem leafy_update {heap : ℕ → Option TreeNode} {id j : ℕ} {n : Option TreeNode} (hid : id ≠ 0)
    (hj : j ≠ id) (hn : ∀ e, n.map edgeOf = some e → e.parent ≠ j)
    (hold : ∀ e, edgesOf heap id = some e → e.parent ≠ j) :
    Leafy (Function.update heap id n) j ↔ Leafy heap j := by
  unfold Leafy
  rw [edgesOf_update _ hid, Function.update_of_ne hj]
  refine and_congr_right fun _ => and_congr_right fun _ => ?_
  constructor
  · intro hno ch e he
    by_cases hch : ch = id
    · exact hold e (hch ▸ he)
    · exact hno ch e ((Function.update_of_ne hch ..).trans he)
  · intro hno ch e he
    by_cases hch : ch = id
    · rw [hch, Function.update_self] at he
      exact hn e he
    · rw [Function.update_of_ne hch] at he
      exact hno ch e he

theorem Tally.add (ht : Tally c) (h : Tree cfg c path) (h' : Tree cfg c' path') {id : ℕ}
    {key : RadixKey} {value : List ℤ}
    (hg : Grows cfg.pageSize (edgesOf c.bare) c.counter (edgeOf (newLeaf id key value)))
    (hc' : IsAdd c c' id key value) : Tally c' := by
  have hnew := h.counter_pos.ne'
  have hedges : edgesOf c'.bare =
      Function.update (edgesOf c.bare) c.counter (some (edgeOf (newLeaf id key value))) := by
    rw [hc'.bare, edgesOf_update _ hnew]
    rfl
  have hnonneg : ∀ {j m}, c'.bare j = some m → 0 ≤ m.lockRef := by
    intro j m hm
    rw [hc'.bare] at hm
    by_cases hj : j = c.counter
    · rw [hj, Function.update_self] at hm
      exact Option.some.inj hm ▸ le_rfl
    · rw [Function.update_of_ne hj] at hm
      exact ht.nonneg hm
  refine ⟨hnonneg, ?_, ?_, ?_⟩
  · rw [hc'.evictableSize, ht.evictable, hc'.heapSum_eq h]
    rfl
  · rw [hc'.protectedSize, ht.protect, hc'.heapSum_eq h]
    exact (add_zero _).symm
  · intro j
    rw [hc'.mem_leaves]
    by_cases hj : j = c.counter ∨ j = id
    · rw [if_pos hj]
      have hlive : ∃ n, c'.nodes j = some n := by
        rcases hj with rfl | rfl
        · have hbare : c'.bare c.counter = some (newLeaf id key value) := by
            rw [hc'.bare, Function.update_self]
          exact (nodes_of_bare hbare).imp fun _ => And.left
        · obtain ⟨p, hp⟩ : ∃ p, c.nodes j = some p := h.node_of_hosts hg.hosts
          have hbare : c'.bare j = some p.bare := by
            have hne : j ≠ c.counter := hg.parent_ne
            rw [hc'.bare, Function.update_of_ne hne, bare_eq_some hp]
          exact (nodes_of_bare hbare).imp fun _ => And.left
      obtain ⟨n, hn⟩ := hlive
      exact (h'.leafy_iff hnonneg hn).symm
    · rw [if_neg hj, ht.leaves, hc'.bare]
      obtain ⟨hj, hjid⟩ := not_or.mp hj
      refine (leafy_update hnew hj ?_ ?_).symm
      · rintro e he rfl
        exact hjid (Option.some.inj he ▸ rfl)
      · intro e he
        exact absurd (he.symm.trans h.edge_fresh) (Option.some_ne_none e)

theorem Tally.delete (ht : Tally c) (h : Tree cfg c path) (h' : Tree cfg c' path') {id : ℕ}
    {n : TreeNode} (hid : id ≠ 0) (hn : c.nodes id = some n) (hlock : n.lockRef = 0)
    (hc' : IsDelete c c' id n) : Tally c' := by
  have hparent := h.parent_eq hid hn
  have hedge := Tree.edge_of_node hid hn
  have hnonneg : ∀ {j m}, c'.bare j = some m → 0 ≤ m.lockRef := by
    intro j m hm
    rw [hc'.bare] at hm
    by_cases hj : j = id
    · rw [hj, Function.update_self] at hm
      exact absurd hm.symm (Option.some_ne_none m)
    · rw [Function.update_of_ne hj] at hm
      exact ht.nonneg hm
  refine ⟨hnonneg, ?_, ?_, ?_⟩
  · have hsum := hc'.heapSum_eq h hid hn (lenWhere (· = 0))
    have hlen : lenWhere (· = 0) n.bare = n.key.len := if_pos hlock
    rw [hc'.evictableSize, ht.evictable]
    omega
  · have hsum := hc'.heapSum_eq h hid hn (lenWhere (0 < ·))
    have hlen : lenWhere (0 < ·) n.bare = 0 := if_neg (hlock ▸ lt_irrefl _)
    rw [hc'.protectedSize, ht.protect]
    omega
  · intro j
    rw [hc'.mem_leaves, hparent]
    by_cases hj : (edgeOf n).parent = j
    · rw [if_pos (congrArg some hj)]
      obtain ⟨p, hp⟩ := h.node_of_hosts (h.forest.hosts_parent hedge)
      have hne : (edgeOf n).parent ≠ id := by
        intro heq
        have hlt := h.forest.parent_lt hedge
        rw [heq] at hlt
        exact lt_irrefl _ hlt
      have hbare : c'.bare (edgeOf n).parent = some p.bare := by
        rw [hc'.bare, Function.update_of_ne hne, bare_eq_some hp]
      have hlive : ∃ p', c'.nodes j = some p' :=
        (nodes_of_bare (hj ▸ hbare)).imp fun _ => And.left
      obtain ⟨p', hp'⟩ := hlive
      exact (h'.leafy_iff hnonneg hp').symm
    · rw [if_neg fun heq => hj (Option.some.inj heq), ht.leaves]
      by_cases hjid : j = id
      · refine iff_of_false (fun hand => hand.1 hjid) ?_
        rintro ⟨-, ⟨m, hm, -⟩, -⟩
        rw [hc'.bare, hjid, Function.update_self] at hm
        exact absurd hm.symm (Option.some_ne_none m)
      · rw [hc'.bare, leafy_update hid hjid]
        · exact ⟨fun hand => hand.2, fun hleafy => ⟨hjid, hleafy⟩⟩
        · intro e he
          exact absurd he.symm (Option.some_ne_none e)
        · intro e he
          obtain rfl := Option.some.inj (hedge.symm.trans he)
          exact hj

/-! ### Locks -/

/-- The number of held locks at or below a node. -/
noncomputable def locksAt (heap : ℕ → Option TreeNode) (held : Multiset ℕ) (id : ℕ) : ℕ := by
  classical exact held.countP (Below (edgesOf heap) id)

theorem locksAt_congr {heap heap' : ℕ → Option TreeNode} {held : Multiset ℕ} {id id' : ℕ}
    (h : ∀ b ∈ held, Below (edgesOf heap) id b ↔ Below (edgesOf heap') id' b) :
    locksAt heap held id = locksAt heap' held id' := by
  classical exact Multiset.countP_congr rfl fun b hb => propext (h b hb)

theorem locksAt_eq_zero {heap : ℕ → Option TreeNode} {held : Multiset ℕ} {id : ℕ} :
    locksAt heap held id = 0 ↔ ∀ b ∈ held, ¬ Below (edgesOf heap) id b := by
  classical exact Multiset.countP_eq_zero

theorem locksAt_mono {heap : ℕ → Option TreeNode} {held : Multiset ℕ} {id ch : ℕ}
    (h : Below (edgesOf heap) id ch) : locksAt heap held ch ≤ locksAt heap held id := by
  classical
  unfold locksAt
  rw [Multiset.countP_eq_card_filter, Multiset.countP_eq_card_filter]
  exact Multiset.card_le_card (Multiset.monotone_filter_right held fun _ hb => h.trans hb)

/-- `lock_ref` counts the held locks at or below a node. -/
structure Locks (c : RadixCache) (held : Multiset ℕ) : Prop where
  live : ∀ {id}, id ∈ held → ∃ n, c.bare id = some n
  lock : ∀ {id n}, id ≠ 0 → c.bare id = some n → n.lockRef = locksAt c.bare held id

/-- A node that is nobody's parent is above itself only. -/
theorem not_below_of_childless
    {edges : ℕ → Option (Edge (Option String × Option String) (ℤ × Option ℤ) ℤ)}
    {id b : ℕ} (hid : ∀ {ch e}, edges ch = some e → e.parent ≠ id) (hb : b ≠ id) :
    ¬ Below edges id b := by
  intro hbelow
  induction hbelow with
  | refl => exact hb rfl
  | step he _ ih => exact ih (hid he)

theorem Locks.split {held : Multiset ℕ} (hl : Locks c held) (h : Tree cfg c path) {child len : ℕ}
    {n : TreeNode} (hs : Splittable cfg c child n len) (hc' : IsSplit c c' child n len) :
    Locks c' held := by
  have hsplits := hs.splits h
  have hedges : edgesOf c'.bare = splitEdges (edgesOf c.bare) child c.counter (edgeOf n) len := by
    rw [hc'.bare, edgesOf_splitHeap hs.ne_zero h.counter_pos.ne']
  have hold : ∀ {b}, b ∈ held → b ≠ c.counter := by
    rintro b hb rfl
    obtain ⟨m, hm⟩ := hl.live hb
    exact absurd (hm.symm.trans (h.fresh le_rfl)) (Option.some_ne_none m)
  refine ⟨?_, ?_⟩
  · intro id hid
    obtain ⟨m, hm⟩ := hl.live hid
    rw [hc'.bare, splitHeap, Function.update_of_ne (hold hid)]
    by_cases hchild : id = child
    · subst hchild
      exact ⟨_, Function.update_self ..⟩
    · exact ⟨m, (Function.update_of_ne hchild ..).trans hm⟩
  · intro id m hid hm
    rw [hc'.bare, splitHeap] at hm
    have hchildLock := hl.lock hs.ne_zero (bare_eq_some hs.node)
    by_cases hnew : id = c.counter
    · subst hnew
      rw [Function.update_self] at hm
      rw [← Option.some.inj hm]
      refine hchildLock.trans (congrArg Nat.cast (locksAt_congr fun b hb => ?_))
      rw [hedges]
      exact (h.forest.below_split_new hsplits (hold hb)).symm
    · have hsame : locksAt c.bare held id = locksAt c'.bare held id := by
        refine locksAt_congr fun b hb => ?_
        rw [hedges]
        exact (h.forest.below_split hsplits hnew (hold hb)).symm
      rw [Function.update_of_ne hnew] at hm
      rw [← hsame]
      by_cases hchild : id = child
      · subst hchild
        rw [Function.update_self] at hm
        rw [← Option.some.inj hm]
        exact hchildLock
      · rw [Function.update_of_ne hchild] at hm
        exact hl.lock hid hm

theorem Locks.add {held : Multiset ℕ} (hl : Locks c held) (h : Tree cfg c path) {id : ℕ}
    {key : RadixKey} {value : List ℤ}
    (hg : Grows cfg.pageSize (edgesOf c.bare) c.counter (edgeOf (newLeaf id key value)))
    (hc' : IsAdd c c' id key value) : Locks c' held := by
  have hnew := h.counter_pos.ne'
  have hedges : edgesOf c'.bare =
      Function.update (edgesOf c.bare) c.counter (some (edgeOf (newLeaf id key value))) := by
    rw [hc'.bare, edgesOf_update _ hnew]
    rfl
  have hold : ∀ {b}, b ∈ held → b ≠ c.counter := by
    rintro b hb rfl
    obtain ⟨m, hm⟩ := hl.live hb
    exact absurd (hm.symm.trans (h.fresh le_rfl)) (Option.some_ne_none m)
  have hbelow : ∀ {a b}, b ∈ held → (Below (edgesOf c'.bare) a b ↔ Below (edgesOf c.bare) a b) := by
    intro a b hb
    rw [hedges]
    exact below_update (fun he => h.forest.childless_fresh hg he) (hold hb)
  refine ⟨?_, ?_⟩
  · intro b hb
    obtain ⟨m, hm⟩ := hl.live hb
    exact ⟨m, by rw [hc'.bare, Function.update_of_ne (hold hb), hm]⟩
  · intro j m hj hm
    rw [hc'.bare] at hm
    by_cases hjnew : j = c.counter
    · subst hjnew
      rw [Function.update_self] at hm
      rw [← Option.some.inj hm]
      refine congrArg Nat.cast (locksAt_eq_zero.mpr fun b hb => ?_).symm
      rw [hbelow hb]
      exact not_below_of_childless (fun he => h.forest.childless_fresh hg he) (hold hb)
    · rw [Function.update_of_ne hjnew] at hm
      rw [hl.lock hj hm]
      exact congrArg Nat.cast (locksAt_congr fun b hb => (hbelow hb).symm)

theorem Locks.delete {held : Multiset ℕ} (hl : Locks c held) (h : Tree cfg c path) {id : ℕ}
    {n : TreeNode} (hid : id ≠ 0) (hn : c.nodes id = some n) (hleaf : n.children.items = [])
    (hlock : n.lockRef = 0) (hc' : IsDelete c c' id n) : Locks c' held := by
  have hisLeaf := h.isLeaf hid hn hleaf
  have hedges : edgesOf c'.bare = Function.update (edgesOf c.bare) id none := by
    rw [hc'.bare, edgesOf_update _ hid]
    rfl
  -- an unlocked leaf is held by nobody
  have hold : ∀ {b}, b ∈ held → b ≠ id := by
    rintro b hb rfl
    have hzero := (hl.lock hid (bare_eq_some hn)).symm.trans hlock
    exact locksAt_eq_zero.mp (Int.ofNat.inj hzero) b hb .refl
  refine ⟨?_, ?_⟩
  · intro b hb
    obtain ⟨m, hm⟩ := hl.live hb
    exact ⟨m, by rw [hc'.bare, Function.update_of_ne (hold hb), hm]⟩
  · intro j m hj hm
    rw [hc'.bare] at hm
    by_cases hjid : j = id
    · rw [hjid, Function.update_self] at hm
      exact absurd hm.symm (Option.some_ne_none m)
    · rw [Function.update_of_ne hjid] at hm
      rw [hl.lock hj hm]
      refine congrArg Nat.cast (locksAt_congr fun b hb => ?_)
      rw [hedges]
      exact (below_update hisLeaf.childless (hold hb)).symm

/-! ### Locking and unlocking -/

/-- A node with its lock changed. -/
def relocked (n : TreeNode) (step : ℤ) : TreeNode := { n with lockRef := n.lockRef + step }

/-- What a change of the lock of one node does to the cache. -/
structure IsLock (c c' : RadixCache) (step threshold : ℤ) (id : ℕ) (n : TreeNode) : Prop where
  bare : c'.bare = Function.update c.bare id (some (relocked n.bare step))
  counter : c'.counter = c.counter
  evictableSize : c'.evictableSize = c.evictableSize - movedLen step threshold n
  protectedSize : c'.protectedSize = c.protectedSize + movedLen step threshold n
  mem_leaves : ∀ j, j ∈ c'.evictableLeaves ↔
    if j = id then (c'.node id).lockRef ≤ 0 ∧ (c'.node id).children.items = []
    else j ∈ c.evictableLeaves

theorem edgesOf_relocked {heap : ℕ → Option TreeNode} {id : ℕ} {n : TreeNode} (step : ℤ)
    (hn : heap id = some n) :
    edgesOf (Function.update heap id (some (relocked n step))) = edgesOf heap := by
  funext j
  unfold edgesOf
  by_cases hj : j = id
  · rw [hj, Function.update_self, hn]
    rfl
  · rw [Function.update_of_ne hj]

theorem IsLock.edges {step threshold : ℤ} {id : ℕ} {n : TreeNode} (hn : c.nodes id = some n)
    (hc' : IsLock c c' step threshold id n) : edgesOf c'.bare = edgesOf c.bare := by
  rw [hc'.bare]
  exact edgesOf_relocked step (bare_eq_some hn)

theorem Tree.lockNode (h : Tree cfg c path) (step threshold : ℤ) {id : ℕ} {n : TreeNode}
    (hid : id ≠ 0) (hn : c.nodes id = some n) :
    IsLock c (c.lockNode step threshold id) step threshold id n ∧
      Tree cfg (c.lockNode step threshold id) path := by
  let c₁ : RadixCache :=
    { c with
      evictableSize := c.evictableSize - movedLen step threshold n
      protectedSize := c.protectedSize + movedLen step threshold n }
  let c₂ := c₁.setNode id (relocked n step)
  have hrun : c.lockNode step threshold id = c₂.updateLeafStatus id := by
    unfold RadixCache.lockNode
    rw [node_eq hn]
    rfl
  have hbare : (c.lockNode step threshold id).bare =
      Function.update c.bare id (some (relocked n.bare step)) := by
    rw [hrun, bare_updateLeafStatus]
    exact bare_setNode c₁ id (relocked n step)
  have hedges : edgesOf (c.lockNode step threshold id).bare = edgesOf c.bare := by
    rw [hbare]
    exact edgesOf_relocked step (bare_eq_some hn)
  have hof : ∀ {j key ch}, ChildOf cfg (c.lockNode step threshold id).bare j key ch ↔
      ChildOf cfg c.bare j key ch := by
    intro j key ch
    rw [hbare, childOf_update]
    by_cases hch : ch = id
    · rw [if_pos hch, hch]
      unfold ChildOf
      rw [bare_eq_some hn]
      constructor
      · rintro ⟨m, hm, hp, hk⟩
        obtain rfl := Option.some.inj hm
        exact ⟨n.bare, rfl, hp, hk⟩
      · rintro ⟨m, hm, hp, hk⟩
        obtain rfl := Option.some.inj hm
        exact ⟨_, rfl, hp, hk⟩
    · rw [if_neg hch]
  refine ⟨⟨hbare, ?_, ?_, ?_, ?_⟩, ?_, ?_, ?_, ?_, ?_⟩
  · rw [hrun]
    exact counter_updateLeafStatus c₂ id
  · rw [hrun]
    exact evictableSize_updateLeafStatus c₂ id
  · rw [hrun]
    exact protectedSize_updateLeafStatus c₂ id
  · intro j
    rw [hrun, mem_updateLeafStatus, node_updateLeafStatus]
    rfl
  · exact hedges ▸ h.forest
  · rw [hbare, Function.update_of_ne hid.symm, h.root]
  · intro j m hj hm
    rw [hbare] at hm
    by_cases hjid : j = id
    · subst hjid
      rw [Function.update_self] at hm
      obtain ⟨p, hp⟩ := h.parent hid (bare_eq_some hn)
      exact ⟨p, Option.some.inj hm ▸ hp⟩
    · rw [Function.update_of_ne hjid] at hm
      exact h.parent hj hm
  · intro j m hm key ch
    rw [hof]
    rw [hrun, nodes_updateLeafStatus] at hm
    by_cases hjid : j = id
    · subst hjid
      obtain rfl := Option.some.inj ((nodes_setNode_self c₁ j _).symm.trans hm)
      exact h.children hn key ch
    · exact h.children ((nodes_setNode_of_ne c₁ _ hjid).symm.trans hm) key ch
  · intro j hj
    rw [hrun] at hj
    have hj' : c.counter ≤ j := (counter_updateLeafStatus c₂ id).ge.trans hj
    have hlt := h.lt_counter hn
    rw [hbare, Function.update_of_ne (by omega)]
    exact h.fresh hj'

/-- The two ways to change a lock. -/
def LockStep (step threshold : ℤ) : Prop := (step = 1 ∧ threshold = 0) ∨ (step = -1 ∧ threshold = 1)

theorem Tally.lock {step threshold : ℤ} (hstep : LockStep step threshold) (ht : Tally c)
    (h : Tree cfg c path) (h' : Tree cfg c' path') {id : ℕ} {n : TreeNode} (hid : id ≠ 0)
    (hn : c.nodes id = some n) (hge : 0 ≤ n.lockRef + step)
    (hc' : IsLock c c' step threshold id n) : Tally c' := by
  have hlock := ht.nonneg (bare_eq_some hn)
  rw [bare_lockRef] at hlock
  have hmem : id ∈ Finset.Ico 1 c.counter :=
    Finset.mem_Ico.mpr ⟨Nat.pos_of_ne_zero hid, h.lt_counter hn⟩
  have hsum : ∀ (p : ℤ → Prop) [DecidablePred p],
      heapSum c'.counter c'.bare (lenWhere p) + (if p n.lockRef then (n.key.len : ℤ) else 0) =
        heapSum c.counter c.bare (lenWhere p) +
          (if p (n.lockRef + step) then (n.key.len : ℤ) else 0) := by
    intro p _
    have hupdate := heapSum_update hmem c.bare (some (relocked n.bare step)) (lenWhere p)
    rw [bare_eq_some hn, Option.elim_some, Option.elim_some] at hupdate
    rw [hc'.counter, hc'.bare]
    exact hupdate
  have hnonneg : ∀ {j m}, c'.bare j = some m → 0 ≤ m.lockRef := by
    intro j m hm
    rw [hc'.bare] at hm
    by_cases hj : j = id
    · rw [hj, Function.update_self] at hm
      exact Option.some.inj hm ▸ hge
    · rw [Function.update_of_ne hj] at hm
      exact ht.nonneg hm
  refine ⟨hnonneg, ?_, ?_, ?_⟩
  · have hevict := hsum (· = 0)
    rw [hc'.evictableSize, ht.evictable, movedLen]
    rcases hstep with ⟨rfl, rfl⟩ | ⟨rfl, rfl⟩
    all_goals
      split at hevict <;> split at hevict <;> split <;> omega
  · have hprotect := hsum (0 < ·)
    rw [hc'.protectedSize, ht.protect, movedLen]
    rcases hstep with ⟨rfl, rfl⟩ | ⟨rfl, rfl⟩
    all_goals
      split at hprotect <;> split at hprotect <;> split <;> omega
  · intro j
    rw [hc'.mem_leaves]
    by_cases hj : j = id
    · have hlive : ∃ m, c'.nodes j = some m := by
        have hbare : c'.bare j = some (relocked n.bare step) := by
          rw [hc'.bare, hj, Function.update_self]
        exact (nodes_of_bare hbare).imp fun _ => And.left
      obtain ⟨m, hm⟩ := hlive
      rw [if_pos hj, h'.leafy_iff hnonneg hm, hj]
    · rw [if_neg hj, ht.leaves]
      unfold Leafy
      rw [hc'.edges hn, hc'.bare, Function.update_of_ne hj]

/-- How many nodes have a shorter path: a bound on the way to the root. -/
def rank (c : RadixCache) (path : ℕ → List (ℤ × Option ℤ)) (id : ℕ) : ℕ :=
  ((Finset.range c.counter).filter fun j =>
    (c.bare j).isSome ∧ (path j).length < (path id).length).card

theorem rank_le (c : RadixCache) (path : ℕ → List (ℤ × Option ℤ)) (id : ℕ) :
    rank c path id ≤ c.counter :=
  (Finset.card_filter_le _ _).trans (Finset.card_range _).le

theorem Tree.rank_parent_lt (h : Tree cfg c path) {id : ℕ} {n : TreeNode} (hid : id ≠ 0)
    (hn : c.nodes id = some n) : rank c path (edgeOf n).parent < rank c path id := by
  have hedge := Tree.edge_of_node hid hn
  have hlt := h.forest.parent_lt hedge
  obtain ⟨p, hp⟩ := h.node_of_hosts (h.forest.hosts_parent hedge)
  refine Finset.card_lt_card (Finset.ssubset_iff_of_subset ?_ |>.mpr ⟨(edgeOf n).parent, ?_, ?_⟩)
  · intro j hj
    obtain ⟨hj, hlive, hshort⟩ := Finset.mem_filter.mp hj
    exact Finset.mem_filter.mpr ⟨hj, hlive, hshort.trans hlt⟩
  · refine Finset.mem_filter.mpr ⟨Finset.mem_range.mpr (h.lt_counter hp), ?_, hlt⟩
    rw [bare_eq_some hp]
    rfl
  · exact fun hmem => lt_irrefl _ (Finset.mem_filter.mp hmem).2.2

theorem IsLock.rank_eq {step threshold : ℤ} {id : ℕ} {n : TreeNode} (hn : c.nodes id = some n)
    (hc' : IsLock c c' step threshold id n) (j : ℕ) : rank c' path j = rank c path j := by
  unfold rank
  rw [hc'.counter]
  refine congrArg Finset.card (Finset.filter_congr fun k _ => ?_)
  rw [hc'.bare]
  by_cases hk : k = id
  · rw [hk, Function.update_self, bare_eq_some hn]
    rfl
  · rw [Function.update_of_ne hk]

/-- What a climb does: it changes the locks from a node to the root, and nothing else. -/
structure IsClimb (c c' : RadixCache) (step : ℤ) (id : ℕ) : Prop where
  edges : edgesOf c'.bare = edgesOf c.bare
  counter : c'.counter = c.counter
  above : ∀ {a}, a ≠ 0 → Below (edgesOf c.bare) a id →
    c'.bare a = (c.bare a).map (relocked · step)
  other : ∀ {a}, a = 0 ∨ ¬ Below (edgesOf c.bare) a id → c'.bare a = c.bare a

/-- The root is above nothing, so a climb ends there. -/
theorem Tree.isClimb_root (h : Tree cfg c path) (step : ℤ) : IsClimb c c step 0 := by
  refine ⟨rfl, rfl, fun ha hbelow => ?_, fun _ => rfl⟩
  cases hbelow with
  | refl => exact absurd rfl ha
  | step he _ => exact absurd (he.symm.trans h.forest.root) (Option.some_ne_none _)

/-- A turn at a node and the climb from its parent are the climb from the node. -/
theorem IsLock.climb {c₁ c' : RadixCache} {step threshold : ℤ} {id : ℕ} {n : TreeNode}
    (hlock : IsLock c c₁ step threshold id n) (hn : c.nodes id = some n) (hzero : id ≠ 0)
    (hedge : edgesOf c.bare id = some (edgeOf n))
    (hnot : ¬ Below (edgesOf c.bare) id (edgeOf n).parent)
    (hclimb : IsClimb c₁ c' step (edgeOf n).parent) : IsClimb c c' step id := by
  have hedges := hlock.edges hn
  have hkept : ∀ {a}, a ≠ id → c₁.bare a = c.bare a := by
    intro a ha
    rw [hlock.bare, Function.update_of_ne ha]
  refine ⟨hclimb.edges.trans hedges, hclimb.counter.trans hlock.counter, ?_, ?_⟩
  · intro a ha hbelow
    by_cases hne : a = id
    · subst hne
      rw [hclimb.other (.inr (by rwa [hedges])), hlock.bare, Function.update_self,
        bare_eq_some hn]
      rfl
    · rw [← hkept hne]
      refine hclimb.above ha ?_
      rw [hedges]
      cases hbelow with
      | refl => exact absurd rfl hne
      | step he hparent =>
        obtain rfl := Option.some.inj (hedge.symm.trans he)
        exact hparent
  · intro a hor
    have hne : a ≠ id := by
      rintro rfl
      exact hor.elim hzero fun hnot' => hnot' .refl
    rw [← hkept hne]
    refine hclimb.other (hor.imp_right fun hnot' hbelow => hnot' ?_)
    rw [hedges] at hbelow
    exact .step hedge hbelow

theorem lockLoop_ok {step threshold : ℤ} (hstep : LockStep step threshold) {fuel id : ℕ}
    (delta : ℤ) {ns : Option String × Option String} (h : Tree cfg c path) (ht : Tally c)
    (hid : Hosts (edgesOf c.bare) ns id)
    (hge : ∀ {a n}, a ≠ 0 → Below (edgesOf c.bare) a id → c.bare a = some n → 0 ≤ n.lockRef + step)
    (hfuel : rank c path id ≤ fuel) :
    ∃ c' delta', lockLoop step threshold fuel c id delta = .ok (c', delta') ∧ Tree cfg c' path ∧
      Tally c' ∧ IsClimb c c' step id := by
  induction fuel generalizing c id delta ns with
  | zero =>
    by_cases hzero : id = 0
    · subst hzero
      exact ⟨c, delta, rfl, h, ht, h.isClimb_root step⟩
    · obtain ⟨n, hn⟩ := h.node_of_hosts hid
      have := h.rank_parent_lt hzero hn
      omega
  | succ fuel ih =>
    rw [lockLoop]
    by_cases hzero : id = 0
    · rw [if_pos hzero]
      subst hzero
      exact ⟨c, delta, rfl, h, ht, h.isClimb_root step⟩
    · rw [if_neg hzero]
      obtain ⟨n, hn⟩ := h.node_of_hosts hid
      have hedge := Tree.edge_of_node hzero hn
      have hlt := h.forest.parent_lt hedge
      have hrank := h.rank_parent_lt hzero hn
      obtain ⟨hlock, h₁⟩ := h.lockNode step threshold hzero hn
      have hge' := hge hzero .refl (bare_eq_some hn)
      rw [bare_lockRef] at hge'
      have ht₁ := ht.lock hstep h h₁ hzero hn hge' hlock
      have hedges := hlock.edges hn
      have hnot : ¬ Below (edgesOf c.bare) id (edgeOf n).parent := fun hbelow => by
        have := (h.forest.below_prefix hbelow).length_le
        omega
      have hkept : ∀ {a}, a ≠ id → (c.lockNode step threshold id).bare a = c.bare a := by
        intro a ha
        rw [hlock.bare, Function.update_of_ne ha]
      have hge₁ : ∀ {a m}, a ≠ 0 →
          Below (edgesOf (c.lockNode step threshold id).bare) a (edgeOf n).parent →
          (c.lockNode step threshold id).bare a = some m → 0 ≤ m.lockRef + step := by
        intro a m ha hbelow hm
        rw [hedges] at hbelow
        have hne : a ≠ id := fun heq => hnot (heq ▸ hbelow)
        rw [hkept hne] at hm
        exact hge ha (.step hedge hbelow) hm
      obtain ⟨c', delta', hloop, h', ht', hclimb⟩ :=
        ih (delta - movedLen step threshold (c.node id)) h₁ ht₁
          (hedges ▸ h.forest.hosts_parent hedge) hge₁ (by rw [hlock.rank_eq hn]; omega)
      refine ⟨c', delta', ?_, h', ht', hlock.climb hn hzero hedge hnot hclimb⟩
      rw [node_eq hn, h.parent_eq hzero hn]
      rw [node_eq hn] at hloop
      exact hloop

theorem locksAt_cons_of_below {heap : ℕ → Option TreeNode} {held : Multiset ℕ} {id a : ℕ}
    (h : Below (edgesOf heap) a id) : locksAt heap (id ::ₘ held) a = locksAt heap held a + 1 := by
  classical exact Multiset.countP_cons_of_pos held h

theorem locksAt_cons_of_not_below {heap : ℕ → Option TreeNode} {held : Multiset ℕ} {id a : ℕ}
    (h : ¬ Below (edgesOf heap) a id) : locksAt heap (id ::ₘ held) a = locksAt heap held a := by
  classical exact Multiset.countP_cons_of_neg held h

/-- The state of a radix cache, and the locks that are held on it. -/
structure Accounts (cfg : RadixConfig) (c : RadixCache) (path : ℕ → List (ℤ × Option ℤ))
    (held : Multiset ℕ) : Prop where
  tree : Tree cfg c path
  tally : Tally c
  locks : Locks c held

namespace Accounts
variable {held : Multiset ℕ} (ha : Accounts cfg c path held)
include ha

theorem descent (hd : Descent cfg c path c' path') (h' : Tree cfg c' path') :
    Accounts cfg c' path' held := by
  cases hd with
  | same => exact ha
  | split hs hc' => exact ⟨h', ha.tally.split ha.tree hs hc', ha.locks.split ha.tree hs hc'⟩

theorem attach {ns : Option String × Option String} {run : List (ℤ × Option ℤ)} {value : List ℤ}
    {id id' n : ℕ} (hattach : Attach cfg c path ns run value id n c' path' id')
    (h' : Tree cfg c' path') : Accounts cfg c' path' held := by
  cases hattach with
  | none => exact ha
  | leaf hns hunits hg hc' =>
    exact ⟨h', ha.tally.add ha.tree h' hg hc', ha.locks.add ha.tree hg hc'⟩

theorem delete (h' : Tree cfg c' path) {id : ℕ} {n : TreeNode} (hid : id ≠ 0)
    (hn : c.nodes id = some n) (hleaf : n.children.items = []) (hlock : n.lockRef = 0)
    (hc' : IsDelete c c' id n) : Accounts cfg c' path held :=
  ⟨h', ha.tally.delete ha.tree h' hid hn hlock hc',
    ha.locks.delete ha.tree hid hn hleaf hlock hc'⟩

omit ha in
/-- Any node of the tree hosts a namespace. -/
theorem hosts {id : ℕ} {n : TreeNode} (hn : c.nodes id = some n) :
    Hosts (edgesOf c.bare) (if id = 0 then (none, none) else n.key.namespaceOf) id := by
  by_cases hid : id = 0
  · exact .inl hid
  · rw [if_neg hid]
    exact .inr ⟨_, Tree.edge_of_node hid hn, rfl⟩

omit ha in
theorem live_of_climb {step : ℤ} {id j : ℕ} (hclimb : IsClimb c c' step id) {m : TreeNode}
    (hm : c.bare j = some m) : ∃ m', c'.bare j = some m' := by
  by_cases hor : j = 0 ∨ ¬ Below (edgesOf c.bare) j id
  · exact ⟨m, (hclimb.other hor).trans hm⟩
  · obtain ⟨hj, hbelow⟩ := not_or.mp hor
    refine ⟨relocked m step, ?_⟩
    rw [hclimb.above hj (not_not.mp hbelow), hm]
    rfl

/-- Locks follow a climb when what is held does. -/
theorem climb {step : ℤ} {id : ℕ} {held' : Multiset ℕ} (h' : Tree cfg c' path) (ht' : Tally c')
    (hclimb : IsClimb c c' step id) (hlive : ∀ {j}, j ∈ held' → j = id ∨ j ∈ held)
    (hid : ∃ n, c.bare id = some n)
    (hbelow : ∀ {j}, Below (edgesOf c.bare) j id →
      (locksAt c.bare held' j : ℤ) = locksAt c.bare held j + step)
    (hnot : ∀ {j}, ¬ Below (edgesOf c.bare) j id → locksAt c.bare held' j = locksAt c.bare held j) :
    Accounts cfg c' path held' := by
  refine ⟨h', ht', ?_, ?_⟩
  · intro j hj
    rcases hlive hj with rfl | hj
    · obtain ⟨n, hn⟩ := hid
      exact live_of_climb hclimb hn
    · obtain ⟨m, hm⟩ := ha.locks.live hj
      exact live_of_climb hclimb hm
  · intro j m hj hm
    have hsame : locksAt c'.bare held' j = locksAt c.bare held' j :=
      locksAt_congr fun b _ => by rw [hclimb.edges]
    rw [hsame]
    by_cases hb : Below (edgesOf c.bare) j id
    · rw [hclimb.above hj hb] at hm
      obtain ⟨m₀, hm₀, rfl⟩ := Option.map_eq_some_iff.mp hm
      show m₀.lockRef + step = _
      rw [ha.locks.lock hj hm₀, hbelow hb]
    · rw [hclimb.other (.inr hb)] at hm
      rw [ha.locks.lock hj hm, hnot hb]

/-- **A lock taken on a node of the tree.** -/
theorem incLockRef (henabled : cfg.disable = false) {id : ℕ} {n : TreeNode}
    (hn : c.nodes id = some n) :
    ∃ c' delta, c.incLockRef cfg id = .ok (c', delta) ∧ IsClimb c c' 1 id ∧
      Accounts cfg c' path (id ::ₘ held) := by
  obtain ⟨c', delta, hrun, h', ht', hclimb⟩ := lockLoop_ok (.inl ⟨rfl, rfl⟩) 0 ha.tree
    ha.tally (hosts hn) (fun _ _ hm => by have := ha.tally.nonneg hm; omega)
    (rank_le c path id)
  refine ⟨c', delta, ?_, hclimb, ?_⟩
  · rw [RadixCache.incLockRef, henabled, if_neg Bool.false_ne_true]
    exact hrun
  · refine ha.climb h' ht' hclimb (fun hj => Multiset.mem_cons.mp hj) ⟨_, bare_eq_some hn⟩ ?_ ?_
    · intro j hbelow
      rw [locksAt_cons_of_below hbelow]
      push_cast
      rfl
    · exact locksAt_cons_of_not_below

/-- **A held lock given back.** -/
theorem decLockRef (henabled : cfg.disable = false) {id : ℕ} (hid : id ∈ held) :
    ∃ c' delta, c.decLockRef cfg id = .ok (c', delta) ∧ IsClimb c c' (-1) id ∧
      Accounts cfg c' path (held.erase id) := by
  obtain ⟨m, hm⟩ := ha.locks.live hid
  obtain ⟨n, hn, rfl⟩ := nodes_of_bare hm
  obtain ⟨held', rfl⟩ := Multiset.exists_cons_of_mem hid
  rw [Multiset.erase_cons_head]
  -- the lock given back is one at or below each node on the way
  have hge : ∀ {a m}, a ≠ 0 → Below (edgesOf c.bare) a id → c.bare a = some m →
      0 ≤ m.lockRef + -1 := by
    intro a m hne hbelow hm
    have hlock := ha.locks.lock hne hm
    rw [locksAt_cons_of_below hbelow] at hlock
    push_cast at hlock
    omega
  obtain ⟨c', delta, hrun, h', ht', hclimb⟩ := lockLoop_ok (.inr ⟨rfl, rfl⟩) 0 ha.tree
    ha.tally (hosts hn) hge (rank_le c path id)
  refine ⟨c', delta, ?_, hclimb, ?_⟩
  · rw [RadixCache.decLockRef, henabled, if_neg Bool.false_ne_true]
    exact hrun
  · refine ha.climb h' ht' hclimb (fun hj => .inr (Multiset.mem_cons_of_mem hj)) ⟨_, hm⟩ ?_ ?_
    · intro j hbelow
      rw [locksAt_cons_of_below hbelow]
      push_cast
      omega
    · exact fun hnot => (locksAt_cons_of_not_below hnot).symm

end Accounts

/-! ### Eviction -/

/-- Unlocked leaves that go one after the other. -/
inductive Deletes (cfg : RadixConfig) (path : ℕ → List (ℤ × Option ℤ)) :
    RadixCache → List (ℕ × TreeNode) → RadixCache → Prop
  | nil {c : RadixCache} : Deletes cfg path c [] c
  | cons {c c₁ c' : RadixCache} {id : ℕ} {n : TreeNode} {removed : List (ℕ × TreeNode)}
    (hid : id ≠ 0) (hn : c.nodes id = some n) (hleaf : n.children.items = [])
    (hlock : n.lockRef = 0) (hc₁ : IsDelete c c₁ id n) (h₁ : Tree cfg c₁ path)
    (hrest : Deletes cfg path c₁ removed c') : Deletes cfg path c ((id, n) :: removed) c'

namespace Deletes
variable {removed : List (ℕ × TreeNode)} (hd : Deletes cfg path c removed c')
include hd

theorem accounts {held : Multiset ℕ} (ha : Accounts cfg c path held) :
    Accounts cfg c' path held := by
  induction hd with
  | nil => exact ha
  | cons hid hn hleaf hlock hc₁ h₁ _ ih => exact ih (ha.delete h₁ hid hn hleaf hlock hc₁)

/-- What is removed was there, unlocked, and is there no more. -/
theorem removed_spec {id : ℕ} {n : TreeNode} (hmem : (id, n) ∈ removed) :
    id ≠ 0 ∧ c.bare id = some n.bare ∧ n.lockRef = 0 ∧ c'.bare id = none := by
  -- what is gone stays gone
  have hgone : ∀ {c c' : RadixCache} {removed : List (ℕ × TreeNode)} {j : ℕ},
      Deletes cfg path c removed c' → c.bare j = none → c'.bare j = none := by
    intro c c' removed j hd hj
    induction hd with
    | nil => exact hj
    | @cons c c₁ _ id _ _ _ _ _ _ hc₁ _ _ ih =>
      refine ih ?_
      rw [hc₁.bare]
      by_cases hjid : j = id
      · rw [hjid, Function.update_self]
      · rw [Function.update_of_ne hjid, hj]
  induction hd with
  | nil => exact absurd hmem List.not_mem_nil
  | @cons c c₁ _ id' n' _ hid hn _ hlock hc₁ _ hrest ih =>
    rcases List.mem_cons.mp hmem with heq | hmem
    · obtain ⟨rfl, rfl⟩ := Prod.mk.inj heq
      refine ⟨hid, bare_eq_some hn, hlock, hgone hrest ?_⟩
      rw [hc₁.bare, Function.update_self]
    · obtain ⟨hne, hbare, hzero, hnone⟩ := ih hmem
      refine ⟨hne, ?_, hzero, hnone⟩
      rw [hc₁.bare] at hbare
      by_cases hidid : id = id'
      · rw [hidid, Function.update_self] at hbare
        exact absurd hbare.symm (Option.some_ne_none _)
      · rwa [Function.update_of_ne hidid] at hbare

/-- What is not removed stays. -/
theorem kept {id : ℕ} (hid : id ∉ removed.map Prod.fst) : c'.bare id = c.bare id := by
  induction hd with
  | nil => rfl
  | cons _ _ _ _ hc₁ _ _ ih =>
    rw [List.map_cons, List.mem_cons, not_or] at hid
    rw [ih hid.2, hc₁.bare, Function.update_of_ne hid.1]

theorem nodup : (removed.map Prod.fst).Nodup := by
  induction hd with
  | nil => exact List.nodup_nil
  | @cons c c₁ c' id n removed _ _ _ _ hc₁ _ hrest ih =>
    rw [List.map_cons, List.nodup_cons]
    refine ⟨fun hmem => ?_, ih⟩
    obtain ⟨⟨id', n'⟩, hmem', rfl⟩ := List.mem_map.mp hmem
    have hbare := (hrest.removed_spec hmem').2.1
    rw [hc₁.bare, Function.update_self] at hbare
    exact absurd hbare.symm (Option.some_ne_none _)

theorem length_value (h : Tree cfg c path) {id : ℕ} {n : TreeNode} (hmem : (id, n) ∈ removed) :
    n.value.length = n.key.len := by
  obtain ⟨hid, hbare, -⟩ := hd.removed_spec hmem
  obtain ⟨m, hm, hbare'⟩ := nodes_of_bare hbare
  have hslots := h.forest.slots (Tree.edge_of_node hid hm)
  rw [← edgeOf_bare, hbare', edgeOf_bare] at hslots
  exact hslots.trans RadixKey.length_units

theorem evictableSize_eq : c'.evictableSize + (removed.map fun x => (x.2.key.len : ℤ)).sum =
    c.evictableSize := by
  induction hd with
  | nil => exact add_zero _
  | cons _ _ _ _ hc₁ _ _ ih =>
    have hsize := hc₁.evictableSize
    rw [List.map_cons, List.sum_cons]
    dsimp only
    omega

end Deletes

theorem Tally.node_nonneg (ht : Tally c) (id : ℕ) : 0 ≤ (c.node id).lockRef := by
  cases hn : c.nodes id with
  | none =>
    rw [node, hn]
    exact zero_le_one
  | some n =>
    have hle := ht.nonneg (bare_eq_some hn)
    rwa [bare_lockRef, ← node_eq hn] at hle

/-- The heap of `evict` is the set of leaves all the time. -/
theorem IsDelete.heap_eq (h : Tree cfg c path) (ht : Tally c) (ht' : Tally c') {id : ℕ}
    {n : TreeNode}
    (hid : id ≠ 0) (hn : c.nodes id = some n) (hc' : IsDelete c c' id n) {p : ℕ}
    (hp : n.parent = some p) :
    (if (c'.node p).children.items = [] ∧ (c'.node p).lockRef = 0 then
      p ::ₘ c.evictableLeaves.val.erase id else c.evictableLeaves.val.erase id) =
        c'.evictableLeaves.val := by
  have hnonneg := ht'.node_nonneg p
  have hnot : p ∉ c.evictableLeaves := by
    intro hmem
    refine ((ht.leaves p).mp hmem).2.2 id _ (Tree.edge_of_node hid hn) ?_
    exact Option.some.inj ((h.parent_eq hid hn).symm.trans hp)
  have hmem : ∀ j, j ∈ c'.evictableLeaves ↔
      if p = j then (c'.node j).lockRef ≤ 0 ∧ (c'.node j).children.items = []
      else j ≠ id ∧ j ∈ c.evictableLeaves := by
    intro j
    simp only [hc'.mem_leaves, hp, Option.some_inj]
  rw [← Finset.erase_val]
  by_cases hstatus : (c'.node p).children.items = [] ∧ (c'.node p).lockRef = 0
  · rw [if_pos hstatus, ← Finset.insert_val_of_notMem fun hin => hnot (Finset.mem_of_mem_erase hin)]
    refine congrArg Finset.val (Finset.ext fun j => Iff.symm ?_)
    rw [hmem, Finset.mem_insert, Finset.mem_erase]
    by_cases hj : p = j
    · subst hj
      rw [if_pos rfl]
      exact iff_of_true ⟨hstatus.2.le, hstatus.1⟩ (.inl rfl)
    · rw [if_neg hj, or_iff_right fun heq => hj heq.symm]
  · rw [if_neg hstatus]
    refine congrArg Finset.val (Finset.ext fun j => Iff.symm ?_)
    rw [hmem, Finset.mem_erase]
    by_cases hj : p = j
    · subst hj
      rw [if_pos rfl]
      refine iff_of_false (fun hand => hstatus ⟨hand.2, le_antisymm hand.1 hnonneg⟩) ?_
      exact fun hand => hnot hand.2
    · rw [if_neg hj]

theorem Accounts.evictLoop {held : Multiset ℕ} (order : EvictionOrder) {numTokens fuel : ℕ}
    (numEvicted : ℕ) (freed : List (List ℤ)) (ha : Accounts cfg c path held)
    (hfuel : numTokens - numEvicted ≤ fuel) :
    ∃ c' num removed,
      RadixCache.evictLoop cfg order numTokens fuel c c.evictableLeaves.val numEvicted freed =
        .ok (c', num, freed ++ removed.map fun x => x.2.value) ∧
      Deletes cfg path c removed c' ∧
      num = numEvicted + (removed.map fun x => x.2.value.length).sum ∧
      (numTokens ≤ num ∨ c'.evictableLeaves = ∅) := by
  induction fuel generalizing c numEvicted freed with
  | zero =>
    refine ⟨c, numEvicted, [], ?_, .nil, rfl, .inl (by omega)⟩
    rw [List.map_nil, List.append_nil]
    rfl
  | succ fuel ih =>
    rw [RadixCache.evictLoop]
    by_cases hmore : numEvicted < numTokens ∧ c.evictableLeaves.val ≠ 0
    · rw [if_pos hmore]
      have h := ha.tree
      -- the node that is popped is an unlocked leaf
      have hpop := order.mem hmore.2
      generalize order.heappop c.evictableLeaves.val = x at hpop
      obtain ⟨hx, ⟨m, hm, hlock⟩, hchildless⟩ := (ha.tally.leaves x).mp hpop
      obtain ⟨n, hn, rfl⟩ := nodes_of_bare hm
      have hleaf := (h.items_eq_nil_iff hn).mpr fun {ch e} he => hchildless ch e he
      obtain ⟨c₁, hdelete, hc₁, h₁⟩ := h.deleteLeaf hx hn hleaf
      have ha₁ := ha.delete h₁ hx hn hleaf hlock hc₁
      have hpos : 0 < n.value.length := by
        have hslots : n.value.length = _ := h.forest.slots (Tree.edge_of_node hx hn)
        rw [hslots]
        exact h.forest.nonempty (Tree.edge_of_node hx hn)
      obtain ⟨c', num, removed, hloop, hd, hnum, hend⟩ :=
        ih (numEvicted + n.value.length) (freed ++ [n.value]) ha₁ (by omega)
      refine ⟨c', num, (x, n) :: removed, ?_, .cons hx hn hleaf hlock hc₁ h₁ hd, ?_, hend⟩
      · dsimp only [bind, Except.bind]
        rw [hdelete]
        dsimp only
        rw [node_eq hn, h.parent_eq hx hn]
        dsimp only
        rw [hc₁.heap_eq h ha.tally ha₁.tally hx hn (h.parent_eq hx hn), hloop, List.map_cons,
          List.append_assoc, List.singleton_append]
      · rw [List.map_cons, List.sum_cons]
        dsimp only
        omega
    · rw [if_neg hmore]
      refine ⟨c, numEvicted, [], ?_, .nil, rfl, ?_⟩
      · rw [List.map_nil, List.append_nil]
        rfl
      · rcases not_and_or.mp hmore with hle | hempty
        · exact .inl (not_lt.mp hle)
        · exact .inr (Finset.val_eq_zero.mp (not_not.mp hempty))

namespace Accounts
variable {held : Multiset ℕ} (ha : Accounts cfg c path held)
include ha

/-- **A parent below the root is locked at least as often as its child.** -/
theorem lockRef_le_parent {id p : ℕ} {n m : TreeNode} (hn : c.nodes id = some n)
    (hp : n.parent = some p) (hm : c.nodes p = some m) (hp0 : p ≠ 0) : n.lockRef ≤ m.lockRef := by
  have hid := ha.tree.ne_zero_of_parent (bare_eq_some hn) hp
  have hedge := Tree.edge_of_node hid hn
  have hparent : (edgeOf n).parent = p := Option.some.inj ((ha.tree.parent_eq hid hn).symm.trans hp)
  subst hparent
  have hle : locksAt c.bare held id ≤ locksAt c.bare held _ := locksAt_mono (.step hedge .refl)
  have hlock := ha.locks.lock hid (bare_eq_some hn)
  have hlock' := ha.locks.lock hp0 (bare_eq_some hm)
  rw [bare_lockRef] at hlock hlock'
  omega

/-- Without a leaf to evict there is nothing to evict. -/
theorem evictableSize_eq_zero (hempty : c.evictableLeaves = ∅) : c.evictableSize = 0 := by
  have h := ha.tree
  rw [ha.tally.evictable]
  refine Finset.sum_eq_zero fun id hid => ?_
  by_contra hne
  -- among the unlocked nodes take one with the longest path
  let unlocked := (Finset.Ico 1 c.counter).filter fun j =>
    (c.bare j).elim 0 (lenWhere (· = 0)) ≠ 0
  obtain ⟨top, htop, hlongest⟩ :=
    unlocked.exists_max_image (fun j => (path j).length) ⟨id, Finset.mem_filter.mpr ⟨hid, hne⟩⟩
  obtain ⟨hmem, hpos⟩ := Finset.mem_filter.mp htop
  have htop0 : top ≠ 0 := (Nat.pos_iff_ne_zero.mp (Finset.mem_Ico.mp hmem).1)
  cases hm : c.bare top with
  | none =>
    rw [hm] at hpos
    exact hpos rfl
  | some m =>
    rw [hm, Option.elim_some, lenWhere] at hpos
    have hlock : m.lockRef = 0 := by
      by_contra hlock
      exact hpos (if_neg hlock)
    -- it is a leaf
    have hleafy : Leafy c.bare top := by
      refine ⟨htop0, ⟨m, hm, hlock⟩, fun ch e he hparent => ?_⟩
      obtain ⟨hch, n, hn, rfl⟩ := Tree.node_of_edge he
      obtain ⟨t, ht, rfl⟩ := nodes_of_bare hm
      have hle := ha.lockRef_le_parent hn (hparent ▸ h.parent_eq hch hn) ht htop0
      have hnonneg := ha.tally.nonneg (bare_eq_some hn)
      rw [bare_lockRef] at hlock hnonneg
      have hpage := h.page_le hch hn
      have hpage_pos := cfg.pageSize_pos
      have hlonger := h.forest.parent_lt he
      rw [hparent] at hlonger
      refine absurd (hlongest ch (Finset.mem_filter.mpr ⟨?_, ?_⟩)) (not_le.mpr hlonger)
      · exact Finset.mem_Ico.mpr ⟨Nat.pos_of_ne_zero hch, h.lt_counter hn⟩
      · rw [bare_eq_some hn, Option.elim_some, lenWhere, if_pos (show n.bare.lockRef = 0 by
          rw [bare_lockRef]; omega), bare_key]
        omega
    have hin := (ha.tally.leaves top).mpr hleafy
    rw [hempty] at hin
    exact absurd hin (Finset.notMem_empty top)

/-- **Eviction frees what it is asked for, or all that can be.** -/
theorem evict (henabled : cfg.disable = false) (numTokens : ℕ) (order : EvictionOrder) :
    ∃ c' num removed, c.evict cfg numTokens order = .ok (c', num, removed.map fun x => x.2.value) ∧
      Deletes cfg path c removed c' ∧ num = (removed.map fun x => x.2.value.length).sum ∧
      min (numTokens : ℤ) c.evictableSize ≤ num := by
  obtain ⟨c', num, removed, hrun, hd, hnum, hend⟩ :=
    ha.evictLoop order 0 [] (Nat.sub_zero numTokens).le
  rw [Nat.zero_add] at hnum
  refine ⟨c', num, removed, ?_, hd, hnum, ?_⟩
  · rw [RadixCache.evict, henabled, if_neg Bool.false_ne_true]
    exact hrun
  · rcases hend with hle | hempty
    · exact (min_le_left _ _).trans (Int.ofNat_le.mpr hle)
    · have hzero := (hd.accounts ha).evictableSize_eq_zero hempty
      have hsize := hd.evictableSize_eq
      have hlen : (removed.map fun x => x.2.value.length) = removed.map fun x => x.2.key.len :=
        List.map_congr_left fun x hx => hd.length_value ha.tree hx
      have hcast : (((removed.map fun x => x.2.key.len).sum : ℕ) : ℤ) =
          (removed.map fun x => (x.2.key.len : ℤ)).sum := by
        rw [Nat.cast_list_sum, List.map_map]
        rfl
      refine (min_le_right _ _).trans ?_
      rw [hnum, hlen, hcast]
      omega

end Accounts

end RadixCache

end LatentSpec
