import LatentSpec.RadixCache

/-! # The tree in the heap

The heap of a radix cache holds a forest of labelled edges, one tree for each namespace, and the
dictionaries of the nodes say the same as their parents (`Tree`).  The steps that change the tree
are `_split_node`, the new leaf of `_insert_helper` and `_delete_leaf`; each keeps it and does to
the edges what its name says.
-/
namespace LatentSpec
open PageForest

/-- A node without its dictionary. -/
def TreeNode.bare (n : TreeNode) : TreeNode := { n with children := .empty }

namespace RadixCache
variable {cfg : RadixConfig} {c : RadixCache} {path : ℕ → List (ℤ × Option ℤ)}

def bare (c : RadixCache) (id : ℕ) : Option TreeNode := (c.nodes id).map TreeNode.bare

def edgeOf (n : TreeNode) : Edge (Option String × Option String) (ℤ × Option ℤ) ℤ :=
  ⟨n.parent.getD 0, n.key.namespaceOf, n.key.units, n.value⟩

def edgesOf (heap : ℕ → Option TreeNode) (id : ℕ) :
    Option (Edge (Option String × Option String) (ℤ × Option ℤ) ℤ) :=
  if id = 0 then none else (heap id).map edgeOf

/-- `ch` is the child of `id` under a dictionary key, by its parent and its key. -/
def ChildOf (cfg : RadixConfig) (heap : ℕ → Option TreeNode) (id : ℕ) (key : PyValue) (ch : ℕ) :
    Prop :=
  ∃ m, heap ch = some m ∧ m.parent = some id ∧ m.key.childKey cfg.pageSize = .ok key

/-- The heap is a tree. -/
structure Tree (cfg : RadixConfig) (c : RadixCache) (path : ℕ → List (ℤ × Option ℤ)) : Prop where
  forest : Forest cfg.pageSize (edgesOf c.bare) path
  root : c.bare 0 = some rootNode
  parent : ∀ {id n}, id ≠ 0 → c.bare id = some n → ∃ p, n.parent = some p
  children : ∀ {id n}, c.nodes id = some n →
    ∀ key ch, n.children.get? key = some ch ↔ ChildOf cfg c.bare id key ch
  fresh : ∀ {id}, c.counter ≤ id → c.bare id = none

/-! ### Heaps -/

@[simp] theorem edgeOf_bare (n : TreeNode) : edgeOf n.bare = edgeOf n := rfl
@[simp] theorem bare_key (n : TreeNode) : n.bare.key = n.key := rfl
@[simp] theorem bare_value (n : TreeNode) : n.bare.value = n.value := rfl
@[simp] theorem bare_parent (n : TreeNode) : n.bare.parent = n.parent := rfl
@[simp] theorem bare_lockRef (n : TreeNode) : n.bare.lockRef = n.lockRef := rfl

theorem bare_eq_some {id : ℕ} {n : TreeNode} (hn : c.nodes id = some n) :
    c.bare id = some n.bare := by
  rw [bare, hn]
  rfl

theorem nodes_of_bare {id : ℕ} {m : TreeNode} (hm : c.bare id = some m) :
    ∃ n, c.nodes id = some n ∧ n.bare = m := Option.map_eq_some_iff.mp hm

theorem node_eq {id : ℕ} {n : TreeNode} (hn : c.nodes id = some n) : c.node id = n := by
  rw [node, hn]
  rfl

theorem bare_update (c : RadixCache) (id : ℕ) (n : Option TreeNode) :
    (fun j => (Function.update c.nodes id n j).map TreeNode.bare) =
      Function.update c.bare id (n.map TreeNode.bare) := by
  funext j
  by_cases hj : j = id
  · rw [hj, Function.update_self, Function.update_self]
  · rw [Function.update_of_ne hj, Function.update_of_ne hj]
    rfl

@[simp] theorem bare_setNode (c : RadixCache) (id : ℕ) (n : TreeNode) :
    (c.setNode id n).bare = Function.update c.bare id (some n.bare) := bare_update c id (some n)

theorem nodes_setNode_self (c : RadixCache) (id : ℕ) (n : TreeNode) :
    (c.setNode id n).nodes id = some n := Function.update_self ..

theorem nodes_setNode_of_ne (c : RadixCache) {id j : ℕ} (n : TreeNode) (h : j ≠ id) :
    (c.setNode id n).nodes j = c.nodes j := Function.update_of_ne h ..

theorem node_setNode_of_ne (c : RadixCache) {id j : ℕ} (n : TreeNode) (h : j ≠ id) :
    (c.setNode id n).node j = c.node j :=
  congrArg (Option.getD · rootNode) (nodes_setNode_of_ne c n h)

@[simp] theorem nodes_updateLeafStatus (c : RadixCache) (id : ℕ) :
    (c.updateLeafStatus id).nodes = c.nodes := by
  unfold updateLeafStatus
  split
  · rfl
  · split <;> rfl

@[simp] theorem bare_updateLeafStatus (c : RadixCache) (id : ℕ) :
    (c.updateLeafStatus id).bare = c.bare := by
  funext j
  rw [bare, nodes_updateLeafStatus]
  rfl

@[simp] theorem node_updateLeafStatus (c : RadixCache) (id j : ℕ) :
    (c.updateLeafStatus id).node j = c.node j := by
  rw [node, nodes_updateLeafStatus]
  rfl

@[simp] theorem counter_updateLeafStatus (c : RadixCache) (id : ℕ) :
    (c.updateLeafStatus id).counter = c.counter := by
  unfold updateLeafStatus
  split
  · rfl
  · split <;> rfl

@[simp] theorem evictableSize_updateLeafStatus (c : RadixCache) (id : ℕ) :
    (c.updateLeafStatus id).evictableSize = c.evictableSize := by
  unfold updateLeafStatus
  split
  · rfl
  · split <;> rfl

@[simp] theorem protectedSize_updateLeafStatus (c : RadixCache) (id : ℕ) :
    (c.updateLeafStatus id).protectedSize = c.protectedSize := by
  unfold updateLeafStatus
  split
  · rfl
  · split <;> rfl

/-- **The leaf status of a node follows its lock and its dictionary.** -/
theorem mem_updateLeafStatus (c : RadixCache) (id j : ℕ) :
    j ∈ (c.updateLeafStatus id).evictableLeaves ↔
      if j = id then (c.node id).lockRef ≤ 0 ∧ (c.node id).children.items = []
      else j ∈ c.evictableLeaves := by
  unfold updateLeafStatus
  by_cases hlock : 0 < (c.node id).lockRef
  · rw [if_pos hlock]
    by_cases hj : j = id
    · simp [hj, hlock]
    · simp [hj]
  · rw [if_neg hlock]
    by_cases hitems : (c.node id).children.items = []
    · rw [if_neg (not_not.mpr hitems)]
      by_cases hj : j = id
      · simp [hj, not_lt.mp hlock, hitems]
      · simp [hj]
    · rw [if_pos hitems]
      by_cases hj : j = id
      · simp [hj, hitems]
      · simp [hj]

/-! ### Reading the tree -/

namespace Tree
variable (h : Tree cfg c path) {id : ℕ} {n : TreeNode}
include h

omit h in
theorem edge_of_node (hid : id ≠ 0) (hn : c.nodes id = some n) :
    edgesOf c.bare id = some (edgeOf n) := by
  rw [edgesOf, if_neg hid, bare_eq_some hn]
  rfl

omit h in
theorem node_of_edge {e : Edge (Option String × Option String) (ℤ × Option ℤ) ℤ}
    (he : edgesOf c.bare id = some e) : id ≠ 0 ∧ ∃ n, c.nodes id = some n ∧ edgeOf n = e := by
  unfold edgesOf at he
  by_cases hid : id = 0
  · rw [if_pos hid] at he
    exact absurd he.symm (Option.some_ne_none e)
  · rw [if_neg hid] at he
    obtain ⟨m, hm, rfl⟩ := Option.map_eq_some_iff.mp he
    obtain ⟨n, hn, rfl⟩ := nodes_of_bare hm
    exact ⟨hid, n, hn, rfl⟩

theorem parent_eq (hid : id ≠ 0) (hn : c.nodes id = some n) :
    n.parent = some (edgeOf n).parent := by
  obtain ⟨p, hp⟩ := h.parent hid (bare_eq_some hn)
  rw [bare_parent] at hp
  rw [edgeOf, hp]
  rfl

theorem ne_zero_of_parent {p : ℕ} (hn : c.bare id = some n) (hp : n.parent = some p) : id ≠ 0 := by
  rintro rfl
  obtain rfl : rootNode = n := Option.some.inj (h.root.symm.trans hn)
  exact absurd hp.symm (Option.some_ne_none p)

theorem lt_counter (hn : c.nodes id = some n) : id < c.counter := by
  by_contra hle
  exact absurd ((bare_eq_some hn).symm.trans (h.fresh (not_lt.mp hle))) (Option.some_ne_none _)

theorem counter_pos : 0 < c.counter := by
  obtain ⟨n, hn, -⟩ := nodes_of_bare h.root
  exact h.lt_counter hn

theorem edge_fresh : edgesOf c.bare c.counter = none := by
  rw [edgesOf, if_neg h.counter_pos.ne', h.fresh le_rfl]
  rfl

theorem page_le (hid : id ≠ 0) (hn : c.nodes id = some n) : cfg.pageSize ≤ n.key.len := by
  have := h.forest.page_le (edge_of_node hid hn)
  rwa [edgeOf, RadixKey.length_units] at this

/-- A node that hosts a namespace is in the heap. -/
theorem node_of_hosts {ns : Option String × Option String} (hid : Hosts (edgesOf c.bare) ns id) :
    ∃ n, c.nodes id = some n := by
  rcases hid with rfl | ⟨e, he, -⟩
  · obtain ⟨n, hn, -⟩ := nodes_of_bare h.root
    exact ⟨n, hn⟩
  · obtain ⟨-, n, hn, -⟩ := node_of_edge he
    exact ⟨n, hn⟩

/-- **A lookup in a dictionary** finds the child of the namespace that starts with the first
page. -/
theorem get?_children (hn : c.nodes id = some n) {key : RadixKey} (hkey : cfg.pageSize ≤ key.len)
    {childKey : PyValue} (hck : key.childKey cfg.pageSize = .ok childKey) (ch : ℕ) :
    n.children.get? childKey = some ch ↔
      ∃ m, ch ≠ 0 ∧ c.nodes ch = some m ∧ (edgeOf m).parent = id ∧
        m.key.namespaceOf = key.namespaceOf ∧
        m.key.units.take cfg.pageSize = key.units.take cfg.pageSize := by
  rw [h.children hn]
  constructor
  · rintro ⟨m, hm, hparent, hchild⟩
    have hch := h.ne_zero_of_parent hm hparent
    obtain ⟨m, hm', rfl⟩ := nodes_of_bare hm
    have hinj := (RadixKey.childKey_inj cfg.pageSize_pos (h.page_le hch hm') hkey).mp
      (hchild.trans hck.symm)
    refine ⟨m, hch, hm', ?_, hinj⟩
    rw [bare_parent, h.parent_eq hch hm'] at hparent
    exact Option.some.inj hparent
  · rintro ⟨m, hch, hm, hparent, hinj⟩
    refine ⟨m.bare, bare_eq_some hm, ?_, ?_⟩
    · rw [bare_parent, h.parent_eq hch hm, hparent]
    · exact ((RadixKey.childKey_inj cfg.pageSize_pos (h.page_le hch hm) hkey).mpr hinj).trans hck

/-- A parent is in the heap. -/
theorem node_of_childOf {key : PyValue} {ch : ℕ} (hchild : ChildOf cfg c.bare id key ch) :
    ∃ n, c.nodes id = some n := by
  obtain ⟨m, hm, hp, -⟩ := hchild
  have hch := h.ne_zero_of_parent hm hp
  obtain ⟨m, hm', rfl⟩ := nodes_of_bare hm
  rw [bare_parent, h.parent_eq hch hm'] at hp
  exact h.node_of_hosts (Option.some.inj hp ▸ h.forest.hosts_parent (edge_of_node hch hm'))

theorem not_childOf_fresh {key : PyValue} {ch : ℕ} : ¬ ChildOf cfg c.bare c.counter key ch := by
  intro hchild
  obtain ⟨n, hn⟩ := h.node_of_childOf hchild
  exact (h.lt_counter hn).false

theorem not_fresh_childOf {key : PyValue} : ¬ ChildOf cfg c.bare id key c.counter := by
  rintro ⟨m, hm, -⟩
  exact absurd (hm.symm.trans (h.fresh le_rfl)) (Option.some_ne_none m)

omit h in
theorem items_eq_nil {d : OrderedDict PyValue ℕ} :
    d.items = [] ↔ ∀ key ch, d.get? key ≠ some ch := by
  constructor
  · intro hnil key ch hget
    have hmem := OrderedDict.get?_eq_some.mp hget
    rw [hnil] at hmem
    exact List.not_mem_nil hmem
  · intro hnone
    refine List.eq_nil_iff_forall_not_mem.mpr fun ⟨key, ch⟩ hmem => ?_
    exact hnone key ch (OrderedDict.get?_eq_some.mpr hmem)

/-- A dictionary is empty if the node is nobody's parent. -/
theorem items_eq_nil_iff (hn : c.nodes id = some n) :
    n.children.items = [] ↔ ∀ {ch e}, edgesOf c.bare ch = some e → e.parent ≠ id := by
  rw [items_eq_nil]
  constructor
  · intro hnone ch e he hparent
    obtain ⟨hch, m, hm, rfl⟩ := node_of_edge he
    have hkey := RadixKey.childKey_eq cfg.pageSize_pos (h.page_le hch hm)
    refine hnone _ ch ((h.get?_children hn (h.page_le hch hm) hkey ch).mpr ?_)
    exact ⟨m, hch, hm, hparent, rfl, rfl⟩
  · intro hnone key ch hget
    obtain ⟨m, hm, hparent, -⟩ := (h.children hn key ch).mp hget
    have hch := h.ne_zero_of_parent hm hparent
    obtain ⟨m, hm', rfl⟩ := nodes_of_bare hm
    refine hnone (edge_of_node hch hm') ?_
    rw [bare_parent, h.parent_eq hch hm'] at hparent
    exact Option.some.inj hparent

end Tree

/-- Where a node hangs: its parent, and its key in the parent's dictionary. -/
structure HangsAt (cfg : RadixConfig) (c : RadixCache) (id : ℕ) (n : TreeNode) (parent : ℕ)
    (p : TreeNode) (key : PyValue) : Prop where
  node : c.nodes id = some n
  parent_eq : n.parent = some parent
  parent_node : c.nodes parent = some p
  parent_ne : parent ≠ id
  key_eq : n.key.childKey cfg.pageSize = .ok key

theorem Tree.exists_hangsAt (h : Tree cfg c path) {id : ℕ} {n : TreeNode} (hid : id ≠ 0)
    (hn : c.nodes id = some n) :
    ∃ p key, HangsAt cfg c id n (edgeOf n).parent p key := by
  have hedge := Tree.edge_of_node hid hn
  have hlt := h.forest.parent_lt hedge
  obtain ⟨p, hp⟩ := h.node_of_hosts (h.forest.hosts_parent hedge)
  exact ⟨p, _,
    { node := hn
      parent_eq := h.parent_eq hid hn
      parent_node := hp
      parent_ne := fun heq => hlt.ne (congrArg (fun id => (path id).length) heq)
      key_eq := RadixKey.childKey_eq cfg.pageSize_pos (h.page_le hid hn) }⟩

/-- It is the child of its parent, and of no other node, under its key alone. -/
theorem HangsAt.childOf_iff {id parent : ℕ} {n p : TreeNode} {key : PyValue}
    (hh : HangsAt cfg c id n parent p key) {j : ℕ} {ck : PyValue} :
    ChildOf cfg c.bare j ck id ↔ j = parent ∧ ck = key := by
  constructor
  · rintro ⟨m, hm, hp, hk⟩
    obtain rfl : n.bare = m := Option.some.inj ((bare_eq_some hh.node).symm.trans hm)
    exact ⟨Option.some.inj (hp.symm.trans hh.parent_eq), Except.ok.inj (hk.symm.trans hh.key_eq)⟩
  · rintro ⟨rfl, rfl⟩
    exact ⟨n.bare, bare_eq_some hh.node, hh.parent_eq, hh.key_eq⟩

/-! ### Splits -/

/-- The halves of a split. -/
def upperHalf (n : TreeNode) (len : ℕ) : TreeNode :=
  { n with key := n.key.take len, value := n.value.take len }

def lowerHalf (n : TreeNode) (new len : ℕ) : TreeNode :=
  { n with parent := some new, key := n.key.drop len, value := n.value.drop len }

@[simp] theorem edgeOf_upperHalf (n : TreeNode) (len : ℕ) : edgeOf (upperHalf n len) =
    { edgeOf n with units := (edgeOf n).units.take len, slots := (edgeOf n).slots.take len } := by
  simp [edgeOf, upperHalf]

@[simp] theorem edgeOf_lowerHalf (n : TreeNode) (new len : ℕ) : edgeOf (lowerHalf n new len) =
    { edgeOf n with
      parent := new
      units := (edgeOf n).units.drop len
      slots := (edgeOf n).slots.drop len } := by
  simp [edgeOf, lowerHalf]

def splitHeap (heap : ℕ → Option TreeNode) (child new : ℕ) (n : TreeNode) (len : ℕ) :
    ℕ → Option TreeNode :=
  Function.update (Function.update heap child (some (lowerHalf n new len))) new
    (some (upperHalf n len))

/-- What can be split where. -/
structure Splittable (cfg : RadixConfig) (c : RadixCache) (child : ℕ) (n : TreeNode) (len : ℕ) :
    Prop where
  ne_zero : child ≠ 0
  node : c.nodes child = some n
  whole : cfg.pageSize ∣ len
  pos : 0 < len
  lt : len < n.key.len

namespace Splittable
variable {child len : ℕ} {n : TreeNode} (hs : Splittable cfg c child n len)
include hs

theorem page_le : cfg.pageSize ≤ len := Nat.le_of_dvd hs.pos hs.whole

theorem splits (h : Tree cfg c path) :
    Splits cfg.pageSize (edgesOf c.bare) child c.counter (edgeOf n) len where
  edge := Tree.edge_of_node hs.ne_zero hs.node
  fresh := h.edge_fresh
  new_pos := h.counter_pos
  whole := hs.whole
  pos := hs.pos
  lt := by
    rw [edgeOf, RadixKey.length_units]
    exact hs.lt

theorem page_le_lower (h : Tree cfg c path) : cfg.pageSize ≤ (n.key.drop len).len := by
  have hwhole := h.forest.whole (Tree.edge_of_node hs.ne_zero hs.node)
  rw [edgeOf, RadixKey.length_units] at hwhole
  have := add_page_le hs.whole hwhole hs.lt
  rw [RadixKey.len_drop]
  omega

end Splittable

theorem edgesOf_splitHeap {child new len : ℕ} {n : TreeNode} (hchild : child ≠ 0) (hnew : new ≠ 0) :
    edgesOf (splitHeap c.bare child new n.bare len) =
      splitEdges (edgesOf c.bare) child new (edgeOf n) len := by
  funext id
  unfold edgesOf splitHeap splitEdges
  by_cases hid : id = new
  · subst hid
    rw [if_neg hnew, Function.update_self, Function.update_self, Option.map_some, edgeOf_upperHalf,
      edgeOf_bare]
  · rw [Function.update_of_ne hid, Function.update_of_ne hid]
    by_cases hid' : id = child
    · subst hid'
      rw [if_neg hchild, Function.update_self, Function.update_self, Option.map_some,
        edgeOf_lowerHalf, edgeOf_bare]
    · rw [Function.update_of_ne hid', Function.update_of_ne hid']

/-- What a split does to the cache. -/
structure IsSplit (c c' : RadixCache) (child : ℕ) (n : TreeNode) (len : ℕ) : Prop where
  bare : c'.bare = splitHeap c.bare child c.counter n.bare len
  counter : c'.counter = c.counter + 1
  evictableSize : c'.evictableSize = c.evictableSize
  protectedSize : c'.protectedSize = c.protectedSize
  evictableLeaves : c'.evictableLeaves = c.evictableLeaves

/-- Who is whose child after a split. -/
theorem childOf_splitHeap {heap : ℕ → Option TreeNode} {child new len parent id ch : ℕ}
    {n : TreeNode} {lower upper key : PyValue} (hparent : n.parent = some parent)
    (hlower : (n.key.drop len).childKey cfg.pageSize = .ok lower)
    (hupper : (n.key.take len).childKey cfg.pageSize = .ok upper) :
    ChildOf cfg (splitHeap heap child new n len) id key ch ↔
      if ch = new then id = parent ∧ key = upper
      else if ch = child then id = new ∧ key = lower
      else ChildOf cfg heap id key ch := by
  unfold ChildOf splitHeap
  by_cases hnew : ch = new
  · subst hnew
    rw [Function.update_self, if_pos rfl]
    constructor
    · rintro ⟨m, hm, hp, hk⟩
      obtain rfl := Option.some.inj hm
      exact ⟨Option.some.inj (hp.symm.trans hparent), Except.ok.inj (hk.symm.trans hupper)⟩
    · rintro ⟨rfl, rfl⟩
      exact ⟨_, rfl, hparent, hupper⟩
  · rw [Function.update_of_ne hnew, if_neg hnew]
    by_cases hchild : ch = child
    · subst hchild
      rw [Function.update_self, if_pos rfl]
      constructor
      · rintro ⟨m, hm, hp, hk⟩
        obtain rfl := Option.some.inj hm
        exact ⟨(Option.some.inj hp).symm, Except.ok.inj (hk.symm.trans hlower)⟩
      · rintro ⟨rfl, rfl⟩
        exact ⟨_, rfl, rfl, hlower⟩
    · rw [Function.update_of_ne hchild, if_neg hchild]

/-- Where a split happens, and the keys of the halves in the dictionaries above them. -/
structure SplitAt (cfg : RadixConfig) (c : RadixCache) (child : ℕ) (n : TreeNode) (len parent : ℕ)
    (p : TreeNode) (lower upper : PyValue) : Prop extends HangsAt cfg c child n parent p upper where
  parent_ne_new : parent ≠ c.counter
  lower_key : (n.key.drop len).childKey cfg.pageSize = .ok lower
  upper_key : (n.key.take len).childKey cfg.pageSize = .ok upper

/-- The upper half begins with the page that the whole begins with. -/
theorem Splittable.childKey_take {child len : ℕ} {n : TreeNode}
    (hs : Splittable cfg c child n len) (hpage : cfg.pageSize ≤ n.key.len) :
    (n.key.take len).childKey cfg.pageSize = n.key.childKey cfg.pageSize := by
  have hlen : cfg.pageSize ≤ (n.key.take len).len := by
    rw [RadixKey.len_take]
    exact le_min hs.page_le hpage
  refine (RadixKey.childKey_inj cfg.pageSize_pos hlen hpage).mpr ⟨rfl, ?_⟩
  rw [RadixKey.units_take, List.take_take, Nat.min_eq_left hs.page_le]

theorem Splittable.exists_splitAt {child len : ℕ} {n : TreeNode}
    (hs : Splittable cfg c child n len) (h : Tree cfg c path) :
    ∃ parent p lower upper, SplitAt cfg c child n len parent p lower upper := by
  have hsplits := hs.splits h
  obtain ⟨p, upper, hh⟩ := h.exists_hangsAt hs.ne_zero hs.node
  exact ⟨(edgeOf n).parent, p, _, upper,
    { hh with
      parent_ne_new := h.forest.parent_ne_new hsplits hsplits.edge
      lower_key := RadixKey.childKey_eq cfg.pageSize_pos (hs.page_le_lower h)
      upper_key := (hs.childKey_take (h.page_le hs.ne_zero hs.node)).trans hh.key_eq }⟩

/-- The cache that `_split_node` leaves. -/
def splitCache (c : RadixCache) (child : ℕ) (n : TreeNode) (len parent : ℕ) (p : TreeNode)
    (lower upper : PyValue) : RadixCache :=
  { c with
    counter := c.counter + 1
    nodes := fun id =>
      if id = parent then some { p with children := p.children.set upper c.counter }
      else if id = child then some (lowerHalf n c.counter len)
      else if id = c.counter then
        some { upperHalf n len with children := OrderedDict.empty.set lower child }
      else c.nodes id }

namespace SplitAt
variable {child len parent : ℕ} {n p : TreeNode} {lower upper : PyValue}
  (ha : SplitAt cfg c child n len parent p lower upper)
include ha

theorem splitNode_eq :
    c.splitNode cfg n.key child len =
      .ok (c.splitCache child n len parent p lower upper, c.counter) := by
  let c₁ : RadixCache := { c.setNode c.counter
    { children := OrderedDict.empty.set lower child, parent := some parent, key := n.key.take len,
      value := n.value.take len, lockRef := n.lockRef } with counter := c.counter + 1 }
  let c₂ := c₁.setNode child (lowerHalf n c.counter len)
  have hp₂ : c₂.node parent = p := by
    rw [node_setNode_of_ne _ _ ha.parent_ne]
    exact (node_setNode_of_ne c _ ha.parent_ne_new).trans (node_eq ha.parent_node)
  have hcache : c₂.setNode parent { p with children := p.children.set upper c.counter } =
      c.splitCache child n len parent p lower upper := by
    unfold splitCache
    rw [upperHalf, ha.parent_eq]
    refine congrArg (fun nodes => { c with counter := c.counter + 1, nodes }) (funext fun id => ?_)
    show Function.update (Function.update (Function.update c.nodes _ _) _ _) _ _ id = _
    simp only [Function.update_apply]
  unfold RadixCache.splitNode
  rw [node_eq ha.node, ha.lower_key]
  simp only [ha.parent_eq, ha.key_eq]
  show Except.ok (c₂.setNode parent { c₂.node parent with
    children := (c₂.node parent).children.set upper c.counter }, c.counter) = _
  rw [hp₂, hcache]

theorem bare_splitCache (hne : child ≠ c.counter) :
    (c.splitCache child n len parent p lower upper).bare =
      splitHeap c.bare child c.counter n.bare len := by
  funext id
  rw [bare, splitCache, splitHeap]
  dsimp only
  by_cases hid : id = parent
  · rw [if_pos hid, hid, Function.update_of_ne ha.parent_ne_new,
      Function.update_of_ne ha.parent_ne, bare_eq_some ha.parent_node]
    rfl
  · rw [if_neg hid]
    by_cases hid' : id = child
    · rw [if_pos hid', hid', Function.update_of_ne hne, Function.update_self]
      rfl
    · rw [if_neg hid']
      by_cases hnew : id = c.counter
      · rw [if_pos hnew, hnew, Function.update_self]
        rfl
      · rw [if_neg hnew, Function.update_of_ne hnew, Function.update_of_ne hid']
        rfl

theorem childOf_split {id ch : ℕ} {key : PyValue} :
    ChildOf cfg (splitHeap c.bare child c.counter n.bare len) id key ch ↔
      if ch = c.counter then id = parent ∧ key = upper
      else if ch = child then id = c.counter ∧ key = lower
      else ChildOf cfg c.bare id key ch :=
  childOf_splitHeap (n := n.bare) ha.parent_eq ha.lower_key ha.upper_key

/-- A node that keeps its dictionary keeps its children. -/
theorem childOf_kept (h : Tree cfg c path) {id ch : ℕ} {key : PyValue} (hid : id ≠ parent)
    (hid' : id ≠ c.counter) :
    ChildOf cfg c.bare id key ch ↔
      ChildOf cfg (splitHeap c.bare child c.counter n.bare len) id key ch := by
  rw [ha.childOf_split]
  by_cases hnew : ch = c.counter
  · rw [if_pos hnew, hnew]
    exact iff_of_false h.not_fresh_childOf fun hand => hid hand.1
  · rw [if_neg hnew]
    by_cases hch : ch = child
    · rw [if_pos hch, hch]
      exact iff_of_false (fun hof => hid (ha.childOf_iff.mp hof).1) fun hand => hid' hand.1
    · rw [if_neg hch]

/-- The dictionary of the parent gets the new node in the place of the child. -/
theorem children_parent (h : Tree cfg c path) {ch : ℕ} {key : PyValue} :
    (p.children.set upper c.counter).get? key = some ch ↔
      ChildOf cfg (splitHeap c.bare child c.counter n.bare len) parent key ch := by
  rw [ha.childOf_split, OrderedDict.get?_set]
  by_cases hkey : key = upper
  · rw [if_pos hkey, hkey]
    by_cases hnew : ch = c.counter
    · simp [hnew]
    · rw [if_neg hnew]
      refine iff_of_false (fun heq => hnew (Option.some.inj heq).symm) ?_
      by_cases hch : ch = child
      · rw [if_pos hch]
        exact fun hand => ha.parent_ne_new hand.1
      · rw [if_neg hch]
        intro hof
        have hchild := ha.childOf_iff.mpr ⟨rfl, rfl⟩
        have hget := (h.children ha.parent_node upper child).mpr hchild
        have hget' := (h.children ha.parent_node upper ch).mpr hof
        exact hch (Option.some.inj (hget'.symm.trans hget))
  · rw [if_neg hkey, h.children ha.parent_node]
    by_cases hnew : ch = c.counter
    · rw [if_pos hnew, hnew]
      exact iff_of_false h.not_fresh_childOf fun hand => hkey hand.2
    · rw [if_neg hnew]
      by_cases hch : ch = child
      · rw [if_pos hch, hch]
        exact iff_of_false (fun hof => hkey (ha.childOf_iff.mp hof).2)
          fun hand => ha.parent_ne_new hand.1
      · rw [if_neg hch]

/-- The child is all that the new node has. -/
theorem children_new (hne : child ≠ c.counter) (h : Tree cfg c path) {ch : ℕ} {key : PyValue} :
    (OrderedDict.empty.set lower child).get? key = some ch ↔
      ChildOf cfg (splitHeap c.bare child c.counter n.bare len) c.counter key ch := by
  rw [ha.childOf_split, OrderedDict.get?_set, OrderedDict.get?_empty]
  by_cases hch : ch = child
  · rw [hch, if_neg hne, if_pos rfl]
    simp
  · rw [if_neg hch]
    refine iff_of_false ?_ ?_
    · split
      · exact fun heq => hch (Option.some.inj heq).symm
      · exact nofun
    · split
      · exact fun hand => ha.parent_ne_new hand.1.symm
      · exact h.not_childOf_fresh

theorem children_splitCache (h : Tree cfg c path) (hne : child ≠ c.counter) {id : ℕ}
    {m : TreeNode} (hm : (c.splitCache child n len parent p lower upper).nodes id = some m)
    (key : PyValue) (ch : ℕ) : m.children.get? key = some ch ↔
      ChildOf cfg (splitHeap c.bare child c.counter n.bare len) id key ch := by
  rw [splitCache] at hm
  dsimp only at hm
  split at hm
  case isTrue hid =>
    obtain rfl := Option.some.inj hm
    subst hid
    exact ha.children_parent h
  case isFalse hid =>
    split at hm
    case isTrue hid' =>
      obtain rfl := Option.some.inj hm
      subst hid'
      exact (h.children ha.node key ch).trans (ha.childOf_kept h hid hne)
    case isFalse hid' =>
      split at hm
      case isTrue hnew =>
        obtain rfl := Option.some.inj hm
        subst hnew
        exact ha.children_new hne h
      case isFalse hnew => exact (h.children hm key ch).trans (ha.childOf_kept h hid hnew)

end SplitAt

/-- Every node of a split heap but the root has a parent. -/
theorem Tree.parent_splitHeap (h : Tree cfg c path) {child len parent id : ℕ} {n m : TreeNode}
    (hparent : n.parent = some parent) (hid : id ≠ 0)
    (hm : splitHeap c.bare child c.counter n.bare len id = some m) : ∃ p, m.parent = some p := by
  rw [splitHeap] at hm
  by_cases hnew : id = c.counter
  · rw [hnew, Function.update_self] at hm
    exact ⟨parent, Option.some.inj hm ▸ hparent⟩
  · rw [Function.update_of_ne hnew] at hm
    by_cases hid' : id = child
    · rw [hid', Function.update_self] at hm
      exact ⟨c.counter, Option.some.inj hm ▸ rfl⟩
    · rw [Function.update_of_ne hid'] at hm
      exact h.parent hid hm

/-- **`_split_node`** puts the upper half of a node between it and its parent. -/
theorem Tree.splitNode (h : Tree cfg c path) {child len : ℕ} {n : TreeNode}
    (hs : Splittable cfg c child n len) :
    ∃ c', c.splitNode cfg n.key child len = .ok (c', c.counter) ∧ IsSplit c c' child n len ∧
      Tree cfg c' (splitPath path c.counter (edgeOf n) len) := by
  have hsplits := hs.splits h
  obtain ⟨parent, p, lower, upper, ha⟩ := hs.exists_splitAt h
  have hbare := ha.bare_splitCache hsplits.ne
  refine ⟨_, ha.splitNode_eq, ⟨hbare, rfl, rfl, rfl, rfl⟩, ?_⟩
  refine ⟨?_, ?_, fun hid hm => ?_, fun hm key ch => ?_, fun {id} hid => ?_⟩
  · rw [hbare, edgesOf_splitHeap hs.ne_zero h.counter_pos.ne']
    exact h.forest.split hsplits
  · rw [hbare, splitHeap, Function.update_of_ne h.counter_pos.ne,
      Function.update_of_ne hs.ne_zero.symm, h.root]
  · rw [hbare] at hm
    exact h.parent_splitHeap ha.parent_eq hid hm
  · rw [hbare]
    exact ha.children_splitCache h hsplits.ne hm key ch
  · have hid' : c.counter + 1 ≤ id := hid
    have hlt := h.lt_counter hs.node
    rw [hbare, splitHeap, Function.update_of_ne (by omega), Function.update_of_ne (by omega)]
    exact h.fresh (by omega)

/-! ### New leaves -/

/-- The leaf that `_insert_helper` makes. -/
def newLeaf (id : ℕ) (key : RadixKey) (value : List ℤ) : TreeNode :=
  ⟨.empty, some id, key, value, 0⟩

/-- What a new leaf does to the cache. -/
structure IsAdd (c c' : RadixCache) (id : ℕ) (key : RadixKey) (value : List ℤ) : Prop where
  bare : c'.bare = Function.update c.bare c.counter (some (newLeaf id key value))
  counter : c'.counter = c.counter + 1
  evictableSize : c'.evictableSize = c.evictableSize + key.len
  protectedSize : c'.protectedSize = c.protectedSize
  mem_leaves : ∀ j, j ∈ c'.evictableLeaves ↔
    if j = c.counter ∨ j = id then (c'.node j).lockRef ≤ 0 ∧ (c'.node j).children.items = []
    else j ∈ c.evictableLeaves

theorem edgesOf_update (heap : ℕ → Option TreeNode) {id : ℕ} (hid : id ≠ 0) (n : Option TreeNode) :
    edgesOf (Function.update heap id n) = Function.update (edgesOf heap) id (n.map edgeOf) := by
  funext j
  unfold edgesOf
  by_cases hj : j = id
  · rw [hj, if_neg hid, Function.update_self, Function.update_self]
  · rw [Function.update_of_ne hj, Function.update_of_ne hj]

/-- Who is whose child after a change at one node. -/
theorem childOf_update {heap : ℕ → Option TreeNode} {new id ch : ℕ} {n : Option TreeNode}
    {key : PyValue} : ChildOf cfg (Function.update heap new n) id key ch ↔
      if ch = new then
        ∃ m, n = some m ∧ m.parent = some id ∧ m.key.childKey cfg.pageSize = .ok key
      else ChildOf cfg heap id key ch := by
  unfold ChildOf
  by_cases hch : ch = new
  · rw [if_pos hch, hch, Function.update_self]
  · rw [if_neg hch, Function.update_of_ne hch]

/-- A new leaf is the child of its parent under its key. -/
theorem childOf_newLeaf {heap : ℕ → Option TreeNode} {new id j ch : ℕ} {key : RadixKey}
    {value : List ℤ} {childKey ck : PyValue} (hkey : key.childKey cfg.pageSize = .ok childKey) :
    ChildOf cfg (Function.update heap new (some (newLeaf id key value))) j ck ch ↔
      if ch = new then id = j ∧ childKey = ck else ChildOf cfg heap j ck ch := by
  have hleaf : (∃ m, some (newLeaf id key value) = some m ∧ m.parent = some j ∧
      m.key.childKey cfg.pageSize = .ok ck) ↔ id = j ∧ childKey = ck := by
    constructor
    · rintro ⟨m, hm, hp, hk⟩
      obtain rfl := Option.some.inj hm
      exact ⟨Option.some.inj hp, Except.ok.inj (hkey.symm.trans hk)⟩
    · rintro ⟨rfl, rfl⟩
      exact ⟨_, rfl, rfl, hkey⟩
  rw [childOf_update, hleaf]

/-- The cache with a new leaf, before the leaf statuses are updated. -/
def leafCache (c : RadixCache) (id : ℕ) (key : RadixKey) (childKey : PyValue) (value : List ℤ)
    (p : TreeNode) : RadixCache :=
  { c with
    counter := c.counter + 1
    evictableSize := c.evictableSize + key.len
    nodes := Function.update (Function.update c.nodes c.counter (some (newLeaf id key value))) id
      (some { p with children := p.children.set childKey c.counter }) }

section AddLeaf
variable {id : ℕ} {key : RadixKey} {childKey : PyValue} {value : List ℤ} {p : TreeNode}

theorem addLeaf_eq (hid : id ≠ c.counter) (hp : c.nodes id = some p) :
    c.addLeaf id key childKey value =
      (((c.leafCache id key childKey value p).updateLeafStatus id).updateLeafStatus c.counter,
        c.counter) := by
  let c₁ : RadixCache :=
    { c.setNode c.counter (newLeaf id key value) with counter := c.counter + 1 }
  have hp₁ : c₁.node id = p := (node_setNode_of_ne c _ hid).trans (node_eq hp)
  show ((({ c₁.setNode id { c₁.node id with
    children := (c₁.node id).children.set childKey c.counter } with
      evictableSize := c.evictableSize + key.len } :
        RadixCache).updateLeafStatus id).updateLeafStatus c.counter, c.counter) = _
  rw [hp₁]
  rfl

theorem bare_leafCache (hid : id ≠ c.counter) (hp : c.nodes id = some p) :
    (c.leafCache id key childKey value p).bare =
      Function.update c.bare c.counter (some (newLeaf id key value)) := by
  show ((c.setNode c.counter (newLeaf id key value)).setNode id _).bare = _
  rw [bare_setNode, bare_setNode]
  refine Function.update_eq_self_iff.mpr ?_
  rw [Function.update_of_ne hid, bare_eq_some hp]
  rfl

theorem isAdd_leafCache (hid : id ≠ c.counter) (hp : c.nodes id = some p) :
    IsAdd c (((c.leafCache id key childKey value p).updateLeafStatus id).updateLeafStatus c.counter)
      id key value where
  bare := by simpa using bare_leafCache hid hp
  counter := by simp [leafCache]
  evictableSize := by simp [leafCache]
  protectedSize := by simp [leafCache]
  mem_leaves j := by
    rw [mem_updateLeafStatus, mem_updateLeafStatus, node_updateLeafStatus, node_updateLeafStatus,
      node_updateLeafStatus]
    by_cases hj : j = c.counter
    · simp [hj]
    · by_cases hj' : j = id
      · simp [hj', hid]
      · simp [hj, hj', leafCache]

/-- The dictionary of the parent has no entry for the page that the leaf begins with. -/
theorem Tree.get?_newLeaf (h : Tree cfg c path)
    (hg : Grows cfg.pageSize (edgesOf c.bare) c.counter (edgeOf (newLeaf id key value)))
    (hp : c.nodes id = some p) (hkey : key.childKey cfg.pageSize = .ok childKey) :
    p.children.get? childKey = none := by
  have hpage : cfg.pageSize ≤ key.len := by
    have := Nat.le_of_dvd hg.nonempty hg.whole
    rwa [edgeOf, newLeaf, RadixKey.length_units] at this
  refine Option.eq_none_iff_forall_ne_some.mpr fun ch hget => ?_
  obtain ⟨m, hch, hm, hparent, hns, hunits⟩ := (h.get?_children hp hpage hkey ch).mp hget
  exact hg.branch (Tree.edge_of_node hch hm) hparent hns hunits

/-- The dictionary of the parent gets the new leaf. -/
theorem Tree.children_addLeaf_parent (h : Tree cfg c path)
    (hg : Grows cfg.pageSize (edgesOf c.bare) c.counter (edgeOf (newLeaf id key value)))
    (hp : c.nodes id = some p) (hkey : key.childKey cfg.pageSize = .ok childKey) {ck : PyValue}
    {ch : ℕ} : (p.children.set childKey c.counter).get? ck = some ch ↔
      ChildOf cfg (Function.update c.bare c.counter (some (newLeaf id key value))) id ck ch := by
  rw [childOf_newLeaf hkey, OrderedDict.get?_set]
  by_cases hck : ck = childKey
  · rw [if_pos hck, hck]
    by_cases hch : ch = c.counter
    · simp [hch]
    · rw [if_neg hch]
      refine iff_of_false (fun heq => hch (Option.some.inj heq).symm) fun hof => ?_
      have hget := (h.children hp childKey ch).mpr hof
      exact absurd (hget.symm.trans (h.get?_newLeaf hg hp hkey)) (Option.some_ne_none ch)
  · rw [if_neg hck, h.children hp]
    by_cases hch : ch = c.counter
    · rw [if_pos hch, hch]
      exact iff_of_false h.not_fresh_childOf fun hand => hck hand.2.symm
    · rw [if_neg hch]

theorem Tree.children_addLeaf (h : Tree cfg c path)
    (hg : Grows cfg.pageSize (edgesOf c.bare) c.counter (edgeOf (newLeaf id key value)))
    (hp : c.nodes id = some p) (hkey : key.childKey cfg.pageSize = .ok childKey) {j : ℕ}
    {m : TreeNode} (hm : (c.leafCache id key childKey value p).nodes j = some m) (ck : PyValue)
    (ch : ℕ) : m.children.get? ck = some ch ↔
      ChildOf cfg (Function.update c.bare c.counter (some (newLeaf id key value))) j ck ch := by
  rw [leafCache] at hm
  dsimp only at hm
  by_cases hjid : j = id
  · subst hjid
    rw [Function.update_self] at hm
    exact Option.some.inj hm ▸ h.children_addLeaf_parent hg hp hkey
  · rw [Function.update_of_ne hjid] at hm
    rw [childOf_newLeaf hkey]
    by_cases hjnew : j = c.counter
    · rw [hjnew, Function.update_self] at hm
      rw [← Option.some.inj hm, hjnew]
      refine iff_of_false nofun ?_
      split
      · exact fun hand => hg.parent_ne hand.1
      · exact h.not_childOf_fresh
    · rw [Function.update_of_ne hjnew] at hm
      rw [h.children hm]
      by_cases hch : ch = c.counter
      · rw [if_pos hch, hch]
        exact iff_of_false h.not_fresh_childOf fun hand => hjid hand.1.symm
      · rw [if_neg hch]

/-- **A new leaf** grows the tree by its edge. -/
theorem Tree.addLeaf (h : Tree cfg c path)
    (hg : Grows cfg.pageSize (edgesOf c.bare) c.counter (edgeOf (newLeaf id key value)))
    (hkey : key.childKey cfg.pageSize = .ok childKey) :
    IsAdd c (c.addLeaf id key childKey value).1 id key value ∧
      (c.addLeaf id key childKey value).2 = c.counter ∧
      Tree cfg (c.addLeaf id key childKey value).1
        (Function.update path c.counter (path id ++ key.units)) := by
  have hid : id ≠ c.counter := hg.parent_ne
  obtain ⟨p, hp⟩ : ∃ p, c.nodes id = some p := h.node_of_hosts hg.hosts
  rw [addLeaf_eq hid hp]
  have hadd : IsAdd c (((c.leafCache id key childKey value p).updateLeafStatus
      id).updateLeafStatus c.counter) id key value := isAdd_leafCache hid hp
  refine ⟨hadd, rfl, ?_⟩
  refine ⟨?_, ?_, fun {j m} hj hm => ?_, fun {j m} hm ck ch => ?_, fun {j} hj => ?_⟩
  · rw [hadd.bare, edgesOf_update c.bare h.counter_pos.ne' (some (newLeaf id key value))]
    exact h.forest.addLeaf hg
  · rw [hadd.bare, Function.update_of_ne h.counter_pos.ne, h.root]
  · rw [hadd.bare] at hm
    by_cases hjnew : j = c.counter
    · rw [hjnew, Function.update_self] at hm
      exact ⟨id, Option.some.inj hm ▸ rfl⟩
    · rw [Function.update_of_ne hjnew] at hm
      exact h.parent hj hm
  · rw [nodes_updateLeafStatus, nodes_updateLeafStatus] at hm
    rw [hadd.bare]
    exact h.children_addLeaf hg hp hkey hm ck ch
  · rw [hadd.counter] at hj
    rw [hadd.bare, Function.update_of_ne (by omega)]
    exact h.fresh (by omega)

end AddLeaf

/-! ### Leaves that go -/

/-- What the removal of a leaf does to the cache. -/
structure IsDelete (c c' : RadixCache) (id : ℕ) (n : TreeNode) : Prop where
  bare : c'.bare = Function.update c.bare id none
  counter : c'.counter = c.counter
  evictableSize : c'.evictableSize = c.evictableSize - n.key.len
  protectedSize : c'.protectedSize = c.protectedSize
  mem_leaves : ∀ j, j ∈ c'.evictableLeaves ↔
    if n.parent = some j then (c'.node j).lockRef ≤ 0 ∧ (c'.node j).children.items = []
    else j ≠ id ∧ j ∈ c.evictableLeaves

theorem Tree.isLeaf (h : Tree cfg c path) {id : ℕ} {n : TreeNode} (hid : id ≠ 0)
    (hn : c.nodes id = some n) (hleaf : n.children.items = []) :
    IsLeaf (edgesOf c.bare) id (edgeOf n) :=
  ⟨Tree.edge_of_node hid hn, (h.items_eq_nil_iff hn).mp hleaf⟩

/-- The cache without the entry of a leaf, before the leaf status of the parent is updated and the
node goes. -/
def prunedCache (c : RadixCache) (id : ℕ) (n : TreeNode) (parent : ℕ) (p : TreeNode)
    (key : PyValue) : RadixCache :=
  { c.setNode parent { p with children := p.children.pop key } with
    evictableSize := c.evictableSize - n.key.len
    evictableLeaves := c.evictableLeaves.erase id }

/-- The cache that `_delete_leaf` leaves. -/
def deletedCache (c : RadixCache) (id : ℕ) (n : TreeNode) (parent : ℕ) (p : TreeNode)
    (key : PyValue) : RadixCache :=
  let c := (c.prunedCache id n parent p key).updateLeafStatus parent
  { c with nodes := Function.update c.nodes id none }

namespace HangsAt
variable {id parent : ℕ} {n p : TreeNode} {key : PyValue}
  (hh : HangsAt cfg c id n parent p key)
include hh

theorem deleteLeaf_eq (h : Tree cfg c path) :
    c.deleteLeaf cfg id = .ok (c.deletedCache id n parent p key) := by
  have hget : p.children.get? key = some id :=
    (h.children hh.parent_node key id).mpr (hh.childOf_iff.mpr ⟨rfl, rfl⟩)
  unfold RadixCache.deleteLeaf
  dsimp only
  rw [node_eq hh.node, hh.key_eq, hh.parent_eq]
  show (if (c.node parent).children.get? key ≠ some id then _ else _) = _
  rw [node_eq hh.parent_node, if_neg (not_not.mpr hget)]
  rfl

theorem bare_deletedCache :
    (c.deletedCache id n parent p key).bare = Function.update c.bare id none := by
  have hbare : (c.setNode parent { p with children := p.children.pop key }).bare = c.bare := by
    rw [bare_setNode]
    refine Function.update_eq_self_iff.mpr ?_
    rw [bare_eq_some hh.parent_node]
    rfl
  have hpruned : ((c.prunedCache id n parent p key).updateLeafStatus parent).bare = c.bare :=
    (bare_updateLeafStatus _ parent).trans hbare
  rw [← hpruned]
  exact bare_update _ id none

omit hh in
theorem nodes_deletedCache {j : ℕ} (hj : j ≠ id) : (c.deletedCache id n parent p key).nodes j =
    (c.setNode parent { p with children := p.children.pop key }).nodes j := by
  rw [deletedCache]
  dsimp only
  rw [Function.update_of_ne hj, nodes_updateLeafStatus]
  rfl

theorem isDelete_deletedCache : IsDelete c (c.deletedCache id n parent p key) id n where
  bare := hh.bare_deletedCache
  counter := counter_updateLeafStatus (c.prunedCache id n parent p key) parent
  evictableSize := evictableSize_updateLeafStatus (c.prunedCache id n parent p key) parent
  protectedSize := protectedSize_updateLeafStatus (c.prunedCache id n parent p key) parent
  mem_leaves j := by
    have hmem : j ∈ (c.deletedCache id n parent p key).evictableLeaves ↔ _ :=
      mem_updateLeafStatus (c.prunedCache id n parent p key) parent j
    have hnode : (c.deletedCache id n parent p key).node parent =
        (c.prunedCache id n parent p key).node parent :=
      congrArg (Option.getD · rootNode) (nodes_deletedCache hh.parent_ne)
    rw [hmem, hh.parent_eq]
    by_cases hj : j = parent
    · rw [if_pos hj, if_pos (congrArg some hj.symm), hj, hnode]
    · rw [if_neg hj, if_neg fun heq => hj (Option.some.inj heq).symm]
      exact Finset.mem_erase

omit hh in
/-- The node that went is nobody's child, and the others are whose they were. -/
theorem childOf_deleted {j ch : ℕ} {ck : PyValue} :
    ChildOf cfg (Function.update c.bare id none) j ck ch ↔
      ch ≠ id ∧ ChildOf cfg c.bare j ck ch := by
  rw [childOf_update]
  by_cases hch : ch = id
  · rw [if_pos hch]
    refine iff_of_false ?_ fun hand => hand.1 hch
    rintro ⟨m, hm, -⟩
    exact Option.some_ne_none m hm.symm
  · rw [if_neg hch]
    exact (and_iff_right hch).symm

/-- The dictionary of the parent loses the leaf. -/
theorem children_deleteLeaf_parent (h : Tree cfg c path) {ck : PyValue} {ch : ℕ} :
    (p.children.pop key).get? ck = some ch ↔
      ChildOf cfg (Function.update c.bare id none) parent ck ch := by
  have hget : p.children.get? key = some id :=
    (h.children hh.parent_node key id).mpr (hh.childOf_iff.mpr ⟨rfl, rfl⟩)
  rw [childOf_deleted, ← h.children hh.parent_node, OrderedDict.get?_pop]
  by_cases hck : ck = key
  · rw [if_pos hck, hck]
    refine iff_of_false nofun fun hand => ?_
    exact hand.1 (Option.some.inj (hand.2.symm.trans hget))
  · rw [if_neg hck]
    refine ⟨fun hch => ⟨?_, hch⟩, fun hand => hand.2⟩
    rintro rfl
    exact hck (hh.childOf_iff.mp ((h.children hh.parent_node ck ch).mp hch)).2

theorem children_deleteLeaf (h : Tree cfg c path) {j : ℕ} {m : TreeNode}
    (hm : (c.deletedCache id n parent p key).nodes j = some m) (ck : PyValue) (ch : ℕ) :
    m.children.get? ck = some ch ↔ ChildOf cfg (Function.update c.bare id none) j ck ch := by
  by_cases hj : j = id
  · have hnone : (c.deletedCache id n parent p key).nodes j = none := hj ▸ Function.update_self ..
    exact absurd (hm.symm.trans hnone) (Option.some_ne_none m)
  · rw [nodes_deletedCache hj] at hm
    by_cases hj' : j = parent
    · subst hj'
      rw [nodes_setNode_self] at hm
      exact Option.some.inj hm ▸ hh.children_deleteLeaf_parent h
    · rw [nodes_setNode_of_ne c _ hj'] at hm
      rw [h.children hm, childOf_deleted]
      refine ⟨fun hof => ⟨?_, hof⟩, fun hand => hand.2⟩
      rintro rfl
      exact hj' (hh.childOf_iff.mp hof).1

end HangsAt

/-- **`_delete_leaf`** takes the edge of a leaf away. -/
theorem Tree.deleteLeaf (h : Tree cfg c path) {id : ℕ} {n : TreeNode} (hid : id ≠ 0)
    (hn : c.nodes id = some n) (hleaf : n.children.items = []) :
    ∃ c', c.deleteLeaf cfg id = .ok c' ∧ IsDelete c c' id n ∧ Tree cfg c' path := by
  obtain ⟨p, key, hh⟩ := h.exists_hangsAt hid hn
  have hdelete := hh.isDelete_deletedCache
  refine ⟨_, hh.deleteLeaf_eq h, hdelete, ?_⟩
  refine ⟨?_, ?_, fun {j m} hj hm => ?_, fun {j m} hm ck ch => ?_, fun {j} hj => ?_⟩
  · rw [hdelete.bare, edgesOf_update c.bare hid none]
    exact h.forest.removeLeaf (h.isLeaf hid hn hleaf)
  · rw [hdelete.bare, Function.update_of_ne hid.symm, h.root]
  · rw [hdelete.bare] at hm
    by_cases hj' : j = id
    · rw [hj', Function.update_self] at hm
      exact absurd hm.symm (Option.some_ne_none m)
    · rw [Function.update_of_ne hj'] at hm
      exact h.parent hj hm
  · rw [hdelete.bare]
    exact hh.children_deleteLeaf h hm ck ch
  · rw [hdelete.counter] at hj
    rw [hdelete.bare]
    by_cases hjid : j = id
    · rw [hjid, Function.update_self]
    · rw [Function.update_of_ne hjid]
      exact h.fresh hj

end RadixCache

end LatentSpec
